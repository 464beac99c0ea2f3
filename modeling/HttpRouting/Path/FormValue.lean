import HttpRouting.Text.Utf8

namespace HttpRouting.FormValue

def hexDigit? (b : UInt8) : Option UInt8 :=
  if 48 ≤ b ∧ b ≤ 57 then some (b - 48)
  else if 65 ≤ b ∧ b ≤ 70 then some (b - 55)
  else if 97 ≤ b ∧ b ≤ 102 then some (b - 87)
  else none

def percent : UInt8 := 37

def plus : UInt8 := 43

def space : UInt8 := 32

def wellEscaped : Bytes → Bool
  | [] => true
  | b :: bs =>
      if b = percent then
        match bs with
        | high :: low :: rest =>
            (hexDigit? high).isSome && (hexDigit? low).isSome && wellEscaped rest
        | _ => false
      else wellEscaped bs

/-- The bytes with each percent sign and the two hex digits behind it read as one byte. A percent sign
without two digits stays. -/
def percentDecoded : Bytes → Bytes
  | [] => []
  | b :: bs =>
      if b = percent then
        match bs with
        | high :: low :: rest =>
            match hexDigit? high, hexDigit? low with
            | some h, some l => (h * 16 + l) :: percentDecoded rest
            | _, _ => b :: percentDecoded (high :: low :: rest)
        | _ => b :: bs
      else b :: percentDecoded bs

def spaced (raw : String) : String :=
  String.ofList (raw.toList.map fun c => if c = '+' then ' ' else c)

/-- The text that a percent decoding makes of a form value, or the raw one where an escape is malformed
or the bytes are no text. -/
def decodeBy (percentDecode : Bytes → Bytes) (raw : String) : String :=
  if !(utf8 raw).any (fun b => b == percent || b == plus) then raw
  else if !wellEscaped (utf8 raw) then raw
  else (text? (percentDecode (utf8 (spaced raw)))).getD raw

def decode (raw : String) : String := decodeBy percentDecoded raw

end HttpRouting.FormValue

import HttpRouting.Json.Document
import HttpRouting.Json.Value

namespace HttpRouting.Json

/-- The text of a string. A leading surrogate must be followed by a trailing one. -/
def text? : List Piece → Option (List Char)
  | [] => some []
  | .char c :: rest => (text? rest).map (c :: ·)
  | .unit code :: rest =>
      if 0xD800 ≤ code ∧ code ≤ 0xDBFF then
        match rest with
        | .unit low :: rest =>
            if 0xDC00 ≤ low ∧ low ≤ 0xDFFF then
              let c := Char.ofNat (0x10000 + (code - 0xD800) * 0x400 + (low - 0xDC00))
              (text? rest).map (c :: ·)
            else none
        | _ => none
      else if 0xDC00 ≤ code ∧ code ≤ 0xDFFF then none
      else (text? rest).map (Char.ofNat code :: ·)

def string? (pieces : List Piece) : Option String := (text? pieces).map String.ofList

namespace Numeral

def significandLimit : Nat := 18446744073709551615

def negativeLimit : Nat := 9223372036854775808

def exponentLimit : Nat := 2147483648

def gather (significand : Nat) : List Char → Nat × Nat
  | [] => (significand, 0)
  | c :: cs =>
      let next := significand * 10 + (c.toNat - 48)
      if next ≤ significandLimit then
        let (total, used) := gather next cs
        (total, used + 1)
      else (significand, 0)

def natural (cs : List Char) : Nat := cs.foldl (fun n c => n * 10 + (c.toNat - 48)) 0

def powerOfTen (n : Nat) : Float := Float.ofScientific 1 false n

/-- The number `x * 10 ^ exponent`, in one step for the powers of ten that are floating point
numbers. There is none beyond their range. -/
def scale (x : Float) (exponent : Int) : Option Float :=
  if 0 ≤ exponent then
    if exponent ≤ 308 then
      let y := x * powerOfTen exponent.toNat
      if y.isInf then none else some y
    else if x == 0 then some x else none
  else if -308 ≤ exponent then some (x / powerOfTen (-exponent).toNat)
  else if x == 0 then some x
  else scale (x / powerOfTen 308) (exponent + 308)
termination_by exponent.natAbs

def signed (negative : Bool) (x : Float) : Float := if negative then -x else x

def value? (n : Numeral) : Option Number :=
  let (whole, used) := gather 0 n.whole
  let float := fun significand exponent =>
    (scale significand.toUInt64.toFloat exponent).map fun x => Number.float (signed n.negative x)
  if n.fraction.isEmpty && n.exponent.isEmpty then
    if used < n.whole.length then float whole (n.whole.length - used)
    else if !n.negative then some (.whole whole)
    else if whole = 0 ∨ negativeLimit < whole then float whole 0
    else some (.whole (-(whole : Int)))
  else
    let (significand, places) := gather whole n.fraction
    let start : Int := (n.whole.length - used : Nat) - (places : Nat)
    let exponent := natural n.exponent
    if exponent < exponentLimit then
      float significand (if n.negativeExponent then start - exponent else start + exponent)
    else if significand ≠ 0 ∧ !n.negativeExponent then none
    else some (.float (signed n.negative 0))

end Numeral

def ofDocument? : (depth : Nat) → Document → Option Json
  | _, .null => some .null
  | _, .bool b => some (.bool b)
  | _, .number n => n.value?.map .number
  | _, .string pieces => (string? pieces).map .string
  | 0, .array _ => none
  | 0, .object _ => none
  | depth + 1, .array items => (items.mapM (ofDocument? depth)).map .array
  | depth + 1, .object members => do
      let members ← members.mapM fun (key, v) => do
        return (← string? key, ← ofDocument? depth v)
      return sorted members

def depthLimit : Nat := 127

def ofText? (text : String) : Option Json := (Document.read? text).bind (ofDocument? depthLimit)

end HttpRouting.Json

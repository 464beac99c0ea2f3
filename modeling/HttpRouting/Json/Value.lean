import HttpRouting.Decimal.Shortest

namespace HttpRouting

inductive Number
  | whole (i : Int)
  | float (x : Float)

inductive Json
  | null
  | bool (b : Bool)
  | number (n : Number)
  | string (s : String)
  | array (items : List Json)
  | object (members : List (String × Json))

namespace Number

def signBit : Nat := 9223372036854775808

def floatText (x : Float) : String :=
  let bits := x.toBits.toNat
  let magnitude := bits % signBit
  let sign := if bits = magnitude then "" else "-"
  sign ++ if magnitude = 0 then "0.0" else (Decimal.shortest (.ofBits magnitude)).text

def text : Number → String
  | whole i => toString i
  | float x => floatText x

end Number

namespace Json

def hexPair (n : Nat) : List Char := [Nat.digitChar (n / 16), Nat.digitChar (n % 16)]

def escape (c : Char) : List Char :=
  match c with
  | '"' => ['\\', '"']
  | '\\' => ['\\', '\\']
  | '\x08' => ['\\', 'b']
  | '\x0c' => ['\\', 'f']
  | '\n' => ['\\', 'n']
  | '\r' => ['\\', 'r']
  | '\t' => ['\\', 't']
  | c => if c.toNat < 32 then ['\\', 'u', '0', '0'] ++ hexPair c.toNat else [c]

def stringText (s : String) : String :=
  String.ofList ('"' :: s.toList.flatMap escape ++ ['"'])

def text : Json → String
  | null => "null"
  | bool b => if b then "true" else "false"
  | number n => n.text
  | string s => stringText s
  | array items => "[" ++ ",".intercalate (texts items) ++ "]"
  | object members => "\x7b" ++ ",".intercalate (memberTexts members) ++ "\x7d"
where
  texts : List Json → List String
    | [] => []
    | v :: vs => text v :: texts vs
  memberTexts : List (String × Json) → List String
    | [] => []
    | (k, v) :: rest => (stringText k ++ ":" ++ text v) :: memberTexts rest

/-- Sets a member of a sorted object; the last value of a key stands. -/
def setMember (key : String) (value : Json) : List (String × Json) → List (String × Json)
  | [] => [(key, value)]
  | (k, v) :: rest =>
      if key = k then (key, value) :: rest
      else if key < k then (key, value) :: (k, v) :: rest
      else (k, v) :: setMember key value rest

def sorted (members : List (String × Json)) : Json :=
  .object (members.foldl (fun done (k, v) => setMember k v done) [])

end Json

end HttpRouting

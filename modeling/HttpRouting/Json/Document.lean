namespace HttpRouting.Json

inductive Piece
  | char (c : Char)
  | unit (code : Nat)
  deriving DecidableEq, Repr

structure Numeral where
  negative : Bool
  whole : List Char
  fraction : List Char := []
  exponent : List Char := []
  negativeExponent : Bool := false
  deriving DecidableEq, Repr

inductive Document
  | null
  | bool (b : Bool)
  | number (n : Numeral)
  | string (pieces : List Piece)
  | array (items : List Document)
  | object (members : List (List Piece × Document))

namespace Document

def isBlank (c : Char) : Bool := c == ' ' || c == '\n' || c == '\t' || c == '\r'

def skipBlanks (cs : List Char) : List Char := cs.dropWhile isBlank

def hexDigit? (c : Char) : Option Nat :=
  if '0' ≤ c ∧ c ≤ '9' then some (c.toNat - 48)
  else if 'A' ≤ c ∧ c ≤ 'F' then some (c.toNat - 55)
  else if 'a' ≤ c ∧ c ≤ 'f' then some (c.toNat - 87)
  else none

def hex? (cs : List Char) : Option Nat :=
  cs.foldl (fun n c => n.bind fun n => (hexDigit? c).map (n * 16 + ·)) (some 0)

def escaped? (c : Char) : Option Char :=
  match c with
  | '"' | '\\' | '/' => some c
  | 'b' => some '\x08'
  | 'f' => some '\x0c'
  | 'n' => some '\n'
  | 'r' => some '\r'
  | 't' => some '\t'
  | _ => none

def readPieces : List Char → Option (List Piece × List Char)
  | [] => none
  | '"' :: cs => some ([], cs)
  | '\\' :: 'u' :: h₁ :: h₂ :: h₃ :: h₄ :: cs =>
      match hex? [h₁, h₂, h₃, h₄], readPieces cs with
      | some code, some (pieces, rest) => some (.unit code :: pieces, rest)
      | _, _ => none
  | '\\' :: c :: cs =>
      match escaped? c, readPieces cs with
      | some c, some (pieces, rest) => some (.char c :: pieces, rest)
      | _, _ => none
  | c :: cs =>
      if c.toNat < 32 ∨ c = '\\' then none
      else (readPieces cs).map fun (pieces, rest) => (.char c :: pieces, rest)

def digits (cs : List Char) : List Char × List Char := cs.span Char.isDigit

def readFraction : List Char → Option (List Char × List Char)
  | '.' :: cs => if (digits cs).1.isEmpty then none else some (digits cs)
  | cs => some ([], cs)

def readExponent : List Char → Option (Bool × List Char × List Char)
  | c :: cs =>
      if c = 'e' ∨ c = 'E' then
        let (negative, cs) := match cs with
          | '-' :: cs => (true, cs)
          | '+' :: cs => (false, cs)
          | cs => (false, cs)
        if (digits cs).1.isEmpty then none else some (negative, digits cs)
      else some (false, [], c :: cs)
  | [] => some (false, [], [])

def readNumeral (cs : List Char) : Option (Numeral × List Char) := do
  let (negative, cs) := match cs with
    | '-' :: cs => (true, cs)
    | cs => (false, cs)
  let (whole, cs) := digits cs
  if whole.isEmpty ∨ whole.head? = some '0' ∧ 1 < whole.length then none
  let (fraction, cs) ← readFraction cs
  let (negativeExponent, exponent, cs) ← readExponent cs
  return ({ negative, whole, fraction, exponent, negativeExponent }, cs)

def readItems {β : Type} (item : List Char → Option (β × List Char)) (close : Char)
    (cs : List Char) : Option (List β × List Char) :=
  match item cs with
  | none => none
  | some (x, rest) =>
      match skipBlanks rest with
      | [] => none
      | c :: rest =>
          if c = close then some ([x], rest)
          else if c = ',' ∧ rest.length < cs.length then
            (readItems item close rest).map fun (xs, rest) => (x :: xs, rest)
          else none
termination_by cs.length

def readSequence {β : Type} (item : List Char → Option (β × List Char)) (close : Char)
    (cs : List Char) : Option (List β × List Char) :=
  match skipBlanks cs with
  | [] => none
  | c :: rest => if c = close then some ([], rest) else readItems item close (c :: rest)

def readMember {β : Type} (value : List Char → Option (β × List Char)) (cs : List Char) :
    Option ((List Piece × β) × List Char) :=
  match skipBlanks cs with
  | '"' :: cs => do
      let (key, cs) ← readPieces cs
      match skipBlanks cs with
      | ':' :: cs => (value cs).map fun (v, rest) => ((key, v), rest)
      | _ => none
  | _ => none

/-- Reads a value that nests less than `depth` deep. -/
def readValue : (depth : Nat) → List Char → Option (Document × List Char)
  | 0, _ => none
  | depth + 1, cs =>
      match skipBlanks cs with
      | 'n' :: 'u' :: 'l' :: 'l' :: cs => some (.null, cs)
      | 't' :: 'r' :: 'u' :: 'e' :: cs => some (.bool true, cs)
      | 'f' :: 'a' :: 'l' :: 's' :: 'e' :: cs => some (.bool false, cs)
      | '"' :: cs => (readPieces cs).map fun (pieces, rest) => (.string pieces, rest)
      | '[' :: cs => (readSequence (readValue depth) ']' cs).map fun (xs, rest) => (.array xs, rest)
      | '\x7b' :: cs =>
          (readSequence (readMember (readValue depth)) '\x7d' cs).map fun (xs, rest) =>
            (.object xs, rest)
      | cs => (readNumeral cs).map fun (n, rest) => (.number n, rest)

/-- Reads a text that holds one value and blanks around it. No value nests deeper than its text is
long. -/
def read? (text : String) : Option Document :=
  match readValue (text.length + 1) text.toList with
  | some (doc, rest) => if (skipBlanks rest).isEmpty then some doc else none
  | none => none

end Document

end HttpRouting.Json

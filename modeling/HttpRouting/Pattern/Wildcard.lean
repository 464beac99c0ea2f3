import HttpRouting.Bytes

namespace HttpRouting

/-- A wildcard token, from its marker up to the next slash. It is valid when it holds no second
marker. -/
structure Wildcard where
  token : Bytes
  start : Nat
  valid : Bool
  deriving DecidableEq, Repr

inductive BadEscape
  | mk
  deriving DecidableEq, Repr

namespace Wildcard

open Bytes

def isMarker (b : UInt8) : Bool := b == colon || b == star

def isCatchAll (w : Wildcard) : Bool := w.token.head? == some star

def name (w : Wildcard) : Bytes := w.token.tail

def stop (w : Wildcard) : Nat := w.start + w.token.length

def opened (start : Nat) (marker : UInt8) (bs : Bytes) : Wildcard where
  token := marker :: firstSegment bs
  start := start
  valid := !(firstSegment bs).any isMarker

/-- The first wildcard of a pattern whose first byte has offset `start`. A lone backslash at the
very end is let through. -/
def findFrom (start : Nat) : Bytes → Except BadEscape (Option Wildcard)
  | [] => .ok none
  | b :: bs =>
      if b = backslash then
        match bs with
        | [] => .ok none
        | c :: rest => if c = colon then findFrom (start + 2) rest else .error .mk
      else if isMarker b then .ok (some (opened start b bs))
      else findFrom (start + 1) bs

def find? (pattern : Bytes) : Except BadEscape (Option Wildcard) := findFrom 0 pattern

end Wildcard

end HttpRouting

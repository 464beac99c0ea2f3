import HttpRouting.Pattern.Wildcard

namespace HttpRouting.Pattern

open Bytes

def nextLiteral? : Bytes → Option (UInt8 × Nat)
  | [] => none
  | b :: bs =>
      if b = backslash ∧ bs.head? = some colon then some (colon, 2)
      else if Wildcard.isMarker b then none
      else some (b, 1)

/-- How far a pattern and a literal text agree, in bytes of the pattern and bytes of the text. -/
def overlap : Bytes → Bytes → Nat × Nat
  | _, [] => (0, 0)
  | pattern, s :: stored =>
      match nextLiteral? pattern with
      | some (b, width) =>
          if b = s then
            let (i, j) := overlap (pattern.drop width) stored
            (i + width, j + 1)
          else (0, 0)
      | none => (0, 0)

def unescape : Bytes → Bytes
  | [] => []
  | b :: bs =>
      if b = backslash then
        match bs with
        | [] => [b]
        | c :: rest => if c = colon then colon :: unescape rest else b :: unescape (c :: rest)
      else b :: unescape bs

theorem overlap_snd_le (pattern stored : Bytes) : (overlap pattern stored).2 ≤ stored.length := by
  fun_induction overlap pattern stored <;> simp_all

end HttpRouting.Pattern

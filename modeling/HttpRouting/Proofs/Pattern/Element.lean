import HttpRouting.Pattern.Wildcard

namespace HttpRouting.Pattern

open Bytes

inductive Element
  | literal (b : UInt8)
  | param (name : Bytes)
  | catchAll (name : Bytes)
  deriving DecidableEq, Repr

def Element.isWildcard : Element → Bool
  | .literal _ => false
  | .param _ | .catchAll _ => true

def elements : Bytes → List Element
  | [] => []
  | b :: bs =>
      if b = backslash ∧ bs.head? = some colon then .literal colon :: elements bs.tail
      else if b = colon then .param (firstSegment bs) :: elements (bs.dropWhile (· ≠ slash))
      else if b = star then .catchAll (firstSegment bs) :: elements (bs.dropWhile (· ≠ slash))
      else .literal b :: elements bs
termination_by bs => bs.length
decreasing_by
  all_goals simp only [List.length_cons, List.length_tail]
  · omega
  · exact Nat.lt_succ_of_le (List.dropWhile_sublist _).length_le
  · exact Nat.lt_succ_of_le (List.dropWhile_sublist _).length_le
  · omega

def spell : List Element → Bytes
  | [] => []
  | .literal b :: es => if b = colon then backslash :: colon :: spell es else b :: spell es
  | .param name :: es => colon :: (name ++ spell es)
  | .catchAll name :: es => star :: (name ++ spell es)

def literals (bs : Bytes) : List Element := bs.map .literal

structure Capture where
  name : Bytes
  text : Bytes
  deriving DecidableEq, Repr

/-- What the wildcards of a pattern take from a path that it matches. A parameter takes the bytes up
to the next slash of a path that goes on. A catch-all takes the rest of the path, and the slash
before it as well. -/
def captures? : List Element → Bytes → Option (List Capture)
  | [], [] => some []
  | [], _ :: _ => none
  | .literal _ :: _, [] => none
  | .literal a :: es, b :: path => if a = b then captures? es path else none
  | .param _ :: _, [] => none
  | .param name :: es, b :: path =>
      (captures? es ((b :: path).dropWhile (· ≠ slash))).map
        (⟨name, firstSegment (b :: path)⟩ :: ·)
  | .catchAll name :: _, path => some [⟨name, slash :: path⟩]

def Matches (es : List Element) (path : Bytes) : Prop := (captures? es path).isSome

instance (es : List Element) (path : Bytes) : Decidable (Matches es path) :=
  inferInstanceAs (Decidable ((captures? es path).isSome = true))

/-- The names of the wildcards, in their order, up to a catch-all. -/
def wildcardNames : List Element → List Bytes
  | [] => []
  | .literal _ :: es => wildcardNames es
  | .param name :: es => name :: wildcardNames es
  | .catchAll name :: _ => [name]

/-- Puts texts in the places of the wildcards. The text for a catch-all also replaces the byte before
it. -/
def fill : List Element → List Bytes → Bytes
  | .literal _ :: .catchAll _ :: _, text :: _ => text
  | .literal b :: es, texts => b :: fill es texts
  | .param _ :: es, text :: texts => text ++ fill es texts
  | _, _ => []

/-- Where the two patterns first differ, the winning one has a literal byte and the other one a
parameter. -/
def Beats (won lost : List Element) : Prop :=
  ∃ shared b name es fs, won = shared ++ .literal b :: es ∧ lost = shared ++ .param name :: fs

theorem elements_nil : elements [] = [] := by rw [elements]

theorem elements_escape (bs : Bytes) :
    elements (backslash :: colon :: bs) = .literal colon :: elements bs := by
  rw [elements, if_pos ⟨rfl, rfl⟩]
  rfl

theorem elements_colon (bs : Bytes) :
    elements (colon :: bs) = .param (firstSegment bs) :: elements (bs.dropWhile (· ≠ slash)) := by
  rw [elements, if_neg (fun h => absurd h.1 (by decide)), if_pos rfl]

theorem elements_star (bs : Bytes) :
    elements (star :: bs) = .catchAll (firstSegment bs) :: elements (bs.dropWhile (· ≠ slash)) := by
  rw [elements, if_neg (fun h => absurd h.1 (by decide)), if_neg (by decide), if_pos rfl]

theorem elements_byte {b : UInt8} {bs : Bytes} (hescape : ¬ (b = backslash ∧ bs.head? = some colon))
    (hcolon : b ≠ colon) (hstar : b ≠ star) : elements (b :: bs) = .literal b :: elements bs := by
  rw [elements, if_neg hescape, if_neg hcolon, if_neg hstar]

theorem captures?_literals (label : Bytes) (es : List Element) (path : Bytes) :
    captures? (literals label ++ es) (label ++ path) = captures? es path := by
  induction label with
  | nil => rfl
  | cons b label ih =>
      rw [literals, List.map_cons, List.cons_append, List.cons_append, captures?, if_pos rfl]
      exact ih

theorem captures_names {es : List Element} {path : Bytes} {captures : List Capture}
    (h : captures? es path = some captures) : captures.map (·.name) = wildcardNames es := by
  fun_induction captures? es path generalizing captures with
  | case1 | case8 => cases h; rfl
  | case2 | case3 | case5 | case6 => simp at h
  | case4 a es path ih => exact ih h
  | case7 name es b path ih =>
      obtain ⟨rest, hrest, rfl⟩ := Option.map_eq_some_iff.1 h
      rw [List.map_cons, ih hrest, wildcardNames]

theorem beats_cons (e : Element) {won lost : List Element} (h : Beats won lost) :
    Beats (e :: won) (e :: lost) := by
  obtain ⟨shared, b, name, es, fs, rfl, rfl⟩ := h
  exact ⟨e :: shared, b, name, es, fs, rfl, rfl⟩

theorem beats_append (shared : List Element) {won lost : List Element} (h : Beats won lost) :
    Beats (shared ++ won) (shared ++ lost) := by
  induction shared with
  | nil => exact h
  | cons e shared ih => exact beats_cons e ih

theorem beats_cons_cons {e f : Element} {es fs : List Element} :
    Beats (e :: es) (f :: fs) ↔
      (e = f ∧ Beats es fs) ∨ ∃ b name, e = .literal b ∧ f = .param name := by
  constructor
  · rintro ⟨shared, b, name, won, lost, hes, hfs⟩
    cases shared with
    | nil =>
        cases hes; cases hfs
        exact .inr ⟨b, name, rfl, rfl⟩
    | cons g shared =>
        cases hes; cases hfs
        exact .inl ⟨rfl, shared, b, name, won, lost, rfl, rfl⟩
  · rintro (⟨rfl, h⟩ | ⟨b, name, rfl, rfl⟩)
    · exact beats_cons e h
    · exact ⟨[], b, name, es, fs, rfl, rfl⟩

theorem not_beats_nil (es : List Element) : ¬ Beats [] es ∧ ¬ Beats es [] := by
  constructor
  · rintro ⟨shared, b, name, won, lost, hes, -⟩
    simp at hes
  · rintro ⟨shared, b, name, won, lost, -, hfs⟩
    simp at hfs

theorem beats_asymm {es fs : List Element} (h : Beats es fs) : ¬ Beats fs es := by
  induction es generalizing fs with
  | nil => exact absurd h (not_beats_nil fs).1
  | cons e es ih =>
      cases fs with
      | nil => exact absurd h (not_beats_nil _).2
      | cons f fs =>
          intro h'
          rcases beats_cons_cons.1 h with ⟨rfl, htail⟩ | ⟨b, name, rfl, rfl⟩
          · rcases beats_cons_cons.1 h' with ⟨-, htail'⟩ | ⟨b, name, he, hf⟩
            · exact ih htail htail'
            · exact absurd (he.symm.trans hf) (by simp)
          · rcases beats_cons_cons.1 h' with ⟨he, -⟩ | ⟨b', name', he, -⟩
            · exact absurd he (by simp)
            · exact absurd he (by simp)

end HttpRouting.Pattern

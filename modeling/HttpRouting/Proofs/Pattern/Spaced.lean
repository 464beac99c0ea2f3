import HttpRouting.Proofs.Pattern.Reach

namespace HttpRouting.Pattern

open Bytes

/-- A parameter ends its pattern or a slash follows it, and a catch-all ends its pattern. -/
def Spaced : List Element → Prop
  | [] => True
  | .literal _ :: p => Spaced p
  | .param _ :: p => (p = [] ∨ ∃ q, p = .literal slash :: q) ∧ Spaced p
  | .catchAll _ :: p => p = []

theorem spaced_elements {slashed : Bool} {pattern : Bytes} (h : Grammar slashed pattern) :
    Spaced (elements pattern) := by
  induction h with
  | done =>
      rw [elements_nil]
      trivial
  | lone =>
      rw [elements_byte (by simp) (by decide) (by decide), elements_nil]
      trivial
  | escaped _ ih =>
      rw [elements_escape]
      exact ih
  | byte hb hmarker _ ih =>
      obtain ⟨hcolon, hstar⟩ := not_marker hmarker
      rw [elements_byte (fun h => hb h.1) hcolon hstar]
      exact ih
  | param hname hstop _ ih =>
      rw [elements_param hname hstop]
      refine ⟨?_, ih⟩
      rcases firstSegment_eq_nil.1 hstop with rfl | hslash
      · exact .inl elements_nil
      · exact .inr (elements_slash hslash)
  | catchAll hname =>
      rw [elements_catchAll hname]
      rfl

variable {front more p : List Element} {name : Bytes} {taken rest path : Bytes} {caps : List Capture}

theorem captures_empty (hspaced : Spaced (front ++ .param name :: more)) (hfront : Matches front taken)
    (hcaps : captures? (front ++ .param name :: more) (taken ++ slash :: rest) = some caps) :
    ∃ c ∈ caps, c.text = [] := by
  induction front generalizing taken caps with
  | nil =>
      cases taken with
      | cons b taken => cases hfront
      | nil =>
          obtain ⟨caps', -, rfl⟩ := captures?_param hcaps
          exact ⟨_, List.mem_cons_self, firstSegment_eq_nil.2 (.inr rfl)⟩
  | cons e front ih =>
      cases e with
      | literal a =>
          obtain ⟨taken, rfl⟩ := List.head?_eq_some_iff.1 (matches_opens hfront)
          obtain ⟨path, hpath, hbehind⟩ := captures?_literal hcaps
          cases hpath
          have hfront : Matches (literals [a] ++ front) ([a] ++ taken) := hfront
          exact ih hspaced (matches_literals.1 hfront) hbehind
      | param name' =>
          obtain ⟨caps', hbehind, rfl⟩ := captures?_param hcaps
          rw [dropWhile_append_slash] at hbehind
          obtain ⟨c, hc, htext⟩ := ih hspaced.2 (matches_behind_param hfront).2 hbehind
          exact ⟨c, List.mem_cons_of_mem _ hc, htext⟩
      | catchAll name' =>
          have hnil : front ++ .param name :: more = [] := hspaced
          exact absurd hnil (List.append_ne_nil_of_right_ne_nil front (List.cons_ne_nil _ _))

theorem matches_param_front {name' : Bytes}
    (hspaced : Spaced (.param name :: (front ++ .param name' :: more)))
    (hafter : path.dropWhile (· ≠ slash) = taken ++ rest) (hfront : Matches front taken) :
    Matches (.param name :: front) (firstSegment path ++ taken) := by
  have hslash : ∃ front', front = .literal slash :: front' := by
    obtain ⟨hnil | ⟨q, hq⟩, -⟩ := hspaced
    · exact absurd hnil (List.append_ne_nil_of_right_ne_nil front (List.cons_ne_nil _ _))
    · cases front with
      | nil => cases hq
      | cons e front =>
          cases hq
          exact ⟨front, rfl⟩
  obtain ⟨front', rfl⟩ := hslash
  obtain ⟨taken', rfl⟩ := List.head?_eq_some_iff.1 (matches_opens hfront)
  have hne : firstSegment path ++ slash :: taken' ≠ [] :=
    List.append_ne_nil_of_right_ne_nil _ (List.cons_ne_nil _ _)
  exact (matches_param (firstSegment_no_slash path) (firstSegment_eq_nil.2 (.inr rfl)) hne).2 hfront

theorem front_of_captures_empty (hspaced : Spaced p) (hcaps : captures? p path = some caps)
    (hempty : ∃ c ∈ caps, c.text = []) : ∃ front name more taken rest,
      p = front ++ .param name :: .literal slash :: more ∧ path = taken ++ slash :: rest ∧
        Matches front taken := by
  induction p generalizing path caps with
  | nil =>
      cases path with
      | nil =>
          cases hcaps
          simp at hempty
      | cons b path => cases hcaps
  | cons e p ih =>
      cases e with
      | literal a =>
          obtain ⟨path, rfl, hbehind⟩ := captures?_literal hcaps
          obtain ⟨front, name, more, taken, rest, rfl, rfl, hfront⟩ := ih hspaced hbehind hempty
          refine ⟨.literal a :: front, name, more, a :: taken, rest, rfl, rfl, ?_⟩
          have hfront : Matches (literals [a] ++ front) ([a] ++ taken) := matches_literals.2 hfront
          exact hfront
      | param name =>
          obtain ⟨caps', hbehind, rfl⟩ := captures?_param hcaps
          have hpath := segment_append_rest path
          rcases (List.exists_mem_cons_iff _ _ _).1 hempty with hfirst | hlater
          · have hfirst : firstSegment path = [] := hfirst
            rw [dropWhile_of_firstSegment hfirst] at hbehind
            have hne : path ≠ [] := fun hnil => by simp [hnil, captures?] at hcaps
            have hslash := (firstSegment_eq_nil.1 hfirst).resolve_left hne
            obtain ⟨rest, rfl⟩ := List.head?_eq_some_iff.1 hslash
            obtain ⟨rfl | ⟨more, rfl⟩, -⟩ := hspaced
            · cases hbehind
            · exact ⟨[], name, more, [], rest, rfl, rfl, rfl⟩
          · obtain ⟨front, name', more, taken, rest, rfl, hafter, hfront⟩ :=
              ih hspaced.2 hbehind hlater
            refine ⟨.param name :: front, name', more, firstSegment path ++ taken, rest, rfl, ?_,
              matches_param_front hspaced hafter hfront⟩
            rw [List.append_assoc, ← hafter, hpath]
      | catchAll name =>
          cases hcaps
          simp at hempty

theorem captures_empty_iff (hspaced : Spaced p) (hcaps : captures? p path = some caps) :
    (∃ c ∈ caps, c.text = []) ↔ ∃ front name more taken rest,
      p = front ++ .param name :: .literal slash :: more ∧ path = taken ++ slash :: rest ∧
        Matches front taken := by
  constructor
  · exact front_of_captures_empty hspaced hcaps
  · rintro ⟨front, name, more, taken, rest, rfl, rfl, hfront⟩
    exact captures_empty hspaced hfront hcaps

end HttpRouting.Pattern

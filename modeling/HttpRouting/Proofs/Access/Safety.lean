import HttpRouting.Proofs.Access.CaseSearch
import HttpRouting.Proofs.Access.Insert

namespace HttpRouting.Strict

open Node

variable {α : Type}

def KeepsWild (n : Node α) : Prop :=
  n.hasWild = true → ∃ w, n.children.getLast? = some w ∧ w.isWildcard = true

theorem keepsWild_of_not {n : Node α} (h : n.hasWild = false) : KeepsWild n := by
  intro hwild
  rw [h] at hwild
  cases hwild

theorem keepsWild_of_fit {n : Node α} (h : n.Fit) : KeepsWild n := by
  cases h with
  | branch slots wild h _ =>
      intro hwild
      rw [h.hasWild] at hwild
      obtain ⟨w, rfl⟩ := Option.isSome_iff_exists.1 hwild
      refine ⟨w, ?_, by simp [isWildcard, h.param w rfl]⟩
      have hchildren : n.children = slots.map Prod.snd ++ [w] := h.children
      rw [hchildren, List.getLast?_concat]
  | param _ _ h _ => exact keepsWild_of_not h.hasWild
  | holder leaf h => exact fun _ => ⟨leaf, by rw [h.children]; rfl, by simp [isWildcard, h.leafKind]⟩
  | leaf _ h => exact keepsWild_of_not h.hasWild

theorem keepsWild {root : Node α} {routes : List (String × α)} (h : Tracks root routes) :
    root.Every KeepsWild := by
  rcases h.shape with hbare | hsound
  · exact .node (keepsWild_of_not hbare.hasWild) fun c hc => by simp [hbare.children] at hc
  · clear h
    induction hsound with
    | node hfit _ ih => exact .node (keepsWild_of_fit hfit) ih

/-- In a tree that any insertions have grown, no insertion, lookup or case-blind search accesses anything
out of bounds or between the bytes of a character, and every wildcard child is a wildcard. -/
theorem never_fails {root : Node α} {routes : List (String × α)} (h : Built root routes) :
    (∀ route v, insert root route v = some (root.insert route v)) ∧
    (∀ path unescape buffer,
      lookup root path unescape buffer = some (root.lookup path unescape buffer)) ∧
    (∀ path fixSlash, findCase root path fixSlash = some (root.findCase path fixSlash)) ∧
    root.Every KeepsWild :=
  ⟨insert_eq h.tracks, lookup_eq h.tracks, findCase_eq h.tracks, keepsWild h.tracks⟩

theorem never_fails_sample :
    insert sample "/users/:id/\\" 3 = some (sample.insert "/users/:id/\\" 3) ∧
      lookup sample "/users/ü" true [] = some (sample.lookup "/users/ü" true []) ∧
      findCase sample "/USERS/ü/" true = some (sample.findCase "/USERS/ü/" true) := by
  obtain ⟨hinsert, hlookup, hfind, -⟩ := never_fails built_sample
  exact ⟨hinsert .., hlookup .., hfind ..⟩

end HttpRouting.Strict

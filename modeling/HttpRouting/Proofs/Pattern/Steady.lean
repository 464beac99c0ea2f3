import HttpRouting.Proofs.Pattern.CaseSearch

namespace HttpRouting.Pattern

open Bytes

/-- A pattern matches a path with its literal bytes in whichever case. -/
def FoldMatches : List Element → Bytes → Prop
  | [], path => path = []
  | .literal _ :: _, [] => False
  | .literal k :: p, b :: path => SameCase b k ∧ FoldMatches p path
  | .param _ :: _, [] => False
  | .param _ :: p, b :: path => FoldMatches p ((b :: path).dropWhile (· ≠ slash))
  | .catchAll _ :: _, _ => True

/-- The patterns leave the last slash of a path in no doubt. Where the part in front of a catch-all
matches the path, it is a pattern itself or nothing else goes on from it. A pattern that ends in two
slashes comes with the one that ends in one. Where a pattern matches the path without its last slash and
another one goes on behind that slash, the slash ends a pattern as well, or no parameter stands before it
or in its place. -/
structure Steady (es : Finset (List Element)) (path : Bytes) : Prop where
  add : ∀ front name, front ++ [.literal slash, .catchAll name] ∈ es → FoldMatches front path →
    front ∈ es ∨ ∀ p ∈ es, front <+: p → p = front ++ [.literal slash, .catchAll name]
  double : ∀ front, front ++ [.literal slash, .literal slash] ∈ es →
    FoldMatches (front ++ [.literal slash]) path → front ++ [.literal slash] ∈ es
  drop : ∀ front b more, front ∈ es → front ++ .literal slash :: .literal b :: more ∈ es →
    FoldMatches (front ++ [.literal slash]) path → front ++ [.literal slash] ∈ es ∨
      ∀ name, ¬ [.param name] <:+ front ∧ ∀ more, front ++ .param name :: more ∉ es

variable {es es' : Finset (List Element)} {p : List Element} {path rest front text : Bytes} {b k : UInt8}

theorem foldMatches_label (h : List.Forall₂ SameCase front text) :
    FoldMatches (literals text ++ p) (front ++ rest) ↔ FoldMatches p rest := by
  induction h with
  | nil => rfl
  | cons hbk _ ih => exact (and_iff_right hbk).trans ih

theorem steady_of_apart (hlast : ∀ p ∈ es, p.getLast? ≠ some (.literal slash))
    (hstart : ∀ p ∈ es, ∀ q ∈ es, p <+: q → p = q)
    (hcatch : ∀ front name, front ++ [.literal slash, .catchAll name] ∈ es → ¬ FoldMatches front path) :
    Steady es path := by
  refine ⟨fun front name hmem hfold => ?_, fun front hmem _ => ?_, fun front b more hmem hmore _ => ?_⟩
  · exact absurd hfold (hcatch front name hmem)
  · refine absurd ?_ (hlast _ hmem)
    rw [List.getLast?_append]
    rfl
  · have hsame := List.self_eq_append_right.1 (hstart _ hmem _ hmore (List.prefix_append ..))
    cases hsame

theorem Steady.behind (h : Steady es path) (front : List Element) (hes : ∀ p, p ∈ es' ↔ front ++ p ∈ es)
    (hpath : ∀ p, FoldMatches p rest → FoldMatches (front ++ p) path) : Steady es' rest := by
  refine ⟨fun shared name hmem hfold => ?_, fun shared hmem hfold => ?_,
    fun shared b more hmem hmore hfold => ?_⟩
  · rw [hes, ← List.append_assoc] at hmem
    rw [hes]
    refine (h.add _ name hmem (hpath _ hfold)).imp_right fun hall p hp hstart => ?_
    have hsame := hall _ ((hes p).1 hp) ((List.prefix_append_right_inj front).2 hstart)
    rw [List.append_assoc] at hsame
    exact List.append_cancel_left hsame
  · rw [hes, ← List.append_assoc] at hmem ⊢
    refine h.double _ hmem ?_
    rw [List.append_assoc]
    exact hpath _ hfold
  · rw [hes, ← List.append_assoc] at hmore ⊢
    have hfold := hpath _ hfold
    rw [← List.append_assoc] at hfold
    refine (h.drop _ b more ((hes _).1 hmem) hmore hfold).imp_right fun hall name => ?_
    obtain ⟨hend, hnone⟩ := hall name
    refine ⟨fun hsuffix => hend (hsuffix.trans (List.suffix_append ..)), fun more hmem => ?_⟩
    rw [hes, ← List.append_assoc] at hmem
    exact hnone more hmem

theorem Steady.label (h : Steady (under text es) (front ++ rest))
    (htext : List.Forall₂ SameCase front text) : Steady es rest := by
  refine h.behind (literals text) (fun p => ?_) fun p => (foldMatches_label htext).2
  rw [mem_under]
  constructor
  · exact fun hp => ⟨p, hp, rfl⟩
  · rintro ⟨q, hq, heq⟩
    rwa [← List.append_cancel_left heq]

theorem mem_child : p ∈ under [k] (past k es) ↔ p ∈ es ∧ ∃ q, p = .literal k :: q := by
  rw [mem_under]
  constructor
  · rintro ⟨q, hq, rfl⟩
    exact ⟨mem_past.1 hq, q, rfl⟩
  · rintro ⟨hp, q, rfl⟩
    exact ⟨q, mem_past.2 hp, rfl⟩

theorem Steady.child (h : Steady es (b :: rest)) : Steady (under [k] (Pattern.past k es)) (b :: rest) := by
  have hfront {p q : List Element} (hp : p ≠ []) (hq : p ++ q ∈ under [k] (Pattern.past k es))
      (hmem : p ∈ es) : p ∈ under [k] (Pattern.past k es) := by
    obtain ⟨e, p, rfl⟩ := List.exists_cons_of_ne_nil hp
    obtain ⟨-, q', heq⟩ := mem_child.1 hq
    cases heq
    exact mem_child.2 ⟨hmem, p, rfl⟩
  refine ⟨fun front name hmem hfold => ?_, fun front hmem hfold => ?_,
    fun front a more hmem hmore hfold => ?_⟩
  · have hne : front ≠ [] := by
      rintro rfl
      cases hfold
    refine (h.add front name (mem_child.1 hmem).1 hfold).imp (hfront hne hmem) fun hall p hp => ?_
    exact hall p (mem_child.1 hp).1
  · refine hfront (q := [.literal slash]) (by simp) ?_ (h.double front (mem_child.1 hmem).1 hfold)
    rwa [List.append_assoc]
  · obtain ⟨hmem, q, rfl⟩ := mem_child.1 hmem
    refine (h.drop _ a more hmem (mem_child.1 hmore).1 hfold).imp (fun hslash => ?_)
      fun hall name => ?_
    · exact mem_child.2 ⟨hslash, _, rfl⟩
    · exact (hall name).imp_right fun hnone more hmore => hnone more (mem_child.1 hmore).1

end HttpRouting.Pattern

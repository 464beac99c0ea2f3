import HttpRouting.Proofs.Pattern.Steady
import HttpRouting.Proofs.Tree.Finding

namespace HttpRouting.Node

open Bytes Pattern Utf8

variable {α : Type} {n w c : Node α}

def patternSet (n : Node α) : Finset (List Element) := (patterns n.entries).toFinset

/-- The patterns at and below a node, without the label that leads to it. -/
def heldSet (n : Node α) : Finset (List Element) := (patterns n.held).toFinset

section Sets

variable {slots : List (UInt8 × Node α)} {wild : Option (Node α)} {p : List Element} {b : UInt8}

theorem mem_patternSet : p ∈ n.patternSet ↔ ∃ hit, ⟨p, hit⟩ ∈ n.entries := by
  rw [patternSet, List.mem_toFinset, mem_patterns]
  constructor
  · rintro ⟨⟨p, hit⟩, he, rfl⟩
    exact ⟨hit, he⟩
  · exact fun ⟨hit, he⟩ => ⟨_, he, rfl⟩

theorem mem_heldSet : p ∈ n.heldSet ↔ ∃ hit, ⟨p, hit⟩ ∈ n.held := by
  rw [heldSet, List.mem_toFinset, mem_patterns]
  constructor
  · rintro ⟨⟨p, hit⟩, he, rfl⟩
    exact ⟨hit, he⟩
  · exact fun ⟨hit, he⟩ => ⟨_, he, rfl⟩

theorem OpensWith.patternSet (h : n.OpensWith b) : ∀ p ∈ n.patternSet, ∃ q, p = .literal b :: q := by
  intro p hp
  obtain ⟨hit, he⟩ := mem_patternSet.1 hp
  exact h _ he

theorem Sound.heldSet_nonempty (hn : n.Sound) : ∃ p, p ∈ n.heldSet := by
  obtain ⟨⟨p, hit⟩, he⟩ := List.exists_mem_of_ne_nil _ hn.held_ne_nil
  exact ⟨p, mem_heldSet.2 ⟨hit, he⟩⟩

theorem IsBranch.patternSet (h : n.IsBranch slots wild) : n.patternSet = under n.label n.heldSet := by
  ext p
  rw [Node.patternSet, List.mem_toFinset, patterns_entries, h.edge, mem_under]
  simp [heldSet]

theorem IsBranch.nil_mem (h : n.IsBranch slots wild) (hn : n.Sound) :
    [] ∈ n.heldSet ↔ n.value.isSome = true := by
  rw [mem_heldSet]
  constructor
  · rintro ⟨hit, he⟩
    cases h.source hn he with
    | here hit hhit => exact value_of_hit hhit
  · intro hvalue
    obtain ⟨hit, hhit⟩ := hit?_of_value hvalue
    exact ⟨hit, mem_held.2 (.inl ⟨hit, hhit, rfl⟩)⟩

theorem IsBranch.not_catches (h : n.IsBranch slots wild) (hn : n.Sound) : ¬ Catches n.heldSet := by
  rw [catches_iff]
  rintro ⟨name, p, hmem⟩
  obtain ⟨hit, he⟩ := mem_heldSet.1 hmem
  cases h.source hn he

theorem IsBranch.mem_of_slot (h : n.IsBranch slots wild) (hs : (b, c) ∈ slots) : c ∈ n.children := by
  rw [h.children]
  exact List.mem_append_left _ (List.mem_map_of_mem hs)

theorem IsBranch.mem_of_wild (h : n.IsBranch slots (some w)) : w ∈ n.children := by simp [h.children]

theorem IsBranch.slotSet (h : n.IsBranch slots wild) (hn : n.Sound) (hs : (b, c) ∈ slots) :
    c.patternSet = under [b] (past b n.heldSet) := by
  have hc := h.mem_of_slot hs
  ext p
  rw [mem_child, mem_patternSet, mem_heldSet]
  constructor
  · rintro ⟨hit, he⟩
    exact ⟨⟨hit, child_subset hc he⟩, (h.keyed _ hs).opens _ he⟩
  · rintro ⟨⟨hit, he⟩, q, hq⟩
    exact ⟨hit, h.mem_slot hn hs he hq⟩

theorem IsBranch.past_empty (h : n.IsBranch slots wild) (hn : n.Sound) (hb : b ∉ n.keys) :
    past b n.heldSet = ∅ := by
  ext p
  simp only [mem_past, Finset.notMem_empty, iff_false]
  intro hmem
  obtain ⟨hit, he⟩ := mem_heldSet.1 hmem
  cases h.source hn he with
  | slot s hs =>
      rw [h.keys] at hb
      exact hb (List.mem_map_of_mem hs)

theorem IsBranch.wildSet_none (h : n.IsBranch slots none) (hn : n.Sound) :
    pastParam n.heldSet = ∅ := by
  ext p
  simp only [mem_pastParam, Finset.notMem_empty, iff_false]
  rintro ⟨name, hmem⟩
  obtain ⟨hit, he⟩ := mem_heldSet.1 hmem
  cases h.source hn he with
  | wild w hw => cases hw

variable {name : Bytes} {next : Option (Node α)}

theorem IsBranch.mem_param (h : n.IsBranch slots (some w)) (hn : n.Sound) (hw : w.IsParam name next) :
    p ∈ w.heldSet ↔ .param name :: p ∈ n.heldSet := by
  rw [mem_heldSet, mem_heldSet]
  constructor
  · rintro ⟨hit, he⟩
    exact ⟨hit, child_subset h.mem_of_wild (hw.behind_mem he)⟩
  · rintro ⟨hit, he⟩
    obtain ⟨⟨q, hit'⟩, hq, heq⟩ := hw.mem_entries.1 (h.mem_wild hn he rfl)
    cases heq
    exact ⟨hit', hq⟩

theorem IsBranch.wildSet (h : n.IsBranch slots (some w)) (hn : n.Sound) (hw : w.IsParam name next) :
    pastParam n.heldSet = w.heldSet := by
  ext p
  rw [mem_pastParam]
  constructor
  · rintro ⟨name', hmem⟩
    obtain ⟨hit, he⟩ := mem_heldSet.1 hmem
    cases h.source hn he with
    | wild w' hw' name' next' hparam es hit he =>
        cases hw'
        obtain ⟨⟨q, hit'⟩, hq, heq⟩ := hw.mem_entries.1 he
        cases heq
        exact mem_heldSet.2 ⟨hit', hq⟩
  · exact fun hp => ⟨name, (h.mem_param hn hw).1 hp⟩

theorem IsParam.nil_mem (h : w.IsParam name next) : [] ∈ w.heldSet ↔ w.value.isSome = true := by
  rw [mem_heldSet]
  constructor
  · exact fun ⟨hit, he⟩ => h.value_of_nil he
  · intro hvalue
    obtain ⟨hit, hhit⟩ := hit?_of_value hvalue
    exact ⟨hit, mem_held.2 (.inl ⟨hit, hhit, rfl⟩)⟩

theorem IsParam.past_empty (h : w.IsParam name none) : past slash w.heldSet = ∅ := by
  ext p
  simp only [mem_past, Finset.notMem_empty, iff_false]
  intro hmem
  obtain ⟨hit, he⟩ := mem_heldSet.1 hmem
  rcases h.source he with ⟨hit, -, heq⟩ | ⟨c, hc, -⟩
  · cases heq
  · cases hc

theorem IsParam.nextSet (h : w.IsParam name (some c)) :
    c.patternSet = under [slash] (past slash w.heldSet) := by
  have hc : c ∈ w.children := by simp [h.children]
  ext p
  rw [mem_child, mem_patternSet, mem_heldSet]
  constructor
  · rintro ⟨hit, he⟩
    exact ⟨⟨hit, child_subset hc he⟩, h.opens he⟩
  · rintro ⟨⟨hit, he⟩, q, rfl⟩
    rcases h.source he with ⟨hit', -, heq⟩ | ⟨c', hc', he⟩
    · cases heq
    · cases hc'
      exact ⟨hit, he⟩

end Sets

end HttpRouting.Node

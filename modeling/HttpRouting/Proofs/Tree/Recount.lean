import HttpRouting.Proofs.Tree.Extend

namespace HttpRouting.Node

open Bytes Pattern

variable {α : Type}

theorem recounts_eq (cs : List (Node α)) : recount.recounts cs = cs.map recount := by
  induction cs with
  | nil => rfl
  | cons c cs ih => rw [recount.recounts, ih, List.map_cons]

theorem recount_eq (n : Node α) :
    n.recount = { n with
      priority := (n.children.map recount).foldr (·.priority + ·) 0 + n.value.isSome.toNat
      children := n.children.map recount } := by
  obtain ⟨kind, label, keys, hasWild, priority, children, value, route⟩ := n
  rw [recount, recounts_eq]

@[simp] theorem recount_kind (n : Node α) : n.recount.kind = n.kind := by rw [recount_eq]

@[simp] theorem recount_label (n : Node α) : n.recount.label = n.label := by rw [recount_eq]

@[simp] theorem recount_keys (n : Node α) : n.recount.keys = n.keys := by rw [recount_eq]

@[simp] theorem recount_hasWild (n : Node α) : n.recount.hasWild = n.hasWild := by rw [recount_eq]

@[simp] theorem recount_value (n : Node α) : n.recount.value = n.value := by rw [recount_eq]

@[simp] theorem recount_hit? (n : Node α) : n.recount.hit? = n.hit? := by
  rw [recount_eq]
  rfl

@[simp] theorem recount_children (n : Node α) : n.recount.children = n.children.map recount := by
  rw [recount_eq]

@[simp] theorem recount_entries (n : Node α) : n.recount.entries = n.entries := by
  induction n using below_induction with
  | h n ih =>
      have hchildren : (n.children.map recount).flatMap entries = n.children.flatMap entries := by
        rw [List.flatMap_map]
        exact List.flatMap_congr ih
      rw [entries_eq, entries_eq, held, held, recount_children, hchildren, recount_hit?,
        recount_kind, recount_label]

theorem recount_below {cs : List (Node α)} (h : ∀ c ∈ cs, c.recount.priority = c.entries.length) :
    (cs.map recount).foldr (·.priority + ·) 0 = (cs.flatMap entries).length := by
  induction cs with
  | nil => rfl
  | cons c cs ih =>
      have hc := h c List.mem_cons_self
      have hcs := ih fun d hd => h d (List.mem_cons_of_mem c hd)
      rw [List.map_cons, List.foldr_cons, hc, hcs, List.flatMap_cons, List.length_append]

theorem recount_priority (n : Node α) : n.recount.priority = n.entries.length := by
  induction n using below_induction with
  | h n ih =>
      have hhit : (n.hit?.map fun hit => Entry.mk [] hit).toList.length = n.value.isSome.toNat := by
        rw [hit?]
        cases n.value <;> rfl
      rw [recount_eq, entries_eq, List.length_map, held, List.length_append, hhit, Nat.add_comm]
      exact congrArg (_ + ·) (recount_below ih)

theorem Keyed.recount {n : Node α} {b : UInt8} (h : n.Keyed b) : n.recount.Keyed b := by
  refine ⟨?_, ?_⟩
  · rw [recount_kind, recount_hasWild]
    exact h.kind
  · intro e he
    rw [recount_entries] at he
    exact h.opens e he

theorem IsBranch.recount {n : Node α} {slots : List (UInt8 × Node α)} {wild : Option (Node α)}
    (h : n.IsBranch slots wild) :
    n.recount.IsBranch (slots.map fun s => (s.1, s.2.recount)) (wild.map Node.recount) := by
  refine ⟨?_, ?_, ?_, ?_, ?_, ?_, ?_⟩
  · rw [recount_kind]
    exact h.kind
  · rw [recount_keys, h.keys, List.map_map]
    rfl
  · rw [recount_keys]
    exact h.nodup
  · rw [recount_children, h.children]
    cases wild <;> simp
  · rw [recount_hasWild, h.hasWild, Option.isSome_map]
  · intro s hs
    obtain ⟨s', hs', rfl⟩ := List.mem_map.1 hs
    exact (h.keyed s' hs').recount
  · intro w hw
    obtain ⟨w', rfl, rfl⟩ := Option.map_eq_some_iff.1 hw
    rw [recount_kind]
    exact h.param w' rfl

theorem IsParam.recount {n : Node α} {name : Bytes} {next : Option (Node α)}
    (h : n.IsParam name next) : n.recount.IsParam name (next.map Node.recount) := by
  refine ⟨?_, ?_, h.isName, ?_, ?_, ?_, ?_⟩
  · rw [recount_kind, h.kind]
  · rw [recount_label, h.label]
  · intro hnone
    rw [recount_keys, h.keys (Option.map_eq_none_iff.1 hnone)]
  · rw [recount_children, h.children]
    cases next <;> rfl
  · rw [recount_hasWild, h.hasWild]
  · intro c hc
    obtain ⟨c', rfl, rfl⟩ := Option.map_eq_some_iff.1 hc
    exact (h.keyed c' rfl).recount

theorem Fit.recount {n : Node α} (h : n.Fit) : n.recount.Fit := by
  have hlive : n.recount.Live := by
    rcases h.live with hvalue | hchildren
    · exact .inl (by simpa using hvalue)
    · exact .inr (by simpa using hchildren)
  cases h with
  | branch slots wild h => exact .branch _ _ h.recount hlive
  | param name next h => exact .param _ _ h.recount hlive
  | holder leaf h =>
      exact .holder leaf.recount ⟨by simp [h.kind], by simp [h.label], by simp [h.keys],
        by simp [h.children], by simp [h.hasWild], by simp [h.value], by simp [h.leafKind],
        by simp [h.leafWild]⟩
  | leaf name h =>
      exact .leaf name ⟨by simp [h.kind], by simp [h.label], h.isName, by simp [h.keys],
        by simp [h.children], by simp [h.hasWild], by simp [h.value]⟩

theorem recount_sound {n : Node α} (h : n.Sound) : n.recount.Sound := by
  induction h with
  | @node n here _ ih =>
      apply Every.node here.recount
      intro c hc
      rw [recount_children] at hc
      obtain ⟨c', hc', rfl⟩ := List.mem_map.1 hc
      exact ih c' hc'

section Priority

variable (route : String) (v : α) (n c : Node α)

@[simp] theorem promote_priority (i : Nat) : (n.promote i).priority = n.priority := by
  unfold promote
  split <;> rfl

@[simp] theorem addStatic_priority (key : UInt8) : (n.addStatic key c).priority = n.priority :=
  promote_priority ..

@[simp] theorem settle_priority (i : Nat) : (n.settle i c).priority = n.priority :=
  promote_priority ..

theorem graftCatchAll_priority (path : Bytes) (w : Wildcard) :
    (graftCatchAll route v n path w).node.priority = n.priority := by
  unfold graftCatchAll
  split
  · rfl
  · split
    · rfl
    · split <;> rfl

theorem graft_priority (path : Bytes) : (graft route v n path).node.priority = n.priority := by
  have hlabelled (start : Nat) (text : Bytes) :
      (if start = 0 then n else { n with label := text }).priority = n.priority := by
    split <;> rfl
  rw [graft]
  split
  · rfl
  · rfl
  · next w _ =>
      split
      · rfl
      · split
        · rfl
        · split
          · exact graftCatchAll_priority route v n path w
          · dsimp only
            split <;> exact hlabelled _ _

theorem extend_priority (rest : Bytes) : (extend route v n rest).node.priority = n.priority := by
  unfold extend
  split
  · split <;> rfl
  · split
    · split
      · exact graft_priority route v n rest
      · split
        · rfl
        · exact addStatic_priority ..
    · exact graft_priority route v n rest

theorem place_priority (path : Bytes) : (place route v n path).node.priority = n.priority + 1 := by
  rw [place]
  split
  dsimp only
  split
  · exact extend_priority ..
  split
  · exact extend_priority ..
  · split
    · exact settle_priority ..
    · rfl
  · split
    · split <;> rfl
    · rfl

end Priority

end HttpRouting.Node

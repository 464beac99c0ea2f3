import HttpRouting.Proofs.Tree.Shape
import HttpRouting.Tree.Insert
import Mathlib.Data.List.InsertIdx
import Mathlib.Data.List.Perm.Basic

namespace HttpRouting

section Move

variable {β γ : Type}

theorem move_map (f : β → γ) (xs : List β) (i j : Nat) : move (xs.map f) i j = (move xs i j).map f := by
  rw [move, move, List.getElem?_map]
  cases xs[i]? with
  | none => rfl
  | some x => rw [Option.map_some, List.map_insertIdx, List.eraseIdx_map]

theorem insertIdx_append {xs : List β} {j : Nat} (hj : j ≤ xs.length) (x : β) (ys : List β) :
    (xs ++ ys).insertIdx j x = xs.insertIdx j x ++ ys := by
  induction xs generalizing j with
  | nil =>
      cases Nat.le_zero.1 hj
      rfl
  | cons a xs ih =>
      cases j with
      | zero => rfl
      | succ j => exact congrArg (a :: ·) (ih (Nat.le_of_succ_le_succ hj))

theorem length_eraseIdx_le {xs : List β} {i j : Nat} (hj : j ≤ i) (hi : i < xs.length) :
    j ≤ (xs.eraseIdx i).length := by
  rw [List.length_eraseIdx_of_lt hi]
  omega

theorem move_append {xs : List β} {i j : Nat} (hj : j ≤ i) (hi : i < xs.length) (ys : List β) :
    move (xs ++ ys) i j = move xs i j ++ ys := by
  rw [move, move, List.getElem?_append_left hi, List.getElem?_eq_getElem hi,
    List.eraseIdx_append_of_lt_length hi]
  exact insertIdx_append (length_eraseIdx_le hj hi) _ ys

theorem move_perm {xs : List β} {i j : Nat} (hj : j ≤ i) (hi : i < xs.length) :
    (move xs i j).Perm xs := by
  rw [move, List.getElem?_eq_getElem hi]
  exact (List.perm_insertIdx _ _ (length_eraseIdx_le hj hi)).trans
    (List.getElem_cons_eraseIdx_perm hi)

theorem flatMap_set_perm {f : β → List γ} {xs : List β} {i : Nat} {x y : β} {gain : List γ}
    (hx : xs[i]? = some x) (h : (f y).Perm (gain ++ f x)) :
    ((xs.set i y).flatMap f).Perm (gain ++ xs.flatMap f) := by
  obtain ⟨hi, rfl⟩ := List.getElem?_eq_some_iff.1 hx
  have hset := (List.set_perm_cons_eraseIdx hi y).flatMap_right f
  have hxs := (List.getElem_cons_eraseIdx_perm hi).flatMap_right f
  rw [List.flatMap_cons] at hset hxs
  refine hset.trans ((h.append_right _).trans ?_)
  rw [List.append_assoc]
  exact hxs.append_left gain

end Move

namespace Node

open Bytes Pattern

variable {α : Type}

theorem promote_some {n c : Node α} {i : Nat} (hc : n.children[i]? = some c) :
    ∃ j ≤ i, n.promote i =
      { n with children := move n.children i j, keys := move n.keys i j } := by
  rw [promote, hc]
  exact ⟨_, Nat.sub_le i _, rfl⟩

@[simp] theorem promote_kind (n : Node α) (i : Nat) : (n.promote i).kind = n.kind := by
  unfold promote
  split <;> rfl

@[simp] theorem promote_label (n : Node α) (i : Nat) : (n.promote i).label = n.label := by
  unfold promote
  split <;> rfl

@[simp] theorem promote_hasWild (n : Node α) (i : Nat) : (n.promote i).hasWild = n.hasWild := by
  unfold promote
  split <;> rfl

@[simp] theorem promote_hit? (n : Node α) (i : Nat) : (n.promote i).hit? = n.hit? := by
  unfold promote
  split <;> rfl

theorem promote_children (n : Node α) (i : Nat) : (n.promote i).children.Perm n.children := by
  cases hc : n.children[i]? with
  | none => rw [promote, hc]
  | some c =>
      obtain ⟨j, hj, h⟩ := promote_some hc
      rw [h]
      exact move_perm hj (List.getElem?_eq_some_iff.1 hc).1

theorem settle_held {n c c' : Node α} {i : Nat} {gain : List (Entry α)} (hc : n.children[i]? = some c)
    (h : c'.entries.Perm (gain ++ c.entries)) : (n.settle i c').held.Perm (gain ++ n.held) :=
  held_gain (promote_hit? _ i)
    (((promote_children _ i).flatMap_right entries).trans (flatMap_set_perm hc h))

theorem addStatic_held {n c : Node α} (key : UInt8) (h : n.keys.length ≤ n.children.length) :
    (n.addStatic key c).held.Perm (c.entries ++ n.held) := by
  refine held_gain (promote_hit? _ _) (((promote_children _ _).flatMap_right entries).trans ?_)
  exact (List.perm_insertIdx c n.children h).flatMap_right entries

theorem addWild_held (n c : Node α) : (n.addWild c).held.Perm (c.entries ++ n.held) := by
  have hperm : (n.children ++ [c]).Perm ([c] ++ n.children) := List.perm_append_comm
  exact held_gain rfl (hperm.flatMap_right entries)

theorem replaceLast_held {n c c' : Node α} {front : List (Node α)} {gain : List (Entry α)}
    (hn : n.children = front ++ [c]) (h : c'.entries.Perm (gain ++ c.entries)) :
    (n.replaceLast c').held.Perm (gain ++ n.held) := by
  refine held_gain rfl ?_
  rw [replaceLast, hn, List.dropLast_concat, List.flatMap_append, List.flatMap_append]
  simp only [List.flatMap_singleton]
  exact (h.append_left _).trans (List.perm_append_comm_assoc ..)

theorem IsBranch.promote {n : Node α} {slots : List (UInt8 × Node α)} {wild : Option (Node α)}
    (h : n.IsBranch slots wild) {i : Nat} (hi : i < slots.length) :
    ∃ slots', slots'.Perm slots ∧ (n.promote i).IsBranch slots' wild := by
  have hc : n.children[i]? = some (slots[i].2) := by
    rw [h.children, List.getElem?_append_left (by simpa using hi)]
    simp [hi]
  obtain ⟨j, hj, hpromote⟩ := promote_some hc
  have hperm := move_perm hj hi
  refine ⟨move slots i j, hperm, ?_⟩
  have hkeys : (n.promote i).keys = (move slots i j).map Prod.fst := by
    rw [hpromote, h.keys]
    exact move_map ..
  rw [hpromote] at hkeys ⊢
  refine ⟨h.kind, hkeys, ?_, ?_, h.hasWild, ?_, h.param⟩
  · rw [hkeys]
    exact (hperm.map _).nodup_iff.2 (h.keys ▸ h.nodup)
  · simp only [h.children]
    rw [move_append hj (by simpa using hi), move_map]
  · exact fun s hs => h.keyed s (hperm.mem_iff.1 hs)

theorem IsBranch.setSlot {n c : Node α} {slots : List (UInt8 × Node α)} {wild : Option (Node α)}
    (h : n.IsBranch slots wild) {i : Nat} {s : UInt8 × Node α} (hs : slots[i]? = some s)
    (hc : c.Keyed s.1) :
    { n with children := n.children.set i c }.IsBranch (slots.set i (s.1, c)) wild := by
  obtain ⟨hi, rfl⟩ := List.getElem?_eq_some_iff.1 hs
  refine ⟨h.kind, ?_, h.nodup, ?_, h.hasWild, ?_, h.param⟩
  · have hi' : i < (slots.map Prod.fst).length := by simpa using hi
    have hkey : (slots.map Prod.fst)[i] = slots[i].1 := List.getElem_map ..
    rw [List.map_set, ← hkey, List.set_getElem_self]
    exact h.keys
  · simp only [h.children]
    rw [List.set_append_left _ _ (by simpa using hi), List.map_set]
  · intro s hs
    rcases List.mem_or_eq_of_mem_set hs with hs | rfl
    · exact h.keyed s hs
    · exact hc

theorem IsBranch.settle {n c : Node α} {slots : List (UInt8 × Node α)} {wild : Option (Node α)}
    (h : n.IsBranch slots wild) {i : Nat} {s : UInt8 × Node α} (hs : slots[i]? = some s)
    (hc : c.Keyed s.1) : ∃ slots', (n.settle i c).IsBranch slots' wild := by
  have hi := (List.getElem?_eq_some_iff.1 hs).1
  obtain ⟨slots', -, h'⟩ := (h.setSlot hs hc).promote (i := i) (by simpa using hi)
  exact ⟨slots', h'⟩

theorem IsBranch.addStatic {n c : Node α} {slots : List (UInt8 × Node α)} {wild : Option (Node α)}
    (h : n.IsBranch slots wild) {key : UInt8} (hkey : key ∉ n.keys) (hc : c.Keyed key) :
    ∃ slots', (n.addStatic key c).IsBranch slots' wild := by
  have hlength : n.keys.length = slots.length := by rw [h.keys, List.length_map]
  have hadded : { n with
      keys := n.keys ++ [key]
      children := n.children.insertIdx n.keys.length c }.IsBranch (slots ++ [(key, c)]) wild := by
    refine ⟨h.kind, ?_, ?_, ?_, h.hasWild, ?_, h.param⟩
    · rw [List.map_append, ← h.keys]
      rfl
    · refine List.nodup_append.2 ⟨h.nodup, List.pairwise_singleton .., fun a ha b hb hab => hkey ?_⟩
      rwa [← List.mem_singleton.1 hb, ← hab]
    · simp only [h.children, hlength]
      rw [insertIdx_append (by simp), List.map_append, ← List.length_map (f := Prod.snd),
        List.insertIdx_length_self]
      rfl
    · intro s hs
      rcases List.mem_append.1 hs with hs | hs
      · exact h.keyed s hs
      · rw [List.mem_singleton.1 hs]
        exact hc
  obtain ⟨slots', -, h'⟩ := hadded.promote (i := n.keys.length) (by simp [hlength])
  exact ⟨slots', h'⟩

theorem IsBranch.addWild {n w : Node α} {slots : List (UInt8 × Node α)} (h : n.IsBranch slots none)
    (hw : w.kind = .param) : (n.addWild w).IsBranch slots (some w) := by
  refine ⟨h.kind, h.keys, h.nodup, ?_, rfl, h.keyed, ?_⟩
  · simp [Node.addWild, h.children]
  · rintro w' ⟨⟩
    exact hw

theorem IsBranch.replaceLast {n w w' : Node α} {slots : List (UInt8 × Node α)}
    (h : n.IsBranch slots (some w)) (hw : w'.kind = .param) :
    (n.replaceLast w').IsBranch slots (some w') := by
  refine ⟨h.kind, h.keys, h.nodup, ?_, h.hasWild, h.keyed, ?_⟩
  · simp [Node.replaceLast, h.children]
  · rintro w'' ⟨⟩
    exact hw

theorem promote_only {n c : Node α} (h : n.children = [c]) : (n.promote 0).children = [c] :=
  List.perm_singleton.1 (h ▸ promote_children n 0)

theorem IsParam.settle {n c c' : Node α} {name : Bytes} (h : n.IsParam name (some c))
    (hc : c'.Keyed slash) : (n.settle 0 c').IsParam name (some c') := by
  have hchildren : (n.settle 0 c').children = [c'] := promote_only (by simp [h.children])
  refine ⟨?_, ?_, h.isName, nofun, hchildren, ?_, ?_⟩
  · exact (promote_kind _ _).trans h.kind
  · exact (promote_label _ _).trans h.label
  · exact (promote_hasWild _ _).trans h.hasWild
  · rintro c'' ⟨⟩
    exact hc

theorem IsParam.addStatic {n c : Node α} {name : Bytes} (h : n.IsParam name none)
    (hc : c.Keyed slash) : (n.addStatic slash c).IsParam name (some c) := by
  have hchildren : (n.addStatic slash c).children = [c] := by
    rw [Node.addStatic, h.keys rfl]
    exact promote_only (by simp [h.children])
  refine ⟨?_, ?_, h.isName, nofun, hchildren, ?_, ?_⟩
  · exact (promote_kind _ _).trans h.kind
  · exact (promote_label _ _).trans h.label
  · exact (promote_hasWild _ _).trans h.hasWild
  · rintro c' ⟨⟩
    exact hc

theorem settle_live {n c : Node α} {i : Nat} (hi : i < n.children.length) : (n.settle i c).Live := by
  have hlength : (n.settle i c).children.length = n.children.length :=
    (promote_children _ i).length_eq.trans List.length_set
  exact .inr (List.ne_nil_of_length_pos (by omega))

theorem addStatic_live {n c : Node α} {key : UInt8} (h : n.keys.length ≤ n.children.length) :
    (n.addStatic key c).Live :=
  .inr (List.ne_nil_of_mem ((promote_children _ _).mem_iff.2 ((List.mem_insertIdx h).2 (.inl rfl))))

theorem addWild_live (n w : Node α) : (n.addWild w).Live := .inr (by simp [addWild])

theorem replaceLast_live (n w : Node α) : (n.replaceLast w).Live := .inr (by simp [replaceLast])

theorem settle_every {p : Node α → Prop} {n c : Node α} {i : Nat} (hn : n.Every p) (hc : c.Every p)
    (here : p (n.settle i c)) : (n.settle i c).Every p := by
  apply Every.node here
  intro d hd
  rcases List.mem_or_eq_of_mem_set ((promote_children _ i).mem_iff.1 hd) with hd | rfl
  · exact hn.child hd
  · exact hc

theorem addStatic_every {p : Node α → Prop} {n c : Node α} {key : UInt8} (hn : n.Every p)
    (hc : c.Every p) (hlength : n.keys.length ≤ n.children.length) (here : p (n.addStatic key c)) :
    (n.addStatic key c).Every p := by
  apply Every.node here
  intro d hd
  rcases (List.mem_insertIdx hlength).1 ((promote_children _ _).mem_iff.1 hd) with rfl | hd
  · exact hc
  · exact hn.child hd

theorem addWild_every {p : Node α → Prop} {n w : Node α} (hn : ∀ c ∈ n.children, c.Every p)
    (hw : w.Every p) (here : p (n.addWild w)) : (n.addWild w).Every p := by
  apply Every.node here
  intro d hd
  rcases List.mem_append.1 hd with hd | hd
  · exact hn d hd
  · rwa [List.mem_singleton.1 hd]

theorem replaceLast_every {p : Node α → Prop} {n w : Node α} (hn : n.Every p) (hw : w.Every p)
    (here : p (n.replaceLast w)) : (n.replaceLast w).Every p := by
  apply Every.node here
  intro d hd
  rcases List.mem_append.1 hd with hd | hd
  · exact hn.child (List.dropLast_subset _ hd)
  · rwa [List.mem_singleton.1 hd]

end Node

end HttpRouting

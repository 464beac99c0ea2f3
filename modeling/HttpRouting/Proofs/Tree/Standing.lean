import HttpRouting.Proofs.Tree.Recasing

namespace HttpRouting.Node

open Bytes Pattern

variable {α : Type} {fix above : Bool} {n : Node α} {path pending q : Bytes}

/-- Where a search can stand: at a node with a text on its edge or at the holder of a catch-all. -/
def Standing (n : Node α) : Prop :=
  (n.kind = .static ∨ n.kind = .root) ∨ (n.kind = .catchAll ∧ n.hasWild = true)

theorem Keyed.standing {b : UInt8} (h : n.Keyed b) : n.Standing := by
  rcases h.kind with hkind | hholder
  · exact .inl (.inl hkind)
  · exact .inr hholder

/-- What the static children leave: an answer, the path for the wildcard, or a miss. -/
inductive Tried (fix : Bool) (n : Node α) (path rest awaited : Bytes)
    (go : { c : Node α // c ∈ n.children } → Bytes → Except Defect (Option Bytes)) :
    Option (Option Bytes) → Prop
  | found (q : Bytes) : Tried fix n path rest awaited go (some (some q))
  | wild (hwild : n.hasWild = true)
      (hnone : ∀ spelling c, Spells path n.label.length awaited spelling →
        n.keyed (spelling.headD 0) = .ok (some c) → go c spelling = .ok none) :
      Tried fix n path rest awaited go none
  | missed (hwild : n.hasWild = false)
      (hnone : ∀ spelling c, Spells path n.label.length awaited spelling →
        n.keyed (spelling.headD 0) = .ok (some c) → go c spelling = .ok none)
      (hslash : fix = true → rest = [slash] → n.value.isSome = true → awaited.headD 0 = 0 →
        upperChar (charAcross path n.label.length).1 ≠
          lowerChar (charAcross path n.label.length).1) :
      Tried fix n path rest awaited go (some none)

section Total

variable {rest awaited : Bytes}
  {go : { c : Node α // c ∈ n.children } → Bytes → Except Defect (Option Bytes)}

theorem viaKey_total (hkeyed : ∀ b, ∃ child, n.keyed b = .ok child)
    (hgo : ∀ b c spelling, n.keyed b = .ok (some c) → ∃ answer, go c spelling = .ok answer)
    (spelling : Bytes) :
    ∃ via, n.viaKey spelling go = .ok via := by
  obtain ⟨child, hchild⟩ := hkeyed (spelling.headD 0)
  rw [viaKey, hchild]
  cases child with
  | none => exact ⟨_, rfl⟩
  | some c =>
      obtain ⟨answer, hanswer⟩ := hgo _ c spelling hchild
      refine ⟨some answer, ?_⟩
      dsimp only
      rw [hanswer]
      rfl

theorem viaKey_missed
    (hgo : ∀ b c spelling, n.keyed b = .ok (some c) → ∃ answer, go c spelling = .ok answer)
    {spelling : Bytes} {via : Option (Option Bytes)} (h : n.viaKey spelling go = .ok via)
    (hmiss : ∀ q, via ≠ some (some q)) {c : { c : Node α // c ∈ n.children }}
    (hc : n.keyed (spelling.headD 0) = .ok (some c)) : go c spelling = .ok none := by
  obtain ⟨answer, hanswer⟩ := hgo _ c spelling hc
  rw [viaKey, hc] at h
  dsimp only at h
  rw [hanswer] at h
  cases h
  cases answer with
  | none => exact hanswer
  | some q => exact absurd rfl (hmiss q)

theorem verdict_tried {via : Option (Option Bytes)}
    (hnone : (∀ q, via ≠ some (some q)) → ∀ spelling c,
      Spells path n.label.length awaited spelling →
        n.keyed (spelling.headD 0) = .ok (some c) → go c spelling = .ok none)
    (hslash : via ≠ none → awaited.headD 0 = 0 →
      upperChar (charAcross path n.label.length).1 ≠ lowerChar (charAcross path n.label.length).1) :
    Tried fix n path rest awaited go (n.verdict fix rest via) := by
  cases via with
  | none =>
      have hnone := hnone fun q => (Option.some_ne_none (some q)).symm
      rw [verdict]
      split
      · next hwild => exact .wild hwild hnone
      · next hwild =>
          split
          · exact .found []
          · next hall =>
              refine .missed (by simpa using hwild) hnone fun hfix hrest hvalue => ?_
              simp [hfix, hrest, hvalue] at hall
  | some answer =>
      cases answer with
      | some q => exact .found q
      | none =>
          have hnone := hnone fun q h => Option.some_ne_none q (Option.some.inj h).symm
          rw [verdict]
          split
          · next hwild => exact .wild (by simpa using hwild) hnone
          · next hwild =>
              refine .missed (by simpa using hwild) hnone fun _ _ _ => ?_
              exact hslash (Option.some_ne_none none)

theorem viaStatic_tried (hkeyed : ∀ b, ∃ child, n.keyed b = .ok child)
    (hgo : ∀ b c spelling, n.keyed b = .ok (some c) → ∃ answer, go c spelling = .ok answer) :
    ∃ via, n.viaStatic fix path rest awaited go = .ok via ∧
      Tried fix n path rest awaited go via := by
  unfold viaStatic
  dsimp only
  split
  · next hempty =>
      simp only [Bool.and_eq_true, List.isEmpty_iff] at hempty
      refine ⟨none, rfl, .wild hempty.2 fun spelling c _ hc => ?_⟩
      rw [keyed_none (slot_none.2 (by simp [hempty.1]))] at hc
      cases hc
  split
  · next hawaited =>
      obtain ⟨via, hvia⟩ := viaKey_total hkeyed hgo awaited
      rw [hvia]
      refine ⟨_, rfl, verdict_tried (fun hmiss spelling c hspelling hc => ?_) fun _ h => ?_⟩
      · cases hspelling with
        | awaited => exact viaKey_missed hgo hvia hmiss hc
        | lower h | upper h => exact absurd h hawaited
      · exact absurd h hawaited
  · next hawaited =>
      obtain ⟨via, hvia⟩ := viaKey_total hkeyed hgo
        ((String.utf8EncodeChar (lowerChar (charAcross path n.label.length).1)).drop
          (charAcross path n.label.length).2)
      rw [hvia]
      split
      · next h => cases h
      · next answer h => exact ⟨_, rfl, .found answer⟩
      next hmissed heq =>
        cases heq
        split
        · next hsame =>
            refine ⟨_, rfl, verdict_tried (fun _ spelling c hspelling hc => ?_) fun h => ?_⟩
            · cases hspelling with
              | awaited h => exact absurd (Decidable.not_not.1 hawaited) h
              | lower => exact viaKey_missed hgo hvia hmissed hc
              | upper =>
                  rw [hsame] at hc ⊢
                  exact viaKey_missed hgo hvia hmissed hc
            · exact absurd rfl h
        · next hother =>
            obtain ⟨via', hvia'⟩ := viaKey_total hkeyed hgo
              ((String.utf8EncodeChar (upperChar (charAcross path n.label.length).1)).drop
                (charAcross path n.label.length).2)
            rw [hvia']
            refine ⟨_, rfl, verdict_tried (fun hmiss spelling c hspelling hc => ?_) fun _ _ => hother⟩
            cases hspelling with
            | awaited h => exact absurd (Decidable.not_not.1 hawaited) h
            | lower => exact viaKey_missed hgo hvia hmissed hc
            | upper => exact viaKey_missed hgo hvia' hmiss hc

end Total

theorem IsBranch.keyed_cases {slots : List (UInt8 × Node α)} {wild : Option (Node α)}
    (h : n.IsBranch slots wild) (b : UInt8) :
    (n.keyed b = .ok none ∧ b ∉ n.keys) ∨ ∃ c, n.keyed b = .ok (some c) ∧ (b, c.1) ∈ slots := by
  cases hi : n.slot? b with
  | none => exact .inl ⟨keyed_none hi, slot_none.1 hi⟩
  | some i =>
      obtain ⟨c, hslot, hc⟩ := h.slot_some hi
      obtain ⟨hmem, hkeyed⟩ := keyed_some hi hc
      exact .inr ⟨⟨c, hmem⟩, hkeyed, List.mem_of_getElem? hslot⟩

inductive Stands (n : Node α) : Prop
  | branch (slots : List (UInt8 × Node α)) (wild : Option (Node α)) (h : n.IsBranch slots wild)
  | holder (leaf : Node α) (name : Bytes) (hit : Hit α) (h : n.IsHolder leaf)
      (hleaf : leaf.IsLeaf name) (hhit : leaf.hit? = some hit)

theorem Sound.stands (hn : n.Sound) (hstanding : n.Standing) : n.Stands := by
  rcases hstanding with hkind | ⟨hkind, hwild⟩
  · obtain ⟨slots, wild, h⟩ := hn.branch hkind
    exact .branch slots wild h
  · obtain ⟨leaf, name, hit, h, hleaf, hhit⟩ := hn.holder hkind hwild
    exact .holder leaf name hit h hleaf hhit

theorem IsHolder.keyed {leaf : Node α} (h : n.IsHolder leaf) (b : UInt8) : n.keyed b = .ok none :=
  keyed_none (slot_none.2 (by simp [h.keys]))

theorem Sound.keyed_standing (hn : n.Sound) (hstanding : n.Standing) (b : UInt8) :
    n.keyed b = .ok none ∨ ∃ c, n.keyed b = .ok (some c) ∧ c.1.Keyed b := by
  cases hn.stands hstanding with
  | branch slots wild h =>
      rcases h.keyed_cases b with ⟨hnone, -⟩ | ⟨c, hc, hslot⟩
      · exact .inl hnone
      · exact .inr ⟨c, hc, h.keyed _ hslot⟩
  | holder leaf name hit h => exact .inl (h.keyed b)

theorem Sound.keyed_child (hn : n.Sound) (hstanding : n.Standing) {b : UInt8}
    {c : { c : Node α // c ∈ n.children }} (h : n.keyed b = .ok (some c)) : c.1.Keyed b := by
  rcases hn.keyed_standing hstanding b with hnone | ⟨c', hc', hchild⟩
  · rw [hnone] at h
    cases h
  · rw [hc'] at h
    cases h
    exact hchild

theorem Sound.branch_of_keyed (hn : n.Sound) (hstanding : n.Standing) {b : UInt8}
    {c : { c : Node α // c ∈ n.children }} (h : n.keyed b = .ok (some c)) :
    ∃ slots wild, n.IsBranch slots wild := by
  cases hn.stands hstanding with
  | branch slots wild h => exact ⟨slots, wild, h⟩
  | holder leaf name hit hholder =>
      rw [hholder.keyed] at h
      cases h

theorem Sound.closeAt_total (hn : n.Sound) (hstanding : n.Standing) :
    ∃ answer, n.closeAt fix = .ok answer := by
  unfold closeAt
  split
  · exact ⟨_, rfl⟩
  split
  · rcases hn.keyed_standing hstanding slash with hnone | ⟨c, hc, -⟩
    · rw [hnone]
      exact ⟨_, rfl⟩
    · rw [hc]
      dsimp only
      split <;> exact ⟨_, rfl⟩
  · exact ⟨_, rfl⟩

inductive IsWild (w : Node α) : Prop
  | param (name : Bytes) (next : Option (Node α)) (h : w.IsParam name next)
  | leaf (name : Bytes) (h : w.IsLeaf name)

theorem Sound.wild_standing (hn : n.Sound) (hstanding : n.Standing) (hwild : n.hasWild = true) :
    ∃ w, n.lastChild = .ok w ∧ w.1.IsWild := by
  cases hn.stands hstanding with
  | branch slots wild h =>
      cases wild with
      | none => simp [h.hasWild] at hwild
      | some w =>
          obtain ⟨hc, hlast⟩ := lastChild_eq h.children
          obtain ⟨name, next, hparam⟩ := Sound.param (hn.child hc) (h.param w rfl)
          exact ⟨_, hlast, .param name next hparam⟩
  | holder leaf name hit h hleaf =>
      have hchildren : n.children = [] ++ [leaf] := h.children
      obtain ⟨hc, hlast⟩ := lastChild_eq hchildren
      exact ⟨_, hlast, .leaf name hleaf⟩

theorem IsWild.standing_child {w c : Node α} (h : w.IsWild) (hc : c ∈ w.children) : c.Standing := by
  cases h with
  | param name next h =>
      rw [h.children, Option.mem_toList] at hc
      exact (h.keyed c hc).standing
  | leaf name h => simp [h.children] at hc

theorem viaWild_total {w : Node α} (hw : w.IsWild) {rest : Bytes}
    {go : { c : Node α // c ∈ w.children } → Bytes → Except Defect (Option Bytes)}
    (hgo : ∀ c after, ∃ answer, go c after = .ok answer) :
    ∃ answer, w.viaWild fix rest go = .ok answer := by
  cases hw with
  | leaf name h =>
      unfold viaWild
      rw [h.kind]
      exact ⟨_, rfl⟩
  | param name next h =>
      unfold viaWild
      rw [h.kind]
      dsimp only
      split
      · exact ⟨_, rfl⟩
      · exact ⟨_, rfl⟩
      · next c cs hchildren _ =>
          obtain ⟨answer, hanswer⟩ := hgo ⟨c, hchildren ▸ List.mem_cons_self⟩
            (rest.dropWhile (· ≠ slash))
          rw [hanswer]
          exact ⟨_, rfl⟩

/-- What the static children leave decides the answer, or the wildcard does. -/
theorem recase_tried (hn : n.Sound) (hstanding : n.Standing) (hfits : n.fits path = true)
    (hrest : path.drop n.label.length ≠ []) (fix : Bool) (pending : Bytes) (above : Bool)
    (hgo : ∀ (c : { c : Node α // c ∈ n.children }) (spelling : Bytes), c.1.Standing →
      ∃ answer, recase fix c.1 (path.drop n.label.length) spelling n.value.isSome = .ok answer) :
    ∃ via, Tried fix n path (path.drop n.label.length) (pending.drop n.label.length)
        (fun c spelling => recase fix c.1 (path.drop n.label.length) spelling n.value.isSome) via ∧
      (∀ answer, via = some answer →
        recase fix n path pending above = .ok (answer.map (n.label ++ ·))) ∧
      (via = none → ∀ w, n.lastChild = .ok w →
        recase fix n path pending above =
          (viaWild fix w.1 (path.drop n.label.length) fun c after =>
            recase fix c.1 after [] w.1.value.isSome).map (·.map (n.label ++ ·))) := by
  have hkeyed (b : UInt8) : ∃ child, n.keyed b = .ok child := by
    rcases hn.keyed_standing hstanding b with hnone | ⟨c, hc, -⟩
    · exact ⟨_, hnone⟩
    · exact ⟨_, hc⟩
  have hgo (b : UInt8) (c : { c : Node α // c ∈ n.children }) (spelling : Bytes)
      (hc : n.keyed b = .ok (some c)) :
      ∃ answer, recase fix c.1 (path.drop n.label.length) spelling n.value.isSome = .ok answer :=
    hgo c spelling (hn.keyed_child hstanding hc).standing
  obtain ⟨via, hvia, htried⟩ := viaStatic_tried hkeyed hgo
  refine ⟨via, htried, fun answer hanswer => ?_, fun hnone w hw => ?_⟩
  · rw [recase, if_pos hfits]
    dsimp only
    rw [if_neg hrest, hvia, hanswer]
  · rw [recase, if_pos hfits]
    dsimp only
    rw [if_neg hrest, hvia, hnone]
    dsimp only
    rw [hw]

theorem recase_total (hn : n.Sound) (hstanding : n.Standing) (path pending : Bytes) (above : Bool) :
    ∃ answer, recase fix n path pending above = .ok answer := by
  induction n using size_induction generalizing path pending above with
  | h n ih =>
      by_cases hfits : n.fits path = true
      · by_cases hrest : path.drop n.label.length = []
        · obtain ⟨answer, hanswer⟩ := hn.closeAt_total hstanding
          rw [recase, if_pos hfits]
          dsimp only
          rw [if_pos hrest, hanswer]
          exact ⟨_, rfl⟩
        obtain ⟨via, htried, hsome, hnone⟩ := recase_tried hn hstanding hfits hrest fix pending above
          fun c spelling hc => ih c.1 (size_lt_of_mem c.2) (hn.child c.2) hc ..
        cases htried with
        | found q => exact ⟨_, hsome _ rfl⟩
        | missed => exact ⟨_, hsome _ rfl⟩
        | wild hwild =>
            obtain ⟨w, hlast, hw⟩ := hn.wild_standing hstanding hwild
            have hgo (c : { c : Node α // c ∈ w.1.children }) (after : Bytes) :
                ∃ answer, recase fix c.1 after [] w.1.value.isSome = .ok answer := by
              have hsize := Nat.lt_trans (size_lt_of_mem c.2) (size_lt_of_mem w.2)
              exact ih c.1 hsize ((hn.child w.2).child c.2) (hw.standing_child c.2) ..
            obtain ⟨answer, hanswer⟩ := viaWild_total hw hgo
            rw [hnone rfl w hlast, hanswer]
            exact ⟨_, rfl⟩
      · rw [recase, if_neg hfits]
        exact ⟨_, rfl⟩

end HttpRouting.Node

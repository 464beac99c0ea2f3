import HttpRouting.Proofs.Tree.PatternEnd

namespace HttpRouting.Node

open Bytes Pattern Utf8

variable {α : Type} {fix above : Bool} {n w c : Node α} {path rest : Bytes}

section Static

variable {slots : List (UInt8 × Node α)} {wild : Option (Node α)} {awaited : Bytes}
  {go : { c : Node α // c ∈ n.children } → Bytes → Except Defect (Option Bytes)}
  {via via' : Option (Option Bytes)} {d : Char}

theorem verdict_wild (h : n.hasWild = true) : n.verdict fix rest none = none := by
  rw [verdict, if_pos h]

theorem verdict_join (h : fix = true → rest = [slash] → n.value.isSome = true → via ≠ some none) :
    n.verdict fix rest via = n.verdict fix rest (via.join.map some) := by
  cases via with
  | none => rfl
  | some answer =>
      cases answer with
      | some q => rfl
      | none =>
          have hslash : (fix && rest == [slash] && n.value.isSome) = false := by
            rw [Bool.eq_false_iff]
            intro hall
            simp only [Bool.and_eq_true, beq_iff_eq] at hall
            exact h hall.1.1 hall.1.2 hall.2 rfl
          simp [verdict, hslash]

theorem viaStatic_eq (hacross : charAcross path n.label.length = (d, 0)) (hawaited : awaited.headD 0 = 0)
    (hlower : n.viaKey (String.utf8EncodeChar (lowerChar d)) go = .ok via)
    (hupper : n.viaKey (String.utf8EncodeChar (upperChar d)) go = .ok via')
    (hslash : rest = [slash] → upperChar d = lowerChar d) :
    n.viaStatic fix path rest awaited go =
      .ok (n.verdict fix rest ((via.join.or via'.join).map some)) := by
  unfold viaStatic
  rw [hacross]
  dsimp only
  rw [List.drop_zero, List.drop_zero]
  split
  · next hempty =>
      simp only [Bool.and_eq_true, List.isEmpty_iff] at hempty
      have hnone (b : UInt8) : n.keyed b = .ok none := keyed_none (slot_none.2 (by simp [hempty.1]))
      rw [viaKey, hnone] at hlower hupper
      cases hlower
      cases hupper
      exact congrArg Except.ok (verdict_wild hempty.2).symm
  rw [if_neg (Decidable.not_not.2 hawaited), hlower]
  have hmissed (hvia : via.join = none) :
      (if upperChar d = lowerChar d then Except.ok (n.verdict fix rest none)
        else (n.viaKey (String.utf8EncodeChar (upperChar d)) go).map (n.verdict fix rest)) =
        .ok (n.verdict fix rest ((via.join.or via'.join).map some)) := by
    rw [hvia, Option.none_or]
    split
    · next hsame =>
        rw [hsame, hlower] at hupper
        cases hupper
        rw [hvia]
        rfl
    · next hother =>
        rw [hupper]
        refine congrArg Except.ok (verdict_join fun _ hrest => ?_)
        exact absurd (hslash hrest) hother
  cases via with
  | none => exact hmissed rfl
  | some answer =>
      cases answer with
      | some q => rfl
      | none => exact hmissed rfl

/-- What the answer of a static child comes to: what the patterns say, or a slash that is dropped at
a node where no parameter takes it. -/
inductive Told (fix : Bool) (n : Node α) (rest : Bytes) (expected : Option Bytes) :
    Option Bytes → Prop
  | same : Told fix n rest expected expected
  | dropped (hfix : fix = true) (hrest : rest = [slash]) (hvalue : n.value.isSome = true)
      (hwild : n.hasWild = false) (hnone : expected = none) : Told fix n rest expected (some [])

/-- The search from a node is that of its patterns, but for a slash that the node above drops. -/
def Follows (fix : Bool) (n : Node α) (path pending : Bytes) (above : Bool) : Prop :=
  recase fix n path pending above =
    .ok (if fix = true ∧ path = [slash] ∧ above = true ∧ n.fits [slash] = false then some []
      else Pattern.recase fix n.patternSet path)

theorem Keyed.off_slash {c : Node α} (h : c.Keyed slash) (hc : c.Sound) (hoff : c.fits [slash] = false) :
    ∃ slots wild x label, c.IsBranch slots wild ∧ c.label = slash :: x :: label := by
  cases hc.stands h.standing with
  | holder leaf name hit hholder =>
      rw [fits, hholder.label] at hoff
      cases hoff
  | branch slots wild hbranch =>
      cases hlabel : c.label with
      | nil =>
          rw [fits, hlabel] at hoff
          cases hoff
      | cons b label =>
          have hhead := h.head hc hbranch.kind (by simp [hlabel])
          rw [hlabel] at hhead
          cases hhead
          cases label with
          | nil =>
              rw [fits, hlabel] at hoff
              exact absurd (foldEq_refl []) (by simpa using hoff)
          | cons x label => exact ⟨slots, wild, x, label, hbranch, rfl⟩

theorem begins_of_sameCase {b k : UInt8} {tail : Bytes} (hbk : SameCase b k)
    (hlabel : n.label.head? = some k) :
    StartsAlike (b :: tail) n.label := by
  intro p l hp hl
  cases hp
  cases hl.symm.trans hlabel
  exact hbk

theorem IsBranch.hasWild_false (h : n.IsBranch slots wild) (hn : n.Sound)
    (hall : ∀ name more, .param name :: more ∉ n.heldSet) : n.hasWild = false := by
  rw [h.hasWild]
  cases wild with
  | none => rfl
  | some w =>
      have hw : w.Sound := hn.child h.mem_of_wild
      obtain ⟨name, next, hparam⟩ := hw.param (h.param w rfl)
      obtain ⟨p, hp⟩ := hw.heldSet_nonempty
      exact absurd ((h.mem_param hn hparam).1 hp) (hall name p)

theorem IsBranch.beyond_slash (h : n.IsBranch slots wild) (hn : n.Sound) {x : UInt8} {label : Bytes}
    (hlabel : n.label = slash :: x :: label) :
    (∃ more, .literal slash :: .literal x :: more ∈ n.patternSet) ∧ [.literal slash] ∉ n.patternSet := by
  constructor
  · obtain ⟨q, hq⟩ := hn.heldSet_nonempty
    refine ⟨literals label ++ q, ?_⟩
    rw [h.patternSet, hlabel]
    exact mem_under.2 ⟨q, hq, rfl⟩
  · rw [h.patternSet, hlabel, mem_under]
    rintro ⟨q, -, hq⟩
    cases hq

theorem IsBranch.plain_slot (h : n.IsBranch slots wild) (hn : n.Sound) {c : Node α} {k : UInt8}
    (hs : (k, c) ∈ slots) (hplain : Plain n.heldSet path) : Plain c.patternSet path := by
  refine hplain.mono fun p hp => ?_
  rw [h.slotSet hn hs] at hp
  exact (mem_child.1 hp).1

theorem IsBranch.steady_slot (h : n.IsBranch slots wild) (hn : n.Sound) {c : Node α} {b k : UInt8}
    {tail : Bytes} (hs : (k, c) ∈ slots) (hsteady : Steady n.heldSet (b :: tail)) :
    Steady c.patternSet (b :: tail) := by
  rw [h.slotSet hn hs]
  exact hsteady.child

theorem IsBranch.told_slash (h : n.IsBranch slots wild) (hn : n.Sound) {c : Node α}
    (hs : (slash, c) ∈ slots) (hfix : fix = true) (hvalue : n.value.isSome = true)
    (hoff : c.fits [slash] = false) (hplain : Plain n.heldSet [slash])
    (hsteady : Steady n.heldSet [slash]) :
    Told fix n [slash] (Pattern.recase fix c.patternSet [slash]) (some []) := by
  have hkeyed : c.Keyed slash := h.keyed _ hs
  have hsound : c.Sound := hn.child (h.mem_of_slot hs)
  have hset := h.slotSet hn hs
  obtain ⟨slots', wild', x, label, h', hlabel⟩ := hkeyed.off_slash hsound hoff
  have hbegins : StartsAlike [slash] c.label := begins_of_sameCase sameCase_slash (by rw [hlabel]; rfl)
  obtain ⟨⟨more, hmore⟩, hnot⟩ := h'.beyond_slash hsound hlabel
  rw [hset] at hnot hmore
  refine .dropped hfix rfl hvalue (h.hasWild_false hn fun name more hmem => ?_)
    (h'.recase_slash hsound (h.plain_slot hn hs hplain) hbegins hoff fun _ => h.steady_slot hn hs hsteady)
  rcases hsteady.drop [] x _ ((h.nil_mem hn).2 hvalue) (mem_child.1 hmore).1 ⟨sameCase_slash, rfl⟩
    with hslash | hall
  · exact hnot (mem_child.2 ⟨hslash, [], rfl⟩)
  · exact (hall name).2 more hmem

theorem IsBranch.told (h : n.IsBranch slots wild) (hn : n.Sound) {b k : UInt8} {tail : Bytes}
    (hbk : SameCase b k) (hplain : Plain n.heldSet (b :: tail))
    (hsteady : fix = true → Steady n.heldSet (b :: tail))
    (hfollows : ∀ c, (k, c) ∈ slots → Follows fix c (b :: tail) [k] n.value.isSome) :
    ∃ via, (n.viaKey [k] fun c spelling => recase fix c.1 (b :: tail) spelling n.value.isSome) = .ok via ∧
      Told fix n (b :: tail) ((Pattern.recase fix (past k n.heldSet) tail).map (k :: ·)) via.join := by
  rcases h.keyed_cases k with ⟨hnone, hk⟩ | ⟨c, hc, hs⟩
  · refine ⟨none, by rw [viaKey, List.headD_cons, hnone], ?_⟩
    rw [h.past_empty hn hk, recase_empty]
    exact .same
  · have hrecase := hfollows c.1 hs
    refine ⟨_, by rw [viaKey, List.headD_cons, hc]; dsimp only; rw [hrecase]; rfl, ?_⟩
    have hset := h.slotSet hn hs
    have hbyte : Pattern.recase fix c.1.patternSet (b :: tail) =
        (Pattern.recase fix (past k n.heldSet) tail).map (k :: ·) := by
      rw [hset, recase_byte, if_pos ((sameCase_iff hbk.left).1 hbk)]
    rw [← hbyte]
    split
    · next hall =>
        obtain ⟨hfix, hslash, hvalue, hoff⟩ := hall
        obtain ⟨rfl, rfl⟩ := List.cons.inj hslash
        cases hbk.eq_slash_iff.1 rfl
        exact h.told_slash hn hs hfix hvalue hoff hplain (hsteady hfix)
    · exact .same

theorem Told.or {e e' a a' : Option Bytes} (h : Told fix n rest e a) (h' : Told fix n rest e' a')
    (hslash : rest = [slash] → e = e') : Told fix n rest (e.or e') (a.or a') := by
  cases h with
  | same =>
      cases h' with
      | same => exact .same
      | dropped hfix hrest hvalue hwild hnone =>
          have hboth : e = none := (hslash hrest).trans hnone
          rw [hboth, hnone]
          exact .dropped hfix hrest hvalue hwild rfl
  | dropped hfix hrest hvalue hwild hnone =>
      have hboth : e' = none := (hslash hrest).symm.trans hnone
      rw [hboth, hnone]
      exact .dropped hfix hrest hvalue hwild rfl

/-- A character outside ASCII leads to no static child. -/
theorem IsBranch.keyed_high (h : n.IsBranch slots wild) (hn : n.Sound)
    (hlow : ∀ b q, .literal b :: q ∈ n.heldSet → b < 0x80) {b : UInt8} (hb : ¬ b < 0x80) :
    n.keyed b = .ok none ∧ past b n.heldSet = ∅ := by
  have hkey : b ∉ n.keys := by
    intro hmem
    rw [h.keys, List.mem_map] at hmem
    obtain ⟨s, hs, rfl⟩ := hmem
    have hc := h.mem_of_slot hs
    obtain ⟨⟨p, hit⟩, he⟩ := List.exists_mem_of_ne_nil _ (Sound.entries_ne_nil (hn.child hc))
    obtain ⟨q, hq⟩ := (h.keyed s hs).opens _ he
    have hp : p = .literal s.1 :: q := hq
    exact hb (hlow s.1 q (mem_heldSet.2 ⟨hit, child_subset hc (hp ▸ he)⟩))
  exact ⟨keyed_none (slot_none.2 hkey), h.past_empty hn hkey⟩

theorem IsBranch.viaKey_high (h : n.IsBranch slots wild) (hn : n.Sound)
    (hlow : ∀ b q, .literal b :: q ∈ n.heldSet → b < 0x80) {e : Char} (he : 128 ≤ e.toNat)
    (go : { c : Node α // c ∈ n.children } → Bytes → Except Defect (Option Bytes)) :
    n.viaKey (String.utf8EncodeChar e) go = .ok none := by
  obtain ⟨a, as, ha, -⟩ := front_char e []
  have hhigh : ¬ a < 0x80 :=
    encodeChar_high (fun hle => Nat.not_lt.2 he (Nat.lt_succ_of_le hle)) a (by simp [ha])
  rw [viaKey, ha, List.headD_cons, (h.keyed_high hn hlow hhigh).1]

theorem IsBranch.viaStatic_told (h : n.IsBranch slots wild) (hn : n.Sound) {b : UInt8} {tail : Bytes}
    (hrest : path.drop n.label.length = b :: tail) (hawaited : awaited.headD 0 = 0)
    (hplain : Plain n.heldSet (b :: tail)) (hsteady : fix = true → Steady n.heldSet (b :: tail))
    (hfollows : ∀ k c, (k, c) ∈ slots → SameCase b k →
      Follows fix c (b :: tail) [k] n.value.isSome) :
    ∃ answer, (n.viaStatic fix path (b :: tail) awaited fun c spelling =>
        recase fix c.1 (b :: tail) spelling n.value.isSome) =
          .ok (n.verdict fix (b :: tail) (answer.map some)) ∧
      Told fix n (b :: tail)
        (((Pattern.recase fix (past (lowerByte b) n.heldSet) tail).map (lowerByte b :: ·)).or
          ((Pattern.recase fix (past (upperByte b) n.heldSet) tail).map (upperByte b :: ·))) answer := by
  cases hplain.head (List.cons_ne_nil b tail) with
  | ascii b' tail' hcons hb hfirst =>
      cases hcons
      have hlower := (sameCase_iff hb).2 (.inl rfl)
      have hupper := (sameCase_iff hb).2 (.inr rfl)
      obtain ⟨via, hvia, htold⟩ := h.told hn hlower hplain hsteady fun c hs => hfollows _ c hs hlower
      obtain ⟨via', hvia', htold'⟩ := h.told hn hupper hplain hsteady fun c hs => hfollows _ c hs hupper
      have hacross : charAcross path n.label.length = (charOf b, 0) :=
        charAcross_start (by rw [hrest]; exact hfirst)
      rw [← encode_lower hb] at hvia
      rw [← encode_upper hb] at hvia'
      refine ⟨_, viaStatic_eq hacross hawaited hvia hvia' fun hslash => ?_,
        htold.or htold' fun hslash => ?_⟩
      · cases hslash
        decide +kernel
      · cases hslash
        rfl
  | foreign b' tail' hcons hb d hfirst hd =>
      cases hcons
      have hacross : charAcross path n.label.length = (d, 0) :=
        charAcross_start (by rw [hrest]; exact hfirst)
      have hlow : ∀ b q, .literal b :: q ∈ n.heldSet → b < 0x80 := fun _ _ => hd.head
      have hlower := (h.keyed_high hn hlow (mt lowerByte_low.1 hb)).2
      have hupper := (h.keyed_high hn hlow (mt upperByte_low.1 hb)).2
      refine ⟨_, viaStatic_eq hacross hawaited (h.viaKey_high hn hlow hd.lower _)
        (h.viaKey_high hn hlow hd.upper _) fun hslash => ?_, ?_⟩
      · cases hslash
        exact absurd slash_low hb
      · rw [hlower, hupper, recase_empty]
        exact .same

end Static

section Param

variable {name : Bytes} {next : Option (Node α)}

theorem IsParam.slash_mem (h : w.IsParam name (some c)) (hc : c.Sound) (hmarked : c.Marked) :
    [.literal slash] ∈ w.heldSet ↔ c.label = [slash] ∧ c.value.isSome = true := by
  have hkeyed := h.keyed c rfl
  have hset : [.literal slash] ∈ w.heldSet ↔ [.literal slash] ∈ c.patternSet := by
    rw [h.nextSet, mem_child]
    exact (and_iff_left ⟨[], rfl⟩).symm
  rw [hset]
  constructor
  · intro hmem
    obtain ⟨hit, he⟩ := mem_patternSet.1 hmem
    exact hkeyed.slash_value hc hmarked he
  · rintro ⟨hlabel, hvalue⟩
    obtain ⟨hit, he⟩ := hkeyed.slash_entry hc (by rw [hlabel]; rfl) hvalue
    exact mem_patternSet.2 ⟨hit, he⟩

theorem IsParam.closeParam_eq (h : w.IsParam name next) (hw : w.Sound) (hneat : w.Neat) :
    closeParam fix w =
      if [] ∈ w.heldSet then some []
      else if fix = true ∧ [.literal slash] ∈ w.heldSet then some [slash] else none := by
  rw [closeParam]
  by_cases hvalue : w.value.isSome = true
  · rw [if_pos hvalue, if_pos (h.nil_mem.2 hvalue)]
  rw [if_neg hvalue, if_neg (mt h.nil_mem.1 hvalue), h.children]
  cases next with
  | none =>
      rw [if_neg]
      · rfl
      rintro ⟨-, hmem⟩
      rw [← mem_past, h.past_empty] at hmem
      exact Finset.notMem_empty _ hmem
  | some c =>
      have hc : c ∈ w.children := by simp [h.children]
      refine if_congr ?_ rfl rfl
      rw [h.slash_mem (hw.child hc) (hneat.marked c hc)]
      simp [and_assoc]

theorem IsParam.past_nonempty (h : w.IsParam name (some c)) (hc : c.Sound) :
    past slash w.heldSet ≠ ∅ := by
  intro hempty
  obtain ⟨⟨p, hit⟩, he⟩ := List.exists_mem_of_ne_nil _ hc.entries_ne_nil
  have hp := mem_patternSet.2 ⟨hit, he⟩
  rw [h.nextSet, hempty] at hp
  simp at hp

theorem IsParam.viaWild_eq (h : w.IsParam name next) (hw : w.Sound) (hneat : w.Neat)
    (hfollows : ∀ c more, next = some c → rest.dropWhile (· ≠ slash) = slash :: more →
      recase fix c (slash :: more) [] w.value.isSome =
        .ok (Pattern.recase fix c.patternSet (slash :: more)))
    {es : Finset (List Element)} (hes : pastParam es = w.heldSet) :
    (w.viaWild fix rest fun c after => recase fix c.1 after [] w.value.isSome) =
      .ok (leftover fix es rest (Pattern.recase fix (past slash (pastParam es))
        (rest.dropWhile (· ≠ slash)).tail)) := by
  have hne : w.heldSet ≠ ∅ := by
    obtain ⟨p, hp⟩ := hw.heldSet_nonempty
    exact Finset.ne_empty_of_mem hp
  unfold viaWild
  rw [h.kind, leftover, hes, if_neg hne]
  dsimp only
  split
  · next hnil =>
      rw [if_pos hnil, h.closeParam_eq hw hneat]
      split
      · simp
      split <;> rfl
  · next hchildren hafter =>
      obtain ⟨more, hmore⟩ := after_slash hafter
      have hnone : next = none := by simpa [h.children] using hchildren
      subst hnone
      rw [if_neg hafter, if_pos h.past_empty, hmore]
      refine congrArg Except.ok (if_congr ?_ rfl rfl)
      rw [h.nil_mem]
      simp [and_assoc]
  · next c cs hchildren hafter =>
      obtain ⟨more, hmore⟩ := after_slash hafter
      have hsome : next = some c := h.next_of_head (by rw [hchildren]; rfl)
      subst hsome
      have hc : c ∈ w.children := by simp [hchildren]
      have hbyte : Pattern.recase fix c.patternSet (slash :: more) =
          (Pattern.recase fix (past slash w.heldSet) more).map (slash :: ·) := by
        rw [h.nextSet, recase_byte, if_pos (.inl rfl)]
      rw [if_neg hafter, if_neg (h.past_nonempty (hw.child hc)), hmore, hfollows c more rfl hmore, hbyte,
        Except.map, Option.map_map]
      rfl

end Param

end HttpRouting.Node

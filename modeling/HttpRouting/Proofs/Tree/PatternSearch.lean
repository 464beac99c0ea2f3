import HttpRouting.Proofs.Tree.PatternBelow

namespace HttpRouting.Node

open Bytes Pattern Utf8

variable {α : Type} {fix above : Bool} {n w c : Node α} {path rest pending : Bytes}

section Node

variable {slots : List (UInt8 × Node α)} {wild : Option (Node α)} {b k : UInt8} {tail : Bytes}

theorem IsBranch.leftover_none (h : n.IsBranch slots none) (hn : n.Sound) (next : Option Bytes) :
    leftover fix n.heldSet rest next =
      if fix && rest == [slash] && n.value.isSome then some [] else none := by
  rw [leftover, if_pos (h.wildSet_none hn)]
  refine if_congr ?_ rfl rfl
  rw [h.nil_mem hn]
  simp [and_assoc]

theorem IsBranch.recase_rest (h : n.IsBranch slots wild) (hn : n.Sound) (hfits : n.fits path = true)
    (hrest : path.drop n.label.length = b :: tail) {expected answer : Option Bytes}
    (hstatic : (n.viaStatic fix path (b :: tail) (pending.drop n.label.length) fun c spelling =>
      recase fix c.1 (b :: tail) spelling n.value.isSome) =
        .ok (n.verdict fix (b :: tail) (answer.map some)))
    (htold : Told fix n (b :: tail) expected answer) {next : Option Bytes}
    (hwild : ∀ w, wild = some w →
      (w.viaWild fix (b :: tail) fun c after => recase fix c.1 after [] w.value.isSome) =
        .ok (leftover fix n.heldSet (b :: tail) next)) :
    recase fix n path pending above =
      .ok ((expected.or (leftover fix n.heldSet (b :: tail) next)).map (n.label ++ ·)) := by
  rw [recase, if_pos hfits, hrest]
  dsimp only
  rw [if_neg (List.cons_ne_nil b tail), hstatic]
  cases htold with
  | dropped hfix hslash hvalue hnowild hnone =>
      cases wild with
      | some w => simp [h.hasWild] at hnowild
      | none =>
          rw [h.leftover_none hn, hnone, hfix, hslash, hvalue]
          rfl
  | same =>
      cases expected with
      | some q => rfl
      | none =>
          rw [Option.none_or, Option.map_none]
          cases wild with
          | none =>
              have hnowild : n.hasWild = false := h.hasWild
              rw [h.leftover_none hn, verdict, hnowild]
              rfl
          | some w =>
              have hchildren : n.children = slots.map Prod.snd ++ [w] := h.children
              obtain ⟨hmem, hlast⟩ := lastChild_eq hchildren
              rw [verdict_wild h.hasWild, hlast]
              dsimp only
              rw [hwild w rfl]
              rfl

theorem IsBranch.viaStatic_awaited (h : n.IsBranch slots wild) (path : Bytes) (hn : n.Sound)
    (hbk : SameCase b k) (hk : k ≠ 0) (hopens : ∀ p ∈ n.heldSet, ∃ q, p = .literal k :: q)
    (hplain : Plain n.heldSet (b :: tail)) (hsteady : fix = true → Steady n.heldSet (b :: tail))
    (hfollows : ∀ c, (k, c) ∈ slots → Follows fix c (b :: tail) [k] n.value.isSome) :
    ∃ answer, (n.viaStatic fix path (b :: tail) [k] fun c spelling =>
        recase fix c.1 (b :: tail) spelling n.value.isSome) =
          .ok (n.verdict fix (b :: tail) (answer.map some)) ∧
      Told fix n (b :: tail) (Pattern.recase fix n.heldSet (b :: tail)) answer := by
  have hnil : [] ∉ n.heldSet := by
    intro hmem
    obtain ⟨q, hq⟩ := hopens [] hmem
    cases hq
  have hvalue : ¬ n.value.isSome = true := mt (h.nil_mem hn).2 hnil
  have hkeys : (n.keys.isEmpty && n.hasWild) = false := by
    rw [h.hasWild_false hn fun name more hmem => ?_, Bool.and_false]
    obtain ⟨q, hq⟩ := hopens _ hmem
    cases hq
  obtain ⟨via, hvia, htold⟩ := h.told hn hbk hplain hsteady hfollows
  have hbyte : Pattern.recase fix n.heldSet (b :: tail) =
      (Pattern.recase fix (past k n.heldSet) tail).map (k :: ·) := by
    conv_lhs => rw [← under_past hopens]
    rw [recase_byte, if_pos ((sameCase_iff hbk.left).1 hbk)]
  refine ⟨via.join, ?_, hbyte ▸ htold⟩
  unfold viaStatic
  dsimp only
  rw [hkeys, if_neg Bool.false_ne_true, List.headD_cons, if_pos hk, hvia]
  exact congrArg Except.ok (verdict_join fun _ _ hval => absurd hval hvalue)

theorem IsHolder.follows {leaf : Node α} {name : Bytes} (h : n.IsHolder leaf) (hleaf : leaf.IsLeaf name)
    {hit : Hit α} (hhit : leaf.hit? = some hit) : Follows fix n (slash :: tail) pending above := by
  have hset : n.patternSet = under [slash] {[.catchAll name]} := by
    ext p
    rw [patternSet, h.entries, hleaf.entries hhit]
    simp [patterns, literals, eq_comm]
  have hcatches : Catches {[Element.catchAll name]} :=
    catches_iff.2 ⟨name, [], Finset.mem_singleton_self _⟩
  have hfits : n.fits (slash :: tail) = true := by simp [fits, h.label]
  have hfits' : ¬ n.fits [slash] = false := by simp [fits, h.label]
  have hchildren : n.children = [] ++ [leaf] := h.children
  obtain ⟨hmem, hlast⟩ := lastChild_eq hchildren
  have hstatic (go : { c : Node α // c ∈ n.children } → Bytes → Except Defect (Option Bytes)) :
      n.viaStatic fix (slash :: tail) (slash :: tail) (pending.drop 0) go = .ok none := by
    unfold viaStatic
    dsimp only
    rw [h.keys, h.hasWild]
    rfl
  rw [Follows, if_neg fun hall => hfits' hall.2.2.2, hset, recase_byte, if_pos (.inl rfl),
    recase_catches hcatches, recase, if_pos hfits, h.label]
  dsimp only
  rw [List.length_nil, List.drop_zero, if_neg (List.cons_ne_nil _ _), hstatic]
  dsimp only
  rw [hlast]
  dsimp only
  rw [viaWild_leaf hleaf.kind]
  rfl

theorem IsBranch.fits_next (h : n.IsBranch slots (some w)) (hn : n.Sound) {name : Bytes}
    (hw : w.IsParam name (some c)) (hsteady : Steady n.heldSet (b :: tail))
    (hvalue : w.value.isSome = true) (hslash : (b :: tail).dropWhile (· ≠ slash) = [slash]) :
    c.fits [slash] = true := by
  rw [← Bool.not_eq_false]
  intro hoff
  have hc : c.Sound := (hn.child h.mem_of_wild).child (by simp [hw.children])
  obtain ⟨slots', wild', x, label, h', hlabel⟩ := (hw.keyed c rfl).off_slash hc hoff
  obtain ⟨⟨more, hmore⟩, hnot⟩ := h'.beyond_slash hc hlabel
  rw [hw.nextSet] at hmore hnot
  have hend : [.param name] ∈ n.heldSet := (h.mem_param hn hw).1 (hw.nil_mem.2 hvalue)
  have hon : [.param name] ++ .literal slash :: .literal x :: more ∈ n.heldSet :=
    (h.mem_param hn hw).1 (mem_child.1 hmore).1
  have hfold : FoldMatches ([.param name] ++ [.literal slash]) (b :: tail) := by
    rw [List.singleton_append, FoldMatches, hslash]
    exact ⟨sameCase_slash, rfl⟩
  rcases hsteady.drop [.param name] x more hend hon hfold with hmem | hall
  · exact hnot (mem_child.2 ⟨(h.mem_param hn hw).2 hmem, [], rfl⟩)
  · exact (hall name).1 (List.suffix_refl _)

theorem IsBranch.follows_off (h : n.IsBranch slots wild) (hn : n.Sound)
    (hbegins : StartsAlike (b :: tail) n.label) (hfits : n.fits (b :: tail) = false)
    (hplain : Plain n.patternSet (b :: tail))
    (hsteady : fix = true → Steady n.patternSet (b :: tail)) : Follows fix n (b :: tail) pending above := by
  rw [Follows, recase, if_neg (by simp [hfits]),
    h.closeBefore_eq hn hplain hbegins (List.cons_ne_nil b tail) hfits hsteady]
  refine congrArg Except.ok (if_congr ⟨fun hall => ?_, fun hall => ?_⟩ rfl rfl)
  · exact ⟨hall.1, hall.2.1, hall.2.2, hall.2.1 ▸ hfits⟩
  · exact ⟨hall.1, hall.2.1, hall.2.2.1⟩

theorem IsBranch.recase_end (h : n.IsBranch slots wild) (hn : n.Sound) (hneat : n.Neat)
    (hshared : n.Shared) (hfits : n.fits path = true) (hrest : path.drop n.label.length = [])
    (hsteady : fix = true → Steady n.heldSet []) :
    recase fix n path pending above =
      .ok ((Pattern.recase fix n.heldSet []).map (n.label ++ ·)) := by
  rw [recase, if_pos hfits]
  dsimp only
  rw [if_pos hrest, h.closeAt_eq hn hneat hshared hsteady]
  rfl

/-- What a node waits for of a character across the end of its label: nothing, or the byte that all its
patterns go on with. -/
inductive Waits (n : Node α) (b : UInt8) : Bytes → Prop
  | nothing {awaited : Bytes} (hnone : awaited.headD 0 = 0) : Waits n b awaited
  | byte {k : UInt8} (hk : k ≠ 0) (hbk : SameCase b k)
      (hopens : ∀ p ∈ n.heldSet, ∃ q, p = .literal k :: q) : Waits n b [k]

theorem IsBranch.recase_on (h : n.IsBranch slots wild) (hn : n.Sound) (hneat : n.Every Neat)
    (hfits : n.fits path = true) (hrest : path.drop n.label.length = b :: tail)
    (hplain : Plain n.heldSet (b :: tail)) (hsteady : fix = true → Steady n.heldSet (b :: tail))
    (hwaits : n.Waits b (pending.drop n.label.length))
    (hchild : ∀ k c, (k, c) ∈ slots → SameCase b k → Follows fix c (b :: tail) [k] n.value.isSome)
    (hnext : ∀ w c more, wild = some w → c ∈ w.children →
      (b :: tail).dropWhile (· ≠ slash) = slash :: more →
        Follows fix c (slash :: more) [] w.value.isSome) :
    recase fix n path pending above =
      .ok ((Pattern.recase fix n.heldSet (b :: tail)).map (n.label ++ ·)) := by
  have hcatches := h.not_catches hn
  have hwild : ∀ w, wild = some w →
      (w.viaWild fix (b :: tail) fun c after => recase fix c.1 after [] w.value.isSome) =
        .ok (leftover fix n.heldSet (b :: tail) (Pattern.recase fix
          (past slash (pastParam n.heldSet)) ((b :: tail).dropWhile (· ≠ slash)).tail)) := by
    rintro w rfl
    have hmem := h.mem_of_wild
    obtain ⟨name, next, hw⟩ := Sound.param (hn.child hmem) (h.param w rfl)
    refine hw.viaWild_eq (hn.child hmem) (hneat.child hmem).here (fun c more hc hmore => ?_)
      (h.wildSet hn hw)
    subst hc
    have hfollows := hnext w c more rfl (by simp [hw.children]) hmore
    rw [Follows, if_neg] at hfollows
    · exact hfollows
    rintro ⟨hfix, hslash, hvalue, hoff⟩
    rw [h.fits_next hn hw (hsteady hfix) hvalue (hmore.trans hslash)] at hoff
    cases hoff
  generalize hawaited : pending.drop n.label.length = awaited at hwaits
  cases hwaits with
  | nothing hnone =>
      rw [← hawaited] at hnone
      obtain ⟨answer, hstatic, htold⟩ := h.viaStatic_told hn hrest hnone hplain hsteady hchild
      rw [h.recase_rest hn hfits hrest hstatic htold hwild, Pattern.recase, if_neg hcatches]
  | @byte k hk hbk hopens =>
      obtain ⟨answer, hstatic, htold⟩ := h.viaStatic_awaited path hn hbk hk hopens hplain hsteady
        fun c hs => hchild k c hs hbk
      rw [← hawaited] at hstatic
      have hleftover (next : Option Bytes) : leftover fix n.heldSet (b :: tail) next = none := by
        rw [← under_past hopens]
        exact leftover_under ..
      rw [h.recase_rest hn hfits hrest hstatic htold hwild, hleftover, Option.or_none]

theorem IsBranch.begins (h : n.IsBranch slots wild) (hn : n.Sound) (hopens : n.OpensWith k)
    (hbk : SameCase b k) : StartsAlike (b :: tail) n.label := by
  intro p l hp hl
  obtain ⟨label, hlabel⟩ := List.head?_eq_some_iff.1 hl
  obtain ⟨⟨q, hit⟩, he⟩ := List.exists_mem_of_ne_nil _ hn.entries_ne_nil
  obtain ⟨q', hq'⟩ := hopens _ he
  have hq := mem_patternSet.2 ⟨hit, he⟩
  rw [h.patternSet, hlabel, mem_under] at hq
  obtain ⟨q'', -, hq''⟩ := hq
  cases hq''.trans hq'
  cases hp
  exact hbk

theorem IsBranch.waits (h : n.IsBranch slots wild) (hopens : n.OpensWith k)
    (hpending : pending = [] ∨ pending = [k]) (hbk : n.label = [] → SameCase b k) :
    n.Waits b (pending.drop n.label.length) := by
  rcases hpending with rfl | rfl
  · exact .nothing (by simp)
  cases hlabel : n.label with
  | cons a label => exact .nothing (by simp)
  | nil =>
      by_cases hk : k = 0
      · exact .nothing (by simpa using hk)
      · refine .byte hk (hbk hlabel) ?_
        have hall := hopens.patternSet
        rwa [h.patternSet, hlabel, under_nil] at hall

theorem IsBranch.plain_held (h : n.IsBranch slots wild) {front : Bytes}
    (hfront : List.Forall₂ SameCase front n.label) (hplain : Plain n.patternSet (front ++ rest)) :
    Plain n.heldSet rest := by
  rw [h.patternSet] at hplain
  exact hplain.label hfront

theorem IsBranch.steady_held (h : n.IsBranch slots wild) {front : Bytes}
    (hfront : List.Forall₂ SameCase front n.label) (hsteady : Steady n.patternSet (front ++ rest)) :
    Steady n.heldSet rest := by
  rw [h.patternSet] at hsteady
  exact hsteady.label hfront

section Next

variable (h : n.IsBranch slots (some w)) (hn : n.Sound) {name : Bytes} (hw : w.IsParam name (some c))
include h hn hw

theorem IsBranch.plain_next (hplain : Plain n.heldSet path) :
    Plain c.patternSet (path.dropWhile (· ≠ slash)) := by
  refine hplain.afterSegment name fun p hp => ?_
  rw [hw.nextSet] at hp
  exact (h.mem_param hn hw).1 (mem_child.1 hp).1

theorem IsBranch.steady_next {more : Bytes} (hmore : (b :: tail).dropWhile (· ≠ slash) = slash :: more)
    (hsteady : Steady n.heldSet (b :: tail)) : Steady c.patternSet (slash :: more) := by
  rw [hw.nextSet]
  refine Steady.child (hsteady.behind [.param name] (fun p => h.mem_param hn hw) fun p hp => ?_)
  rw [List.singleton_append, FoldMatches, hmore]
  exact hp

end Next

/-- What insertions keep at a node from which the search goes on. -/
structure Searchable (n : Node α) : Prop where
  sound : n.Sound
  standing : n.Standing
  neat : n.Every Neat
  shared : n.Every Shared

def Agrees (fix : Bool) (n : Node α) : Prop :=
  ∀ {b k : UInt8} {tail pending : Bytes} {above : Bool}, n.OpensWith k → SameCase b k →
    (pending = [] ∨ pending = [k]) → Plain n.patternSet (b :: tail) →
      (fix = true → Steady n.patternSet (b :: tail)) → Follows fix n (b :: tail) pending above

section Below

variable (h : n.IsBranch slots wild) (hn : n.Searchable)
  (below : ∀ c : Node α, c.size < n.size → c.Searchable → Agrees fix c)
include h hn below

theorem IsBranch.follows_slot (hs : (k, c) ∈ slots) (hbk : SameCase b k)
    (hplain : Plain n.heldSet (b :: tail)) (hsteady : fix = true → Steady n.heldSet (b :: tail)) :
    Follows fix c (b :: tail) [k] above := by
  have hmem := h.mem_of_slot hs
  have hkeyed : c.Keyed k := h.keyed _ hs
  have hc : c.Searchable :=
    ⟨hn.sound.child hmem, hkeyed.standing, hn.neat.child hmem, hn.shared.child hmem⟩
  exact below c (size_lt_of_mem hmem) hc hkeyed.opens hbk (.inr rfl) (h.plain_slot hn.sound hs hplain)
    fun hfix => h.steady_slot hn.sound hs (hsteady hfix)

theorem IsBranch.follows_next {more : Bytes} (hwild : wild = some w) (hc : c ∈ w.children)
    (hmore : (b :: tail).dropWhile (· ≠ slash) = slash :: more)
    (hplain : Plain n.heldSet (b :: tail)) (hsteady : fix = true → Steady n.heldSet (b :: tail)) :
    Follows fix c (slash :: more) [] above := by
  subst hwild
  have hmem := h.mem_of_wild
  obtain ⟨name, next, hw⟩ := Sound.param (hn.sound.child hmem) (h.param w rfl)
  have hnext : next = some c := by rwa [hw.children, Option.mem_toList] at hc
  subst hnext
  have hkeyed := hw.keyed c rfl
  have hsize := Nat.lt_trans (size_lt_of_mem hc) (size_lt_of_mem hmem)
  have hc : c.Searchable := ⟨(hn.sound.child hmem).child hc, hkeyed.standing,
    (hn.neat.child hmem).child hc, (hn.shared.child hmem).child hc⟩
  refine below c hsize hc hkeyed.opens sameCase_slash (.inl rfl) ?_ fun hfix => ?_
  · exact hmore ▸ h.plain_next hn.sound hw hplain
  · exact h.steady_next hn.sound hw hmore (hsteady hfix)

theorem IsBranch.recase_held (hfits : n.fits path = true) (hdrop : path.drop n.label.length = rest)
    (hplain : Plain n.heldSet rest) (hsteady : fix = true → Steady n.heldSet rest)
    (hwaits : ∀ b tail, rest = b :: tail → n.Waits b (pending.drop n.label.length)) :
    recase fix n path pending above = .ok ((Pattern.recase fix n.heldSet rest).map (n.label ++ ·)) := by
  cases rest with
  | nil => exact h.recase_end hn.sound hn.neat.here hn.shared.here hfits hdrop hsteady
  | cons b tail =>
      exact h.recase_on hn.sound hn.neat hfits hdrop hplain hsteady (hwaits b tail rfl)
        (fun k c hs hbk => h.follows_slot hn below hs hbk hplain hsteady)
        fun w c more hw hc hmore => h.follows_next hn below hw hc hmore hplain hsteady

theorem IsBranch.agrees : Agrees fix n := by
  intro b k tail pending above hopens hbk hpending hplain hsteady
  have hbegins : StartsAlike (b :: tail) n.label := h.begins hn.sound hopens hbk
  by_cases hfits : n.fits (b :: tail) = true
  swap
  · exact h.follows_off hn.sound hbegins (by simpa using hfits) hplain hsteady
  obtain ⟨front, rest, hpath, hfront⟩ := (h.fits_iff hn.sound hplain hbegins).1 hfits
  have hdrop : (b :: tail).drop n.label.length = rest := by
    rw [hpath, List.drop_left' hfront.length_eq]
  rw [Follows, if_neg]
  swap
  · rintro ⟨-, hslash, -, hoff⟩
    rw [hslash, hoff] at hfits
    cases hfits
  rw [h.recase_held hn below hfits hdrop (h.plain_held hfront (hpath ▸ hplain))
    (fun hfix => h.steady_held hfront (hpath ▸ hsteady hfix)) fun b' tail' hrest => ?_]
  · rw [h.patternSet, hpath, recase_label hfront]
  · refine h.waits hopens hpending fun hlabel => ?_
    rw [hlabel] at hfront
    cases hfront
    rw [hrest] at hpath
    cases hpath
    exact hbk

end Below

theorem IsHolder.agrees {leaf : Node α} {name : Bytes} (h : n.IsHolder leaf) (hleaf : leaf.IsLeaf name)
    {hit : Hit α} (hhit : leaf.hit? = some hit) : Agrees fix n := by
  intro b k tail pending above hopens hbk _ _ _
  obtain ⟨q, hq⟩ := hopens ⟨[.literal slash, .catchAll name], hit⟩ (by
    rw [h.entries, hleaf.entries hhit]
    exact List.mem_singleton_self _)
  cases hq
  cases hbk.eq_slash_iff.2 rfl
  exact h.follows hleaf hhit

/-- The case-blind search from a node is that of the patterns at and below it. -/
theorem recase_agrees (hn : n.Searchable) : Agrees fix n := by
  induction n using size_induction with
  | h n below =>
      cases hn.sound.stands hn.standing with
      | holder leaf name hit h hleaf hhit => exact h.agrees hleaf hhit
      | branch slots wild h => exact h.agrees hn below

end Node

end HttpRouting.Node

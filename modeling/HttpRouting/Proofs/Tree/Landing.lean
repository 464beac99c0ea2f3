import HttpRouting.Proofs.Pattern.Captured
import HttpRouting.Proofs.Text.CaseFold
import HttpRouting.Proofs.Tree.Built
import HttpRouting.Proofs.Tree.Standing

namespace HttpRouting.Node

open Bytes Pattern

variable {α : Type} {fix above : Bool} {n : Node α} {path pending q : Bytes}

/-- What is still expected of a character has no slash in it, unless the path goes on with one. -/
structure Awaits (path pending : Bytes) : Prop where
  head : pending.head? = some slash → path.head? = some slash
  tail : ∀ b ∈ pending.tail, ¬ b < 0x80

theorem awaits_nil (path : Bytes) : Awaits path [] := ⟨nofun, nofun⟩

theorem encode_tail (c : Char) : ∀ b ∈ (String.utf8EncodeChar c).tail, ¬ b < 0x80 :=
  fun b hb => UInt8.not_lt.2 (Utf8.encodeChar_tail c b hb).1

theorem encode_slash {c : Char} (h : (String.utf8EncodeChar c).head? = some slash) : c = '/' := by
  by_cases hlow : c.val.toNat ≤ 0x7F
  · rw [Utf8.encodeChar_low hlow] at h
    have hnat := congrArg UInt8.toNat (Option.some.inj h)
    rw [Utf8.toNat_ofNat (by omega)] at hnat
    exact Char.toNat_inj.1 hnat
  · exact absurd (by decide) (Utf8.encodeChar_high hlow slash (List.mem_of_mem_head? h))

theorem charAcross_cases (path : Bytes) (k : Nat) :
    (∃ back, charAcross path k =
        ((Utf8.first? (path.drop (k - back))).getD Utf8.replacement, back)) ∨
      charAcross path k = ('\x00', min k 3) := by
  unfold charAcross
  dsimp only
  split
  · next back _ => exact .inl ⟨back, rfl⟩
  · exact .inr rfl

theorem charAcross_slash {k : Nat} (hc : (charAcross path k).1 = '/') (hback : (charAcross path k).2 = 0) :
    (path.drop k).head? = some slash := by
  rcases charAcross_cases path k with ⟨back, h⟩ | h
  · rw [h] at hc hback
    dsimp only at hc hback
    subst hback
    rw [Nat.sub_zero] at hc
    cases hrest : path.drop k with
    | nil =>
        rw [hrest] at hc
        exact absurd hc (by decide)
    | cons b bs =>
        rw [hrest, Utf8.first?] at hc
        cases hfront : (Utf8.front b bs).1 with
        | none =>
            rw [hfront] at hc
            exact absurd hc (by decide)
        | some c =>
            rw [hfront] at hc
            have hc : c = '/' := hc
            subst hc
            have hencode := Utf8.front_some (Prod.ext hfront rfl : Utf8.front b bs = (some '/', _))
            rw [Utf8.encodeChar_low (by decide)] at hencode
            rw [← (List.cons.inj hencode).1]
            rfl
  · rw [h] at hc
    have hc : '\x00' = '/' := hc
    exact absurd hc (by decide)

theorem Awaits.step {k : Nat} {spelling : Bytes} (h : Awaits path pending)
    (hspelling : Spells path k (pending.drop k) spelling) : Awaits (path.drop k) spelling := by
  have hmapped {c : Char} (hc : c = '/' → (charAcross path k).1 = '/') :
      Awaits (path.drop k) ((String.utf8EncodeChar c).drop (charAcross path k).2) := by
    refine ⟨fun hhead => ?_, fun b hb => ?_⟩
    · cases hback : (charAcross path k).2 with
      | zero =>
          rw [hback, List.drop_zero] at hhead
          exact charAcross_slash (hc (encode_slash hhead)) hback
      | succ back =>
          rw [hback] at hhead
          have hmem : slash ∈ (String.utf8EncodeChar c).tail.drop back := by
            rw [List.drop_tail]
            exact List.mem_of_mem_head? hhead
          exact absurd (by decide) (encode_tail c slash (List.mem_of_mem_drop hmem))
    · refine encode_tail c b ?_
      rw [List.tail_drop, ← List.drop_tail] at hb
      exact List.mem_of_mem_drop hb
  cases hspelling with
  | awaited hne =>
      cases k with
      | zero => exact h
      | succ k =>
          have htail : ∀ b ∈ pending.drop (k + 1), ¬ b < 0x80 := by
            intro b hb
            refine h.tail b ?_
            rw [← List.drop_tail] at hb
            exact List.mem_of_mem_drop hb
          refine ⟨fun hhead => ?_, fun b hb => htail b (List.mem_of_mem_tail hb)⟩
          exact absurd (by decide) (htail slash (List.mem_of_mem_head? hhead))
  | lower => exact hmapped lowerChar_slash
  | upper => exact hmapped upperChar_slash

/-- Where an answer leads: to a value of the tree, to a pattern whose last parameter took nothing, or
to the place above that has a value. The latter two have dropped a slash. -/
inductive Landing (fix : Bool) (n : Node α) (path q : Bytes) (above : Bool) : Prop
  | hit (e : Entry α) (he : e ∈ n.entries) (hmatches : Matches e.pattern q)
  | cut (e : Entry α) (he : e ∈ n.entries) (front : List Element) (name : Bytes)
      (hpattern : e.pattern = front ++ [.param name]) (hmatches : Matches front q)
      (hfix : fix = true) (hlast : path.getLast? = some slash)
  | above (hfix : fix = true) (habove : above = true) (hq : q = []) (hpath : path = [slash])

theorem getLast?_drop {k : Nat} (h : path.drop k ≠ []) : (path.drop k).getLast? = path.getLast? := by
  have hsame := List.getLast?_append_of_ne_nil (path.take k) h
  rw [List.take_append_drop] at hsame
  exact hsame.symm

section Branch

variable {slots : List (UInt8 × Node α)} {wild : Option (Node α)}

theorem IsBranch.behind_mem (h : n.IsBranch slots wild) {e : Entry α} (he : e ∈ n.held) :
    e.behind (literals n.label) ∈ n.entries :=
  mem_entries.2 ⟨e, he, by rw [h.edge]⟩

theorem IsBranch.landing_here (h : n.IsBranch slots wild) (hvalue : n.value.isSome = true) :
    Landing fix n path n.label above := by
  obtain ⟨hit, hhit⟩ := hit?_of_value hvalue
  refine .hit _ (h.behind_mem (mem_held.2 (.inl ⟨hit, hhit, rfl⟩))) ?_
  have hmatches : Matches (literals n.label ++ []) (n.label ++ []) := matches_literals.2 rfl
  simpa [Entry.behind] using hmatches

theorem IsBranch.landing_hit (h : n.IsBranch slots wild) {c : Node α} (hc : c ∈ n.children)
    {e : Entry α} (he : e ∈ c.entries) (hmatches : Matches e.pattern q) :
    Landing fix n path (n.label ++ q) above :=
  .hit _ (h.behind_mem (mem_held.2 (.inr ⟨c, hc, he⟩))) (matches_literals.2 hmatches)

theorem IsBranch.landing_child (h : n.IsBranch slots wild) {c : Node α} (hc : c ∈ n.children)
    (hrest : path.drop n.label.length ≠ [])
    (hq : Landing fix c (path.drop n.label.length) q n.value.isSome) :
    Landing fix n path (n.label ++ q) above := by
  cases hq with
  | hit e he hmatches => exact h.landing_hit hc he hmatches
  | cut e he front name hpattern hmatches hfix hlast =>
      refine .cut _ (h.behind_mem (mem_held.2 (.inr ⟨c, hc, he⟩))) (literals n.label ++ front) name ?_
        (matches_literals.2 hmatches) hfix ?_
      · simp [Entry.behind, hpattern]
      · rw [← getLast?_drop hrest]
        exact hlast
  | above _ habove hq =>
      rw [hq, List.append_nil]
      exact h.landing_here habove

end Branch

section Param

variable {w c : Node α} {name rest : Bytes} {next : Option (Node α)}

theorem IsParam.behind_mem (h : w.IsParam name next) {e : Entry α} (he : e ∈ w.held) :
    e.behind [.param name] ∈ w.entries :=
  h.mem_entries.2 ⟨e, he, rfl⟩

theorem IsParam.landing_here (h : w.IsParam name next) (hvalue : w.value.isSome = true)
    (hlast : firstSegment rest = [] → fix = true ∧ rest.getLast? = some slash) :
    Landing fix w rest (firstSegment rest) above := by
  obtain ⟨hit, hhit⟩ := hit?_of_value hvalue
  have hmem := h.behind_mem (mem_held.2 (.inl ⟨hit, hhit, rfl⟩))
  by_cases hempty : firstSegment rest = []
  · rw [hempty]
    exact .cut _ hmem [] name rfl rfl (hlast hempty).1 (hlast hempty).2
  · refine .hit _ hmem ?_
    have hmatches : Matches (.param name :: []) (firstSegment rest ++ []) :=
      (matches_param (firstSegment_no_slash rest) rfl (by simpa using hempty)).2 rfl
    rwa [List.append_nil] at hmatches

/-- What follows a parameter starts with a slash, so the parameter may take nothing. -/
theorem IsParam.landing_child (h : w.IsParam name (some c))
    (hrest : rest.dropWhile (· ≠ slash) ≠ [])
    (hq : Landing fix c (rest.dropWhile (· ≠ slash)) q w.value.isSome) :
    Landing fix w rest (firstSegment rest ++ q) above := by
  have hc : c ∈ w.children := by simp [h.children]
  have hparam {es : List Element} (hopens : ∃ es', es = .literal slash :: es')
      (hmatches : Matches es q) : Matches (.param name :: es) (firstSegment rest ++ q) := by
    obtain ⟨es', rfl⟩ := hopens
    have hhead := matches_opens hmatches
    refine (matches_param (firstSegment_no_slash rest) (firstSegment_eq_nil.2 (.inr hhead)) ?_).2
      hmatches
    rintro hnil
    rw [(List.append_eq_nil_iff.1 hnil).2] at hhead
    cases hhead
  have hlast := getLast?_dropWhile hrest
  cases hq with
  | hit e he hmatches =>
      exact .hit _ (h.behind_mem (mem_held.2 (.inr ⟨c, hc, he⟩))) (hparam (h.opens he) hmatches)
  | cut e he front name' hpattern hmatches hfix hslash =>
      refine .cut _ (h.behind_mem (mem_held.2 (.inr ⟨c, hc, he⟩))) (.param name :: front) name' ?_
        (hparam ?_ hmatches) hfix (hlast ▸ hslash)
      · simp [Entry.behind, hpattern]
      · obtain ⟨es, hes⟩ := h.opens he
        rw [hpattern] at hes
        cases front with
        | nil => cases hes
        | cons e front =>
            cases hes
            exact ⟨front, rfl⟩
  | above hfix habove hq hpath =>
      rw [hq, List.append_nil]
      refine h.landing_here habove fun _ => ⟨hfix, ?_⟩
      rw [← hlast, hpath]
      rfl

end Param

section Ends

variable {c w : Node α}

theorem Sound.branch_of_value (hn : n.Sound) (hstanding : n.Standing)
    (hvalue : n.value.isSome = true) : ∃ slots wild, n.IsBranch slots wild := by
  cases hn.stands hstanding with
  | branch slots wild h => exact ⟨slots, wild, h⟩
  | holder leaf name hit h => simp [h.value] at hvalue

theorem Keyed.slash_hit (hkeyed : c.Keyed slash) (hc : c.Sound) (hlabel : c.label = [slash])
    (hvalue : c.value.isSome = true) : ∃ e ∈ c.entries, Matches e.pattern [slash] := by
  obtain ⟨slots, wild, h⟩ := hc.branch_of_value hkeyed.standing hvalue
  obtain ⟨hit, hhit⟩ := hit?_of_value hvalue
  refine ⟨_, h.behind_mem (mem_held.2 (.inl ⟨hit, hhit, rfl⟩)), ?_⟩
  rw [hlabel]
  rfl

theorem Closes.hits (h : Closes c) (hkeyed : c.Keyed slash) (hc : c.Sound) :
    ∃ e ∈ c.entries, Matches e.pattern [slash] := by
  rcases h with ⟨hlength, hvalue⟩ | ⟨hkind, -⟩
  · obtain ⟨slots, wild, h⟩ := hc.branch_of_value hkeyed.standing hvalue
    obtain ⟨b, hlabel⟩ := List.length_eq_one_iff.1 hlength
    have hhead := hkeyed.head hc h.kind (by simp [hlabel])
    rw [hlabel] at hhead
    cases hhead
    exact hkeyed.slash_hit hc hlabel hvalue
  · rcases hkeyed.kind with hstatic | ⟨-, hwild⟩
    · rw [hkind] at hstatic
      cases hstatic
    · obtain ⟨leaf, name, hit, hholder, hleaf, hhit⟩ := hc.holder hkind hwild
      refine ⟨⟨[.literal slash, .catchAll name], hit⟩, ?_, rfl⟩
      rw [hholder.entries, hleaf.entries hhit]
      exact List.mem_singleton.2 rfl

theorem IsParam.landing_end {name rest close : Bytes} {next : Option (Node α)}
    (h : w.IsParam name next) (hw : w.Sound) (hrest : rest ≠ [])
    (hafter : rest.dropWhile (· ≠ slash) = []) (hclose : closeParam fix w = some close) :
    Landing fix w rest (firstSegment rest ++ close) above := by
  have htaken : firstSegment rest ≠ [] := by
    have hsplit := segment_append_rest rest
    rw [hafter, List.append_nil] at hsplit
    rwa [hsplit]
  unfold closeParam at hclose
  split at hclose
  · next hvalue =>
      cases hclose
      rw [List.append_nil]
      exact h.landing_here hvalue fun hnil => absurd hnil htaken
  split at hclose
  · next c hchildren =>
      split at hclose
      · next hall =>
          simp only [Bool.and_eq_true, beq_iff_eq] at hall
          cases hclose
          have hnext : next = some c := by
            rw [h.children] at hchildren
            exact Option.mem_toList.1 (by simp [hchildren])
          subst hnext
          have hc : c ∈ w.children := by simp [hchildren]
          obtain ⟨e, he, hmatches⟩ :=
            (h.keyed c rfl).slash_hit (hw.child hc) hall.1.2 hall.2
          refine .hit _ (h.behind_mem (mem_held.2 (.inr ⟨c, hc, he⟩))) ?_
          exact (matches_param (firstSegment_no_slash rest) rfl (by simp)).2 hmatches
      · cases hclose
  · cases hclose

theorem Sound.wild_cases (hn : n.Sound) (hstanding : n.Standing) (hwild : n.hasWild = true)
    {w : { c : Node α // c ∈ n.children }} (hlast : n.lastChild = .ok w) :
    (∃ slots name next, n.IsBranch slots (some w.1) ∧ w.1.IsParam name next) ∨
      ∃ name hit, n.IsHolder w.1 ∧ w.1.IsLeaf name ∧ w.1.hit? = some hit := by
  cases hn.stands hstanding with
  | branch slots wild h =>
      cases wild with
      | none => simp [h.hasWild] at hwild
      | some w' =>
          obtain ⟨hmem, hlast'⟩ := lastChild_eq h.children
          rw [hlast'] at hlast
          cases hlast
          obtain ⟨name, next, hparam⟩ := Sound.param (hn.child hmem) (h.param w' rfl)
          exact .inl ⟨slots, name, next, h, hparam⟩
  | holder leaf name hit h hleaf hhit =>
      have hchildren : n.children = [] ++ [leaf] := h.children
      obtain ⟨hmem, hlast'⟩ := lastChild_eq hchildren
      rw [hlast'] at hlast
      cases hlast
      exact .inr ⟨name, hit, h, hleaf, hhit⟩

theorem Sound.param_last (hn : n.Sound) (hstanding : n.Standing) (hwild : n.hasWild = true)
    {w : { c : Node α // c ∈ n.children }} (hlast : n.lastChild = .ok w) (hkind : w.1.kind = .param) :
    ∃ slots name next, n.IsBranch slots (some w.1) ∧ w.1.IsParam name next := by
  rcases hn.wild_cases hstanding hwild hlast with hparam | ⟨name, hit, h, hleaf, -⟩
  · exact hparam
  · simp [hleaf.kind] at hkind

theorem Sound.leaf_last (hn : n.Sound) (hstanding : n.Standing) (hwild : n.hasWild = true)
    {w : { c : Node α // c ∈ n.children }} (hlast : n.lastChild = .ok w)
    (hkind : w.1.kind = .catchAll) :
    ∃ name hit, n.IsHolder w.1 ∧ w.1.IsLeaf name ∧ w.1.hit? = some hit := by
  rcases hn.wild_cases hstanding hwild hlast with ⟨slots, name, next, h, hparam⟩ | hleaf
  · simp [hparam.kind] at hkind
  · exact hleaf

end Ends

/-- Every answer is a landing. A search enters the holder of a catch-all with a slash. -/
theorem Recased.landing (h : Recased fix n path pending above q) (hn : n.Sound)
    (hstanding : n.Standing) (hawaits : Awaits path pending)
    (hholder : n.kind = .catchAll → path.head? = some slash) : Landing fix n path q above := by
  induction h with
  | ended hfits hrest hvalue =>
      obtain ⟨slots, wild, h⟩ := hn.branch_of_value hstanding hvalue
      exact h.landing_here hvalue
  | @addSlash n path pending above c hfix hfits hrest hkeyed hc =>
      obtain ⟨slots, wild, h⟩ := hn.branch_of_keyed hstanding hkeyed
      obtain ⟨e, he, hmatches⟩ := hc.hits (hn.keyed_child hstanding hkeyed) (hn.child c.2)
      exact h.landing_hit c.2 he hmatches
  | @static n path pending spelling q above c hfits hrest hspelling hkeyed hc ih =>
      obtain ⟨slots, wild, h⟩ := hn.branch_of_keyed hstanding hkeyed
      have hchild := hn.keyed_child hstanding hkeyed
      have hawaits := hawaits.step hspelling
      refine h.landing_child c.2 hrest (ih (hn.child c.2) hchild.standing hawaits ?_)
      intro hkind
      have hslash := hchild.eq_slash (hn.child c.2) hkind
      refine hawaits.head ?_
      cases spelling with
      | nil => cases hslash
      | cons b bs => exact congrArg some hslash
  | dropSlash hfix hfits hrest hvalue =>
      obtain ⟨slots, wild, h⟩ := hn.branch_of_value hstanding hvalue
      exact h.landing_here hvalue
  | @catchAll n path pending above w hfits hrest hwild hlast hkind =>
      obtain ⟨name, hit, h, hleaf, hhit⟩ := hn.leaf_last hstanding hwild hlast hkind
      obtain ⟨tail, rfl⟩ := List.head?_eq_some_iff.1 (hholder h.kind)
      refine .hit ⟨[.literal slash, .catchAll name], hit⟩ ?_ ?_
      · rw [h.entries, hleaf.entries hhit]
        exact List.mem_singleton.2 rfl
      · rw [h.label]
        rfl
  | @paramEnd n path pending close above w hfits hrest hwild hlast hkind hafter hclose =>
      obtain ⟨slots, name, next, h, hparam⟩ := hn.param_last hstanding hwild hlast hkind
      exact h.landing_child w.2 hrest (hparam.landing_end (hn.child w.2) hrest hafter hclose)
  | @paramDrop n path pending above w hfix hfits hwild hlast hkind hafter hvalue =>
      obtain ⟨slots, name, next, h, hparam⟩ := hn.param_last hstanding hwild hlast hkind
      have hlast := getLast?_dropWhile (hafter ▸ List.cons_ne_nil slash [])
      refine h.landing_child w.2 ?_ (hparam.landing_here hvalue fun _ => ⟨hfix, ?_⟩)
      · intro hnil
        rw [hnil] at hafter
        cases hafter
      · rw [← hlast, hafter]
        rfl
  | @paramNext n c path pending q above w hfits hwild hlast hkind hafter hchild hc ih =>
      obtain ⟨slots, name, next, h, hparam⟩ := hn.param_last hstanding hwild hlast hkind
      cases hparam.next_of_head hchild
      have hmem : c ∈ w.1.children := by simp [hparam.children]
      have hslash := (firstSegment_eq_nil.1 (firstSegment_dropWhile _)).resolve_left hafter
      have hq := ih ((hn.child w.2).child hmem) (hparam.keyed c rfl).standing (awaits_nil _)
        fun _ => hslash
      refine h.landing_child w.2 ?_ (hparam.landing_child hafter hq)
      intro hnil
      rw [hnil] at hafter
      exact hafter rfl
  | above hfix hoff => exact .above hfix rfl rfl rfl
  | complete hfix hpath hlength hslash hfold hvalue =>
      obtain ⟨slots, wild, h⟩ := hn.branch_of_value hstanding hvalue
      exact h.landing_here hvalue

theorem Bare.not_recased (hn : n.Bare) : ¬ Recased fix n path pending false q := by
  have hvalue : ¬ n.value.isSome = true := by simp [hn.value]
  have hwild : ¬ n.hasWild = true := by simp [hn.hasWild]
  have hkeyed (b : UInt8) (c : { c : Node α // c ∈ n.children }) : n.keyed b ≠ .ok (some c) := by
    rw [keyed_none (slot_none.2 (by simp [hn.keys]))]
    exact nofun
  intro h
  cases h with
  | ended _ _ h | dropSlash _ _ _ h | complete _ _ _ _ _ h => exact hvalue h
  | addSlash _ _ _ h | static _ _ _ h => exact hkeyed _ _ h
  | catchAll _ _ h | paramEnd _ _ h | paramDrop _ _ h | paramNext _ h => exact hwild h

theorem findCase_some {root : Node α} {path q : String} (h : root.findCase path fix = some q) :
    Recased fix root (utf8 path) [] false (utf8 q) ∧
      ∀ p l, (utf8 path).head? = some p → root.label.head? = some l → p = l := by
  have hsearch (h : findCase.search root path fix = some q) :
      Recased fix root (utf8 path) [] false (utf8 q) := by
    unfold findCase.search at h
    split at h
    · next bytes hbytes =>
        rw [utf8_text.1 h]
        exact recase_recased hbytes
    · cases h
  unfold findCase at h
  split at h
  · next p ps l ls hpath hlabel =>
      split at h
      · next hsame =>
          refine ⟨hsearch h, fun p' l' hp hl => ?_⟩
          rw [hpath] at hp
          rw [hlabel] at hl
          cases hp
          cases hl
          exact hsame
      · cases h
  · next hcases =>
      refine ⟨hsearch h, fun p l hp hl => ?_⟩
      obtain ⟨ps, hpath⟩ := List.head?_eq_some_iff.1 hp
      obtain ⟨ls, hlabel⟩ := List.head?_eq_some_iff.1 hl
      exact absurd hlabel (hcases p ps l ls hpath)

/-- A path found up to case has a value, unless a slash was dropped behind a last parameter that took
nothing. -/
theorem Tracks.findCase_landing {routes : List (String × α)} (h : Tracks n routes)
    {path q : String} (hfind : n.findCase path fix = some q) :
    (∃ r ∈ routes, Matches (ofRoute r.1) (utf8 q)) ∨
      fix = true ∧ (utf8 path).getLast? = some slash ∧
        ∃ r ∈ routes, ∃ front name, ofRoute r.1 = front ++ [.param name] ∧ Matches front (utf8 q) := by
  obtain ⟨hrecased, -⟩ := findCase_some hfind
  rcases h.shape with hbare | hsound
  · exact absurd hrecased hbare.not_recased
  have hroute {e : Entry α} (he : e ∈ n.entries) : ∃ r ∈ routes, ofRoute r.1 = e.pattern := by
    obtain ⟨r, hr, rfl⟩ := List.mem_map.1 (h.entries.mem_iff.1 he)
    exact ⟨r, hr, rfl⟩
  have hlanding := hrecased.landing hsound (.inl h.kind) (awaits_nil _) fun hkind => by
    simpa [hkind] using h.kind
  cases hlanding with
  | hit e he hmatches =>
      obtain ⟨r, hr, hpattern⟩ := hroute he
      exact .inl ⟨r, hr, hpattern ▸ hmatches⟩
  | cut e he front name hpattern hmatches hfix hlast =>
      obtain ⟨r, hr, hsame⟩ := hroute he
      exact .inr ⟨hfix, hlast, r, hr, front, name, hsame.trans hpattern, hmatches⟩
  | above _ habove => cases habove

end HttpRouting.Node

import HttpRouting.Proofs.Pattern.Reach
import HttpRouting.Proofs.Tree.Company
import HttpRouting.Proofs.Tree.Matching
import HttpRouting.Proofs.Tree.Respelling
import Mathlib.Data.List.Perm.Subperm

namespace HttpRouting.Node

open Bytes Pattern Utf8

variable {α : Type} {fix above : Bool} {n : Node α} {path rest pending q : Bytes}

def Finds (fix : Bool) (n : Node α) (path pending : Bytes) (above : Bool) : Prop :=
  ∃ q, recase fix n path pending above = .ok (some q)

/-- A character that is one of its own case mappings, or else starts no label. The search tries no other
spellings than those mappings. -/
def Cased (n : Node α) (c : Char) : Prop :=
  lowerChar c = c ∨ upperChar c = c ∨
    n.Every fun m => m.label.head? ≠ (String.utf8EncodeChar c).head?

instance (n : Node α) (c : Char) : Decidable (Cased n c) :=
  inferInstanceAs (Decidable (_ ∨ _ ∨ n.Every _))

def Sure (n : Node α) (path : Bytes) : Prop := TextOf (fun c => Apart n c ∧ Cased n c) path

theorem Sure.clear (h : Sure n path) : Clear n path := h.mono fun _ hc => hc.1

theorem Sure.child (h : Sure n path) {c : Node α} (hc : c ∈ n.children) : Sure c path :=
  h.mono fun _ ⟨hapart, hcased⟩ =>
    ⟨hapart.child hc, hcased.imp_right (·.imp_right fun hevery => hevery.child hc)⟩

theorem Sure.behind_label (h : Sure n path) (hpath : path = n.label ++ rest) : Sure n rest := by
  have htext := h.clear.label_isText hpath
  rw [hpath] at h
  exact h.behind htext

theorem Sure.cased (h : Sure n path) {c : Char} (hc : first? path = some c)
    (hlabel : ¬ c.toNat < 128 → n.label.head? = (String.utf8EncodeChar c).head?) :
    lowerChar c = c ∨ upperChar c = c := by
  by_cases hlow : c.toNat < 128
  · exact lower_or_upper hlow
  · obtain ⟨-, hcased⟩ := (h.first hc).resolve_left hlow
    rcases hcased with hlower | hupper | hevery
    · exact .inl hlower
    · exact .inr hupper
    · exact absurd (hlabel hlow) hevery.here

/-- Nothing is expected of a character, or the first one of the path itself. -/
inductive Exact (n : Node α) (path : Bytes) : Bytes → Prop
  | nothing : Exact n path []
  | char {c : Char} (hc : first? path = some c) (hmarked : n.Marked) :
      Exact n path (String.utf8EncodeChar c)

theorem Exact.drop (h : Exact n path pending) (hclear : Clear n path) (hpath : path = n.label ++ rest)
    (hne : n.label ≠ []) : pending.drop n.label.length = [] := by
  cases h with
  | nothing => exact List.drop_nil
  | char hc =>
      obtain ⟨d, hd⟩ := (hclear.label_isText hpath).first? hne
      obtain ⟨bs, hbs⟩ := first?_append hd
      rw [hpath, hbs, List.append_assoc, first?_encode] at hc
      cases hc
      exact List.drop_eq_nil_of_le (by simp [hbs])

theorem Exact.spells {c : Char} (h : Exact n path pending) (hclear : Clear n path)
    (hpath : path = n.label ++ rest) (hc : first? rest = some c)
    (hcased : lowerChar c = c ∨ upperChar c = c) :
    Spells path n.label.length (pending.drop n.label.length) (String.utf8EncodeChar c) := by
  have hdrop : first? (path.drop n.label.length) = some c := by
    rw [← hc]
    simp [hpath]
  have hacross := charAcross_start hdrop
  by_cases hnone : (pending.drop n.label.length).headD 0 = 0
  · have hlower : Spells path n.label.length _ _ := .lower hnone
    have hupper : Spells path n.label.length _ _ := .upper hnone
    rw [hacross] at hlower hupper
    rcases hcased with hsame | hsame
    · dsimp only at hlower
      rwa [hsame] at hlower
    · dsimp only at hupper
      rwa [hsame] at hupper
  · have hawaited : Spells path n.label.length _ _ := .awaited hnone
    by_cases hlabel : n.label = []
    · cases h with
      | nothing => simp at hnone
      | char hc' =>
          rw [hlabel] at hpath hawaited ⊢
          rw [hpath, List.nil_append, hc] at hc'
          cases hc'
          exact hawaited
    · rw [h.drop hclear hpath hlabel] at hnone
      exact absurd rfl hnone

section Node

theorem foldEq_refl (bs : Bytes) : foldEq bs bs = true := sameFoldAll_refl _

theorem fits_label (hpath : path = n.label ++ rest) : n.fits path = true := by
  rw [hpath, fits, List.take_left', foldEq_refl] <;> simp

theorem finds_here (hpath : path = n.label) (hvalue : n.value.isSome = true) :
    Finds fix n path pending above := by
  have hfits : n.fits path = true := fits_label (by rw [hpath, List.append_nil])
  rw [Finds, recase, if_pos hfits]
  dsimp only
  rw [if_pos (by simp [hpath]), closeAt, if_pos hvalue]
  exact ⟨_, rfl⟩

theorem finds_slash {c : { c : Node α // c ∈ n.children }} (hfix : fix = true)
    (hpath : path = n.label) (hkeyed : n.keyed slash = .ok (some c)) (hc : Closes c.1) :
    Finds fix n path pending above := by
  by_cases hvalue : n.value.isSome = true
  · exact finds_here hpath hvalue
  have hfits : n.fits path = true := fits_label (by rw [hpath, List.append_nil])
  rw [Finds, recase, if_pos hfits]
  dsimp only
  rw [if_pos (by simp [hpath]), closeAt, if_neg hvalue, if_pos hfix, hkeyed]
  dsimp only
  split
  · exact ⟨_, rfl⟩
  · next hoff => exact absurd hc hoff

theorem finds_complete (hfix : fix = true) (hne : path ≠ []) (hlast : path.getLast? ≠ some slash)
    (hlabel : n.label = path ++ [slash]) (hvalue : n.value.isSome = true) :
    Finds fix n path pending above := by
  have hoff : ¬ n.fits path = true := by
    intro hfits
    simp only [fits, Bool.and_eq_true, decide_eq_true_eq] at hfits
    have hle := hfits.1
    rw [hlabel, List.length_append] at hle
    exact Nat.not_succ_le_self _ hle
  have hslash : path ≠ [slash] := by
    rintro rfl
    exact hlast rfl
  rw [Finds, recase, if_neg hoff, closeBefore, if_neg (by simp [hfix]), if_neg hslash, if_pos]
  · exact ⟨_, rfl⟩
  · refine ⟨hne, by simp [hlabel], by simp [hlabel], ?_, hvalue⟩
    simp [hlabel, foldEq_refl]

variable (hn : n.Sound) (hstanding : n.Standing)
include hn hstanding

theorem recase_rest (hpath : path = n.label ++ rest) (hrest : rest ≠ []) (fix : Bool)
    (pending : Bytes) (above : Bool) :
    ∃ via, Tried fix n path rest (pending.drop n.label.length)
        (fun c spelling => recase fix c.1 rest spelling n.value.isSome) via ∧
      (∀ answer, via = some answer →
        recase fix n path pending above = .ok (answer.map (n.label ++ ·))) ∧
      (via = none → ∀ w, n.lastChild = .ok w →
        recase fix n path pending above =
          (viaWild fix w.1 rest fun c after =>
            recase fix c.1 after [] w.1.value.isSome).map (·.map (n.label ++ ·))) := by
  have hdrop : path.drop n.label.length = rest := by simp [hpath]
  have htried := recase_tried hn hstanding (fits_label hpath) (hdrop ▸ hrest) fix pending above
    fun c spelling hc => recase_total (hn.child c.2) hc ..
  rwa [hdrop] at htried

theorem finds_static {spelling : Bytes} {c : { c : Node α // c ∈ n.children }}
    (hpath : path = n.label ++ rest) (hrest : rest ≠ [])
    (hspelling : Spells path n.label.length (pending.drop n.label.length) spelling)
    (hkeyed : n.keyed (spelling.headD 0) = .ok (some c))
    (hc : Finds fix c.1 rest spelling n.value.isSome) : Finds fix n path pending above := by
  obtain ⟨q, hq⟩ := hc
  obtain ⟨via, htried, hsome, -⟩ := recase_rest hn hstanding hpath hrest fix pending
    above
  cases htried with
  | found q => exact ⟨_, hsome _ rfl⟩
  | wild _ hnone | missed _ hnone =>
      have hmiss := hnone spelling c hspelling hkeyed
      rw [hq] at hmiss
      cases hmiss

theorem finds_wild {w : { c : Node α // c ∈ n.children }} (hpath : path = n.label ++ rest)
    (hrest : rest ≠ []) (hwild : n.hasWild = true) (hlast : n.lastChild = .ok w)
    (hw : (viaWild fix w.1 rest fun c after => recase fix c.1 after [] w.1.value.isSome) =
      .ok (some q)) : Finds fix n path pending above := by
  obtain ⟨via, htried, hsome, hnone⟩ := recase_rest hn hstanding hpath hrest fix pending
    above
  cases htried with
  | found q => exact ⟨_, hsome _ rfl⟩
  | wild =>
      refine ⟨n.label ++ q, ?_⟩
      rw [hnone rfl w hlast, hw]
      rfl
  | missed hwild' => simp [hwild] at hwild'

theorem Exact.awaits_nothing (h : Exact n path pending) (hclear : Clear n path)
    (hpath : path = n.label ++ rest) (hvalue : n.value.isSome = true) :
    (pending.drop n.label.length).headD 0 = 0 := by
  by_cases hlabel : n.label = []
  · cases h with
    | nothing => simp
    | char _ hmarked =>
        obtain ⟨name, hit, hentries⟩ := hmarked hlabel
        obtain ⟨slots, wild, h⟩ := hn.branch_of_value hstanding hvalue
        obtain ⟨hit', hhit'⟩ := hit?_of_value hvalue
        have hmem := h.behind_mem (mem_held.2 (.inl ⟨hit', hhit', rfl⟩))
        rw [hentries, hlabel, List.mem_singleton] at hmem
        cases hmem
  · rw [h.drop hclear hpath hlabel]
    rfl

theorem finds_drop (hfix : fix = true) (hexact : Exact n path pending) (hclear : Clear n path)
    (hpath : path = n.label ++ [slash]) (hwild : n.hasWild = false)
    (hvalue : n.value.isSome = true) : Finds fix n path pending above := by
  have hnothing := hexact.awaits_nothing hn hstanding hclear hpath hvalue
  obtain ⟨via, htried, hsome, -⟩ := recase_rest hn hstanding hpath (List.cons_ne_nil _ _) fix
    pending above
  cases htried with
  | found q => exact ⟨_, hsome _ rfl⟩
  | wild hwild' => simp [hwild] at hwild'
  | missed _ _ hslash =>
      have hacross : charAcross path n.label.length = (charOf slash, 0) :=
        charAcross_start (first?_ascii (by decide) (by simp [hpath]))
      have hother := hslash hfix rfl hvalue hnothing
      rw [hacross] at hother
      exact absurd (by decide +kernel) hother

end Node

theorem viaWild_leaf {w : Node α} (hkind : w.kind = .catchAll)
    (go : { c : Node α // c ∈ w.children } → Bytes → Except Defect (Option Bytes)) :
    w.viaWild fix rest go = .ok (some rest) := by
  unfold viaWild
  rw [hkind]

theorem IsHolder.finds {leaf : Node α} {name : Bytes} (h : n.IsHolder leaf) (hleaf : leaf.IsLeaf name)
    (hn : n.Sound) (hne : path ≠ []) : Finds fix n path pending above := by
  have hstanding : n.Standing := .inr ⟨h.kind, h.hasWild⟩
  have hchildren : n.children = [] ++ [leaf] := h.children
  obtain ⟨hmem, hlast⟩ := lastChild_eq hchildren
  refine finds_wild hn hstanding ?_ hne h.hasWild hlast (viaWild_leaf hleaf.kind _)
  rw [h.label, List.nil_append]

theorem value_of_hit {hit : Hit α} (h : n.hit? = some hit) : n.value.isSome = true := by
  obtain ⟨v, hv, -⟩ := Option.map_eq_some_iff.1 h
  rw [hv]
  rfl

theorem Keyed.slash_value {c : Node α} (hkeyed : c.Keyed slash) (hc : c.Sound) (hmarked : c.Marked)
    {hit : Hit α} (he : ⟨[.literal slash], hit⟩ ∈ c.entries) :
    c.label = [slash] ∧ c.value.isSome = true := by
  cases hc.stands hkeyed.standing with
  | holder leaf name hit' h hleaf hhit =>
      rw [h.entries, hleaf.entries hhit] at he
      cases List.mem_singleton.1 he
  | branch slots wild h =>
      cases hlabel : c.label with
      | nil =>
          obtain ⟨name, hit', hentries⟩ := hmarked hlabel
          rw [hentries] at he
          cases List.mem_singleton.1 he
      | cons b label =>
          obtain ⟨e, he, heq⟩ := mem_entries.1 he
          rw [h.edge, hlabel] at heq
          obtain ⟨hpattern, -⟩ := Entry.mk.inj heq
          obtain ⟨hb, htail⟩ := List.cons.inj hpattern
          obtain ⟨hnil, hempty⟩ := List.append_eq_nil_iff.1 htail.symm
          cases hb
          cases List.map_eq_nil_iff.1 hnil
          refine ⟨rfl, ?_⟩
          cases h.source hc he with
          | here hit hhit => exact value_of_hit hhit
          | slot | wild => cases hempty

section Param

variable {w : Node α} {name : Bytes} {next : Option (Node α)}
  {go : { c : Node α // c ∈ w.children } → Bytes → Except Defect (Option Bytes)}

theorem IsParam.viaWild_end (h : w.IsParam name next) (hafter : rest.dropWhile (· ≠ slash) = [])
    {close : Bytes} (hclose : closeParam fix w = some close) :
    w.viaWild fix rest go = .ok (some (firstSegment rest ++ close)) := by
  unfold viaWild
  rw [h.kind]
  dsimp only
  split
  · rw [hclose]
    rfl
  · next hne => exact absurd hafter hne
  · next hne => exact absurd hafter hne

theorem IsParam.viaWild_drop (h : w.IsParam name none) (hfix : fix = true)
    (hafter : rest.dropWhile (· ≠ slash) = [slash]) (hvalue : w.value.isSome = true) :
    w.viaWild fix rest go = .ok (some (firstSegment rest)) := by
  unfold viaWild
  rw [h.kind]
  dsimp only
  split
  · next hnil =>
      rw [hafter] at hnil
      cases hnil
  · rw [hafter, hfix, hvalue]
    rfl
  · next c cs hchildren _ =>
      rw [h.children] at hchildren
      cases hchildren

theorem IsParam.viaWild_next {c : Node α} (h : w.IsParam name (some c))
    (hafter : rest.dropWhile (· ≠ slash) ≠ [])
    (hgo : ∀ hc : c ∈ w.children, go ⟨c, hc⟩ (rest.dropWhile (· ≠ slash)) = .ok (some q)) :
    w.viaWild fix rest go = .ok (some (firstSegment rest ++ q)) := by
  unfold viaWild
  rw [h.kind]
  dsimp only
  split
  · next hnil => exact absurd hnil hafter
  · next hchildren _ =>
      rw [h.children] at hchildren
      cases hchildren
  · next c' cs hchildren _ =>
      have hsame : c' = c := by
        rw [h.children] at hchildren
        exact (List.cons.inj hchildren).1.symm
      subst hsame
      rw [hgo]
      rfl

theorem patterns_child {c : Node α} (hc : c ∈ n.children) : patterns c.entries ⊆ patterns n.held :=
  List.map_subset _ (child_subset hc)

theorem IsParam.pattern_mem (h : w.IsParam name next) (hw : w ∈ n.children) {q : List Element}
    (hq : q ∈ patterns w.held) : .param name :: q ∈ patterns n.held := by
  obtain ⟨e, he, rfl⟩ := mem_patterns.1 hq
  exact patterns_child hw (mem_patterns.2 ⟨_, h.behind_mem he, rfl⟩)

theorem IsParam.next_none (h : w.IsParam name next) (hw : w.Sound)
    (hopen : ∀ more, .literal slash :: more ∉ patterns w.held) : next = none := by
  cases hc : next with
  | none => rfl
  | some c =>
      subst hc
      have hmem : c ∈ w.children := by simp [h.children]
      obtain ⟨e, he⟩ := List.exists_mem_of_ne_nil _ (Sound.entries_ne_nil (hw.child hmem))
      obtain ⟨es, hes⟩ := h.opens he
      exact absurd (patterns_child hmem (mem_patterns.2 ⟨e, he, hes⟩)) (hopen es)

theorem IsParam.value_of_nil (h : w.IsParam name next) {hit : Hit α} (he : ⟨[], hit⟩ ∈ w.held) :
    w.value.isSome = true := by
  rcases h.source he with ⟨hit', hhit, -⟩ | ⟨c, rfl, hc⟩
  · exact value_of_hit hhit
  · obtain ⟨es, hes⟩ := h.opens hc
    cases hes

theorem IsParam.finds (h : w.IsParam name next) (hw : w.Sound) (hneat : w.Neat) {p : List Element}
    {hit : Hit α} (he : ⟨p, hit⟩ ∈ w.held) (hreach : AtParam fix (patterns w.held) rest p)
    (hnext : ∀ c ∈ w.children, ∀ e ∈ c.entries,
      InReach fix (patterns c.entries) (rest.dropWhile (· ≠ slash)) e.pattern →
        Finds fix c (rest.dropWhile (· ≠ slash)) [] w.value.isSome) :
    ∃ q, (w.viaWild fix rest fun c after => recase fix c.1 after [] w.value.isSome) =
      .ok (some q) := by
  have hsource := h.source he
  cases hreach with
  | through hafter hp hreach =>
      rcases hsource with ⟨hit', -, heq⟩ | ⟨c, rfl, hc⟩
      · cases heq
        exact absurd rfl hp
      · have hmem : c ∈ w.children := by simp [h.children]
        obtain ⟨q, hq⟩ := hnext c hmem _ hc (hreach.mono (patterns_child hmem))
        exact ⟨_, h.viaWild_next hafter fun _ => hq⟩
  | ended hafter hp =>
      subst hp
      have hvalue : w.value.isSome = true := h.value_of_nil he
      exact ⟨_, h.viaWild_end hafter (by rw [closeParam, if_pos hvalue])⟩
  | addSlash hfix hafter hp =>
      subst hp
      rcases hsource with ⟨hit', -, heq⟩ | ⟨c, rfl, hc⟩
      · cases heq
      · have hmem : c ∈ w.children := by simp [h.children]
        obtain ⟨hlabel, hvalue⟩ :=
          (h.keyed c rfl).slash_value (hw.child hmem) (hneat.marked c hmem) hc
        by_cases hown : w.value.isSome = true
        · exact ⟨_, h.viaWild_end hafter (by rw [closeParam, if_pos hown])⟩
        · refine ⟨_, h.viaWild_end hafter (?_ : _ = some [slash])⟩
          rw [closeParam, if_neg hown, h.children]
          simp [hfix, hlabel, hvalue]
  | dropSlash hfix hafter hp hopen =>
      subst hp
      cases h.next_none hw hopen
      exact ⟨_, h.viaWild_drop hfix hafter (h.value_of_nil he)⟩

end Param

section Branch

variable {slots : List (UInt8 × Node α)} {wild : Option (Node α)} {e : Entry α}

theorem IsBranch.keyed_of_slot (h : n.IsBranch slots wild) {b : UInt8} {c : Node α}
    (hs : (b, c) ∈ slots) : ∃ hc, n.keyed b = .ok (some ⟨c, hc⟩) := by
  rcases h.keyed_cases b with ⟨-, hb⟩ | ⟨⟨c', hc'⟩, hkeyed, hs'⟩
  · rw [h.keys] at hb
    exact absurd (List.mem_map_of_mem hs) hb
  · cases h.slot_unique hs hs'
    exact ⟨hc', hkeyed⟩

theorem IsBranch.finds_here (h : n.IsBranch slots wild) (hn : n.Sound) (hclear : Clear n path)
    (hexact : Exact n path pending) {hit : Hit α} (hhit : n.hit? = some hit)
    (hreach : AtLabel fix (patterns n.held) n.label path []) : Finds fix n path pending above := by
  have hstanding : n.Standing := .inl h.kind
  have hvalue := value_of_hit hhit
  cases hreach with
  | through hpath hrest hp => exact absurd rfl hp
  | ended hpath => exact Node.finds_here hpath hvalue
  | addSlash hfix hpath hp | addCatch hfix hpath hp => cases hp
  | complete hfix hne hlast hlabel => exact finds_complete hfix hne hlast hlabel hvalue
  | dropSlash hfix hpath hp hopen =>
      cases wild with
      | none => exact finds_drop hn hstanding hfix hexact hclear hpath h.hasWild hvalue
      | some w =>
          obtain ⟨hmem, hlast⟩ := lastChild_eq h.children
          have hw := hn.child hmem
          obtain ⟨name, next, hparam⟩ := Sound.param hw (h.param w rfl)
          have hnone := hparam.next_none hw fun more hmore =>
            hopen name _ more (hparam.pattern_mem hmem hmore)
          subst hnone
          have hvalue : w.value.isSome = true := by
            refine hw.here.live.resolve_right fun hne => hne ?_
            rw [hparam.children]
            rfl
          exact finds_wild hn hstanding hpath (List.cons_ne_nil _ _) h.hasWild hlast
            (hparam.viaWild_drop hfix rfl hvalue)

theorem IsBranch.length_children (h : n.IsBranch slots wild) (hn : n.Sound) {b : UInt8}
    (hall : ∀ p ∈ patterns n.held, ∃ q, p = .literal b :: q) : n.children.length ≤ 1 := by
  have hopens {d : Node α} (hd : d ∈ n.children) : ∃ q hit, ⟨.literal b :: q, hit⟩ ∈ d.entries := by
    obtain ⟨⟨p, hit⟩, he⟩ := List.exists_mem_of_ne_nil _ (Sound.entries_ne_nil (hn.child hd))
    obtain ⟨q, rfl⟩ := hall p (patterns_child hd (mem_patterns.2 ⟨_, he, rfl⟩))
    exact ⟨q, hit, he⟩
  have hkeys : n.keys ⊆ [b] := by
    intro a ha
    rw [h.keys, List.mem_map] at ha
    obtain ⟨s, hs, rfl⟩ := ha
    have hmem : s.2 ∈ n.children := by
      rw [h.children]
      exact List.mem_append_left _ (List.mem_map_of_mem hs)
    obtain ⟨q, hit, he⟩ := hopens hmem
    obtain ⟨q', hq⟩ := (h.keyed s hs).opens _ he
    cases hq
    exact List.mem_singleton_self _
  have hwild : wild = none := by
    cases wild with
    | none => rfl
    | some w =>
        have hmem : w ∈ n.children := by simp [h.children]
        obtain ⟨name, next, hparam⟩ := Sound.param (hn.child hmem) (h.param w rfl)
        obtain ⟨q, hit, he⟩ := hopens hmem
        obtain ⟨e, -, heq⟩ := hparam.mem_entries.1 he
        cases heq
  have hlength := (h.nodup.subperm hkeys).length_le
  rw [h.keys, List.length_map] at hlength
  rw [h.children, hwild, List.length_append, List.length_map]
  exact hlength

theorem IsBranch.label_of_sole (h : n.IsBranch slots wild) (hn : n.Sound) (hshared : n.Shared)
    {b : UInt8} (hall : ∀ p ∈ patterns n.held, ∃ q, p = .literal b :: q) {c : Node α}
    (hc : c ∈ n.children) (hkind : c.kind = .static) : c.label ≠ [] := by
  intro hlabel
  rcases hshared c hc hkind hlabel with hparam | hvalue | hmany
  · exact h.not_wildcard.1 hparam
  · obtain ⟨hit, hhit⟩ := hit?_of_value hvalue
    obtain ⟨q, hq⟩ := hall [] (mem_patterns.2 ⟨_, mem_held.2 (.inl ⟨hit, hhit, rfl⟩), rfl⟩)
    cases hq
  · exact Nat.not_lt.2 (h.length_children hn hall) hmany

/-- A child with a catch-all right behind its slash is the holder or has the holder below it. -/
theorem Keyed.closes_or_empty {c : Node α} (h : c.Keyed slash) (hc : c.Sound) {name : Bytes}
    {p : List Element} {hit : Hit α} (he : ⟨.literal slash :: .catchAll name :: p, hit⟩ ∈ c.entries) :
    Closes c ∨ c.kind = .static ∧ c.label = [] := by
  cases hc.stands h.standing with
  | holder leaf name' hit' hholder hleaf hhit =>
      refine .inl (.inr ⟨hholder.kind, ?_⟩)
      rw [hholder.children]
      exact hleaf.value
  | branch slots wild hbranch =>
      cases hlabel : c.label with
      | nil =>
          refine .inr ⟨h.kind.resolve_right ?_, rfl⟩
          exact fun hkind => hbranch.not_wildcard.2 hkind.1
      | cons b label =>
          obtain ⟨e, he, heq⟩ := mem_entries.1 he
          rw [hbranch.edge, hlabel] at heq
          obtain ⟨hpattern, -⟩ := Entry.mk.inj heq
          obtain ⟨-, htail⟩ := List.cons.inj hpattern
          cases label with
          | nil =>
              obtain ⟨pattern, hit'⟩ := e
              cases htail
              cases hbranch.source hc he
          | cons b' label => cases htail

theorem Keyed.cased {b : UInt8} {c : Node α} (hkeyed : c.Keyed b) (hc : c.Sound) (hmarked : c.Marked)
    {es : List Element} {hit : Hit α} (he : ⟨.literal b :: es, hit⟩ ∈ c.entries) (hsure : Sure c rest)
    {d : Char} (hd : first? rest = some d) (hb : (String.utf8EncodeChar d).head? = some b) :
    lowerChar d = d ∨ upperChar d = d := by
  refine hsure.cased hd fun hhigh => ?_
  rw [hb]
  refine hkeyed.head_label hc fun hlabel => hhigh ?_
  obtain ⟨name, hit', hentries⟩ := hmarked hlabel
  rw [hentries] at he
  cases List.mem_singleton.1 he
  rw [encode_slash hb]
  decide

theorem IsBranch.finds_slot (h : n.IsBranch slots wild) (hn : n.Sound) (hneat : n.Neat)
    (hshared : n.Shared) (hsure : Sure n path) (hexact : Exact n path pending) {b : UInt8} {c : Node α}
    (hs : (b, c) ∈ slots) {es : List Element} {hit : Hit α} (he : ⟨.literal b :: es, hit⟩ ∈ c.entries)
    (hreach : AtLabel fix (patterns n.held) n.label path (.literal b :: es))
    (hc : ∀ rest d, first? rest = some d → Sure c rest →
      InReach fix (patterns c.entries) rest (.literal b :: es) →
        Finds fix c rest (String.utf8EncodeChar d) n.value.isSome) : Finds fix n path pending above := by
  have hstanding : n.Standing := .inl h.kind
  obtain ⟨hmem, hkeyed⟩ := h.keyed_of_slot hs
  have hchild : c.Keyed b := h.keyed _ hs
  cases hreach with
  | @through rest hpath hrest hp hreach =>
      have hrestSure := (hsure.behind_label hpath).child hmem
      obtain ⟨d, hd⟩ := hrestSure.isText.first? hrest
      have hb : (String.utf8EncodeChar d).head? = some b := (first?_head hd).symm.trans hreach.head
      have hcased := hchild.cased (hn.child hmem) (hneat.marked c hmem) he hrestSure hd hb
      have hspells := hexact.spells hsure.clear hpath hd hcased
      have hkeyed : n.keyed ((String.utf8EncodeChar d).headD 0) = .ok (some ⟨c, hmem⟩) := by
        rw [List.headD_eq_head?_getD, hb]
        exact hkeyed
      exact finds_static hn hstanding hpath hrest hspells hkeyed
        (hc rest d hd hrestSure (hreach.mono (patterns_child hmem)))
  | ended hpath hp => cases hp
  | addSlash hfix hpath hp =>
      cases hp
      obtain ⟨hlabel, hvalue⟩ := hchild.slash_value (hn.child hmem) (hneat.marked c hmem) he
      exact finds_slash hfix hpath hkeyed (.inl ⟨by rw [hlabel]; rfl, hvalue⟩)
  | addCatch hfix hpath hp halone =>
      cases hp
      refine finds_slash hfix hpath hkeyed ?_
      refine (hchild.closes_or_empty (hn.child hmem) he).resolve_right fun ⟨hkind, hlabel⟩ => ?_
      exact h.label_of_sole hn hshared (fun p hp => ⟨_, halone p hp⟩) hmem hkind hlabel
  | complete _ _ _ _ hp => cases hp
  | dropSlash _ _ hp => cases hp

theorem IsBranch.finds_wild {w : Node α} (h : n.IsBranch slots (some w)) (hn : n.Sound)
    (hneat : w.Neat) (hsure : Sure n path) {name : Bytes} {next : Option (Node α)}
    (hparam : w.IsParam name next) {es : List Element} {hit : Hit α}
    (he : ⟨.param name :: es, hit⟩ ∈ w.entries)
    (hreach : AtLabel fix (patterns n.held) n.label path (.param name :: es))
    (hnext : ∀ c ∈ w.children, ∀ e ∈ c.entries, ∀ rest, Sure c rest →
      InReach fix (patterns c.entries) rest e.pattern → Finds fix c rest [] w.value.isSome) :
    Finds fix n path pending above := by
  obtain ⟨hmem, hlast⟩ := lastChild_eq h.children
  cases hreach with
  | @through rest hpath hrest hp hreach =>
      have hrestSure := (hsure.behind_label hpath).child hmem
      obtain ⟨⟨p, hit'⟩, hheld, heq⟩ := hparam.mem_entries.1 he
      obtain ⟨hes, rfl⟩ := Entry.mk.inj heq
      obtain ⟨-, rfl⟩ := List.cons.inj hes
      have hheaded : Headed es := by
        rcases hparam.source hheld with ⟨hit', -, heq⟩ | ⟨c, rfl, hc⟩
        · cases heq
          exact headed_nil
        · obtain ⟨es', rfl⟩ := hparam.opens hc
          exact headed_literal _ _
      have hleft := hreach.param hheaded fun q hq => hparam.pattern_mem hmem hq
      obtain ⟨q, hq⟩ := hparam.finds (hn.child hmem) hneat hheld hleft fun c hc e he hreach =>
        hnext c hc e he _ (hrestSure.child hc).afterSegment hreach
      exact Node.finds_wild hn (.inl h.kind) hpath hrest h.hasWild hlast hq
  | ended hpath hp => cases hp
  | addSlash hfix hpath hp | addCatch hfix hpath hp => cases hp
  | complete _ _ _ _ hp => cases hp
  | dropSlash _ _ hp => cases hp

end Branch

/-- A sure path within reach of a pattern is found. -/
theorem recase_finds {e : Entry α} (hn : n.Sound) (hstanding : n.Standing) (hneat : n.Every Neat)
    (hshared : n.Every Shared) (hsure : Sure n path) (hexact : Exact n path pending) (he : e ∈ n.entries)
    (hreach : InReach fix (patterns n.entries) path e.pattern) : Finds fix n path pending above := by
  induction n using size_induction generalizing path pending above e with
  | h n ih =>
      cases hn.stands hstanding with
      | holder leaf name hit h hleaf hhit =>
          rw [h.entries, hleaf.entries hhit, List.mem_singleton] at he
          subst he
          refine h.finds hleaf hn ?_
          rintro rfl
          exact absurd hreach.head nofun
      | branch slots wild h =>
          obtain ⟨⟨p, hit⟩, hheld, rfl⟩ := mem_entries.1 he
          rw [h.edge] at hreach
          have hlabels : ∀ q ∈ patterns n.held, literals n.label ++ q ∈ patterns n.entries := by
            intro q hq
            obtain ⟨e, he, rfl⟩ := mem_patterns.1 hq
            exact mem_patterns.2 ⟨_, h.behind_mem he, rfl⟩
          cases h.source hn hheld with
          | here hit hhit =>
              exact h.finds_here hn hsure.clear hexact hhit (hreach.label headed_nil hlabels)
          | slot s hs es hit he =>
              obtain ⟨b, c⟩ := s
              have hc : c ∈ n.children := by
                rw [h.children]
                exact List.mem_append_left _ (List.mem_map_of_mem hs)
              refine h.finds_slot hn hneat.here hshared.here hsure hexact hs he
                (hreach.label (headed_literal b es) hlabels) fun rest d hd hrest hreach => ?_
              exact ih c (size_lt_of_mem hc) (hn.child hc) (h.keyed _ hs).standing (hneat.child hc)
                (hshared.child hc) hrest (.char hd (hneat.here.marked c hc)) he hreach
          | wild w hw name next hparam es hit he =>
              subst hw
              have hw : w ∈ n.children := by simp [h.children]
              refine h.finds_wild hn (hneat.child hw).here hsure hparam he
                (hreach.label (headed_param name es) hlabels) fun c hc e he rest hrest hreach => ?_
              have hchild : c.Standing := (IsWild.param name next hparam).standing_child hc
              exact ih c (Nat.lt_trans (size_lt_of_mem hc) (size_lt_of_mem hw)) ((hn.child hw).child hc)
                hchild ((hneat.child hw).child hc) ((hshared.child hw).child hc) hrest .nothing he hreach

section Find

variable {routes : List (String × α)} {path : String}

theorem findCase_search (hroot : ∀ p l, (utf8 path).head? = some p → n.label.head? = some l → p = l) :
    n.findCase path fix = findCase.search n path fix := by
  unfold findCase
  split
  · next p ps l ls hpath hlabel => exact if_pos (hroot p l (by rw [hpath]; rfl) (by rw [hlabel]; rfl))
  · rfl

theorem findCase_finds (h : Built n routes) (hsure : Sure n (utf8 path)) {r : String × α}
    (hr : r ∈ routes) (hreach : InReach fix (registered routes) (utf8 path) (ofRoute r.1)) :
    (n.findCase path fix).isSome = true := by
  have htracks := h.tracks
  have hstanding : n.Standing := .inl htracks.kind
  have he : entryOf r ∈ n.entries := htracks.entries.mem_iff.2 (List.mem_map_of_mem hr)
  have hsound : n.Sound := by
    refine htracks.shape.resolve_left fun hbare => ?_
    rw [hbare.entries] at he
    cases he
  have hreach : InReach fix (patterns n.entries) (utf8 path) (entryOf r).pattern :=
    hreach.mono (patterns_perm htracks.entries).subset
  have hroot (p l : UInt8) (hp : (utf8 path).head? = some p) (hl : n.label.head? = some l) : p = l := by
    obtain ⟨slots, wild, hbranch⟩ := hsound.branch htracks.kind
    obtain ⟨e, -, heq⟩ := mem_entries.1 he
    obtain ⟨label, hlabel⟩ := List.head?_eq_some_iff.1 hl
    rw [heq, Entry.behind, hbranch.edge, hlabel] at hreach
    have hhead := hreach.head
    rw [hp] at hhead
    exact Option.some.inj hhead
  have hfinds : Finds fix n (utf8 path) [] false :=
    recase_finds hsound hstanding h.neat_counted.1 h.shared hsure .nothing he hreach
  obtain ⟨q, hq⟩ := hfinds
  have hrespelled :=
    (recase_recased hq).respelled hsound hstanding hsure.clear (hsure.clear.root hroot) .nothing
  obtain ⟨s, hs⟩ := hrespelled.isText.text?
  rw [findCase_search hroot, findCase.search, hq]
  dsimp only
  rw [hs]
  rfl

/-- A path that the labels leave readable, and whose characters are tried as they are, is found up to case
where a lookup finds it. One with a slash hint is found with `fix` where a route is within reach. -/
theorem findCase_of_lookup (h : Built n routes)
    (hpath : ∀ c ∈ path.toList, c.toNat < 128 ∨ Apart n c ∧ Cased n c)
    (unescape : Bool) (buffer : Params) :
    ((n.lookup path unescape buffer).hit?.isSome = true →
      ∀ fix, (n.findCase path fix).isSome = true) ∧
    ((n.lookup path unescape buffer).slashHint = true →
      (∃ r ∈ routes, Matches (ofRoute r.1) (utf8 (Path.toggleSlash path))) ∧
        ((∃ r ∈ routes, InReach true (registered routes) (utf8 path) (ofRoute r.1)) →
          (n.findCase path true).isSome = true)) := by
  have hsure : Sure n (utf8 path) := textOf_utf8 hpath
  constructor
  · intro hsome fix
    obtain ⟨r, hr, hmatches⟩ := (lookup_matches h path unescape buffer buffer).1.1 hsome
    exact findCase_finds h hsure hr (.exact hmatches)
  · intro hhint
    exact ⟨h.tracks.slashHint hhint, fun ⟨r, hr, hreach⟩ => findCase_finds h hsure hr hreach⟩

def umlautFiles : Node Nat := ((Node.emptyRoot.insert "/ä/*x" 0).node.insert "/b" 1).node

theorem built_umlautFiles : Built umlautFiles [("/b", 1), ("/ä/*x", 0)] :=
  .accepted (.accepted .root (by decide +kernel)) (by decide +kernel)

theorem findCase_of_lookup_umlaut :
    (umlautFiles.findCase "/ä/Ω" false).isSome = true ∧
      (umlautFiles.findCase "/ä" true).isSome = true := by
  have hbegins : Apart umlautFiles 'ä' ∧ Cased umlautFiles 'ä' := by decide +kernel
  have hother : Apart umlautFiles 'Ω' ∧ Cased umlautFiles 'Ω' := by decide +kernel
  have hpath : ∀ c ∈ "/ä/Ω".toList, c.toNat < 128 ∨ Apart umlautFiles c ∧ Cased umlautFiles c := by
    simp [hbegins, hother]
  have hshort : ∀ c ∈ "/ä".toList, c.toNat < 128 ∨ Apart umlautFiles c ∧ Cased umlautFiles c := by
    simp [hbegins]
  obtain ⟨hfound, -⟩ := findCase_of_lookup built_umlautFiles hpath true []
  obtain ⟨-, hslash⟩ := findCase_of_lookup built_umlautFiles hshort true []
  refine ⟨hfound (by decide +kernel) false, (hslash (by decide +kernel)).2 ⟨("/ä/*x", 0), by simp, ?_⟩⟩
  have hroute : ofRoute "/ä/*x" = literals (utf8 "/ä") ++ [.literal slash, .catchAll [120]] := by
    decide +kernel
  rw [hroute]
  exact .caught rfl (by decide +kernel) (by decide +kernel)
    (fun param hlast => by simp [literals, utf8, Utf8.encode] at hlast) (by decide +kernel)

/-- A tree in which the holder of a catch-all hangs below a node of its own, beside another route. -/
def besideCatchAll : Node Nat := ((Node.emptyRoot.insert "/bc" 0).node.insert "/b/*x" 1).node

theorem built_besideCatchAll : Built besideCatchAll [("/b/*x", 1), ("/bc", 0)] :=
  .accepted (.accepted .root (by decide +kernel)) (by decide +kernel)

/-- A slash is added in front of a catch-all only where the holder is a child of the node at which the
path ends. -/
theorem findCase_slash_missed :
    Built besideCatchAll [("/b/*x", 1), ("/bc", 0)] ∧
      (besideCatchAll.lookup "/b" false []).hit?.isSome = false ∧
      (besideCatchAll.lookup "/b" false []).slashHint = true ∧
      besideCatchAll.findCase "/b" true = none :=
  ⟨built_besideCatchAll, by decide +kernel, by decide +kernel, by decide +kernel⟩

end Find

end HttpRouting.Node

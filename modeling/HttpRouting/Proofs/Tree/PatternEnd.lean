import HttpRouting.Proofs.Pattern.Plain
import HttpRouting.Proofs.Tree.Company
import HttpRouting.Proofs.Tree.PatternSet

namespace HttpRouting.Node

open Bytes Pattern Utf8

variable {α : Type} {fix above : Bool} {n : Node α} {path rest : Bytes}

def StartsAlike (path label : Bytes) : Prop :=
  ∀ p l, path.head? = some p → label.head? = some l → SameCase p l

section Label

variable {slots : List (UInt8 × Node α)} {wild : Option (Node α)} {es : Finset (List Element)}
  {as bs : Bytes}

/-- No steady path ends between the two slashes of a label. -/
theorem IsBranch.not_double (h : n.IsBranch slots wild) (hn : n.Sound)
    (hsteady : Steady n.patternSet [slash]) {front : Bytes} (hlabel : n.label = front ++ [slash])
    (hsame : List.Forall₂ SameCase [slash] front) (hvalue : n.value.isSome = true) : False := by
  obtain ⟨b, hb, rfl⟩ : ∃ b, SameCase slash b ∧ front = [b] := by
    cases hsame with
    | @cons _ b _ _ hb hnil =>
        cases hnil
        exact ⟨b, hb, rfl⟩
  cases hb.eq_slash_iff.1 rfl
  have hmem : [.literal slash, .literal slash] ∈ n.patternSet := by
    rw [h.patternSet, hlabel]
    exact mem_under.2 ⟨[], (h.nil_mem hn).2 hvalue, rfl⟩
  have hfold : FoldMatches [.literal slash] [slash] := ⟨sameCase_slash, rfl⟩
  have hshort := hsteady.double [] hmem hfold
  rw [h.patternSet, hlabel, mem_under] at hshort
  obtain ⟨q, -, hq⟩ := hshort
  cases hq

variable (h : n.IsBranch slots wild) (hn : n.Sound) (hplain : Plain n.patternSet path)
  (hbegins : StartsAlike path n.label)
include h hn hplain hbegins

theorem IsBranch.foldEq_iff (has : as <+: path) (hbs : bs <+: n.label)
    (hlength : as.length = bs.length) :
    foldEq (as.drop 1) (bs.drop 1) = true ↔ List.Forall₂ SameCase as bs := by
  constructor
  · intro hfold
    obtain ⟨q, hq⟩ := hn.heldSet_nonempty
    obtain ⟨tail, htail⟩ := hbs
    have hliteral : literals bs ++ (literals tail ++ q) ∈ n.patternSet := by
      rw [h.patternSet, ← htail]
      exact mem_under.2 ⟨q, hq, by simp [literals]⟩
    refine hplain.sameCase has hliteral hlength ?_
    cases as with
    | nil =>
        rw [List.eq_nil_of_length_eq_zero hlength.symm]
        exact sameFoldAll_refl _
    | cons a as =>
        cases bs with
        | nil => cases hlength
        | cons b bs =>
            obtain ⟨rest, rfl⟩ := has
            have hab : SameCase a b := hbegins a b rfl (by rw [← htail]; rfl)
            rw [decodeLossy_ascii hab.left, decodeLossy_ascii hab.right, sameFoldAll, hab.fold]
            exact hfold
  · intro h
    cases h with
    | nil => exact foldEq_refl []
    | cons _ h => exact fold_of_sameCase h

theorem IsBranch.fits_iff : n.fits path = true ↔
    ∃ front rest, path = front ++ rest ∧ List.Forall₂ SameCase front n.label := by
  simp only [fits, Bool.and_eq_true, decide_eq_true_eq, Bool.or_eq_true, List.isEmpty_iff]
  constructor
  · rintro ⟨hle, hnil | hfold⟩
    · exact ⟨[], path, rfl, by rw [hnil]; exact .nil⟩
    · refine ⟨_, _, (List.take_append_drop n.label.length path).symm, ?_⟩
      exact (h.foldEq_iff hn hplain hbegins (List.take_prefix ..) (List.prefix_refl _)
        (List.length_take_of_le hle)).1 hfold
  · rintro ⟨front, rest, rfl, hsame⟩
    have hlength := hsame.length_eq
    refine ⟨by simp [hlength], .inr ?_⟩
    rw [List.take_left' hlength]
    exact (h.foldEq_iff hn hplain hbegins (List.prefix_append ..) (List.prefix_refl _) hlength).2 hsame

theorem IsBranch.short_iff :
    (path.length + 1 = n.label.length ∧ n.label[path.length]? = some slash ∧
      foldEq (path.drop 1) ((n.label.take path.length).drop 1) = true) ↔
      ∃ front, n.label = front ++ [slash] ∧ List.Forall₂ SameCase path front := by
  constructor
  · rintro ⟨hlength, hlast, hfold⟩
    refine ⟨_, append_singleton_of_getElem? hlength hlast, ?_⟩
    refine (h.foldEq_iff hn hplain hbegins (List.prefix_refl _) (List.take_prefix ..) ?_).1 hfold
    rw [List.length_take]
    omega
  · rintro ⟨front, hlabel, hsame⟩
    have hlength := hsame.length_eq
    refine ⟨by simp [hlabel, hlength], by simp [hlabel, hlength], ?_⟩
    have htake : n.label.take path.length = front := by rw [hlabel, List.take_left' hlength.symm]
    rw [htake]
    refine (h.foldEq_iff hn hplain hbegins (List.prefix_refl _) ?_ hlength).2 hsame
    rw [hlabel]
    exact List.prefix_append ..

theorem IsBranch.recase_before (hfits : n.fits path = false) :
    Pattern.recase fix n.patternSet path =
      if fix = true ∧ (path.length + 1 = n.label.length ∧ n.label[path.length]? = some slash ∧
        foldEq (path.drop 1) ((n.label.take path.length).drop 1) = true) ∧ n.value.isSome = true
      then some n.label else none := by
  have hcatches := h.not_catches hn
  by_cases hshort : ∃ front, n.label = front ++ [slash] ∧ List.Forall₂ SameCase path front
  · have hcond := (h.short_iff hn hplain hbegins).2 hshort
    obtain ⟨front, hlabel, hsame⟩ := hshort
    rw [h.patternSet, hlabel, recase_short hsame hcatches, ← hlabel]
    exact if_congr (by simp only [hcond, h.nil_mem hn, true_and]) rfl rfl
  · have hcond := mt (h.short_iff hn hplain hbegins).1 hshort
    rw [if_neg fun hall => hcond hall.2.1, h.patternSet]
    rw [h.patternSet] at hplain
    refine recase_off (fun front rest hpath hsame => ?_) (fun front hlabel hsame => ?_) hplain hcatches
    · rw [← h.patternSet] at hplain
      exact absurd ((h.fits_iff hn hplain hbegins).2 ⟨front, rest, hpath, hsame⟩) (by simp [hfits])
    · exact hshort ⟨front, hlabel, hsame⟩

omit hplain hbegins in
theorem IsBranch.recase_slash (hplain : Plain n.patternSet [slash]) (hbegins : StartsAlike [slash] n.label)
    (hfits : n.fits [slash] = false) (hsteady : fix = true → Steady n.patternSet [slash]) :
    Pattern.recase fix n.patternSet [slash] = none := by
  rw [h.recase_before hn hplain hbegins hfits, if_neg]
  rintro ⟨hfix, hcond, hvalue⟩
  obtain ⟨front, hlabel, hsame⟩ := (h.short_iff hn hplain hbegins).1 hcond
  exact h.not_double hn (hsteady hfix) hlabel hsame hvalue

theorem IsBranch.closeBefore_eq (hne : path ≠ []) (hfits : n.fits path = false)
    (hsteady : fix = true → Steady n.patternSet path) :
    n.closeBefore fix path above =
      if fix = true ∧ path = [slash] ∧ above = true then some []
      else Pattern.recase fix n.patternSet path := by
  by_cases hslash : path = [slash]
  · subst hslash
    rw [h.recase_slash hn hplain hbegins hfits hsteady, closeBefore]
    cases fix with
    | false => simp
    | true => simp
  · rw [if_neg fun hall => hslash hall.2.1, h.recase_before hn hplain hbegins hfits, closeBefore,
      if_neg hslash]
    cases fix with
    | false => simp
    | true =>
        rw [if_neg (by decide)]
        refine if_congr ?_ rfl rfl
        simp only [hne, ne_eq, not_false_eq_true, true_and, and_assoc]

end Label

section Ends

variable {slots : List (UInt8 × Node α)} {wild : Option (Node α)}

theorem Keyed.slash_entry {c : Node α} (h : c.Keyed slash) (hc : c.Sound)
    (hlength : c.label.length = 1) (hvalue : c.value.isSome = true) :
    ∃ hit, ⟨[.literal slash], hit⟩ ∈ c.entries := by
  cases hc.stands h.standing with
  | holder leaf name hit hholder =>
      rw [hholder.label] at hlength
      cases hlength
  | branch slots wild hbranch =>
      obtain ⟨b, hlabel⟩ := List.length_eq_one_iff.1 hlength
      obtain ⟨hit, hhit⟩ := hit?_of_value hvalue
      have he := hbranch.behind_mem (mem_held.2 (.inl ⟨hit, hhit, rfl⟩))
      rw [hlabel] at he
      obtain ⟨q, hq⟩ := h.opens _ he
      cases hq
      exact ⟨hit, he⟩

/-- A child that adds a slash has a pattern that ends with it or goes on with a catch-all. -/
theorem Keyed.of_closes {c : Node α} (h : c.Keyed slash) (hc : c.Sound) (hcloses : Closes c) :
    ∃ hit, ⟨[.literal slash], hit⟩ ∈ c.entries ∨
      ∃ name, ⟨[.literal slash, .catchAll name], hit⟩ ∈ c.entries := by
  rcases hcloses with ⟨hlength, hvalue⟩ | ⟨hkind, -⟩
  · obtain ⟨hit, he⟩ := h.slash_entry hc hlength hvalue
    exact ⟨hit, .inl he⟩
  · rcases h.kind with hstatic | ⟨-, hwild⟩
    · rw [hkind] at hstatic
      cases hstatic
    · obtain ⟨leaf, name, hit, hholder, hleaf, hhit⟩ := hc.holder hkind hwild
      refine ⟨hit, .inr ⟨name, ?_⟩⟩
      rw [hholder.entries, hleaf.entries hhit]
      exact List.mem_singleton_self _

theorem IsBranch.closes_iff (h : n.IsBranch slots wild) (hn : n.Sound) (hneat : n.Neat)
    (hshared : n.Shared) (hsteady : Steady n.heldSet []) (hvalue : ¬ n.value.isSome = true)
    {c : Node α} (hs : (slash, c) ∈ slots) :
    Closes c ↔ [.literal slash] ∈ n.heldSet ∨ Catches (past slash n.heldSet) := by
  have hc := h.mem_of_slot hs
  have hkeyed : c.Keyed slash := h.keyed _ hs
  have hsound : c.Sound := hn.child hc
  constructor
  · intro hcloses
    obtain ⟨hit, he | ⟨name, he⟩⟩ := hkeyed.of_closes hsound hcloses
    · exact .inl (mem_heldSet.2 ⟨hit, child_subset hc he⟩)
    · refine .inr (catches_iff.2 ⟨name, [], mem_past.2 ?_⟩)
      exact mem_heldSet.2 ⟨hit, child_subset hc he⟩
  · rintro (hslash | hcatches)
    · obtain ⟨hit, he⟩ := mem_heldSet.1 hslash
      obtain ⟨hlabel, hvalue⟩ :=
        hkeyed.slash_value hsound (hneat.marked c hc) (h.mem_slot hn hs he rfl)
      exact .inl ⟨by rw [hlabel]; rfl, hvalue⟩
    · obtain ⟨name, p, hmem⟩ := catches_iff.1 hcatches
      obtain ⟨hit, he⟩ := mem_heldSet.1 (mem_past.1 hmem)
      have he := h.mem_slot hn hs he rfl
      refine (hkeyed.closes_or_empty hsound he).resolve_right fun ⟨hkind, hlabel⟩ => ?_
      obtain ⟨name', hit', hentries⟩ := hneat.marked c hc hlabel
      rw [hentries, List.mem_singleton] at he
      cases he
      have hsole := (hsteady.add [] name (mem_past.1 hmem) rfl).resolve_left
        (mt (h.nil_mem hn).1 hvalue)
      refine h.label_of_sole hn hshared (fun p hp => ⟨_, hsole p ?_ List.nil_prefix⟩) hc hkind hlabel
      exact List.mem_toFinset.2 hp

theorem IsBranch.closeAt_eq (h : n.IsBranch slots wild) (hn : n.Sound) (hneat : n.Neat)
    (hshared : n.Shared) (hsteady : fix = true → Steady n.heldSet []) :
    n.closeAt fix = .ok (Pattern.recase fix n.heldSet []) := by
  have hcatches := h.not_catches hn
  have hnil := h.nil_mem hn
  rw [closeAt, Pattern.recase]
  by_cases hvalue : n.value.isSome = true
  · rw [if_pos hvalue, if_pos (.inl (hnil.2 hvalue))]
  rw [if_neg hvalue, if_neg (not_or_intro (mt hnil.1 hvalue) hcatches)]
  by_cases hfix : fix = true
  · rw [if_pos hfix]
    rcases h.keyed_cases slash with ⟨hnone, hslash⟩ | ⟨c, hc, hs⟩
    · have hempty := h.past_empty hn hslash
      have hmem : [.literal slash] ∉ n.heldSet := by
        rw [← mem_past, hempty]
        exact Finset.notMem_empty _
      rw [hnone, if_neg]
      rintro ⟨-, hslash | hslash⟩
      · exact hmem hslash
      · rw [hempty] at hslash
        simp [Catches] at hslash
    · rw [hc]
      dsimp only
      have hcloses := h.closes_iff hn hneat hshared (hsteady hfix) hvalue hs
      split
      · next hc => rw [if_pos ⟨hfix, hcloses.1 hc⟩]
      · next hc => rw [if_neg fun hall => hc (hcloses.2 hall.2)]
  · rw [if_neg hfix, if_neg fun hall => hfix hall.1]

end Ends

end HttpRouting.Node

import HttpRouting.Proofs.Pattern.CaseSearch
import HttpRouting.Proofs.Pattern.Spaced

namespace HttpRouting.Pattern

open Bytes

/-- The path as the pattern spells it: literal bytes in their own case, and what the wildcards take as it
is. There is none where the pattern does not match, with literal bytes compared in lower case. -/
def respell? : List Element → Bytes → Option Bytes
  | [], [] => some []
  | [], _ :: _ => none
  | .literal _ :: _, [] => none
  | .literal k :: p, b :: path =>
      if lowerByte b = lowerByte k then (respell? p path).map (k :: ·) else none
  | .param _ :: _, [] => none
  | .param _ :: p, b :: path =>
      (respell? p ((b :: path).dropWhile (· ≠ slash))).map (firstSegment (b :: path) ++ ·)
  | .catchAll _ :: _, path => some path

def SameLetters : Bytes → Bytes → Prop := List.Forall₂ fun a b => lowerByte a = lowerByte b

theorem SameLetters.refl (path : Bytes) : SameLetters path path := by
  induction path with
  | nil => exact .nil
  | cons b path ih => exact .cons rfl ih

theorem SameLetters.append {as bs cs ds : Bytes} (h : SameLetters as bs) (h' : SameLetters cs ds) :
    SameLetters (as ++ cs) (bs ++ ds) := List.rel_append h h'

theorem SameLetters.low {as bs : Bytes} (h : SameLetters as bs) (has : ∀ a ∈ as, a < 0x80) :
    ∀ b ∈ bs, b < 0x80 := by
  induction h with
  | nil => exact nofun
  | @cons a b as bs hab _ ih =>
      obtain ⟨ha, has⟩ := List.forall_mem_cons.1 has
      refine List.forall_mem_cons.2 ⟨?_, ih has⟩
      rwa [← lowerByte_low, ← hab, lowerByte_low]

section Byte

variable {a b k : UInt8}

theorem lowerByte_lowerByte (b : UInt8) : lowerByte (lowerByte b) = lowerByte b := by
  simp only [← UInt8.toNat_inj, toNat_lowerByte]
  split_ifs <;> omega

theorem lowerByte_upperByte (b : UInt8) : lowerByte (upperByte b) = lowerByte b := by
  simp only [← UInt8.toNat_inj, toNat_lowerByte, toNat_upperByte]
  split_ifs <;> omega

theorem upperByte_upperByte (b : UInt8) : upperByte (upperByte b) = upperByte b := by
  simp only [← UInt8.toNat_inj, toNat_upperByte]
  split_ifs <;> omega

theorem upperByte_lowerByte (b : UInt8) : upperByte (lowerByte b) = upperByte b := by
  simp only [← UInt8.toNat_inj, toNat_lowerByte, toNat_upperByte]
  split_ifs <;> omega

theorem lowerByte_eq_iff : lowerByte b = lowerByte k ↔ k = lowerByte b ∨ k = upperByte b := by
  simp only [← UInt8.toNat_inj, toNat_lowerByte, toNat_upperByte]
  split_ifs <;> omega

theorem upperByte_of_lowerByte (h : lowerByte a = lowerByte b) : upperByte a = upperByte b := by
  rw [← upperByte_lowerByte, h, upperByte_lowerByte]

theorem lowerByte_eq_slash : lowerByte b = lowerByte slash ↔ b = slash := by
  have hslash : slash.toNat = 47 := rfl
  simp only [← UInt8.toNat_inj, toNat_lowerByte, hslash]
  split_ifs <;> omega

end Byte

section Respell

variable {p : List Element} {path path' q : Bytes} {b k : UInt8}

theorem respell?_literal (h : respell? (.literal k :: p) path = some q) :
    ∃ b rest q', path = b :: rest ∧ lowerByte b = lowerByte k ∧ respell? p rest = some q' ∧
      q = k :: q' := by
  cases path with
  | nil => cases h
  | cons b rest =>
      obtain ⟨hb, h⟩ := Option.ite_none_right_eq_some.1 h
      obtain ⟨q', hq', rfl⟩ := Option.map_eq_some_iff.1 h
      exact ⟨b, rest, q', rfl, hb, hq', rfl⟩

theorem respell?_param {name : Bytes} (h : respell? (.param name :: p) path = some q) :
    ∃ q', path ≠ [] ∧ respell? p (path.dropWhile (· ≠ slash)) = some q' ∧
      q = firstSegment path ++ q' := by
  cases path with
  | nil => cases h
  | cons b path =>
      obtain ⟨q', hq', rfl⟩ := Option.map_eq_some_iff.1 h
      exact ⟨q', List.cons_ne_nil b path, hq', rfl⟩

theorem respell?_letters (h : respell? p path = some q) : SameLetters path q := by
  induction p generalizing path q with
  | nil =>
      cases path with
      | nil =>
          cases h
          exact .nil
      | cons b path => cases h
  | cons e p ih =>
      cases e with
      | literal k =>
          obtain ⟨b, rest, q', rfl, hb, hq', rfl⟩ := respell?_literal h
          exact .cons hb (ih hq')
      | param name =>
          obtain ⟨q', -, hq', rfl⟩ := respell?_param h
          have hsplit := segment_append_rest path
          have hletters := (SameLetters.refl (firstSegment path)).append (ih hq')
          rwa [hsplit] at hletters
      | catchAll name =>
          cases h
          exact .refl path

theorem matches_respelled (hspaced : Spaced p) (h : respell? p path = some q) : Matches p q := by
  induction p generalizing path q with
  | nil =>
      cases path with
      | nil =>
          cases h
          rfl
      | cons b path => cases h
  | cons e p ih =>
      cases e with
      | literal k =>
          obtain ⟨b, rest, q', rfl, hb, hq', rfl⟩ := respell?_literal h
          have hmatches : Matches (literals [k] ++ p) ([k] ++ q') := matches_literals.2 (ih hspaced hq')
          exact hmatches
      | param name =>
          obtain ⟨hnext, hspaced⟩ := hspaced
          obtain ⟨q', hne, hq', rfl⟩ := respell?_param h
          have hmatches := ih hspaced hq'
          have hstop : firstSegment q' = [] ∧ firstSegment path ++ q' ≠ [] := by
            rcases hnext with rfl | ⟨p, rfl⟩
            · cases hafter : path.dropWhile (· ≠ slash) with
              | cons b after =>
                  rw [hafter] at hq'
                  cases hq'
              | nil =>
                  have hsplit := segment_append_rest path
                  rw [hafter] at hq' hsplit
                  cases hq'
                  rw [hsplit]
                  exact ⟨rfl, hne⟩
            · have hslash := matches_opens hmatches
              obtain ⟨q', rfl⟩ := List.head?_eq_some_iff.1 hslash
              exact ⟨firstSegment_eq_nil.2 (.inr rfl),
                List.append_ne_nil_of_right_ne_nil _ (List.cons_ne_nil _ _)⟩
          exact (matches_param (firstSegment_no_slash path) hstop.1 hstop.2).2 hmatches
      | catchAll name => rfl

theorem SameLetters.dropSegment (h : SameLetters path path') :
    SameLetters (path.dropWhile (· ≠ slash)) (path'.dropWhile (· ≠ slash)) := by
  induction h with
  | nil => exact .nil
  | @cons a b path path' hab h ih =>
      have hslash : a = slash ↔ b = slash := by
        rw [← lowerByte_eq_slash, hab, lowerByte_eq_slash]
      by_cases ha : a = slash
      · rw [List.dropWhile_cons_of_neg (by simpa using ha),
          List.dropWhile_cons_of_neg (by simpa using hslash.1 ha)]
        exact .cons hab h
      · rw [List.dropWhile_cons_of_pos (by simpa using ha),
          List.dropWhile_cons_of_pos (by simpa using mt hslash.2 ha)]
        exact ih

theorem SameLetters.respell? (h : SameLetters path path') :
    (respell? p path).isSome = (respell? p path').isSome := by
  induction p generalizing path path' with
  | nil => cases h <;> rfl
  | cons e p ih =>
      cases e with
      | catchAll name => cases h <;> rfl
      | literal k =>
          cases h with
          | nil => rfl
          | cons hab h =>
              rw [Pattern.respell?, Pattern.respell?, hab]
              split
              · rw [Option.isSome_map, Option.isSome_map, ih h]
              · rfl
      | param name =>
          have hdrop := h.dropSegment
          cases h with
          | nil => rfl
          | cons hab h =>
              rw [Pattern.respell?, Pattern.respell?, Option.isSome_map, Option.isSome_map, ih hdrop]

end Respell

section Recase

variable {es : Finset (List Element)} {p : List Element} {path path' rest more q : Bytes} {b : UInt8}

/-- The sets and paths that the search goes on with. -/
theorem recase_induction {motive : Finset (List Element) → Bytes → Prop} (nil : ∀ es, motive es [])
    (cons : ∀ es b rest, motive (past (lowerByte b) es) rest → motive (past (upperByte b) es) rest →
      (∀ more, (b :: rest).dropWhile (· ≠ slash) = slash :: more →
        motive (past slash (pastParam es)) more) → motive es (b :: rest))
    (es : Finset (List Element)) (path : Bytes) : motive es path := by
  induction hlength : path.length using Nat.strong_induction_on generalizing es path with
  | h length ih =>
      subst hlength
      cases path with
      | nil => exact nil es
      | cons b rest =>
          have hrest : rest.length < (b :: rest).length := Nat.lt_succ_self _
          refine cons es b rest (ih _ hrest _ rest rfl) (ih _ hrest _ rest rfl) fun more hmore => ?_
          have hle := (List.dropWhile_sublist (l := b :: rest) (· ≠ slash)).length_le
          rw [hmore] at hle
          exact ih _ (Nat.lt_of_succ_le hle) _ more rfl

theorem recase_end (es : Finset (List Element)) :
    recase false es [] = if [] ∈ es ∨ Catches es then some [] else none := by
  rw [recase]
  simp

/-- How the search of a set of patterns answers a path. -/
inductive Found (es : Finset (List Element)) (b : UInt8) (rest : Bytes) : Bytes → Prop
  | catches (h : Catches es) : Found es b rest (b :: rest)
  | lower (hes : ¬ Catches es) {q : Bytes} (h : recase false (past (lowerByte b) es) rest = some q) :
      Found es b rest (lowerByte b :: q)
  | upper (hes : ¬ Catches es) (hlower : recase false (past (lowerByte b) es) rest = none) {q : Bytes}
      (h : recase false (past (upperByte b) es) rest = some q) : Found es b rest (upperByte b :: q)
  | ended (hes : ¬ Catches es) (hlower : recase false (past (lowerByte b) es) rest = none)
      (hupper : recase false (past (upperByte b) es) rest = none)
      (hafter : (b :: rest).dropWhile (· ≠ slash) = []) (h : [] ∈ pastParam es) :
      Found es b rest (b :: rest)
  | through (hes : ¬ Catches es) (hlower : recase false (past (lowerByte b) es) rest = none)
      (hupper : recase false (past (upperByte b) es) rest = none) {more q : Bytes}
      (hafter : (b :: rest).dropWhile (· ≠ slash) = slash :: more)
      (h : recase false (past slash (pastParam es)) more = some q) :
      Found es b rest (firstSegment (b :: rest) ++ slash :: q)

theorem firstSegment_of_ended (hafter : path.dropWhile (· ≠ slash) = []) : firstSegment path = path := by
  have hsplit := segment_append_rest path
  rwa [hafter, List.append_nil] at hsplit

theorem leftover_ended (hafter : path.dropWhile (· ≠ slash) = []) (next : Option Bytes) :
    leftover false es path next = if [] ∈ pastParam es then some path else none := by
  rw [leftover, firstSegment_of_ended hafter, hafter]
  by_cases hinner : pastParam es = ∅
  · simp [hinner]
  · simp [hinner]

theorem leftover_through (hafter : path.dropWhile (· ≠ slash) = slash :: more) :
    leftover false es path (recase false (past slash (pastParam es)) more) =
      (recase false (past slash (pastParam es)) more).map (firstSegment path ++ slash :: ·) := by
  rw [leftover, hafter]
  by_cases hpast : past slash (pastParam es) = ∅
  · simp [hpast, recase_empty]
  · have hinner : pastParam es ≠ ∅ := fun hinner => hpast (by rw [hinner]; rfl)
    simp [hinner, hpast]

theorem recase_found (h : recase false es (b :: rest) = some q) : Found es b rest q := by
  rw [recase] at h
  by_cases hes : Catches es
  · rw [if_pos hes] at h
    cases h
    exact .catches hes
  rw [if_neg hes] at h
  cases hlower : recase false (past (lowerByte b) es) rest with
  | some q' =>
      rw [hlower] at h
      cases h
      exact .lower hes hlower
  | none =>
      cases hupper : recase false (past (upperByte b) es) rest with
      | some q' =>
          rw [hlower, hupper] at h
          cases h
          exact .upper hes hlower hupper
      | none =>
          rw [hlower, hupper, Option.map_none, Option.map_none, Option.none_or, Option.none_or] at h
          by_cases hafter : (b :: rest).dropWhile (· ≠ slash) = []
          · rw [leftover_ended hafter] at h
            obtain ⟨hinner, ⟨⟩⟩ := Option.ite_none_right_eq_some.1 h
            exact .ended hes hlower hupper hafter hinner
          · obtain ⟨more, hmore⟩ := after_slash hafter
            rw [hmore, List.tail_cons, leftover_through hmore] at h
            obtain ⟨q', hq', rfl⟩ := Option.map_eq_some_iff.1 h
            exact .through hes hlower hupper hmore hq'

theorem Found.recase (h : Found es b rest q) : Pattern.recase false es (b :: rest) = some q := by
  rw [Pattern.recase]
  cases h with
  | catches h => rw [if_pos h]
  | lower hes h =>
      rw [if_neg hes, h]
      rfl
  | upper hes hlower h =>
      rw [if_neg hes, hlower, h]
      rfl
  | ended hes hlower hupper hafter h =>
      rw [if_neg hes, hlower, hupper, leftover_ended hafter, if_pos h]
      rfl
  | through hes hlower hupper hafter h =>
      rw [if_neg hes, hlower, hupper, hafter, List.tail_cons, leftover_through hafter, h]
      rfl

theorem respell?_catchAll (h : Catches es) (path : Bytes) : ∃ p ∈ es, respell? p path = some path := by
  obtain ⟨name, p, hp⟩ := catches_iff.1 h
  cases path <;> exact ⟨_, hp, rfl⟩

theorem recase_spells (h : recase false es path = some q) : ∃ p ∈ es, respell? p path = some q := by
  induction es, path using recase_induction generalizing q with
  | nil es =>
      rw [recase_end] at h
      obtain ⟨hnil | hcatches, ⟨⟩⟩ := Option.ite_none_right_eq_some.1 h
      · exact ⟨[], hnil, rfl⟩
      · exact respell?_catchAll hcatches []
  | cons es b rest ihlower ihupper ihparam =>
      have hliteral {k : UInt8} {p : List Element} {q : Bytes} (hk : lowerByte b = lowerByte k)
          (hp : respell? p rest = some q) : respell? (.literal k :: p) (b :: rest) = some (k :: q) := by
        rw [respell?, if_pos hk, hp]
        rfl
      cases recase_found h with
      | catches hcatches => exact respell?_catchAll hcatches (b :: rest)
      | lower _ hvia =>
          obtain ⟨p, hp, hspell⟩ := ihlower hvia
          exact ⟨_, mem_past.1 hp, hliteral (lowerByte_lowerByte b).symm hspell⟩
      | upper _ _ hvia =>
          obtain ⟨p, hp, hspell⟩ := ihupper hvia
          exact ⟨_, mem_past.1 hp, hliteral (lowerByte_upperByte b).symm hspell⟩
      | ended _ _ _ hafter hend =>
          obtain ⟨name, hp⟩ := mem_pastParam.1 hend
          refine ⟨_, hp, ?_⟩
          rw [respell?, hafter, firstSegment_of_ended hafter]
          exact congrArg some (List.append_nil _)
      | through _ _ _ hafter hvia =>
          obtain ⟨p, hp, hspell⟩ := ihparam _ hafter hvia
          obtain ⟨name, hp⟩ := mem_pastParam.1 (mem_past.1 hp)
          refine ⟨_, hp, ?_⟩
          rw [respell?, hafter, respell?, if_pos rfl, hspell]
          rfl

theorem recase_none (h : recase false es (b :: rest) = none) :
    ¬ Catches es ∧ recase false (past (lowerByte b) es) rest = none ∧
      recase false (past (upperByte b) es) rest = none ∧
      ((b :: rest).dropWhile (· ≠ slash) = [] → [] ∉ pastParam es) ∧
      ∀ more, (b :: rest).dropWhile (· ≠ slash) = slash :: more →
        recase false (past slash (pastParam es)) more = none := by
  have hnot {q : Bytes} (hfound : Found es b rest q) : False := by
    have hsome := hfound.recase
    rw [h] at hsome
    cases hsome
  have hes : ¬ Catches es := fun hcatches => hnot (.catches hcatches)
  have hlower : recase false (past (lowerByte b) es) rest = none :=
    Option.eq_none_iff_forall_ne_some.2 fun q hq => hnot (.lower hes hq)
  have hupper : recase false (past (upperByte b) es) rest = none :=
    Option.eq_none_iff_forall_ne_some.2 fun q hq => hnot (.upper hes hlower hq)
  refine ⟨hes, hlower, hupper, fun hafter hend => hnot (.ended hes hlower hupper hafter hend), ?_⟩
  intro more hafter
  exact Option.eq_none_iff_forall_ne_some.2 fun q hq => hnot (.through hes hlower hupper hafter hq)

theorem spaced_past (hes : ∀ p ∈ es, Spaced p) (b : UInt8) : ∀ p ∈ past b es, Spaced p :=
  fun p hp => hes (.literal b :: p) (mem_past.1 hp)

theorem spaced_pastParam (hes : ∀ p ∈ es, Spaced p) : ∀ p ∈ pastParam es, Spaced p := by
  intro p hp
  obtain ⟨name, hp⟩ := mem_pastParam.1 hp
  exact (hes _ hp).2

/-- Where the search gives up, no pattern gives the path a spelling. -/
theorem not_respelled (hes : ∀ p ∈ es, Spaced p) (h : recase false es path = none) (hp : p ∈ es) :
    respell? p path = none := by
  induction es, path using recase_induction generalizing p with
  | nil es =>
      rw [recase_end] at h
      have hend : ¬ ([] ∈ es ∨ Catches es) := by simpa using h
      cases p with
      | nil => exact absurd (.inl hp) hend
      | cons e p =>
          cases e with
          | literal | param => rfl
          | catchAll name => exact absurd (.inr (catches_iff.2 ⟨name, p, hp⟩)) hend
  | cons es b rest ihlower ihupper ihparam =>
      obtain ⟨hcatches, hlower, hupper, hended, hthrough⟩ := recase_none h
      cases p with
      | nil => rfl
      | cons e p =>
          cases e with
          | literal k =>
              rw [respell?]
              split
              · next hk =>
                  rw [Option.map_eq_none_iff]
                  rcases lowerByte_eq_iff.1 hk with rfl | rfl
                  · exact ihlower (spaced_past hes _) hlower (mem_past.2 hp)
                  · exact ihupper (spaced_past hes _) hupper (mem_past.2 hp)
              · rfl
          | param name =>
              have hinner : p ∈ pastParam es := mem_pastParam.2 ⟨name, hp⟩
              obtain ⟨hnext, -⟩ := hes _ hp
              rw [respell?, Option.map_eq_none_iff]
              by_cases hafter : (b :: rest).dropWhile (· ≠ slash) = []
              · rcases hnext with rfl | ⟨p, rfl⟩
                · exact absurd hinner (hended hafter)
                · rw [hafter]
                  rfl
              · obtain ⟨more, hmore⟩ := after_slash hafter
                rw [hmore]
                rcases hnext with rfl | ⟨p, rfl⟩
                · rfl
                · rw [respell?, if_pos rfl, Option.map_eq_none_iff]
                  exact ihparam more hmore (spaced_past (spaced_pastParam hes) slash) (hthrough more hmore)
                    (mem_past.2 hinner)
          | catchAll name => exact absurd (catches_iff.2 ⟨name, p, hp⟩) hcatches

theorem recase_isSome_iff (hes : ∀ p ∈ es, Spaced p) :
    (recase false es path).isSome = true ↔ ∃ p ∈ es, (respell? p path).isSome = true := by
  constructor
  · intro h
    obtain ⟨q, hq⟩ := Option.isSome_iff_exists.1 h
    obtain ⟨p, hp, hspell⟩ := recase_spells hq
    exact ⟨p, hp, Option.isSome_iff_exists.2 ⟨q, hspell⟩⟩
  · rintro ⟨p, hp, h⟩
    rw [← Option.ne_none_iff_isSome]
    intro hnone
    rw [not_respelled hes hnone hp] at h
    cases h

theorem SameLetters.recase_none (h : SameLetters path path') (hes : ∀ p ∈ es, Spaced p)
    (hnone : recase false es path = none) : recase false es path' = none := by
  rw [← Option.not_isSome_iff_eq_none, recase_isSome_iff hes] at hnone ⊢
  simpa only [h.respell?] using hnone

theorem recase_letters (h : recase false es path = some q) : SameLetters path q := by
  obtain ⟨p, -, hspell⟩ := recase_spells h
  exact respell?_letters hspell

/-- The search finds its own spelling again. -/
theorem recase_recase (hes : ∀ p ∈ es, Spaced p) (h : recase false es path = some q) :
    recase false es q = some q := by
  induction es, path using recase_induction generalizing q with
  | nil es =>
      rw [recase_end] at h
      obtain ⟨hend, ⟨⟩⟩ := Option.ite_none_right_eq_some.1 h
      rw [recase_end, if_pos hend]
  | cons es b rest ihlower ihupper ihparam =>
      cases recase_found h with
      | catches hcatches => exact recase_catches hcatches (b :: rest)
      | lower hcatches hvia =>
          have hfixed := ihlower (spaced_past hes _) hvia
          rw [← lowerByte_lowerByte] at hfixed
          have hfound := (Found.lower hcatches hfixed).recase
          rwa [lowerByte_lowerByte] at hfound
      | upper hcatches hlower hvia =>
          have hfixed := ihupper (spaced_past hes _) hvia
          have hlower := (recase_letters hvia).recase_none (spaced_past hes _) hlower
          rw [← lowerByte_upperByte] at hlower
          rw [← upperByte_upperByte] at hfixed
          have hfound := (Found.upper hcatches hlower hfixed).recase
          rwa [upperByte_upperByte] at hfound
      | ended hcatches hlower hupper hafter hend =>
          exact (Found.ended hcatches hlower hupper hafter hend).recase
      | @through hcatches hlower hupper more q hafter hvia =>
          have hletters := recase_letters h
          have hfixed := ihparam more hafter (spaced_past (spaced_pastParam hes) slash) hvia
          have hstop : firstSegment (slash :: q) = [] := firstSegment_eq_nil.2 (.inr rfl)
          have hsegment := firstSegment_append (firstSegment_no_slash (b :: rest)) hstop
          have hafter' := dropWhile_append (firstSegment_no_slash (b :: rest)) hstop
          obtain ⟨b', rest', hb, hrest, heq⟩ := List.forall₂_cons_left_iff.1 hletters
          rw [heq] at hsegment hafter' ⊢
          rw [hb] at hlower
          rw [upperByte_of_lowerByte hb] at hupper
          have hrest : SameLetters rest rest' := hrest
          have hlower := hrest.recase_none (spaced_past hes _) hlower
          have hupper := hrest.recase_none (spaced_past hes _) hupper
          have hfound := (Found.through hcatches hlower hupper hafter' hfixed).recase
          rwa [hsegment, heq] at hfound

end Recase

end HttpRouting.Pattern

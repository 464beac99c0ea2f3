import HttpRouting.Proofs.Pattern.Grammar

namespace HttpRouting.Pattern

open Bytes

/-- The text of a pattern without its escapes. -/
def plain : List Element → Bytes
  | [] => []
  | .literal b :: es => b :: plain es
  | .param name :: es => colon :: (name ++ plain es)
  | .catchAll name :: es => star :: (name ++ plain es)

theorem plain_append (es fs : List Element) : plain (es ++ fs) = plain es ++ plain fs := by
  induction es with
  | nil => rfl
  | cons e es ih => cases e <;> simp [plain, ih]

theorem plain_literals (text : Bytes) (es : List Element) :
    plain (literals text ++ es) = text ++ plain es := by
  induction text with
  | nil => rfl
  | cons b text ih => exact congrArg (b :: ·) ih

theorem spell_append (es fs : List Element) : spell (es ++ fs) = spell es ++ spell fs := by
  induction es with
  | nil => rfl
  | cons e es ih =>
      cases e with
      | literal b => by_cases hb : b = colon <;> simp [spell, hb, ih]
      | param name => simp [spell, ih]
      | catchAll name => simp [spell, ih]

theorem unescape_no_colon {name : Bytes} (hname : ∀ b ∈ name, b ≠ colon) : unescape name = name := by
  fun_induction unescape name with
  | case1 => rfl
  | case2 => rfl
  | case3 rest => exact absurd rfl (hname colon (by simp))
  | case4 c rest _ ih => rw [ih fun b hb => hname b (List.mem_cons_of_mem _ hb)]
  | case5 b rest _ ih => rw [ih fun c hc => hname c (List.mem_cons_of_mem _ hc)]

theorem unescape_name {name rest : Bytes} (hname : ∀ b ∈ name, b ≠ colon)
    (hrest : rest.head? ≠ some colon) : unescape (name ++ rest) = name ++ unescape rest := by
  rw [unescape_append fun h => hrest h.2, unescape_no_colon hname]

theorem unescape_wildcard {name rest : Bytes} (hname : IsName name) {marker : UInt8}
    (hmarker : marker ≠ backslash) (hrest : rest.head? ≠ some colon) :
    unescape (marker :: (name ++ rest)) = marker :: (name ++ unescape rest) := by
  rw [unescape_byte hmarker, unescape_name (fun b hb => (not_marker (hname.2 b hb).2).1) hrest]

theorem not_colon_of_stop {rest : Bytes} (hstop : firstSegment rest = []) :
    rest.head? ≠ some colon := by
  rcases firstSegment_eq_nil.1 hstop with rfl | hslash
  · decide
  · rw [hslash]
    decide

/-- What a leading part of the elements spells is read in the same way as within the whole. -/
theorem unescape_spell {slashed : Bool} {path : Bytes} (h : Grammar slashed path)
    {front back : List Element} (helements : elements path = front ++ back) :
    unescape (spell front) = plain front := by
  induction h generalizing front with
  | done =>
      rw [elements_nil] at helements
      obtain ⟨rfl, -⟩ := List.append_eq_nil_iff.1 helements.symm
      rfl
  | lone =>
      rw [elements_byte (by simp) (by decide) (by decide), elements_nil] at helements
      rcases List.append_eq_singleton_iff.1 helements.symm with ⟨rfl, -⟩ | ⟨rfl, -⟩ <;> rfl
  | escaped _ ih =>
      rw [elements_escape] at helements
      cases front with
      | nil => rfl
      | cons e front =>
          obtain ⟨rfl, hrest⟩ := List.cons.inj helements
          rw [spell, if_pos rfl, unescape_escaped, ih hrest, plain]
  | byte hb hmarker _ ih =>
      obtain ⟨hcolon, hstar⟩ := not_marker hmarker
      rw [elements_byte (fun h => hb h.1) hcolon hstar] at helements
      cases front with
      | nil => rfl
      | cons e front =>
          obtain ⟨rfl, hrest⟩ := List.cons.inj helements
          rw [spell, if_neg hcolon, unescape_byte hb, ih hrest, plain]
  | @param _ name rest hname hstop _ ih =>
      rw [elements_param hname hstop] at helements
      cases front with
      | nil => rfl
      | cons e front =>
          obtain ⟨rfl, hrest⟩ := List.cons.inj helements
          have hhead : (spell front).head? ≠ some colon := by
            cases front with
            | nil => decide
            | cons f front =>
                rcases firstSegment_eq_nil.1 hstop with rfl | hslash
                · simp [elements_nil] at hrest
                · obtain ⟨es, hes⟩ := elements_slash hslash
                  rw [hes] at hrest
                  obtain ⟨rfl, -⟩ := List.cons.inj hrest
                  rw [spell, if_neg (by decide)]
                  simp [slash, colon]
          rw [spell, unescape_wildcard hname (by decide) hhead, ih hrest, plain]
  | @catchAll name hname =>
      rw [elements_catchAll hname] at helements
      rcases List.append_eq_singleton_iff.1 helements.symm with ⟨rfl, -⟩ | ⟨rfl, -⟩
      · rfl
      · have hrest : (spell []).head? ≠ some colon := by decide
        exact unescape_wildcard hname (by decide) hrest

theorem plain_elements {slashed : Bool} {path : Bytes} (h : Grammar slashed path) :
    plain (elements path) = unescape path := by
  rw [← unescape_spell h (List.append_nil _).symm, spell_elements h]

theorem unescape_unescape {slashed : Bool} {path : Bytes} (h : Grammar slashed path) :
    unescape (unescape path) = unescape path := by
  induction h with
  | done => rfl
  | lone => rfl
  | escaped _ ih => rw [unescape_escaped, unescape_byte (by decide), ih]
  | byte hb _ _ ih => rw [unescape_byte hb, unescape_byte hb, ih]
  | @param _ name rest hname hstop _ ih =>
      have hhead : (unescape rest).head? ≠ some colon := by
        rcases firstSegment_eq_nil.1 hstop with rfl | hslash
        · decide
        · obtain ⟨tail, rfl⟩ := List.head?_eq_some_iff.1 hslash
          rw [unescape_byte (by decide)]
          simp [slash, colon]
      rw [unescape_wildcard hname (by decide) (not_colon_of_stop hstop),
        unescape_wildcard hname (by decide) hhead, ih]
  | @catchAll name hname =>
      have h : unescape (star :: (name ++ [])) = star :: (name ++ unescape []) :=
        unescape_wildcard hname (by decide) (by decide)
      rw [unescape, List.append_nil] at h
      rw [h, h]

theorem unescape_front {front bs : Bytes} (h : unescape bs = bs) (hfront : front <+: bs) :
    unescape front = front := by
  obtain ⟨rest, rfl⟩ := hfront
  induction front with
  | nil => rfl
  | cons b front ih =>
      by_cases hb : b = backslash
      · subst hb
        cases front with
        | nil => rfl
        | cons c front =>
            have hc : c ≠ colon := by
              rintro rfl
              rw [List.cons_append, List.cons_append, unescape_escaped] at h
              exact absurd (List.cons.inj h).1 (by decide)
            rw [List.cons_append, List.cons_append, unescape_lone hc] at h
            rw [unescape_lone hc, ih (List.cons.inj h).2]
      · rw [List.cons_append, unescape_byte hb] at h
        rw [unescape_byte hb, ih (List.cons.inj h).2]

end HttpRouting.Pattern

import HttpRouting.Proofs.Pattern.Grammar
import Mathlib.Data.List.Basic

namespace HttpRouting.Pattern

open Bytes Utf8

theorem fill_literal {b : UInt8} {es : List Element} (h : ∀ name es', es ≠ .catchAll name :: es')
    (texts : List Bytes) : fill (.literal b :: es) texts = b :: fill es texts := by
  cases es with
  | nil => rfl
  | cons e es =>
      cases e with
      | literal | param => rfl
      | catchAll name => exact absurd rfl (h name es)

theorem head_ne_star {path : Bytes} (h : Grammar false path) : path.head? ≠ some star := by
  intro hstar
  obtain ⟨tail, rfl⟩ := List.head?_eq_some_iff.1 hstar
  cases h with
  | byte _ hmarker _ => cases hmarker

theorem not_catchAll_elements {slashed : Bool} {path : Bytes} (h : Grammar slashed path)
    (hstar : path.head? ≠ some star) (name : Bytes) (es : List Element) :
    elements path ≠ .catchAll name :: es := by
  intro hes
  cases h with
  | done => rw [elements_nil] at hes; cases hes
  | lone => rw [elements_byte (by simp) (by decide) (by decide)] at hes; cases hes
  | escaped => rw [elements_escape] at hes; cases hes
  | byte hb hmarker _ =>
      obtain ⟨hcolon, hne⟩ := not_marker hmarker
      rw [elements_byte (fun h => hb h.1) hcolon hne] at hes
      cases hes
  | param hname hstop _ => rw [elements_param hname hstop] at hes; cases hes
  | catchAll => exact hstar rfl

theorem slash_of_catchAll {b : UInt8} {tail : Bytes} (hrest : Grammar (b == slash) tail)
    (hstar : tail.head? = some star) : b = slash ∧ ∃ name, IsName name ∧ tail = star :: name := by
  obtain ⟨name, rfl⟩ := List.head?_eq_some_iff.1 hstar
  generalize hslash : (b == slash) = slashed at hrest
  cases hrest with
  | byte _ hmarker _ => cases hmarker
  | catchAll hname => exact ⟨eq_of_beq hslash, name, hname, rfl⟩

theorem slash_of_endsInCatchAll {slashed : Bool} {path : Bytes} (h : Grammar slashed path)
    (hstar : path.head? ≠ some star) {front : List Element} {name : Bytes}
    (hes : elements path = front ++ [.catchAll name]) :
    ∃ front', front = front' ++ [.literal slash] := by
  induction h generalizing front with
  | done => simp [elements_nil] at hes
  | lone =>
      rw [elements_byte (by simp) (by decide) (by decide), elements_nil] at hes
      cases front <;> simp at hes
  | escaped hrest ih =>
      rw [elements_escape] at hes
      cases front with
      | nil => simp at hes
      | cons e front =>
          obtain ⟨rfl, htail⟩ := List.cons.inj hes
          obtain ⟨front', rfl⟩ := ih (head_ne_star hrest) htail
          exact ⟨.literal colon :: front', rfl⟩
  | @byte slashed b tail hb hmarker hrest ih =>
      obtain ⟨hcolon, hne⟩ := not_marker hmarker
      rw [elements_byte (fun h => hb h.1) hcolon hne] at hes
      cases front with
      | nil => simp at hes
      | cons e front =>
          obtain ⟨rfl, htail⟩ := List.cons.inj hes
          by_cases hstar : tail.head? = some star
          · obtain ⟨rfl, name', hname, rfl⟩ := slash_of_catchAll hrest hstar
            rw [elements_catchAll hname] at htail
            cases front with
            | nil => exact ⟨[], rfl⟩
            | cons e front => simp at htail
          · obtain ⟨front', rfl⟩ := ih hstar htail
            exact ⟨.literal b :: front', rfl⟩
  | param hname hstop hrest ih =>
      rw [elements_param hname hstop] at hes
      cases front with
      | nil => simp at hes
      | cons e front =>
          obtain ⟨rfl, htail⟩ := List.cons.inj hes
          obtain ⟨front', rfl⟩ := ih (head_ne_star hrest) htail
          exact ⟨_ :: front', rfl⟩
  | catchAll => exact absurd rfl hstar

theorem captures?_literal {b : UInt8} {es : List Element} {path : Bytes} {caps : List Capture}
    (h : captures? (.literal b :: es) path = some caps) :
    ∃ rest, path = b :: rest ∧ captures? es rest = some caps := by
  cases path with
  | nil => cases h
  | cons a rest =>
      simp only [captures?, Option.ite_none_right_eq_some] at h
      obtain ⟨rfl, h⟩ := h
      exact ⟨rest, rfl, h⟩

theorem captures?_param {name : Bytes} {es : List Element} {path : Bytes} {caps : List Capture}
    (h : captures? (.param name :: es) path = some caps) :
    ∃ rest, captures? es (path.dropWhile (· ≠ slash)) = some rest ∧
      caps = ⟨name, firstSegment path⟩ :: rest := by
  cases path with
  | nil => cases h
  | cons b path =>
      obtain ⟨rest, hrest, rfl⟩ := Option.map_eq_some_iff.1 h
      exact ⟨rest, hrest, rfl⟩

theorem matches_opens {b : UInt8} {es : List Element} {path : Bytes}
    (h : Matches (.literal b :: es) path) : path.head? = some b := by
  obtain ⟨caps, hcaps⟩ := Option.isSome_iff_exists.1 h
  obtain ⟨rest, rfl, -⟩ := captures?_literal hcaps
  rfl

theorem matches_literals {text : Bytes} {es : List Element} {path : Bytes} :
    Matches (literals text ++ es) (text ++ path) ↔ Matches es path := by
  rw [Matches, captures?_literals, Matches]

theorem matches_param {name taken path : Bytes} {es : List Element}
    (htaken : ∀ b ∈ taken, b ≠ slash) (hstop : firstSegment path = []) (hne : taken ++ path ≠ []) :
    Matches (.param name :: es) (taken ++ path) ↔ Matches es path := by
  have hdrop := dropWhile_append htaken hstop
  obtain ⟨b, rest, heq⟩ := List.exists_cons_of_ne_nil hne
  rw [heq] at hdrop ⊢
  rw [Matches, captures?, Option.isSome_map, hdrop, Matches]

theorem firstSegment_no_slash (bs : Bytes) : ∀ b ∈ firstSegment bs, b ≠ slash := by
  intro b hb
  simpa using List.all_eq_true.1 (List.all_takeWhile (p := (· ≠ slash)) (l := bs)) b hb

theorem getLast?_dropWhile {rest : Bytes} (h : rest.dropWhile (· ≠ slash) ≠ []) :
    (rest.dropWhile (· ≠ slash)).getLast? = rest.getLast? := by
  have hsplit := segment_append_rest rest
  have hsame := List.getLast?_append_of_ne_nil (firstSegment rest) h
  rw [hsplit] at hsame
  exact hsame.symm

theorem fill_captures {slashed : Bool} {pattern path : Bytes} (hpattern : Grammar slashed pattern)
    (hstar : pattern.head? ≠ some star) {caps : List Capture}
    (h : captures? (elements pattern) path = some caps) :
    fill (elements pattern) (caps.map (·.text)) = path := by
  induction hpattern generalizing path caps with
  | done =>
      rw [elements_nil] at h ⊢
      cases path with
      | nil => rfl
      | cons b path => cases h
  | lone =>
      rw [elements_byte (by simp) (by decide) (by decide), elements_nil] at h ⊢
      obtain ⟨rest, rfl, hcaps⟩ := captures?_literal h
      cases rest with
      | nil => rfl
      | cons b rest => cases hcaps
  | escaped hrest ih =>
      rw [elements_escape] at h ⊢
      obtain ⟨rest, rfl, hcaps⟩ := captures?_literal h
      have hstar := head_ne_star hrest
      rw [fill_literal (not_catchAll_elements hrest hstar), ih hstar hcaps]
  | @byte slashed b tail hb hmarker hrest ih =>
      obtain ⟨hcolon, hne⟩ := not_marker hmarker
      rw [elements_byte (fun h => hb h.1) hcolon hne] at h ⊢
      obtain ⟨rest, rfl, hcaps⟩ := captures?_literal h
      by_cases hstar : tail.head? = some star
      · obtain ⟨rfl, name, hname, rfl⟩ := slash_of_catchAll hrest hstar
        rw [elements_catchAll hname] at hcaps ⊢
        cases hcaps
        rfl
      · rw [fill_literal (not_catchAll_elements hrest hstar), ih hstar hcaps]
  | param hname hstop hrest ih =>
      rw [elements_param hname hstop] at h ⊢
      obtain ⟨rest, hcaps, rfl⟩ := captures?_param h
      rw [List.map_cons, fill, ih (head_ne_star hrest) hcaps]
      exact segment_append_rest _
  | catchAll => exact absurd rfl hstar

theorem slash_low : slash < 0x80 := by decide

theorem isText_segment {path : Bytes} (h : IsText path) :
    IsText (firstSegment path) ∧ IsText (path.dropWhile (· ≠ slash)) := by
  have hpath := segment_append_rest path
  rcases firstSegment_eq_nil.1 (firstSegment_dropWhile path) with hnil | hslash
  · rw [hnil, List.append_nil] at hpath
    rw [hnil, hpath]
    exact ⟨h, .nil⟩
  · obtain ⟨rest, hrest⟩ := List.head?_eq_some_iff.1 hslash
    rw [← hpath, hrest] at h
    rw [hrest]
    exact ⟨(h.cut slash_low).1, h.cancel (h.cut slash_low).1⟩

/-- Both the pattern and the path are text from `front` on, the part that they share since the last
wildcard. -/
theorem captures_text {slashed : Bool} {pattern : Bytes} (hpattern : Grammar slashed pattern)
    {front path : Bytes} {caps : List Capture} (hfront : IsText (front ++ pattern))
    (hpath : IsText (front ++ path)) (h : captures? (elements pattern) path = some caps) :
    ∀ c ∈ caps, IsText c.name ∧ IsText c.text := by
  induction hpattern generalizing front path caps with
  | done =>
      rw [elements_nil] at h
      cases path with
      | nil => cases h; exact nofun
      | cons b path => cases h
  | lone =>
      rw [elements_byte (by simp) (by decide) (by decide), elements_nil] at h
      obtain ⟨rest, rfl, hcaps⟩ := captures?_literal h
      cases rest with
      | nil => cases hcaps; exact nofun
      | cons b rest => cases hcaps
  | escaped _ ih =>
      rw [elements_escape] at h
      obtain ⟨rest, rfl, hcaps⟩ := captures?_literal h
      obtain ⟨hfront, htail⟩ := hfront.cut (show backslash < 0x80 by decide)
      have hrest := (hpath.cut (show colon < 0x80 by decide)).2
      have htail : IsText ([] ++ colon :: _) := htail
      have htail' : IsText ([] ++ _) := (htail.cut (show colon < 0x80 by decide)).2
      exact ih htail' hrest hcaps
  | @byte slashed b tail hb hmarker hrest ih =>
      obtain ⟨hcolon, hne⟩ := not_marker hmarker
      rw [elements_byte (fun h => hb h.1) hcolon hne] at h
      obtain ⟨rest, rfl, hcaps⟩ := captures?_literal h
      rw [List.append_cons] at hfront hpath
      exact ih hfront hpath hcaps
  | @param slashed name tail hname hstop hrest ih =>
      rw [elements_param hname hstop] at h
      obtain ⟨rest, hcaps, rfl⟩ := captures?_param h
      obtain ⟨hfront, htail⟩ := hfront.cut (show colon < 0x80 by decide)
      have hpath := hpath.cancel hfront
      obtain ⟨hsegment, hrest⟩ := isText_segment hpath
      obtain ⟨hname', htail'⟩ := isText_segment htail
      have hslash : ∀ b ∈ name, b ≠ slash := fun b hb => (hname.2 b hb).1
      rw [firstSegment_append hslash hstop] at hname'
      rw [dropWhile_append hslash hstop] at htail'
      have htail : IsText ([] ++ tail) := htail'
      intro c hc
      rcases List.mem_cons.1 hc with rfl | hc
      · exact ⟨hname', hsegment⟩
      · exact ih htail hrest hcaps c hc
  | @catchAll name hname =>
      rw [elements_catchAll hname] at h
      cases h
      obtain ⟨hfront, hname⟩ := hfront.cut (show star < 0x80 by decide)
      intro c hc
      rw [List.mem_singleton.1 hc]
      have hslash : IsText [slash] := ⟨['/'], rfl⟩
      exact ⟨hname, hslash.append (hpath.cancel hfront)⟩

end HttpRouting.Pattern

import HttpRouting.Pattern.Check
import HttpRouting.Pattern.Literal
import HttpRouting.Proofs.Pattern.Element
import HttpRouting.Proofs.Text.RoundTrip

namespace HttpRouting.Pattern

open Bytes

def IsName (name : Bytes) : Prop := name ≠ [] ∧ ∀ b ∈ name, b ≠ slash ∧ Wildcard.isMarker b = false

theorem IsName.two_le {name : Bytes} (hname : IsName name) (marker : UInt8) :
    2 ≤ (marker :: name).length :=
  Nat.succ_le_succ (List.length_pos_iff.2 hname.1)

theorem not_marker {b : UInt8} (h : Wildcard.isMarker b = false) : b ≠ colon ∧ b ≠ star := by
  simpa [Wildcard.isMarker] using h

/-- A part of a pattern that starts outside of wildcards; `slashed` tells whether a slash stands
right before it. A lone backslash may only end the pattern. -/
inductive Grammar : (slashed : Bool) → Bytes → Prop
  | done {slashed : Bool} : Grammar slashed []
  | lone {slashed : Bool} : Grammar slashed [backslash]
  | escaped {slashed : Bool} {rest : Bytes} (hrest : Grammar false rest) :
      Grammar slashed (backslash :: colon :: rest)
  | byte {slashed : Bool} {b : UInt8} {rest : Bytes} (hb : b ≠ backslash)
      (hmarker : Wildcard.isMarker b = false) (hrest : Grammar (b == slash) rest) :
      Grammar slashed (b :: rest)
  | param {slashed : Bool} {name rest : Bytes} (hname : IsName name) (hstop : firstSegment rest = [])
      (hrest : Grammar false rest) : Grammar slashed (colon :: (name ++ rest))
  | catchAll {name : Bytes} (hname : IsName name) : Grammar true (star :: name)

theorem firstSegment_append {name rest : Bytes} (hname : ∀ b ∈ name, b ≠ slash)
    (hstop : firstSegment rest = []) : firstSegment (name ++ rest) = name := by
  rw [firstSegment, List.takeWhile_append_of_pos (by simpa using hname)]
  exact (congrArg (name ++ ·) hstop).trans (List.append_nil name)

theorem dropWhile_of_firstSegment {rest : Bytes} (hstop : firstSegment rest = []) :
    rest.dropWhile (· ≠ slash) = rest := by
  have h := segment_append_rest rest
  rwa [hstop] at h

theorem dropWhile_append {name rest : Bytes} (hname : ∀ b ∈ name, b ≠ slash)
    (hstop : firstSegment rest = []) : (name ++ rest).dropWhile (· ≠ slash) = rest := by
  rw [List.dropWhile_append_of_pos (by simpa using hname), dropWhile_of_firstSegment hstop]

theorem firstSegment_eq_nil {rest : Bytes} :
    firstSegment rest = [] ↔ rest = [] ∨ rest.head? = some slash := by
  cases rest with
  | nil => simp [firstSegment]
  | cons b rest => by_cases hb : b = slash <;> simp [firstSegment, hb]

theorem firstSegment_dropWhile (bs : Bytes) : firstSegment (bs.dropWhile (· ≠ slash)) = [] := by
  have h := List.head?_dropWhile_not (fun b => decide (b ≠ slash)) bs
  rw [firstSegment_eq_nil]
  cases hd : bs.dropWhile (· ≠ slash) with
  | nil => exact .inl rfl
  | cons b rest =>
      rw [hd] at h
      exact .inr (by simpa using h)

theorem after_slash {rest : Bytes} (h : rest.dropWhile (· ≠ slash) ≠ []) :
    ∃ more, rest.dropWhile (· ≠ slash) = slash :: more :=
  List.head?_eq_some_iff.1 ((firstSegment_eq_nil.1 (firstSegment_dropWhile rest)).resolve_left h)

theorem elements_param {name rest : Bytes} (hname : IsName name) (hstop : firstSegment rest = []) :
    elements (colon :: (name ++ rest)) = .param name :: elements rest := by
  have hslash : ∀ b ∈ name, b ≠ slash := fun b hb => (hname.2 b hb).1
  rw [elements_colon, firstSegment_append hslash hstop, dropWhile_append hslash hstop]

theorem elements_catchAll {name : Bytes} (hname : IsName name) :
    elements (star :: name) = [.catchAll name] := by
  have hslash : ∀ b ∈ name, b ≠ slash := fun b hb => (hname.2 b hb).1
  have hfirst : firstSegment (name ++ []) = name := firstSegment_append hslash rfl
  have hrest : (name ++ []).dropWhile (· ≠ slash) = [] := dropWhile_append hslash rfl
  rw [List.append_nil] at hfirst hrest
  rw [elements_star, hfirst, hrest, elements_nil]

theorem elements_slash {bs : Bytes} (h : bs.head? = some slash) :
    ∃ es, elements bs = .literal slash :: es := by
  obtain ⟨bs, rfl⟩ := List.head?_eq_some_iff.1 h
  exact ⟨elements bs, elements_byte (fun h => absurd h.1 (by decide)) (by decide) (by decide)⟩

theorem grammar_colon {slashed : Bool} {path : Bytes} (h : Grammar slashed (colon :: path)) :
    ∃ name rest, path = name ++ rest ∧ IsName name ∧ firstSegment rest = [] ∧ Grammar false rest := by
  generalize hcolon : colon :: path = bs at h
  cases h with
  | done => cases hcolon
  | lone => exact absurd (List.cons.inj hcolon).1 (by decide)
  | escaped => exact absurd (List.cons.inj hcolon).1 (by decide)
  | byte _ hmarker _ =>
      rw [← (List.cons.inj hcolon).1] at hmarker
      cases hmarker
  | param hname hstop hrest => exact ⟨_, _, (List.cons.inj hcolon).2, hname, hstop, hrest⟩
  | catchAll => exact absurd (List.cons.inj hcolon).1 (by decide)

def slashedAfter (slashed : Bool) : Bytes → Bool
  | [] => slashed
  | b :: text => slashedAfter (b == slash) text

theorem slashedAfter_eq_true {slashed : Bool} {text : Bytes} (h : slashedAfter slashed text = true) :
    (text = [] ∧ slashed = true) ∨ ∃ front, text = front ++ [slash] := by
  induction text generalizing slashed with
  | nil => exact .inl ⟨rfl, h⟩
  | cons b text ih =>
      rcases ih h with ⟨rfl, hb⟩ | ⟨front, rfl⟩
      · exact .inr ⟨[], by simpa using hb⟩
      · exact .inr ⟨b :: front, rfl⟩

theorem slashedAfter_of_last {slashed : Bool} {front : Bytes} :
    slashedAfter slashed (front ++ [slash]) = true := by
  induction front generalizing slashed with
  | nil => rfl
  | cons b front ih => exact ih

/-- A search for a wildcard passes over text that puts no demand on what follows it. -/
theorem findFrom_grammar (start : Nat) (bs : Bytes) :
    (Wildcard.findFrom start bs = .ok none → ∀ slashed, Grammar slashed bs) ∧
    ∀ w, Wildcard.findFrom start bs = .ok (some w) →
      ∃ text marker rest, bs = text ++ marker :: rest ∧ Wildcard.isMarker marker = true ∧
        w = Wildcard.opened (start + text.length) marker rest ∧
        ∀ slashed, Grammar (slashedAfter slashed text) (marker :: rest) → Grammar slashed bs := by
  fun_induction Wildcard.findFrom start bs with
  | case1 => exact ⟨fun _ _ => .done, nofun⟩
  | case2 => exact ⟨fun _ _ => .lone, nofun⟩
  | case3 start rest ih =>
      refine ⟨fun h _ => .escaped (ih.1 h false), fun w h => ?_⟩
      obtain ⟨text, marker, tail, rfl, hmarker, rfl, hg⟩ := ih.2 w h
      refine ⟨backslash :: colon :: text, marker, tail, rfl, hmarker, ?_, ?_⟩
      · simp only [List.length_cons]
        congr 1
        omega
      · exact fun _ h => .escaped (hg false h)
  | case4 => exact ⟨nofun, nofun⟩
  | case5 start b bs _ hmarker =>
      refine ⟨nofun, fun w h => ?_⟩
      cases h
      exact ⟨[], b, bs, rfl, hmarker, rfl, fun _ h => h⟩
  | case6 start b bs hb hmarker ih =>
      have hmarker : Wildcard.isMarker b = false := by simpa using hmarker
      refine ⟨fun h _ => .byte hb hmarker (ih.1 h _), fun w h => ?_⟩
      obtain ⟨text, marker, tail, rfl, hm, rfl, hg⟩ := ih.2 w h
      refine ⟨b :: text, marker, tail, rfl, hm, ?_, ?_⟩
      · simp only [List.length_cons]
        congr 1
        omega
      · exact fun _ h => .byte hb hmarker (hg _ h)

theorem isName_of_valid {start : Nat} {marker : UInt8} {bs : Bytes}
    (hvalid : (Wildcard.opened start marker bs).valid = true)
    (hlength : 2 ≤ (Wildcard.opened start marker bs).token.length) : IsName (firstSegment bs) := by
  simp only [Wildcard.opened, Bool.not_eq_true', List.any_eq_false, List.length_cons] at hvalid hlength
  refine ⟨fun h => ?_, fun b hb => ⟨?_, ?_⟩⟩
  · rw [h] at hlength
    simp at hlength
  · have h := List.all_eq_true.1 (List.all_takeWhile (p := (· ≠ slash)) (l := bs)) b hb
    simpa using h
  · simpa using hvalid b hb

theorem checkWildcard_iff {route : String} {rest : Bytes} {w : Wildcard} :
    checkWildcard route rest w = .ok () ↔
      w.valid = true ∧ 2 ≤ w.token.length ∧
        (w.isCatchAll = true → w.stop = rest.length ∧ w.start ≠ 0 ∧
          rest[w.start - 1]? = some slash) := by
  constructor
  · intro h
    have hlength := two_le_of_checkWildcard h
    unfold checkWildcard at h
    repeat' split at h
    all_goals simp_all
  · rintro ⟨hvalid, hlength, hcatchAll⟩
    unfold checkWildcard
    rw [hvalid, if_neg (by decide), if_neg (Nat.not_lt.2 hlength)]
    split
    · rfl
    · next hstar =>
        obtain ⟨hstop, hstart, hslash⟩ := hcatchAll (by simpa using hstar)
        rw [if_neg (not_not_intro hstop), if_neg (not_or_intro hstart (not_not_intro hslash))]

theorem drop_stop (text tail : Bytes) (marker : UInt8) :
    (text ++ marker :: tail).drop (Wildcard.opened text.length marker tail).stop =
      tail.dropWhile (· ≠ slash) := by
  have htail : text ++ marker :: tail =
      (text ++ marker :: firstSegment tail) ++ tail.dropWhile (· ≠ slash) := by
    rw [List.append_assoc, List.cons_append, segment_append_rest]
  have hstop : (Wildcard.opened text.length marker tail).stop =
      (text ++ marker :: firstSegment tail).length := by
    simp [Wildcard.stop, Wildcard.opened]
  rw [hstop, htail, List.drop_left]

theorem last_of_getElem? {text rest : Bytes} (hne : text.length ≠ 0)
    (h : (text ++ rest)[text.length - 1]? = some slash) : ∃ front, text = front ++ [slash] := by
  rcases List.eq_nil_or_concat text with rfl | ⟨front, b, rfl⟩
  · exact absurd rfl hne
  · refine ⟨front, ?_⟩
    simpa using h

theorem grammar_of_checkFrom {route : String} {rest : Bytes} (h : checkFrom route rest = .ok ()) :
    Grammar false rest := by
  fun_induction checkFrom route rest with
  | case1 => exact .done
  | case2 => cases h
  | case3 rest _ hfind => exact (findFrom_grammar 0 rest).1 hfind false
  | case4 => cases h
  | case5 rest hne w hfind hw ih =>
      obtain ⟨hvalid, hlength, hcatchAll⟩ := checkWildcard_iff.1 hw
      obtain ⟨text, marker, tail, rfl, hmarker, rfl, hg⟩ := (findFrom_grammar 0 rest).2 w hfind
      rw [Nat.zero_add] at *
      have hname := isName_of_valid hvalid hlength
      have htail := segment_append_rest tail
      have hrest := ih h
      rw [drop_stop] at hrest
      apply hg
      by_cases hstar : marker = star
      · subst hstar
        obtain ⟨hstop, hstart, hslash⟩ := hcatchAll rfl
        obtain ⟨front, rfl⟩ := last_of_getElem? hstart hslash
        have hnil : tail.dropWhile (· ≠ slash) = [] := by
          rw [← drop_stop, hstop, List.drop_length]
        rw [hnil, List.append_nil] at htail
        rw [slashedAfter_of_last, ← htail]
        exact .catchAll hname
      · have hcolon : marker = colon := by
          simpa [Wildcard.isMarker, hstar] using hmarker
        subst hcolon
        rw [← htail]
        exact .param hname (firstSegment_dropWhile tail) hrest

theorem grammar_of_check {route : String} (h : check route = .ok ()) : Grammar false (utf8 route) :=
  grammar_of_checkFrom h

theorem spell_elements {slashed : Bool} {path : Bytes} (h : Grammar slashed path) :
    spell (elements path) = path := by
  induction h with
  | done => rw [elements_nil, spell]
  | lone => rw [elements_byte (by simp) (by decide) (by decide), elements_nil]; rfl
  | escaped _ ih => rw [elements_escape, spell, if_pos rfl, ih]
  | byte hb hmarker _ ih =>
      obtain ⟨hcolon, hstar⟩ := not_marker hmarker
      rw [elements_byte (fun h => hb h.1) hcolon hstar, spell, if_neg hcolon, ih]
  | param hname hstop _ ih => rw [elements_param hname hstop, spell, ih]
  | catchAll hname => rw [elements_catchAll hname, spell, spell, List.append_nil]

def ofRoute (route : String) : List Element := elements (utf8 route)

theorem ofRoute_injective {route route' : String} (h : check route = .ok ())
    (h' : check route' = .ok ()) (heq : ofRoute route = ofRoute route') : route = route' := by
  rw [ofRoute, ofRoute] at heq
  have hbytes : utf8 route = utf8 route' := by
    rw [← spell_elements (grammar_of_check h), heq, spell_elements (grammar_of_check h')]
  exact Utf8.utf8_injective hbytes

theorem opened_eq {name rest : Bytes} (hname : IsName name) (hstop : firstSegment rest = [])
    (start : Nat) (marker : UInt8) :
    Wildcard.opened start marker (name ++ rest) = ⟨marker :: name, start, true⟩ := by
  have hany : name.any Wildcard.isMarker = false := by
    simpa using fun b hb => (hname.2 b hb).2
  rw [Wildcard.opened, firstSegment_append (fun b hb => (hname.2 b hb).1) hstop, hany]
  rfl

theorem unescape_escaped (rest : Bytes) :
    unescape (backslash :: colon :: rest) = colon :: unescape rest := by
  rw [unescape, if_pos rfl]
  exact if_pos rfl

theorem unescape_byte {b : UInt8} (hb : b ≠ backslash) (rest : Bytes) :
    unescape (b :: rest) = b :: unescape rest := by
  rw [unescape.eq_def]
  exact if_neg hb

theorem unescape_lone {b : UInt8} (hb : b ≠ colon) (rest : Bytes) :
    unescape (backslash :: b :: rest) = backslash :: unescape (b :: rest) := by
  rw [unescape, if_pos rfl]
  exact if_neg hb

theorem getLast?_cons_some {b c : UInt8} {bs : Bytes} (h : bs.getLast? = some c) :
    (b :: bs).getLast? = some c := by
  rw [List.getLast?_cons, h]
  rfl

/-- Two texts may be read one by one unless a backslash at the end of the first escapes a colon at the
start of the second. -/
theorem unescape_append {text more : Bytes}
    (h : ¬ (text.getLast? = some backslash ∧ more.head? = some colon)) :
    unescape (text ++ more) = unescape text ++ unescape more := by
  fun_induction unescape text with
  | case1 => rfl
  | case2 =>
      cases more with
      | nil => rfl
      | cons c more => exact unescape_lone (fun hc => h ⟨rfl, congrArg some hc⟩) more
  | case3 rest ih =>
      refine (unescape_escaped _).trans (congrArg (colon :: ·) (ih fun hrest => h ⟨?_, hrest.2⟩))
      exact getLast?_cons_some (getLast?_cons_some hrest.1)
  | case4 c rest hc ih =>
      exact (unescape_lone hc _).trans (congrArg (backslash :: ·) (ih h))
  | case5 b rest hb ih =>
      refine (unescape_byte hb _).trans (congrArg (b :: ·) (ih fun hrest => h ⟨?_, hrest.2⟩))
      exact getLast?_cons_some hrest.1

theorem unescape_append_slash (text : Bytes) :
    unescape (text ++ [slash]) = unescape text ++ [slash] := by
  have hslash : ¬ ([slash] : Bytes).head? = some colon := by decide
  exact unescape_append fun h => hslash h.2

/-- What a search for a wildcard finds in a part of a pattern. -/
inductive Opening (slashed : Bool) (start : Nat) (path : Bytes) : Prop
  | text (hfind : Wildcard.findFrom start path = .ok none)
      (helements : elements path = literals (unescape path))
  | param (text name rest : Bytes) (hpath : path = text ++ colon :: (name ++ rest))
      (hname : IsName name) (hstop : firstSegment rest = []) (hrest : Grammar false rest)
      (hfind : Wildcard.findFrom start path = .ok (some ⟨colon :: name, start + text.length, true⟩))
      (helements : elements path = literals (unescape text) ++ .param name :: elements rest)
  | catchAll (text name : Bytes) (hpath : path = text ++ star :: name) (hname : IsName name)
      (hslash : slashedAfter slashed text = true)
      (hfind : Wildcard.findFrom start path = .ok (some ⟨star :: name, start + text.length, true⟩))
      (helements : elements path = literals (unescape text) ++ [.catchAll name])

/-- A literal byte in front, spelled by `spelling`, moves the first wildcard back. -/
theorem Opening.behind {slashed slashed' : Bool} {start : Nat} (spelling : Bytes) {rest : Bytes}
    {b : UInt8}
    (hfind : Wildcard.findFrom start (spelling ++ rest) =
      Wildcard.findFrom (start + spelling.length) rest)
    (helements : elements (spelling ++ rest) = .literal b :: elements rest)
    (hunescape : ∀ text, unescape (spelling ++ text) = b :: unescape text)
    (hslashed : ∀ text, slashedAfter slashed (spelling ++ text) = slashedAfter slashed' text)
    (h : Opening slashed' (start + spelling.length) rest) :
    Opening slashed start (spelling ++ rest) := by
  cases h with
  | text h hes =>
      apply Opening.text (hfind.trans h)
      rw [helements, hes, hunescape]
      rfl
  | param text name tail hrest hname hstop htail h hes =>
      subst hrest
      refine .param (spelling ++ text) name tail (List.append_assoc ..).symm hname hstop htail ?_ ?_
      · rw [hfind, h, List.length_append, Nat.add_assoc]
      · rw [helements, hes, hunescape]
        rfl
  | catchAll text name hrest hname hslash h hes =>
      subst hrest
      refine .catchAll (spelling ++ text) name (List.append_assoc ..).symm hname ?_ ?_ ?_
      · rw [hslashed, hslash]
      · rw [hfind, h, List.length_append, Nat.add_assoc]
      · rw [helements, hes, hunescape]
        rfl

theorem findFrom_byte {b : UInt8} (hb : b ≠ backslash) (start : Nat) (rest : Bytes) :
    Wildcard.findFrom start (b :: rest) =
      if Wildcard.isMarker b then .ok (some (Wildcard.opened start b rest))
      else Wildcard.findFrom (start + 1) rest := by
  rw [Wildcard.findFrom.eq_def]
  exact if_neg hb

theorem findFrom_opening {slashed : Bool} {path : Bytes} (h : Grammar slashed path) (start : Nat) :
    Opening slashed start path := by
  induction h generalizing start with
  | done => exact .text rfl elements_nil
  | lone => exact .text rfl (by simp [elements, unescape, literals]; decide)
  | escaped _ ih =>
      exact Opening.behind [backslash, colon] rfl (elements_escape _) unescape_escaped
        (fun _ => rfl) (ih _)
  | @byte slashed b rest hb hmarker _ ih =>
      obtain ⟨hcolon, hstar⟩ := not_marker hmarker
      have hfind := findFrom_byte hb start rest
      rw [hmarker] at hfind
      exact Opening.behind [b] hfind (elements_byte (fun h => hb h.1) hcolon hstar)
        (unescape_byte hb) (fun _ => rfl) (ih _)
  | @param slashed name rest hname hstop hrest _ =>
      refine .param [] name rest rfl hname hstop hrest ?_ (elements_param hname hstop)
      have hfind := findFrom_byte (show colon ≠ backslash by decide) start (name ++ rest)
      rw [opened_eq hname hstop] at hfind
      exact hfind
  | @catchAll name hname =>
      refine .catchAll [] name rfl hname rfl ?_ (elements_catchAll hname)
      have hopened : Wildcard.opened start star (name ++ []) = ⟨star :: name, start, true⟩ :=
        opened_eq hname rfl start star
      rw [List.append_nil] at hopened
      have hfind := findFrom_byte (show star ≠ backslash by decide) start name
      rw [hopened] at hfind
      exact hfind

theorem checkFrom_text {route : String} {rest : Bytes} (hfind : Wildcard.findFrom 0 rest = .ok none) :
    checkFrom route rest = .ok () := by
  rw [checkFrom]
  split
  · rfl
  · simp only [Wildcard.find?, hfind]

theorem checkFrom_wildcard {route : String} {rest : Bytes} {w : Wildcard}
    (hfind : Wildcard.findFrom 0 rest = .ok (some w)) (hw : checkWildcard route rest w = .ok ()) :
    checkFrom route rest = checkFrom route (rest.drop w.stop) := by
  have hne : rest ≠ [] := by
    rintro rfl
    cases hfind
  rw [checkFrom, dif_neg hne, Wildcard.find?, hfind]
  dsimp only
  split
  · next e herror =>
      rw [hw] at herror
      cases herror
  · rfl

theorem checkFrom_of_grammar (route : String) {rest : Bytes} (h : Grammar false rest) :
    checkFrom route rest = .ok () := by
  induction hlength : rest.length using Nat.strongRecOn generalizing rest with
  | ind length ih =>
      cases findFrom_opening h 0 with
      | text hfind => exact checkFrom_text hfind
      | param text name tail hpath hname hstop htail hfind =>
          subst hpath
          have hdrop : (text ++ colon :: (name ++ tail)).drop
              (Wildcard.stop ⟨colon :: name, 0 + text.length, true⟩) = tail := by
            simp [Wildcard.stop]
          have hshorter : tail.length < length := by
            rw [← hlength]
            simp only [List.length_append, List.length_cons]
            omega
          have hw : checkWildcard route (text ++ colon :: (name ++ tail))
              ⟨colon :: name, 0 + text.length, true⟩ = .ok () :=
            checkWildcard_iff.2 ⟨rfl, hname.two_le colon, fun h => by cases h⟩
          rw [checkFrom_wildcard hfind hw, hdrop]
          exact ih tail.length hshorter htail rfl
      | catchAll text name hpath hname hslash hfind =>
          subst hpath
          rcases slashedAfter_eq_true hslash with ⟨-, hfalse⟩ | ⟨front, rfl⟩
          · cases hfalse
          have hdrop : (front ++ [slash] ++ star :: name).drop
              (Wildcard.stop ⟨star :: name, (front ++ [slash]).length, true⟩) = [] := by
            rw [Wildcard.stop, ← List.length_append, List.drop_length]
          have hw : checkWildcard route (front ++ [slash] ++ star :: name)
              ⟨star :: name, (front ++ [slash]).length, true⟩ = .ok () :=
            checkWildcard_iff.2 ⟨rfl, hname.two_le star, fun _ => ⟨List.length_append.symm, by simp, by simp⟩⟩
          rw [Nat.zero_add] at hfind
          rw [checkFrom_wildcard hfind hw, hdrop]
          exact checkFrom_text rfl

theorem check_iff {route : String} : check route = .ok () ↔ Grammar false (utf8 route) :=
  ⟨grammar_of_check, checkFrom_of_grammar route⟩

/-- The refusals of a route for the way it is written. -/
inductive Malformed (route : String) : RouteError → Prop
  | escape : Malformed route (.invalidEscape route)
  | twoMarkers (segment : String) : Malformed route (.multipleWildcards segment route)
  | unnamed : Malformed route (.unnamedWildcard route)
  | notLast : Malformed route (.catchAllNotLast route)
  | noSlash : Malformed route (.missingSlashBeforeCatchAll route)

theorem checkWildcard_malformed {route : String} {rest : Bytes} {w : Wildcard} {e : RouteError}
    (h : checkWildcard route rest w = .error e) : Malformed route e := by
  unfold checkWildcard at h
  split at h
  · cases h
    exact .twoMarkers _
  split at h
  · cases h
    exact .unnamed
  split at h
  · cases h
  split at h
  · cases h
    exact .notLast
  split at h
  · cases h
    exact .noSlash
  · cases h

theorem checkFrom_malformed {route : String} {rest : Bytes} {e : RouteError}
    (h : checkFrom route rest = .error e) : Malformed route e := by
  fun_induction checkFrom route rest with
  | case1 => cases h
  | case2 =>
      cases h
      exact .escape
  | case3 => cases h
  | case4 rest _ w _ e' hw =>
      cases h
      exact checkWildcard_malformed hw
  | case5 rest _ w _ _ ih => exact ih h

theorem nextLiteral?_some {slashed : Bool} {path : Bytes} {b : UInt8} {width : Nat}
    (h : Grammar slashed path) (hb : nextLiteral? path = some (b, width)) :
    elements path = .literal b :: elements (path.drop width) ∧
      Grammar (b == slash) (path.drop width) := by
  cases h with
  | done => cases hb
  | lone =>
      cases hb
      exact ⟨elements_byte (by simp) (by decide) (by decide), .done⟩
  | escaped hrest =>
      cases hb
      exact ⟨elements_escape _, hrest⟩
  | byte hne hmarker hrest =>
      obtain ⟨hcolon, hstar⟩ := not_marker hmarker
      rw [nextLiteral?, if_neg (fun h => hne h.1), hmarker] at hb
      cases hb
      exact ⟨elements_byte (fun h => hne h.1) hcolon hstar, hrest⟩
  | param => cases hb
  | catchAll => cases hb

theorem grammar_of_nextLiteral? {slashed : Bool} {path : Bytes} {b : UInt8} {width : Nat}
    (h : Grammar slashed path) (hb : nextLiteral? path = some (b, width)) : Grammar false path := by
  cases h with
  | done => exact .done
  | lone => exact .lone
  | escaped hrest => exact .escaped hrest
  | byte hne hmarker hrest => exact .byte hne hmarker hrest
  | param hname hstop hrest => exact .param hname hstop hrest
  | catchAll => cases hb

/-- Where no literal byte stands in front, the pattern has ended or goes on with a wildcard. -/
inductive Front (slashed : Bool) : Bytes → Prop
  | ended : Front slashed []
  | param {name rest : Bytes} (hname : IsName name) (hstop : firstSegment rest = [])
      (hrest : Grammar false rest) : Front slashed (colon :: (name ++ rest))
  | catchAll {name : Bytes} (hname : IsName name) (hslash : slashed = true) :
      Front slashed (star :: name)

theorem nextLiteral?_none {slashed : Bool} {path : Bytes} (h : Grammar slashed path)
    (hb : nextLiteral? path = none) : Front slashed path := by
  cases h with
  | done => exact .ended
  | lone => cases hb
  | escaped => cases hb
  | byte hne hmarker _ =>
      rw [nextLiteral?, if_neg (fun h => hne h.1), hmarker] at hb
      cases hb
  | param hname hstop hrest => exact .param hname hstop hrest
  | catchAll hname => exact .catchAll hname rfl

theorem Front.not_literal {slashed : Bool} {path : Bytes} (h : Front slashed path) (b : UInt8)
    (es : List Element) : elements path ≠ .literal b :: es := by
  intro hes
  cases h with
  | ended => rw [elements_nil] at hes; cases hes
  | param hname hstop _ => rw [elements_param hname hstop] at hes; cases hes
  | catchAll hname _ => rw [elements_catchAll hname] at hes; cases hes

theorem nextLiteral?_of_elements {slashed : Bool} {path : Bytes} (h : Grammar slashed path)
    {b : UInt8} {es : List Element} (hes : elements path = .literal b :: es) :
    ∃ width, nextLiteral? path = some (b, width) := by
  cases hb : nextLiteral? path with
  | some next =>
      obtain ⟨b', width⟩ := next
      rw [(nextLiteral?_some h hb).1] at hes
      cases hes
      exact ⟨width, rfl⟩
  | none => exact absurd hes ((nextLiteral?_none h hb).not_literal b es)

theorem overlap_elements {slashed : Bool} {path : Bytes} (h : Grammar slashed path)
    (stored : Bytes) :
    elements path = literals (stored.take (overlap path stored).2) ++
        elements (path.drop (overlap path stored).1) ∧
      Grammar (slashedAfter slashed (stored.take (overlap path stored).2))
        (path.drop (overlap path stored).1) ∧
      ∀ b, stored[(overlap path stored).2]? = some b →
        (elements (path.drop (overlap path stored).1)).head? ≠ some (.literal b) := by
  fun_induction overlap path stored generalizing slashed with
  | case1 => exact ⟨rfl, h, by simp⟩
  | case2 path stored b width hnext i j hij ih =>
      obtain ⟨helements, hrest⟩ := nextLiteral?_some h hnext
      rw [hij] at ih
      obtain ⟨hes, hg, hhead⟩ := ih hrest
      rw [List.drop_drop, Nat.add_comm] at hes hg hhead
      refine ⟨?_, hg, hhead⟩
      rw [helements, hes]
      rfl
  | case3 path s stored b width hnext hne =>
      obtain ⟨helements, hrest⟩ := nextLiteral?_some h hnext
      refine ⟨rfl, h, fun c hc hhead => hne ?_⟩
      rw [List.drop_zero, helements] at hhead
      cases hc; cases hhead
      rfl
  | case4 path s stored hnext =>
      refine ⟨rfl, h, fun c hc hhead => ?_⟩
      obtain ⟨es, hes⟩ := List.head?_eq_some_iff.1 hhead
      exact (nextLiteral?_none h hnext).not_literal c es hes

end HttpRouting.Pattern

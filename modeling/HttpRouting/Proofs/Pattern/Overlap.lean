import HttpRouting.Proofs.Pattern.Grammar
import Mathlib.Order.Bounds.Basic

namespace HttpRouting.Pattern

open Bytes

/-- The rests of a pattern that start outside of wildcards and of escaped colons. -/
inductive Cut (pattern : Bytes) : Bytes → Prop
  | start : Cut pattern pattern
  | byte {b : UInt8} {rest : Bytes} (h : Cut pattern (b :: rest))
      (hmarker : Wildcard.isMarker b = false) (hescape : ¬ (b = backslash ∧ rest.head? = some colon)) :
      Cut pattern rest
  | escaped {rest : Bytes} (h : Cut pattern (backslash :: colon :: rest)) : Cut pattern rest
  | wildcard {marker : UInt8} {tail : Bytes} (h : Cut pattern (marker :: tail))
      (hmarker : Wildcard.isMarker marker = true) : Cut pattern (tail.dropWhile (· ≠ slash))

def textLength (pattern : Bytes) : Nat :=
  match Wildcard.find? pattern with
  | .ok (some w) => w.start
  | _ => pattern.length

/-- A text whose only markers are colons behind a backslash. -/
def Unmarked (text : Bytes) : Prop :=
  ∀ front marker back, text = front ++ marker :: back → Wildcard.isMarker marker = true →
    marker = colon ∧ front.getLast? = some backslash

theorem Cut.grammar {slashed : Bool} {pattern rest : Bytes} (h : Cut pattern rest)
    (hpattern : Grammar slashed pattern) : ∃ slashed, Grammar slashed rest := by
  induction h with
  | start => exact ⟨slashed, hpattern⟩
  | byte _ hmarker hescape ih =>
      obtain ⟨slashed, hgrammar⟩ := ih
      cases hgrammar with
      | lone => exact ⟨false, .done⟩
      | escaped => exact absurd ⟨rfl, rfl⟩ hescape
      | byte _ _ hrest => exact ⟨_, hrest⟩
      | param | catchAll => cases hmarker
  | escaped _ ih =>
      obtain ⟨slashed, hgrammar⟩ := ih
      cases hgrammar with
      | escaped hrest => exact ⟨_, hrest⟩
      | byte hb => exact absurd rfl hb
  | @wildcard _ tail _ hmarker ih =>
      obtain ⟨slashed, hgrammar⟩ := ih
      cases hgrammar with
      | lone | escaped => cases hmarker
      | byte _ hno => simp [hno] at hmarker
      | param hname hstop hrest =>
          rw [dropWhile_append (fun b hb => (hname.2 b hb).1) hstop]
          exact ⟨_, hrest⟩
      | catchAll hname =>
          have hnil : (tail ++ []).dropWhile (· ≠ slash) = [] :=
            dropWhile_append (fun b hb => (hname.2 b hb).1) rfl
          rw [List.append_nil] at hnil
          rw [hnil]
          exact ⟨false, .done⟩

/-- Literal text in front of a rest of a pattern. A backslash that escapes nothing ends the pattern. -/
inductive TextBefore : (rest text : Bytes) → Prop
  | nil {rest : Bytes} : TextBefore rest []
  | byte {rest text : Bytes} {b : UInt8} (hb : b ≠ backslash) (hmarker : Wildcard.isMarker b = false)
      (h : TextBefore rest text) : TextBefore rest (b :: text)
  | escaped {rest text : Bytes} (h : TextBefore rest text) :
      TextBefore rest (backslash :: colon :: text)
  | lone : TextBefore [] [backslash]

section Text

variable {pattern rest text : Bytes}

theorem unmarked_nil : Unmarked [] := by
  intro front marker back heq
  simp at heq

theorem Unmarked.byte {b : UInt8} (h : Unmarked text) (hb : Wildcard.isMarker b = false) :
    Unmarked (b :: text) := by
  intro front marker back heq hm
  cases front with
  | nil =>
      cases heq
      simp [hb] at hm
  | cons c front =>
      cases heq
      obtain ⟨hcolon, hlast⟩ := h front marker back rfl hm
      exact ⟨hcolon, getLast?_cons_some hlast⟩

theorem Unmarked.escaped (h : Unmarked text) : Unmarked (backslash :: colon :: text) := by
  intro front marker back heq hm
  match front with
  | [] =>
      cases heq
      cases hm
  | [c] =>
      cases heq
      exact ⟨rfl, rfl⟩
  | c :: d :: front =>
      cases heq
      obtain ⟨hcolon, hlast⟩ := h front marker back rfl hm
      exact ⟨hcolon, getLast?_cons_some (getLast?_cons_some hlast)⟩

theorem TextBefore.unmarked (h : TextBefore rest text) : Unmarked text := by
  induction h with
  | nil => exact unmarked_nil
  | byte _ hmarker _ ih => exact ih.byte hmarker
  | escaped _ ih => exact ih.escaped
  | lone => exact unmarked_nil.byte rfl

theorem TextBefore.whole (h : TextBefore rest text) :
    ¬ (text.getLast? = some backslash ∧ rest.head? = some colon) := by
  induction h with
  | nil => simp
  | @byte rest text b hb _ _ ih =>
      rintro ⟨hlast, hhead⟩
      cases text with
      | nil => exact hb (Option.some.inj hlast)
      | cons c text => exact ih ⟨hlast, hhead⟩
  | @escaped rest text _ ih =>
      rintro ⟨hlast, hhead⟩
      cases text with
      | nil => exact absurd (Option.some.inj hlast) (by decide)
      | cons c text => exact ih ⟨hlast, hhead⟩
  | lone => simp

theorem TextBefore.cut (h : TextBefore rest text) (hcut : Cut pattern (text ++ rest)) :
    Cut pattern rest := by
  induction h with
  | nil => exact hcut
  | byte hb hmarker _ ih => exact ih (hcut.byte hmarker fun hescape => hb hescape.1)
  | escaped _ ih => exact ih hcut.escaped
  | lone => exact hcut.byte rfl (by simp)

theorem TextBefore.findFrom (h : TextBefore rest text) (start : Nat) :
    Wildcard.findFrom start (text ++ rest) = Wildcard.findFrom (start + text.length) rest := by
  induction h generalizing start with
  | nil => rfl
  | byte hb hmarker _ ih =>
      rw [List.cons_append, findFrom_byte hb, hmarker, if_neg Bool.false_ne_true, ih,
        List.length_cons, Nat.add_assoc, Nat.add_comm 1]
  | @escaped rest text _ ih =>
      have hskip : Wildcard.findFrom start (backslash :: colon :: (text ++ rest)) =
          Wildcard.findFrom (start + 2) (text ++ rest) := rfl
      rw [List.cons_append, List.cons_append, hskip, ih, List.length_cons, List.length_cons,
        Nat.add_assoc, Nat.add_comm 2]
  | lone => rfl

theorem TextBefore.length_le (h : TextBefore rest text) :
    text.length ≤ textLength (text ++ rest) := by
  have hfind : Wildcard.find? (text ++ rest) = Wildcard.findFrom text.length rest := by
    rw [Wildcard.find?, h.findFrom, Nat.zero_add]
  rw [textLength, hfind]
  split
  · next w hw =>
      obtain ⟨before, marker, tail, -, -, rfl, -⟩ := (findFrom_grammar text.length rest).2 w hw
      exact Nat.le_add_right ..
  · simp

theorem TextBefore.unescape_append (h : TextBefore rest text) (k : Nat) :
    unescape text ++ unescape (rest.take k) = unescape (text ++ rest.take k) := by
  refine (Pattern.unescape_append fun hsplit => h.whole ⟨hsplit.1, ?_⟩).symm
  cases k with
  | zero => exact absurd hsplit.2 (by simp)
  | succ k =>
      rw [← hsplit.2]
      cases rest <;> rfl

end Text

theorem nextLiteral?_text {slashed : Bool} {path : Bytes} {b : UInt8} {width : Nat}
    (h : Grammar slashed path) (hb : nextLiteral? path = some (b, width)) {rest text : Bytes}
    (hpath : path.drop width = text ++ rest) (htext : TextBefore rest text) :
    ∃ spelling, path = spelling ++ (text ++ rest) ∧ spelling.length = width ∧
      TextBefore rest (spelling ++ text) ∧ unescape (spelling ++ text) = b :: unescape text := by
  cases h with
  | done => cases hb
  | lone =>
      cases hb
      obtain ⟨rfl, rfl⟩ := List.append_eq_nil_iff.1 hpath.symm
      exact ⟨[backslash], rfl, rfl, .lone, rfl⟩
  | escaped =>
      cases hb
      exact ⟨[backslash, colon], congrArg (backslash :: colon :: ·) hpath, rfl, .escaped htext,
        unescape_escaped text⟩
  | @byte _ c _ hne hmarker =>
      rw [nextLiteral?, if_neg (fun h => hne h.1), hmarker] at hb
      cases hb
      exact ⟨[b], congrArg (b :: ·) hpath, rfl, .byte hne hmarker htext, unescape_byte hne text⟩
  | param | catchAll => cases hb

theorem overlap_text {slashed : Bool} {path : Bytes} (h : Grammar slashed path) (stored : Bytes) :
    ∃ text rest, path = text ++ rest ∧ text.length = (overlap path stored).1 ∧
      TextBefore rest text ∧ unescape text = stored.take (overlap path stored).2 := by
  fun_induction overlap path stored generalizing slashed with
  | case1 path => exact ⟨[], path, rfl, rfl, .nil, rfl⟩
  | case2 path stored b width hnext i j hij ih =>
      obtain ⟨text, rest, hpath, hlength, htext, hsame⟩ := ih (nextLiteral?_some h hnext).2
      rw [hij] at hlength hsame
      obtain ⟨spelling, hpath, hwidth, htext, hread⟩ := nextLiteral?_text h hnext hpath htext
      refine ⟨spelling ++ text, rest, ?_, ?_, htext, ?_⟩
      · rw [hpath, List.append_assoc]
      · rw [List.length_append, hwidth, hlength, Nat.add_comm]
      · rw [hread, hsame]
        rfl
  | case3 path s stored => exact ⟨[], path, rfl, rfl, .nil, rfl⟩
  | case4 path s stored => exact ⟨[], path, rfl, rfl, .nil, rfl⟩

theorem elements_text {slashed : Bool} {path : Bytes} (h : Grammar slashed path) :
    (∃ found, Wildcard.find? path = .ok found) ∧
    ∃ es, elements path = literals (unescape (path.take (textLength path))) ++ es ∧
      ∀ b, es.head? ≠ some (.literal b) := by
  cases findFrom_opening h 0 with
  | text hfind helements =>
      have hlength : textLength path = path.length := by rw [textLength, Wildcard.find?, hfind]
      rw [hlength, List.take_length]
      exact ⟨⟨_, hfind⟩, [], by rw [helements, List.append_nil], by simp⟩
  | param text name rest hpath hname hstop hrest hfind helements =>
      have hlength : textLength path = text.length := by
        rw [textLength, Wildcard.find?, hfind, Nat.zero_add]
      rw [hlength, hpath, List.take_left, ← hpath]
      exact ⟨⟨_, hfind⟩, _, helements, by simp⟩
  | catchAll text name hpath hname hslash hfind helements =>
      have hlength : textLength path = text.length := by
        rw [textLength, Wildcard.find?, hfind, Nat.zero_add]
      rw [hlength, hpath, List.take_left, ← hpath]
      exact ⟨⟨_, hfind⟩, _, helements, by simp⟩

theorem prefix_of_literals {text shared : Bytes} {es fs : List Element}
    (h : literals text ++ es = literals shared ++ fs) (hes : ∀ b, es.head? ≠ some (.literal b)) :
    shared <+: text ∧ ∀ b, text[shared.length]? = some b → fs.head? = some (.literal b) := by
  induction shared generalizing text with
  | nil =>
      refine ⟨List.nil_prefix, fun b hb => ?_⟩
      obtain ⟨text, rfl⟩ := List.head?_eq_some_iff.1 (List.head?_eq_getElem? ▸ hb)
      have h : .literal b :: (literals text ++ es) = fs := h
      rw [← h]
      rfl
  | cons c shared ih =>
      cases text with
      | nil =>
          have h : es = .literal c :: (literals shared ++ fs) := h
          exact absurd (by rw [h]; rfl) (hes c)
      | cons d text =>
          obtain ⟨hcd, hrest⟩ := List.cons.inj h
          cases hcd
          obtain ⟨hfront, hnext⟩ := ih hrest
          exact ⟨List.cons_prefix_cons.2 ⟨rfl, hfront⟩, hnext⟩

theorem isGreatest_overlap {slashed : Bool} {path : Bytes} (h : Grammar slashed path)
    (stored : Bytes) :
    IsGreatest {k | k ≤ stored.length ∧
      stored.take k <+: unescape (path.take (textLength path))} (overlap path stored).2 := by
  obtain ⟨hshared, -, hend⟩ := overlap_elements h stored
  obtain ⟨-, es, hes, hhead⟩ := elements_text h
  have hle := overlap_snd_le path stored
  obtain ⟨hfront, hnext⟩ := prefix_of_literals (hes.symm.trans hshared) hhead
  refine ⟨⟨hle, hfront⟩, fun k ⟨hk, hshort⟩ => Nat.le_of_not_lt fun hlt => ?_⟩
  obtain ⟨b, hb⟩ : ∃ b, stored[(overlap path stored).2]? = some b :=
    ⟨_, List.getElem?_eq_getElem (by omega)⟩
  refine hend b hb (hnext b ?_)
  have hbk : (stored.take k)[(overlap path stored).2]? = some b := by
    rw [List.getElem?_take_of_lt hlt, hb]
  obtain ⟨more, hmore⟩ := hshort
  rw [List.length_take_of_le hle, ← hmore,
    List.getElem?_append_left (List.getElem?_eq_some_iff.1 hbk).1, hbk]

/-- Where a pattern and a stored text part: `i` bytes of the rest of the pattern are literal text and
stand for `j` bytes of the stored text, and no further text agrees. -/
structure Parts (pattern raw stored : Bytes) (i j : Nat) : Prop where
  found : ∃ found, Wildcard.find? raw = .ok found
  length_le : i ≤ textLength raw ∧ j ≤ stored.length
  unmarked : Unmarked (raw.take i)
  whole : ¬ ((raw.take i).getLast? = some backslash ∧ (raw.drop i).head? = some colon)
  same : unescape (raw.take i) = stored.take j
  longest : IsGreatest {k | k ≤ stored.length ∧
    stored.take k <+: unescape (raw.take (textLength raw))} j
  cut : Cut pattern (raw.drop i)
  joined : ∀ k, i ≤ k →
    unescape (raw.take i) ++ unescape ((raw.take k).drop i) = unescape (raw.take k)

/-- The overlap of the rest of a checked pattern with any text is exact. It ends neither in a wildcard
nor in an escaped colon, so that what follows it is read by itself. -/
theorem overlap_exact {route : String} (hcheck : check route = .ok ()) {raw : Bytes}
    (hraw : Cut (utf8 route) raw) (stored : Bytes) :
    Parts (utf8 route) raw stored (overlap raw stored).1 (overlap raw stored).2 := by
  obtain ⟨slashed, hgrammar⟩ := hraw.grammar (grammar_of_check hcheck)
  obtain ⟨text, rest, hpath, hlength, htext, hsame⟩ := overlap_text hgrammar stored
  have htake : raw.take (overlap raw stored).1 = text := by rw [← hlength, hpath, List.take_left]
  have hdrop : raw.drop (overlap raw stored).1 = rest := by rw [← hlength, hpath, List.drop_left]
  refine ⟨(elements_text hgrammar).1, ⟨?_, overlap_snd_le raw stored⟩, ?_, ?_, ?_,
    isGreatest_overlap hgrammar stored, ?_, fun k hk => ?_⟩
  · rw [← hlength, hpath]
    exact htext.length_le
  · rw [htake]
    exact htext.unmarked
  · rw [htake, hdrop]
    exact htext.whole
  · rw [htake]
    exact hsame
  · rw [hdrop]
    exact htext.cut (hpath ▸ hraw)
  · have hmore : raw.take k = text ++ rest.take (k - text.length) := by
      rw [hpath, List.take_append, List.take_of_length_le (by omega)]
    rw [htake, hmore, ← hlength, List.drop_left]
    exact htext.unescape_append _

theorem overlap_exact_escaped :
    check "/:id/x\\:y\\" = .ok () ∧ Cut (utf8 "/:id/x\\:y\\") (utf8 "/x\\:y\\") ∧
      overlap (utf8 "/x\\:y\\") (utf8 "/x:y\\z") = (6, 5) ∧
      Parts (utf8 "/:id/x\\:y\\") (utf8 "/x\\:y\\") (utf8 "/x:y\\z") 6 5 := by
  have hcheck : check "/:id/x\\:y\\" = .ok () := by decide +kernel
  have hoverlap : overlap (utf8 "/x\\:y\\") (utf8 "/x:y\\z") = (6, 5) := by decide +kernel
  have hroute : utf8 "/:id/x\\:y\\" = slash :: colon :: (105 :: 100 :: utf8 "/x\\:y\\") := by
    decide +kernel
  have hafter : (105 :: 100 :: utf8 "/x\\:y\\").dropWhile (· ≠ slash) = utf8 "/x\\:y\\" := by
    decide +kernel
  have hraw : Cut (utf8 "/:id/x\\:y\\") (utf8 "/x\\:y\\") := by
    have hstart : Cut (utf8 "/:id/x\\:y\\") (slash :: colon :: (105 :: 100 :: utf8 "/x\\:y\\")) :=
      hroute ▸ .start
    have htoken := (hstart.byte rfl (by decide)).wildcard rfl
    rwa [hafter] at htoken
  have hexact := overlap_exact hcheck hraw (utf8 "/x:y\\z")
  rw [hoverlap] at hexact
  exact ⟨hcheck, hraw, hoverlap, hexact⟩

end HttpRouting.Pattern

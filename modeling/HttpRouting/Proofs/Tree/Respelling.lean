import HttpRouting.Proofs.Tree.Clear
import HttpRouting.Proofs.Tree.Landing

namespace HttpRouting.Node

open Bytes Utf8

variable {α : Type} {fix above : Bool} {n : Node α} {path pending q : Bytes}

/-- An answer with the characters of the path up to case. With `fix` a last slash may be added or
dropped. -/
inductive Respelled (fix : Bool) (path q : Bytes) : Prop
  | same (h : SameText path q)
  | added (hfix : fix = true) {front : Bytes} (hq : q = front ++ [slash]) (h : SameText path front)
  | dropped (hfix : fix = true) {front : Bytes} (hpath : path = front ++ [slash])
      (h : SameText front q)

theorem Respelled.behind {as bs : Bytes} (h : Respelled fix path q) (hab : SameText as bs) :
    Respelled fix (as ++ path) (bs ++ q) := by
  cases h with
  | same h => exact .same (hab.append h)
  | added hfix hq h =>
      refine .added hfix ?_ (hab.append h)
      rw [hq, List.append_assoc]
  | dropped hfix hpath h =>
      refine .dropped hfix ?_ (hab.append h)
      rw [hpath, List.append_assoc]

theorem Respelled.isText (h : Respelled fix path q) : IsText q := by
  cases h with
  | same h | dropped _ _ h => exact h.right
  | added _ hq h =>
      rw [hq]
      exact h.right.append ⟨['/'], rfl⟩

theorem Begins.take {label : Bytes} {k : Nat} (h : Begins path label)
    (hk : path.length ≤ k ∨ label.length ≤ k) : Begins (path.take k) (label.take k) := by
  intro hpath hlabel
  obtain ⟨c, d, as, bs, rfl, rfl, hcd⟩ :=
    h (by rintro rfl; exact hpath List.take_nil) (by rintro rfl; exact hlabel List.take_nil)
  have hwidth : (String.utf8EncodeChar c).length = (String.utf8EncodeChar d).length := by
    rw [String.length_utf8EncodeChar, String.length_utf8EncodeChar, hcd.width]
  simp only [List.length_append] at hk
  refine ⟨c, d, as.take (k - (String.utf8EncodeChar c).length),
    bs.take (k - (String.utf8EncodeChar d).length), ?_, ?_, hcd⟩
  · rw [List.take_append, List.take_of_length_le (by omega)]
  · rw [List.take_append, List.take_of_length_le (by omega)]

theorem Begins.sameText {label : Bytes} (h : Begins path label)
    (hlength : path.length = label.length)
    (hfold : foldEq (path.drop 1) (label.drop 1) = true)
    (hwhole : replacement ∉ decodeLossy path ∨ replacement ∉ decodeLossy label) :
    SameText path label := by
  by_cases hnil : path = []
  · rw [hnil, List.length_nil] at hlength
    rw [hnil, List.eq_nil_of_length_eq_zero hlength.symm]
    exact .nil
  have hne : label ≠ [] := by
    rintro rfl
    exact hnil (List.eq_nil_of_length_eq_zero hlength)
  obtain ⟨c, d, as, bs, rfl, rfl, hcd⟩ := h hnil hne
  have hread (e : Char) (es : Bytes) : decodeLossy (String.utf8EncodeChar e ++ es) =
      e :: decodeLossy es := by simpa [encode] using decodeLossy_encode_append [e] es
  have hdrop (e : Char) (es : Bytes) : decodeLossy ((String.utf8EncodeChar e ++ es).drop 1) =
      List.replicate (String.utf8EncodeChar e).tail.length replacement ++ decodeLossy es := by
    obtain ⟨b, bs, he, -⟩ := front_char e []
    have htail := encodeChar_tail e
    rw [he] at htail ⊢
    exact decodeLossy_continuation htail
  rw [foldEq, hdrop, hdrop] at hfold
  have hfold := sameFoldAll_of_append (by simp [hcd.width]) hfold
  rw [hread, hread, List.mem_cons, not_or, List.mem_cons, not_or] at hwhole
  exact hcd.sameText.append (sameText_of_fold hfold (hwhole.imp And.right And.right))

theorem fits_sameText (hfits : n.fits path = true) (hclear : Clear n path)
    (hbegins : Begins path n.label) : SameText (path.take n.label.length) n.label := by
  simp only [fits, Bool.and_eq_true, decide_eq_true_eq, Bool.or_eq_true, List.isEmpty_iff] at hfits
  obtain ⟨hle, hnil | hfold⟩ := hfits
  · rw [hnil]
    exact .nil
  · have hbegins := hbegins.take (.inr (Nat.le_refl n.label.length))
    rw [List.take_length] at hbegins
    exact hbegins.sameText (List.length_take_of_le hle) hfold (hclear.whole _)

theorem Clear.behind_fits (h : Clear n path) (hfits : n.fits path = true)
    (hbegins : Begins path n.label) : Clear n (path.drop n.label.length) := by
  have htake := (fits_sameText hfits h hbegins).left
  rw [← List.take_append_drop n.label.length path] at h
  exact h.behind htake

theorem charAcross_start {k : Nat} {c : Char} (h : first? (path.drop k) = some c) :
    charAcross path k = (c, 0) := by
  cases htail : path.drop k with
  | nil =>
      rw [htail] at h
      cases h
  | cons b tail =>
      have hhead : path[k]? = some b := by
        rw [← List.head?_drop, htail]
        rfl
      rw [htail] at h
      unfold charAcross
      dsimp only
      rw [List.range_succ_eq_map, List.find?_cons_of_pos (by simp [hhead, lead_start h])]
      dsimp only
      rw [Nat.sub_zero, htail, h]
      rfl

theorem Clear.root (h : Clear n path)
    (hroot : ∀ p l, path.head? = some p → n.label.head? = some l → p = l) : Begins path n.label := by
  intro hpath hlabel
  obtain ⟨c, hc⟩ := h.isText.first? hpath
  refine h.begins hc List.mem_cons_self (fun _ => ?_) hpath hlabel
  obtain ⟨p, ps, rfl⟩ := List.exists_cons_of_ne_nil hpath
  obtain ⟨l, ls, hl⟩ := List.exists_cons_of_ne_nil hlabel
  rw [← first?_head hc, hl, List.head?_cons, List.head?_cons,
    hroot p l rfl (by rw [hl]; rfl)]

/-- What is still expected of a character is a case mapping of the first one of the path, and selected
the label. -/
inductive Expects (path label : Bytes) : Bytes → Prop
  | nothing : Expects path label []
  | char {c d : Char} (hc : first? path = some c) (hd : d = lowerChar c ∨ d = upperChar c)
      (hlabel : label ≠ [] → label.head? = (String.utf8EncodeChar d).head?) :
      Expects path label (String.utf8EncodeChar d)

theorem Expects.step {label spelling : Bytes} {c : Char} (h : Expects path label pending)
    (hbegins : Begins path label) (hc : first? (path.drop label.length) = some c)
    (hspelling : Spells path label.length (pending.drop label.length) spelling) :
    ∃ d, (d = lowerChar c ∨ d = upperChar c) ∧ spelling = String.utf8EncodeChar d := by
  cases hspelling with
  | awaited hne =>
      cases h with
      | nothing => simp at hne
      | @char c' d hc' hd hlabel =>
          by_cases hnil : label = []
          · subst hnil
            cases hc'.symm.trans hc
            exact ⟨d, hd, rfl⟩
          · exfalso
            obtain ⟨as, rfl⟩ := first?_append hc'
            obtain ⟨_, e, _, bs, -, rfl, -⟩ := hbegins (by rintro h; rw [h] at hc'; cases hc') hnil
            have hwidth := width_of_head ((first?_head (first?_encode e bs)).symm.trans (hlabel hnil))
            have hdrop : (String.utf8EncodeChar d).drop (String.utf8EncodeChar e ++ bs).length = [] :=
              List.drop_eq_nil_of_le (by simp [hwidth])
            rw [hdrop] at hne
            exact hne rfl
  | lower => exact ⟨_, .inl rfl, by rw [charAcross_start hc]; rfl⟩
  | upper => exact ⟨_, .inr rfl, by rw [charAcross_start hc]; rfl⟩

theorem Keyed.head_label {b : UInt8} (h : n.Keyed b) (hn : n.Sound) (hne : n.label ≠ []) :
    n.label.head? = some b := by
  rcases h.kind with hkind | ⟨hkind, hwild⟩
  · exact h.head hn (.inl hkind) hne
  · obtain ⟨leaf, name, hit, hholder, -⟩ := hn.holder hkind hwild
    exact absurd hholder.label hne

theorem append_singleton_of_getElem? {bs : Bytes} {k : Nat} {b : UInt8} (hlength : k + 1 = bs.length)
    (h : bs[k]? = some b) : bs = bs.take k ++ [b] := by
  have hdrop : bs.drop k = [b] := by
    rw [List.drop_eq_getElem_cons (by omega), List.drop_of_length_le (by omega)]
    rw [List.getElem?_eq_getElem (by omega)] at h
    rw [Option.some.inj h]
  rw [← hdrop, List.take_append_drop]

section Parts

theorem Respelled.behind_label (hfits : n.fits path = true) (hclear : Clear n path)
    (hbegins : Begins path n.label) (h : Respelled fix (path.drop n.label.length) q) :
    Respelled fix path (n.label ++ q) := by
  have hwhole := h.behind (fits_sameText hfits hclear hbegins)
  rwa [List.take_append_drop] at hwhole

theorem Respelled.behind_segment (hpath : IsText path)
    (h : Respelled fix (path.dropWhile (· ≠ slash)) q) :
    Respelled fix path (firstSegment path ++ q) := by
  have hwhole := h.behind (.refl (Pattern.isText_segment hpath).1)
  have hsplit := segment_append_rest path
  rwa [hsplit] at hwhole

theorem respelled_added (hfix : fix = true) : Respelled fix [] [slash] :=
  .added hfix (List.nil_append _).symm .nil

theorem respelled_dropped (hfix : fix = true) : Respelled fix [slash] [] :=
  .dropped hfix (List.nil_append _).symm .nil

theorem closeParam_some {w : Node α} {close : Bytes} (h : closeParam fix w = some close) :
    Respelled fix [] close := by
  unfold closeParam at h
  split at h
  · cases h
    exact .same .nil
  split at h
  · split at h
    · next hall =>
        simp only [Bool.and_eq_true] at hall
        cases h
        exact respelled_added hall.1.1
    · cases h
  · cases h

end Parts

/-- A path that a label completes with its last slash is compared with the rest of the label. -/
theorem Clear.sameText_short (h : Clear n path) (hbegins : Begins path n.label)
    (hlabel : n.label = n.label.take path.length ++ [slash])
    (hfold : foldEq (path.drop 1) ((n.label.take path.length).drop 1) = true) :
    SameText path (n.label.take path.length) := by
  have hlength := congrArg List.length hlabel
  rw [List.length_append, List.length_take, List.length_singleton] at hlength
  have hbegins := hbegins.take (.inl (Nat.le_refl path.length))
  rw [List.take_length] at hbegins
  refine hbegins.sameText (by rw [List.length_take]; omega) hfold ?_
  have hwhole := h.whole path.length
  rw [List.take_length] at hwhole
  refine hwhole.imp_right fun hnone => ?_
  rw [hlabel] at hnone
  exact replacement_front hnone

theorem Recased.respelled (h : Recased fix n path pending above q) (hn : n.Sound)
    (hstanding : n.Standing) (hclear : Clear n path) (hbegins : Begins path n.label)
    (hexpects : Expects path n.label pending) : Respelled fix path q := by
  induction h with
  | @ended n path pending above hfits hrest =>
      have hend : Respelled fix (path.drop n.label.length) [] := by
        rw [hrest]
        exact .same .nil
      simpa using hend.behind_label hfits hclear hbegins
  | @addSlash n path pending above c hfix hfits hrest =>
      refine Respelled.behind_label hfits hclear hbegins ?_
      rw [hrest]
      exact respelled_added hfix
  | @static n path pending spelling q above c hfits hrest hspelling hkeyed hc ih =>
      have hrestClear := hclear.behind_fits hfits hbegins
      obtain ⟨d, hd⟩ := hrestClear.isText.first? hrest
      obtain ⟨e, he, rfl⟩ := hexpects.step hbegins hd hspelling
      have hchild := hn.keyed_child hstanding hkeyed
      have hchildClear := hrestClear.child c.2
      have hlabel (hne : c.1.label ≠ []) : c.1.label.head? = (String.utf8EncodeChar e).head? := by
        obtain ⟨b, bs, hb, -⟩ := front_char e []
        rw [hchild.head_label (hn.child c.2) hne, hb]
        rfl
      have hbegins' : Begins (path.drop n.label.length) c.1.label :=
        hchildClear.begins hd (by rcases he with rfl | rfl <;> simp) hlabel
      have hq := ih (hn.child c.2) hchild.standing hchildClear hbegins' (.char hd he hlabel)
      exact hq.behind_label hfits hclear hbegins
  | @dropSlash n path pending above hfix hfits hrest =>
      have hend : Respelled fix (path.drop n.label.length) [] := by
        rw [hrest]
        exact respelled_dropped hfix
      simpa using hend.behind_label hfits hclear hbegins
  | catchAll hfits =>
      have hrest := (hclear.behind_fits hfits hbegins).isText
      exact Respelled.behind_label hfits hclear hbegins (.same (.refl hrest))
  | paramEnd hfits hrest hwild hlast hkind hafter hclose =>
      have hrest := (hclear.behind_fits hfits hbegins).isText
      refine Respelled.behind_label hfits hclear hbegins (.behind_segment hrest ?_)
      rw [hafter]
      exact closeParam_some hclose
  | @paramDrop n path pending above w hfix hfits hwild hlast hkind hafter =>
      have hrest := (hclear.behind_fits hfits hbegins).isText
      refine Respelled.behind_label hfits hclear hbegins ?_
      have hend : Respelled fix ((path.drop n.label.length).dropWhile (· ≠ slash)) [] := by
        rw [hafter]
        exact respelled_dropped hfix
      simpa using hend.behind_segment hrest
  | @paramNext n c path pending q above w hfits hwild hlast hkind hafter hchild hc ih =>
      obtain ⟨slots, name, next, h, hparam⟩ := hn.param_last hstanding hwild hlast hkind
      have hnext := hparam.next_of_head hchild
      have hkeyed := hparam.keyed c hnext
      have hmem : c ∈ w.1.children := List.mem_of_mem_head? hchild
      have hsound : c.Sound := (hn.child w.2).child hmem
      have hslash := (Pattern.firstSegment_eq_nil.1 (Pattern.firstSegment_dropWhile _)).resolve_left
        hafter
      have hrest := hclear.behind_fits hfits hbegins
      have hnextClear : Clear c ((path.drop n.label.length).dropWhile (· ≠ slash)) :=
        ((hrest.child w.2).child hmem).afterSegment
      have hbegins' : Begins ((path.drop n.label.length).dropWhile (· ≠ slash)) c.label := by
        refine hnextClear.root fun p l hp hl => ?_
        have hhead := hkeyed.head_label hsound (by rintro hnil; simp [hnil] at hl)
        cases hslash.symm.trans hp
        exact Option.some.inj (hhead.symm.trans hl)
      have hq := ih hsound hkeyed.standing hnextClear hbegins' .nothing
      exact .behind_label hfits hclear hbegins (hq.behind_segment hrest.isText)
  | above hfix hoff => exact respelled_dropped hfix
  | complete hfix hne hlength hslash hfold hvalue =>
      have hlabel := append_singleton_of_getElem? hlength hslash
      exact .added hfix hlabel (hclear.sameText_short hbegins hlabel hfold)

theorem Tracks.findCase_respelled {routes : List (String × α)} (h : Tracks n routes)
    {path q : String} (hclear : Clear n (utf8 path)) (hfind : n.findCase path fix = some q) :
    Respelled fix (utf8 path) (utf8 q) := by
  obtain ⟨hrecased, hroot⟩ := findCase_some hfind
  rcases h.shape with hbare | hsound
  · exact absurd hrecased hbare.not_recased
  exact hrecased.respelled hsound (.inl h.kind) hclear (hclear.root hroot) .nothing

/-- A path that the labels leave readable is found under a spelling that differs in case only. With
`fix` a last slash may be added or dropped. -/
theorem findCase_sameCase {routes : List (String × α)} (h : Built n routes) {path q : String}
    (hpath : ∀ c ∈ path.toList, c.toNat < 128 ∨ Apart n c) (hfind : n.findCase path fix = some q) :
    sameFoldAll path.toList q.toList = true ∨
      fix = true ∧ ∃ front : String,
        (q = front ++ "/" ∧ sameFoldAll path.toList front.toList = true) ∨
          (path = front ++ "/" ∧ sameFoldAll front.toList q.toList = true) := by
  cases h.tracks.findCase_respelled (textOf_utf8 hpath) hfind with
  | same hsame => exact .inl hsame.fold
  | added hfix hq hsame =>
      obtain ⟨front, hfront, rfl⟩ := utf8_slash hq
      exact .inr ⟨hfix, front, .inl ⟨hfront, hsame.fold⟩⟩
  | dropped hfix hpath hsame =>
      obtain ⟨front, hfront, rfl⟩ := utf8_slash hpath
      exact .inr ⟨hfix, front, .inr ⟨hfront, hsame.fold⟩⟩

def umlaut : Node Nat := ((Node.emptyRoot.insert "/ä" 0).node.insert "/x" 1).node

theorem built_umlaut : Built umlaut [("/x", 1), ("/ä", 0)] :=
  .accepted (.accepted .root (by decide +kernel)) (by decide +kernel)

theorem findCase_sameCase_umlaut :
    umlaut.findCase "/Ä/" true = some "/ä" ∧
      (sameFoldAll "/Ä/".toList "/ä".toList = true ∨
        true = true ∧ ∃ front : String,
          ("/ä" = front ++ "/" ∧ sameFoldAll "/Ä/".toList front.toList = true) ∨
            ("/Ä/" = front ++ "/" ∧ sameFoldAll front.toList "/ä".toList = true)) := by
  have hapart : Apart umlaut 'Ä' := by decide +kernel
  have hpath : ∀ c ∈ "/Ä/".toList, c.toNat < 128 ∨ Apart umlaut c := by simp [hapart]
  have hfind : umlaut.findCase "/Ä/" true = some "/ä" := by decide +kernel
  exact ⟨hfind, findCase_sameCase built_umlaut hpath hfind⟩

/-- A label is compared from its second byte on, and the second bytes of two such letters both read as
replacement characters. -/
theorem findCase_other_letter :
    Built umlaut [("/x", 1), ("/ä", 0)] ∧ umlaut.findCase "/ö" false = some "/ä" ∧
      sameFoldAll "/ö".toList "/ä".toList = false :=
  ⟨built_umlaut, by decide +kernel, by decide +kernel⟩

end HttpRouting.Node

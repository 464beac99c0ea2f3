import HttpRouting.Proofs.Pattern.CaseSearch

namespace HttpRouting.Pattern

open Bytes Utf8

/-- A part of a pattern agrees with a text up to case. A parameter takes any part without a slash. -/
inductive Meets : List Element → List Char → Prop
  | nil : Meets [] []
  | text {c d : Char} {p : List Element} {cs : List Char} (hfold : sameFold c d = true)
      (h : Meets p cs) : Meets (literals (String.utf8EncodeChar d) ++ p) (c :: cs)
  | param {p : List Element} {as cs : List Char} (name : Bytes) (has : '/' ∉ as) (h : Meets p cs) :
      Meets (.param name :: p) (as ++ cs)

/-- A character that is no ASCII character, nor has one for its case, where no pattern that agrees with
the text in front of it goes on with such a character. -/
structure Foreign (es : Finset (List Element)) (front : List Char) (c : Char) : Prop where
  lower : 128 ≤ (lowerChar c).toNat
  upper : 128 ≤ (upperChar c).toNat
  low : ∀ p b q, p ++ .literal b :: q ∈ es → Meets p front → b < 0x80

def Plain (es : Finset (List Element)) (path : Bytes) : Prop :=
  ∃ cs, encode cs = path ∧
    ∀ front c more, cs = front ++ c :: more → c.toNat < 128 ∨ Foreign es front c

variable {es es' : Finset (List Element)} {path front rest text as bs : Bytes} {b k : UInt8} {c : Char}
  {cs ds : List Char} {p : List Element}

/-- Literal text has as many bytes as the text that it agrees with has characters, or more. -/
theorem Meets.length_le (h : Meets p cs) (hp : ∀ e ∈ p, e.isParam = false) : cs.length ≤ p.length := by
  induction h with
  | nil => exact Nat.le_refl _
  | @text c d p cs _ _ ih =>
      have hlength := ih fun e he => hp e (List.mem_append_right _ he)
      have hpos := d.utf8Size_pos
      rw [List.length_append, List.length_cons, literals, List.length_map, String.length_utf8EncodeChar]
      omega
  | param name => exact absurd (hp _ List.mem_cons_self) Bool.noConfusion

theorem Plain.isText (h : Plain es path) : IsText path := by
  obtain ⟨cs, hcs, -⟩ := h
  exact ⟨cs, hcs⟩

theorem Plain.mono (h : Plain es path) (hes : es' ⊆ es) : Plain es' path := by
  obtain ⟨cs, hcs, hplain⟩ := h
  refine ⟨cs, hcs, fun front c more hsplit => (hplain front c more hsplit).imp_right fun hc => ?_⟩
  exact ⟨hc.lower, hc.upper, fun p b q hmem => hc.low p b q (hes hmem)⟩

theorem Plain.behind (h : Plain es (encode cs ++ rest)) (shared : List Element)
    (hes : ∀ p ∈ es', shared ++ p ∈ es)
    (hmeets : ∀ p front, Meets p front → Meets (shared ++ p) (cs ++ front)) : Plain es' rest := by
  obtain ⟨all, hall, hplain⟩ := h
  obtain ⟨ds, rfl⟩ := IsText.cancel ⟨all, hall⟩ ⟨cs, rfl⟩
  rw [← encode_append] at hall
  cases encode_injective hall
  refine ⟨ds, rfl, fun front c more hsplit => ?_⟩
  refine (hplain (cs ++ front) c more (by rw [hsplit, List.append_assoc])).imp_right fun hc => ?_
  refine ⟨hc.lower, hc.upper, fun p b q hmem hp => hc.low (shared ++ p) b q ?_ (hmeets p front hp)⟩
  rw [List.append_assoc]
  exact hes _ hmem

theorem Plain.label (h : Plain (under text es) (front ++ rest))
    (htext : List.Forall₂ SameCase front text) : Plain es rest := by
  induction htext generalizing es with
  | nil => rwa [under_nil] at h
  | @cons a b front text hab _ ih =>
      rw [under_cons] at h
      refine ih ?_
      have hchar (a : UInt8) (ha : a < 0x80) : String.utf8EncodeChar (charOf a) = [a] := encode_one ha
      have ha : encode [charOf a] = [a] := by simp [encode, hchar a hab.left]
      have h : Plain (under [b] (under text es)) (encode [charOf a] ++ (front ++ rest)) := by rwa [ha]
      refine h.behind (literals [b]) (fun p hp => mem_under.2 ⟨p, hp, rfl⟩) fun p front hp => ?_
      rw [← hchar b hab.right]
      exact .text hab.fold hp

theorem Plain.afterSegment (h : Plain es path) (name : Bytes) (hes : ∀ p ∈ es', .param name :: p ∈ es) :
    Plain es' (path.dropWhile (· ≠ slash)) := by
  have hsplit := segment_append_rest path
  obtain ⟨seg, hseg⟩ := (isText_segment h.isText).1
  rw [← hsplit, ← hseg] at h
  refine h.behind [.param name] hes fun p front hp => .param name (fun hmem => ?_) hp
  have hbyte : slash ∈ encode seg := List.mem_flatMap.2 ⟨_, hmem, by decide⟩
  exact firstSegment_no_slash path slash (hseg ▸ hbyte) rfl

theorem Foreign.head {b : UInt8} {q : List Element} (h : Foreign es [] c) (hmem : .literal b :: q ∈ es) :
    b < 0x80 := h.low [] b q hmem .nil

theorem Foreign.low_of_sameFold (h : Foreign es cs c) {d : Char} (hd : d.toNat < 128)
    (hfold : sameFold c d = true) : c.toNat < 128 := by
  have hlower := h.lower
  have hupper := h.upper
  simp only [sameFold, Bool.or_eq_true, beq_iff_eq] at hfold
  rcases hfold with (rfl | hsame) | hsame
  · exact hd
  · have := (lowerChar_low hd).1
    rw [hsame] at hlower
    omega
  · have := (upperChar_low hd).1
    rw [hsame] at hupper
    omega

inductive Head (es : Finset (List Element)) (path : Bytes) : Prop
  | ascii (b : UInt8) (rest : Bytes) (hpath : path = b :: rest) (hb : b < 0x80)
      (hfirst : first? path = some (charOf b))
  | foreign (b : UInt8) (rest : Bytes) (hpath : path = b :: rest) (hb : ¬ b < 0x80) (c : Char)
      (hfirst : first? path = some c) (hc : Foreign es [] c)

theorem Plain.head (h : Plain es path) (hne : path ≠ []) : Head es path := by
  obtain ⟨cs, rfl, hplain⟩ := h
  cases cs with
  | nil => exact absurd rfl hne
  | cons c cs =>
      have hfirst := first?_text c cs
      by_cases hlow : c.toNat < 128
      · have hchar := encodeChar_low (Nat.le_of_lt_succ hlow)
        have hcons : encode (c :: cs) = UInt8.ofNat c.toNat :: encode cs := by
          rw [encode_cons, hchar]
          rfl
        refine .ascii _ _ hcons (ofNat_low hlow) ?_
        rw [hfirst, charOf, toNat_ofNat (by omega), Char.ofNat_toNat]
      · obtain ⟨b, bs, hb, -⟩ := front_char c []
        have hhigh : ¬ b < 0x80 :=
          encodeChar_high (fun hle => hlow (Nat.lt_succ_of_le hle)) b (by simp [hb])
        have hcons : encode (c :: cs) = b :: (bs ++ encode cs) := by
          rw [encode_cons, hb]
          rfl
        exact .foreign b _ hcons hhigh c hfirst ((hplain [] c cs rfl).resolve_left hlow)

theorem Foreign.read_apart (h : Foreign es ds c) (hc : ¬ c.toNat < 128) {a : UInt8}
    (has : a :: as <+: encode (c :: cs)) (hb : b < 0x80) :
    sameFold ((Utf8.front a as).1.getD replacement) (charOf b) = false := by
  rw [← Bool.not_eq_true]
  intro hfold
  cases hread : (Utf8.front a as).1 with
  | none =>
      rw [hread] at hfold
      have hlow := charOf_low hb
      rw [(sameFold_replacement hfold).1 rfl] at hlow
      exact absurd hlow (by decide)
  | some d =>
      rw [hread] at hfold
      have hfirst : first? (a :: as) = some d := hread
      obtain ⟨tail, htail⟩ := first?_append hfirst
      obtain ⟨more, hmore⟩ := has
      have hsame := first?_text c cs
      rw [← hmore, htail, List.append_assoc, first?_encode] at hsame
      cases hsame
      exact hc (h.low_of_sameFold (charOf_low hb) hfold)

/-- Behind an ASCII character that a pattern is read like, the path is plain for what the pattern goes on
with. -/
theorem Plain.behind_read {q : List Element} (h : Plain {literals (b :: bs) ++ q} (encode (c :: cs)))
    (hlow : c.toNat < 128) (hfirst : sameFold c ((Utf8.front b bs).1.getD replacement) = true) :
    Plain {literals (Utf8.front b bs).2 ++ q} (encode cs) := by
  cases hd : (Utf8.front b bs).1 with
  | none =>
      rw [hd] at hfirst
      have hnone := (sameFold_replacement hfirst).2 rfl
      rw [hnone] at hlow
      exact absurd hlow (by decide)
  | some d =>
      rw [hd] at hfirst
      have hbs := front_some (Prod.ext hd rfl : Utf8.front b bs = (some d, _))
      have hsplit : encode (c :: cs) = encode [c] ++ encode cs := encode_append [c] cs
      rw [hsplit] at h
      refine h.behind (literals (String.utf8EncodeChar d)) (fun p hp => ?_) fun p front hp =>
        .text hfirst hp
      rw [Finset.mem_singleton.1 hp, Finset.mem_singleton, ← hbs, ← List.append_assoc, literals,
        literals, literals, List.map_append]

theorem low_of_fold {q : List Element} (h : Plain {literals bs ++ q} (encode cs))
    (has : as <+: encode cs)
    (hfold : sameFoldAll (decodeLossy as) (decodeLossy bs) = true) : ∀ a ∈ as, a < 0x80 := by
  induction cs generalizing as bs with
  | nil =>
      rw [List.prefix_nil.1 has]
      exact nofun
  | cons c cs ih =>
      cases as with
      | nil => exact nofun
      | cons a as =>
      cases bs with
      | nil =>
          rw [decodeLossy, decodeLossy] at hfold
          cases hfold
      | cons b bs =>
      by_cases hlow : c.toNat < 128
      · have hprefix := has
        rw [encode_cons, encodeChar_low (Nat.le_of_lt_succ hlow), List.singleton_append] at hprefix
        obtain ⟨rfl, hrest⟩ := List.cons_prefix_cons.1 hprefix
        have ha : UInt8.ofNat c.val.toNat < 0x80 := ofNat_low hlow
        have hchar : charOf (UInt8.ofNat c.toNat) = c := by
          rw [charOf, toNat_ofNat (by omega), Char.ofNat_toNat]
        have hread : decodeLossy (UInt8.ofNat c.val.toNat :: as) = c :: decodeLossy as := by
          rw [decodeLossy_ascii ha]
          exact congrArg (· :: decodeLossy as) hchar
        rw [hread, decodeLossy, sameFoldAll, Bool.and_eq_true] at hfold
        obtain ⟨hfirst, hfold⟩ := hfold
        have hbehind := h.behind_read hlow hfirst
        exact List.forall_mem_cons.2 ⟨ha, ih hbehind hrest hfold⟩
      · obtain ⟨all, hall, hplain⟩ := h
        cases encode_injective hall
        have hforeign := (hplain [] c cs rfl).resolve_left hlow
        have hb : b < 0x80 := hforeign.head (q := literals bs ++ q) (Finset.mem_singleton_self _)
        rw [decodeLossy_ascii hb, decodeLossy, sameFoldAll, hforeign.read_apart hlow has hb] at hfold
        cases hfold

/-- The start of a plain path and the literal text of a pattern agree byte by byte where they are read
alike. -/
theorem Plain.sameCase {q : List Element} (h : Plain es path) (has : as <+: path)
    (hbs : literals bs ++ q ∈ es) (hlength : as.length = bs.length)
    (hfold : sameFoldAll (decodeLossy as) (decodeLossy bs) = true) : List.Forall₂ SameCase as bs := by
  have hone := h.mono (Finset.singleton_subset_iff.2 hbs)
  obtain ⟨cs, rfl⟩ := h.isText
  have hlow := low_of_fold hone has hfold
  obtain ⟨cs, ds, rfl, rfl, hsame⟩ := sameText_of_fold hfold (.inl (no_replacement hlow))
  have hcs := low_of_bytes hlow
  refine sameCase_of_fold hcs (length_encode_low.1 ?_) hsame
  rw [← hlength, length_encode_low.2 hcs, length_of_fold hsame]

theorem recase_off {fix : Bool}
    (hfits : ∀ front rest, path = front ++ rest → ¬ List.Forall₂ SameCase front text)
    (hslash : ∀ front, text = front ++ [slash] → ¬ List.Forall₂ SameCase path front)
    (hplain : Plain (under text es) path) (hes : ¬ Catches es) :
    recase fix (under text es) path = none := by
  rcases es.eq_empty_or_nonempty with rfl | ⟨q, hq⟩
  · exact recase_empty fix path
  induction text generalizing path with
  | nil => exact absurd .nil (hfits [] path rfl)
  | cons k text ih =>
      rw [under_cons]
      cases path with
      | nil =>
          rw [recase_nil, if_neg]
          rintro ⟨-, rfl, hmem | hcatches⟩
          · obtain ⟨q, -, hq⟩ := mem_under.1 hmem
            obtain ⟨hlabel, -⟩ := List.append_eq_nil_iff.1 hq
            cases List.map_eq_nil_iff.1 hlabel
            exact hslash [] rfl .nil
          · exact not_catches_under hes text hcatches
      | cons b path =>
          rw [recase_byte]
          split
          · next hk =>
              have hb : b < 0x80 := by
                cases hplain.head (List.cons_ne_nil b path) with
                | ascii _ _ hpath hb =>
                    cases hpath
                    exact hb
                | foreign _ _ hpath _ c _ hc =>
                    cases hpath
                    have hlow : k < 0x80 :=
                      hc.head (q := literals text ++ q) (mem_under.2 ⟨q, hq, rfl⟩)
                    rcases hk with rfl | rfl
                    · exact lowerByte_low.1 hlow
                    · exact upperByte_low.1 hlow
              have hbk : SameCase b k := (sameCase_iff hb).2 hk
              rw [under_cons] at hplain
              rw [ih]
              · rfl
              · rintro front rest rfl h
                exact hfits (b :: front) rest rfl (.cons hbk h)
              · rintro front rfl h
                exact hslash (k :: front) rfl (.cons hbk h)
              · have hplain : Plain (under [k] (under text es)) ([b] ++ path) := hplain
                exact hplain.label (.cons hbk .nil)
          · rfl

end HttpRouting.Pattern

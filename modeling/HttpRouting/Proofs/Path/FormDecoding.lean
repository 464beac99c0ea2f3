import HttpRouting.Path.FormValue
import HttpRouting.Proofs.Text.Decoding
import Mathlib.Data.List.Forall2

namespace HttpRouting.FormValue

open Utf8

/-- What is relied on of a percent decoding: an escape becomes its byte, and other bytes are kept. -/
structure PercentDecoding (f : Bytes → Bytes) : Prop where
  nil : f [] = []
  escape {high low h l : UInt8} (hhigh : hexDigit? high = some h) (hlow : hexDigit? low = some l)
    (rest : Bytes) : f (percent :: high :: low :: rest) = (h * 16 + l) :: f rest
  other {b : UInt8} (hb : b ≠ percent) (rest : Bytes) : f (b :: rest) = b :: f rest

def blank (b : UInt8) : UInt8 := if b = plus then space else b

/-- The bytes that a form value stands for, read from left to right. There are none where a percent sign
introduces no two hex digits. -/
def decodeBytes? : Bytes → Option Bytes
  | [] => some []
  | b :: bs =>
      if b = percent then
        match bs with
        | high :: low :: rest =>
            match hexDigit? high, hexDigit? low, decodeBytes? rest with
            | some h, some l, some out => some ((h * 16 + l) :: out)
            | _, _, _ => none
        | _ => none
      else (decodeBytes? bs).map (blank b :: ·)

/-- How a byte may be written in a form value. -/
inductive Spells : UInt8 → Bytes → Prop
  | itself {b : UInt8} (hpercent : b ≠ percent) (hplus : b ≠ plus) : Spells b [b]
  | blank : Spells space [plus]
  | escape {high low h l : UInt8} (hhigh : hexDigit? high = some h) (hlow : hexDigit? low = some l) :
      Spells (h * 16 + l) [percent, high, low]

theorem percentDecoded_decodes : PercentDecoding percentDecoded := by
  refine ⟨rfl, fun hhigh hlow rest => ?_, fun hb rest => ?_⟩
  · rw [percentDecoded, if_pos rfl]
    simp only [hhigh, hlow]
  · rw [percentDecoded.eq_def]
    exact if_neg hb

section Reading

variable {b high low h l : UInt8} {bs rest out : Bytes}

theorem decodeBytes?_escape (hhigh : hexDigit? high = some h) (hlow : hexDigit? low = some l)
    (rest : Bytes) :
    decodeBytes? (percent :: high :: low :: rest) = (decodeBytes? rest).map ((h * 16 + l) :: ·) := by
  rw [decodeBytes?, if_pos rfl]
  simp only [hhigh, hlow]
  cases decodeBytes? rest <;> rfl

theorem decodeBytes?_other (hb : b ≠ percent) (rest : Bytes) :
    decodeBytes? (b :: rest) = (decodeBytes? rest).map (blank b :: ·) := by
  rw [decodeBytes?.eq_def]
  exact if_neg hb

theorem wellEscaped_eq (bs : Bytes) : wellEscaped bs = (decodeBytes? bs).isSome := by
  fun_induction decodeBytes? bs with
  | case1 => rfl
  | case2 high low rest h l out hrest hlow hhigh ih =>
      rw [wellEscaped, if_pos rfl]
      simp [hhigh, hlow, ih, hrest]
  | case3 high low rest hnone ih =>
      rw [wellEscaped, if_pos rfl, ih, Option.isSome_none, Bool.eq_false_iff]
      intro hsome
      simp only [Bool.and_eq_true, Option.isSome_iff_exists] at hsome
      obtain ⟨⟨⟨h, hhigh⟩, l, hlow⟩, out, hrest⟩ := hsome
      exact hnone h l out hhigh hlow hrest
  | case4 bs hshort =>
      rcases bs with _ | ⟨c, _ | ⟨d, bs⟩⟩
      · rfl
      · rfl
      · exact (hshort c d bs rfl).elim
  | case5 b bs hb ih =>
      rw [wellEscaped.eq_def]
      simp only [if_neg hb, ih, Option.isSome_map]

theorem blank_digit (hdigit : hexDigit? b = some h) : blank b = b := by
  refine if_neg fun hplus => ?_
  rw [hplus] at hdigit
  cases hdigit

theorem PercentDecoding.decodes {f : Bytes → Bytes} (hf : PercentDecoding f)
    (hbs : decodeBytes? bs = some out) : f (bs.map blank) = out := by
  fun_induction decodeBytes? bs generalizing out with
  | case1 =>
      cases hbs
      exact hf.nil
  | case2 high low rest h l out' hrest hlow hhigh ih =>
      cases hbs
      have hmap : (percent :: high :: low :: rest).map blank =
          percent :: high :: low :: rest.map blank := by
        simp only [List.map_cons, blank_digit hhigh, blank_digit hlow]
        rfl
      rw [hmap, hf.escape hhigh hlow, ih hrest]
  | case3 => cases hbs
  | case4 => cases hbs
  | case5 b bs hb ih =>
      obtain ⟨out', hout, rfl⟩ := Option.map_eq_some_iff.1 hbs
      have hblank : blank b ≠ percent := by
        unfold blank
        split
        · decide
        · exact hb
      rw [List.map_cons, hf.other hblank, ih hout]

theorem decodeBytes?_plain (h : ∀ b ∈ bs, b ≠ percent ∧ b ≠ plus) :
    decodeBytes? bs = some bs := by
  induction bs with
  | nil => rfl
  | cons b bs ih =>
      obtain ⟨⟨hpercent, hplus⟩, hbs⟩ := List.forall_mem_cons.1 h
      rw [decodeBytes?_other hpercent, ih hbs, blank, if_neg hplus]
      rfl

theorem decodeBytes?_spells {part : Bytes} (h : Spells b part) (rest : Bytes) :
    decodeBytes? (part ++ rest) = (decodeBytes? rest).map (b :: ·) := by
  cases h with
  | itself hpercent hplus =>
      have hread := decodeBytes?_other hpercent rest
      rwa [blank, if_neg hplus] at hread
  | blank => exact decodeBytes?_other (by decide) rest
  | escape hhigh hlow => exact decodeBytes?_escape hhigh hlow rest

theorem decodeBytes?_spelled {parts : List Bytes} (h : List.Forall₂ Spells bs parts) :
    decodeBytes? parts.flatten = some bs := by
  induction h with
  | nil => rfl
  | cons hspells _ ih => rw [List.flatten_cons, decodeBytes?_spells hspells, ih, Option.map_some]

end Reading

section Text

theorem blank_char (c : Char) :
    String.utf8EncodeChar (if c = '+' then ' ' else c) = (String.utf8EncodeChar c).map blank := by
  split
  · next hc =>
      subst hc
      rfl
  · next hc =>
      have hkept : ∀ b ∈ String.utf8EncodeChar c, blank b = b := by
        intro b hb
        refine if_neg ?_
        rintro rfl
        by_cases hlow : c.val.toNat ≤ 0x7F
        · rw [encodeChar_low hlow, List.mem_singleton, eq_comm, ← UInt8.toNat_inj,
            toNat_ofNat (by omega)] at hb
          exact hc (Char.ext (UInt32.toNat_inj.1 hb))
        · exact encodeChar_high hlow plus hb (by decide)
      rw [List.map_congr_left hkept, List.map_id']

theorem utf8_spaced (raw : String) : utf8 (spaced raw) = (utf8 raw).map blank := by
  rw [utf8, spaced, String.toList_ofList, utf8, encode, encode, List.flatMap_map, List.map_flatMap]
  exact List.flatMap_congr fun c _ => blank_char c

variable {f : Bytes → Bytes}

theorem decodeBy_some (hf : PercentDecoding f) {raw s : String}
    (h : decodeBytes? (utf8 raw) = some (utf8 s)) : decodeBy f raw = s := by
  rw [decodeBy]
  split
  · next hnone =>
      have hplain : decodeBytes? (utf8 raw) = some (utf8 raw) :=
        decodeBytes?_plain (by simpa [not_or] using hnone)
      rw [hplain] at h
      exact String.toList_inj.1 (encode_injective (Option.some.inj h))
  · rw [wellEscaped_eq, h, utf8_spaced, hf.decodes h, utf8_text.2 rfl]
    rfl

theorem decodeBy_none (hf : PercentDecoding f) {raw : String}
    (h : ∀ s, decodeBytes? (utf8 raw) ≠ some (utf8 s)) : decodeBy f raw = raw := by
  rw [decodeBy]
  split
  · rfl
  rw [wellEscaped_eq]
  cases hout : decodeBytes? (utf8 raw) with
  | none => rfl
  | some out =>
      rw [utf8_spaced, hf.decodes hout]
      cases htext : text? out with
      | none => rfl
      | some s =>
          rw [← utf8_text.1 htext] at hout
          exact absurd hout (h s)

end Text

/-- Decoding a form value reads all its escapes and plus signs at once, or leaves the value as it is where an
escape is malformed or the bytes are no text. So a text comes back from whatever spelling of its bytes. -/
theorem decode_at_once {f : Bytes → Bytes} (hf : PercentDecoding f) (raw : String) :
    (∀ s, decodeBytes? (utf8 raw) = some (utf8 s) → decodeBy f raw = s) ∧
    ((¬ ∃ s, decodeBytes? (utf8 raw) = some (utf8 s)) → decodeBy f raw = raw) ∧
    ∀ s parts, List.Forall₂ Spells (utf8 s) parts → utf8 raw = parts.flatten →
      decodeBy f raw = s := by
  refine ⟨fun s h => decodeBy_some hf h, fun h => decodeBy_none hf (not_exists.1 h), ?_⟩
  intro s parts hparts hraw
  exact decodeBy_some hf (hraw ▸ decodeBytes?_spelled hparts)

theorem decode_at_once_mixed :
    decode "caf%C3%A9+%2B25%25" = "café +25%" ∧ decode "a+b%FF" = "a+b%FF" ∧
      decode "%252b" = "%2b" := by
  have hescape : Spells percent [percent, 50, 53] :=
    Spells.escape (show hexDigit? 50 = some 2 by decide) (show hexDigit? 53 = some 5 by decide)
  have hspelled : List.Forall₂ Spells (utf8 "%2b") [[percent, 50, 53], [50], [98]] :=
    .cons hescape (.cons (.itself (by decide) (by decide)) (.cons (.itself (by decide) (by decide)) .nil))
  have hnone : ¬ ∃ s, decodeBytes? (utf8 "a+b%FF") = some (utf8 s) := by
    rintro ⟨s, hs⟩
    have hbytes : decodeBytes? (utf8 "a+b%FF") = some [97, 32, 98, 255] := by decide +kernel
    have htext : text? [97, 32, 98, 255] = some s := utf8_text.2 (Option.some.inj (hs.symm.trans hbytes))
    have hbroken : text? [97, 32, 98, 255] = none := by decide +kernel
    rw [hbroken] at htext
    cases htext
  exact ⟨(decode_at_once percentDecoded_decodes _).1 _ (by decide +kernel),
    (decode_at_once percentDecoded_decodes _).2.1 hnone,
    (decode_at_once percentDecoded_decodes _).2.2 _ _ hspelled (by decide +kernel)⟩

end HttpRouting.FormValue

import HttpRouting.Proofs.Text.RoundTrip
import Mathlib.Tactic.SplitIfs

namespace HttpRouting

namespace Utf8

theorem finish_some {owed payload : Nat} {low high : UInt8} {bs rest : Bytes} {c : Char}
    (h : finish (owed + 1) low high payload bs = (some c, rest)) :
    ∃ b tail, bs = b :: tail ∧ low ≤ b ∧ b ≤ high ∧
      finish owed 0x80 0xBF (payload * 64 + b.toNat % 64) tail = (some c, rest) := by
  cases bs with
  | nil => cases h
  | cons b tail =>
      rw [finish] at h
      split at h
      · next hrange => exact ⟨b, tail, rfl, hrange.1, hrange.2, h⟩
      · cases h

theorem toNat_char {v : Nat} (h : v < 0xD800 ∨ 0xDFFF < v ∧ v < 0x110000) :
    (Char.ofNat v).val.toNat = v := by
  have hvalid : v.isValidChar := h
  rw [Char.ofNat, dif_pos hvalid]
  rfl

theorem eq_ofNat {b : UInt8} {n : Nat} (h : b.toNat = n) : UInt8.ofNat n = b := by
  rw [← h, UInt8.ofNat_toNat]

theorem encode_one {b : UInt8} (h : b < 0x80) :
    String.utf8EncodeChar (Char.ofNat b.toNat) = [b] := by
  rw [UInt8.lt_iff_toNat_lt] at h
  have h80 : (0x80 : UInt8).toNat = 0x80 := rfl
  rw [String.utf8EncodeChar, toNat_char (by omega)]
  rw [if_pos (by omega), UInt8.ofNat_toNat]

theorem encode_two {v : Nat} {a b : UInt8} (hlow : 0x7F < v) (hhigh : v ≤ 0x7FF)
    (ha : a.toNat = v / 64 + 0xC0) (hb : b.toNat = v % 64 + 0x80) :
    String.utf8EncodeChar (Char.ofNat v) = [a, b] := by
  rw [String.utf8EncodeChar, toNat_char (by omega)]
  rw [if_neg (by omega), if_pos (by omega), eq_ofNat (by omega : a.toNat = v / 64 % 32 + 0xC0),
    eq_ofNat hb]

theorem encode_three {v : Nat} {a b c : UInt8} (hlow : 0x7FF < v) (hhigh : v ≤ 0xFFFF)
    (hv : v < 0xD800 ∨ 0xDFFF < v) (ha : a.toNat = v / 4096 + 0xE0)
    (hb : b.toNat = v / 64 % 64 + 0x80) (hc : c.toNat = v % 64 + 0x80) :
    String.utf8EncodeChar (Char.ofNat v) = [a, b, c] := by
  rw [String.utf8EncodeChar, toNat_char (by omega)]
  rw [if_neg (by omega), if_neg (by omega), if_pos (by omega),
    eq_ofNat (by omega : a.toNat = v / 4096 % 16 + 0xE0), eq_ofNat hb, eq_ofNat hc]

theorem encode_four {v : Nat} {a b c d : UInt8} (hlow : 0xFFFF < v) (hhigh : v < 0x110000)
    (ha : a.toNat = v / 262144 + 0xF0) (hb : b.toNat = v / 4096 % 64 + 0x80)
    (hc : c.toNat = v / 64 % 64 + 0x80) (hd : d.toNat = v % 64 + 0x80) :
    String.utf8EncodeChar (Char.ofNat v) = [a, b, c, d] := by
  rw [String.utf8EncodeChar, toNat_char (by omega)]
  rw [if_neg (by omega), if_neg (by omega), if_neg (by omega),
    eq_ofNat (by omega : a.toNat = v / 262144 % 8 + 0xF0), eq_ofNat hb, eq_ofNat hc, eq_ofNat hd]

theorem finish_two_some {payload : Nat} {low high a : UInt8} {bs rest : Bytes} {c : Char}
    (h : finish 1 low high payload bs = (some c, rest)) (hlow : 0x80 ≤ low) (hhigh : high ≤ 0xBF)
    (ha : a.toNat = payload + 0xC0) (hpayload : 2 ≤ payload ∧ payload < 32) :
    String.utf8EncodeChar c ++ rest = a :: bs := by
  obtain ⟨b, tail, rfl, hb, hb', h⟩ := finish_some h
  cases h
  simp only [UInt8.le_iff_toNat_le, UInt8.reduceToNat] at *
  rw [encode_two (a := a) (b := b) (by omega) (by omega) (by omega) (by omega)]
  rfl

theorem finish_three_some {payload : Nat} {low high a : UInt8} {bs rest : Bytes} {c : Char}
    (h : finish 2 low high payload bs = (some c, rest)) (hlow : 0x80 ≤ low) (hhigh : high ≤ 0xBF)
    (ha : a.toNat = payload + 0xE0) (hpayload : payload < 16) (hzero : payload = 0 → 0xA0 ≤ low)
    (hsurrogate : payload = 13 → high ≤ 0x9F) :
    String.utf8EncodeChar c ++ rest = a :: bs := by
  obtain ⟨b, bs, rfl, hb, hb', h⟩ := finish_some h
  obtain ⟨d, tail, rfl, hd, hd', h⟩ := finish_some h
  cases h
  simp only [UInt8.le_iff_toNat_le, UInt8.reduceToNat] at *
  rw [encode_three (a := a) (b := b) (c := d) (by omega) (by omega) (by omega) (by omega) (by omega)
    (by omega)]
  rfl

theorem finish_four_some {payload : Nat} {low high a : UInt8} {bs rest : Bytes} {c : Char}
    (h : finish 3 low high payload bs = (some c, rest)) (hlow : 0x80 ≤ low) (hhigh : high ≤ 0xBF)
    (ha : a.toNat = payload + 0xF0) (hpayload : payload ≤ 4) (hzero : payload = 0 → 0x90 ≤ low)
    (hlast : payload = 4 → high ≤ 0x8F) :
    String.utf8EncodeChar c ++ rest = a :: bs := by
  obtain ⟨b, bs, rfl, hb, hb', h⟩ := finish_some h
  obtain ⟨d, bs, rfl, hd, hd', h⟩ := finish_some h
  obtain ⟨e, tail, rfl, he, he', h⟩ := finish_some h
  cases h
  simp only [UInt8.le_iff_toNat_le, UInt8.reduceToNat] at *
  rw [encode_four (a := a) (b := b) (c := d) (d := e) (by omega) (by omega) (by omega) (by omega)
    (by omega) (by omega)]
  rfl

theorem front_some {b : UInt8} {bs rest : Bytes} {c : Char} (h : front b bs = (some c, rest)) :
    String.utf8EncodeChar c ++ rest = b :: bs := by
  have hcases := lead?_ofNat (UInt8.toNat_lt b)
  rw [UInt8.ofNat_toNat] at hcases
  have hn := UInt8.toNat_lt b
  rw [front, hcases] at h
  split_ifs at h with h1 h2 h3 h4 h5 h6 h7 h8 h9
  · cases h
    have hlow : b < 0x80 := by
      rw [UInt8.lt_iff_toNat_lt]
      exact h1
    rw [encode_one hlow]
    rfl
  · cases h
  all_goals dsimp only at h
  · exact finish_two_some h (by decide) (by decide) (by omega) (by omega)
  · exact finish_three_some h (by decide) (by decide) (by omega) (by omega) (fun _ => by decide) (by decide)
  · exact finish_three_some h (by decide) (by decide) (by omega) (by omega) (by decide) (fun _ => by decide)
  · exact finish_three_some h (by decide) (by decide) (by omega) (by omega) (fun _ => by omega)
      (fun _ => by omega)
  · exact finish_four_some h (by decide) (by decide) (by omega) (by omega) (fun _ => by decide) (by decide)
  · exact finish_four_some h (by decide) (by decide) (by omega) (by omega) (fun _ => by omega)
      (fun _ => by omega)
  · exact finish_four_some h (by decide) (by decide) (by omega) (by omega) (by decide) (fun _ => by decide)
  · cases h

theorem encode_decode {bs : Bytes} {cs : List Char} (h : decode? bs = some cs) : encode cs = bs := by
  fun_induction decode? bs generalizing cs with
  | case1 =>
      cases h
      rfl
  | case2 b bs c hc ih =>
      obtain ⟨ds, hds, rfl⟩ := Option.map_eq_some_iff.1 h
      have hfront : front b bs = (some c, (front b bs).2) := Prod.ext hc rfl
      rw [encode_cons, ih hds, front_some hfront]
  | case3 => cases h

theorem decode_encode (cs : List Char) : decode? (encode cs) = some cs := by
  induction cs with
  | nil => rw [encode, List.flatMap_nil, decode?]
  | cons c cs ih =>
      obtain ⟨b, bs, hc, hf⟩ := front_char c (encode cs)
      have hencode : encode (c :: cs) = b :: (bs ++ encode cs) := by simp [encode, hc]
      rw [hencode, decode?, hf]
      dsimp only
      rw [ih]
      rfl

section Reading

variable {b : UInt8} {as bs : Bytes} {c d : Char}

/-- Bytes that are read without a replacement character are those of the text that is read. -/
theorem encode_decodeLossy (h : replacement ∉ decodeLossy bs) : encode (decodeLossy bs) = bs := by
  fun_induction decodeLossy bs with
  | case1 => rfl
  | case2 b bs ih =>
      rw [List.mem_cons, not_or] at h
      obtain ⟨hread, hrest⟩ := h
      cases hfront : (front b bs).1 with
      | none =>
          rw [hfront] at hread
          exact absurd rfl hread
      | some c =>
          rw [Option.getD_some, encode_cons, ih hrest]
          exact front_some (Prod.ext hfront rfl)

theorem replacement_front (h : replacement ∉ decodeLossy (bs ++ [Bytes.slash])) :
    replacement ∉ decodeLossy bs := by
  have htext : IsText (bs ++ Bytes.slash :: []) := ⟨_, encode_decodeLossy h⟩
  obtain ⟨cs, rfl⟩ := (htext.cut (by decide)).1
  rw [decodeLossy_encode_append, List.mem_append, not_or] at h
  rw [decodeLossy_encode]
  exact h.1

theorem take_encode {cs : List Char} (h : ∀ c ∈ cs, c.toNat < 128) (k : Nat) :
    (encode cs).take k = encode (cs.take k) := by
  induction cs generalizing k with
  | nil => simp [encode]
  | cons c cs ih =>
      obtain ⟨hc, hcs⟩ := List.forall_mem_cons.1 h
      cases k with
      | zero => rfl
      | succ k =>
          rw [encode_cons, encodeChar_low (Nat.le_of_lt_succ hc), List.singleton_append,
            List.take_succ_cons, List.take_succ_cons, encode_cons,
            encodeChar_low (Nat.le_of_lt_succ hc), ih hcs, List.singleton_append]

theorem first?_encode (c : Char) (rest : Bytes) :
    first? (String.utf8EncodeChar c ++ rest) = some c := by
  obtain ⟨b, bs, hc, hfront⟩ := front_char c rest
  rw [hc, List.cons_append, first?, hfront]

theorem first?_text (c : Char) (cs : List Char) : first? (encode (c :: cs)) = some c := by
  rw [encode_cons, first?_encode]

theorem first?_append (h : first? bs = some c) : ∃ rest, bs = String.utf8EncodeChar c ++ rest := by
  cases bs with
  | nil => cases h
  | cons b bs => exact ⟨_, (front_some (Prod.ext h rfl : front b bs = (some c, _))).symm⟩

theorem first?_head (h : first? bs = some c) : bs.head? = (String.utf8EncodeChar c).head? := by
  obtain ⟨rest, rfl⟩ := first?_append h
  obtain ⟨b, bs, hc, -⟩ := front_char c []
  rw [hc]
  rfl

theorem IsText.first? (h : IsText bs) (hne : bs ≠ []) : ∃ c, Utf8.first? bs = some c := by
  obtain ⟨cs, rfl⟩ := h
  cases cs with
  | nil => exact absurd rfl hne
  | cons c cs => exact ⟨c, first?_text c cs⟩

theorem lead_start (h : (front b bs).1 = some c) : (b &&& 0xC0 != 0x80) = true := by
  have hall : ∀ k < 256, lead? (UInt8.ofNat k) = none ∨ (UInt8.ofNat k &&& 0xC0 != 0x80) = true := by
    decide +kernel
  have hb := hall b.toNat (UInt8.toNat_lt b)
  rw [UInt8.ofNat_toNat] at hb
  refine hb.resolve_left fun hnone => ?_
  rw [front, hnone] at h
  cases h

theorem front_continuation (hlow : 0x80 ≤ b) (hhigh : b < 0xC0) (bs : Bytes) :
    front b bs = (none, bs) := by
  have hlead : lead? b = none := by
    rw [lead?, if_neg (UInt8.not_lt.2 hlow), if_pos (UInt8.lt_trans hhigh (by decide))]
  rw [front, hlead]

theorem decodeLossy_continuation (has : ∀ b ∈ as, 0x80 ≤ b ∧ b < 0xC0) :
    decodeLossy (as ++ bs) = List.replicate as.length replacement ++ decodeLossy bs := by
  induction as with
  | nil => rfl
  | cons a as ih =>
      obtain ⟨ha, has⟩ := List.forall_mem_cons.1 has
      rw [List.cons_append, decodeLossy, front_continuation ha.1 ha.2, ih has]
      rfl

/-- The first byte of a character tells how many there are. -/
theorem width_eq (c : Char) : ∃ b, (String.utf8EncodeChar c).head? = some b ∧
    c.utf8Size = if b.toNat < 0xC0 then 1 else if b.toNat < 0xE0 then 2
      else if b.toNat < 0xF0 then 3 else 4 := by
  have hv := c.valid
  simp only [UInt32.isValidChar, Nat.isValidChar] at hv
  rw [← String.length_utf8EncodeChar]
  unfold String.utf8EncodeChar
  generalize c.val.toNat = v at hv
  dsimp only
  split
  · refine ⟨_, rfl, ?_⟩
    rw [toNat_ofNat (by omega), if_pos (by omega)]
    rfl
  split
  · refine ⟨_, rfl, ?_⟩
    rw [toNat_ofNat (by omega), if_neg (by omega), if_pos (by omega)]
    rfl
  split
  · refine ⟨_, rfl, ?_⟩
    rw [toNat_ofNat (by omega), if_neg (by omega), if_neg (by omega), if_pos (by omega)]
    rfl
  · refine ⟨_, rfl, ?_⟩
    rw [toNat_ofNat (by omega), if_neg (by omega), if_neg (by omega), if_neg (by omega)]
    rfl

theorem width_of_head (h : (String.utf8EncodeChar c).head? = (String.utf8EncodeChar d).head?) :
    c.utf8Size = d.utf8Size := by
  obtain ⟨b, hb, hc⟩ := width_eq c
  obtain ⟨b', hb', hd⟩ := width_eq d
  rw [hb, hb'] at h
  cases h
  rw [hc, hd]
end Reading

end Utf8

theorem utf8_text {bs : Bytes} {s : String} : text? bs = some s ↔ utf8 s = bs := by
  rw [text?, Option.map_eq_some_iff]
  constructor
  · rintro ⟨cs, hcs, rfl⟩
    rw [utf8, String.toList_ofList]
    exact Utf8.encode_decode hcs
  · rintro rfl
    exact ⟨s.toList, Utf8.decode_encode _, String.ofList_toList⟩

theorem Utf8.IsText.text? {bs : Bytes} (h : Utf8.IsText bs) : ∃ s, text? bs = some s := by
  obtain ⟨cs, rfl⟩ := h
  exact ⟨String.ofList cs, utf8_text.2 (by rw [utf8, String.toList_ofList])⟩

end HttpRouting

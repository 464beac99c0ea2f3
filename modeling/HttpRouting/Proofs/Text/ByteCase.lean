import HttpRouting.Proofs.Text.SameText
import Mathlib.Data.List.Forall2

namespace HttpRouting

open Utf8

def lowerByte (b : UInt8) : UInt8 := if 65 ≤ b ∧ b ≤ 90 then b + 32 else b

def upperByte (b : UInt8) : UInt8 := if 97 ≤ b ∧ b ≤ 122 then b - 32 else b

namespace CaseTable

/-- Below 128 a table maps the letters of its first run only. -/
theorem image_first {runs : List Run} {first last start code : Nat}
    (hhead : runs.head? = some ⟨first, last, 1, start⟩)
    (hruns : ∀ r ∈ runs, r.first < 128 → r.first = first ∧ r.last = last ∧ r.image = start)
    (hcode : code < 128) :
    image runs code = if first ≤ code ∧ code ≤ last then start + (code - first) else code := by
  split
  · next hletter =>
      obtain ⟨runs, rfl⟩ := List.head?_eq_some_iff.1 hhead
      have hcovers : Run.covers ⟨first, last, 1, start⟩ code = true := by
        simp [Run.covers, hletter, Nat.mod_one]
      have hfind : (Run.mk first last 1 start :: runs).find? (·.covers code) =
          some ⟨first, last, 1, start⟩ := List.find?_cons_of_pos hcovers
      rw [image, hfind]
  · rcases image_low hruns hcode with hsame | hletter
    · exact hsame
    · omega

end CaseTable

section Byte

variable {a b : UInt8}

theorem toNat_lowerByte (b : UInt8) :
    (lowerByte b).toNat = if 65 ≤ b.toNat ∧ b.toNat ≤ 90 then b.toNat + 32 else b.toNat := by
  unfold lowerByte
  simp only [UInt8.le_iff_toNat_le, UInt8.reduceToNat]
  split
  · rw [UInt8.toNat_add]
    simp only [UInt8.reduceToNat]
    omega
  · rfl

theorem toNat_upperByte (b : UInt8) :
    (upperByte b).toNat = if 97 ≤ b.toNat ∧ b.toNat ≤ 122 then b.toNat - 32 else b.toNat := by
  unfold upperByte
  simp only [UInt8.le_iff_toNat_le, UInt8.reduceToNat]
  split
  · rw [UInt8.toNat_sub]
    simp only [UInt8.reduceToNat]
    omega
  · rfl

theorem lowerChar_byte (h : b < 0x80) : lowerChar (charOf b) = charOf (lowerByte b) := by
  have hlow : b.toNat < 128 := UInt8.lt_iff_toNat_lt.1 h
  have hcode : (charOf b).toNat = b.toNat := toNat_char (by omega)
  have hbyte : CaseTable.image CaseTable.lowercase b.toNat = (lowerByte b).toNat := by
    rw [CaseTable.image_first rfl CaseTable.lowercase_first hlow, toNat_lowerByte]
    split <;> omega
  rw [lowerChar, hcode, hbyte, charOf]

theorem upperChar_byte (h : b < 0x80) : upperChar (charOf b) = charOf (upperByte b) := by
  have hlow : b.toNat < 128 := UInt8.lt_iff_toNat_lt.1 h
  have hcode : (charOf b).toNat = b.toNat := toNat_char (by omega)
  have hbyte : CaseTable.image CaseTable.uppercase b.toNat = (upperByte b).toNat := by
    rw [CaseTable.image_first rfl CaseTable.uppercase_first hlow, toNat_upperByte]
    split <;> omega
  rw [upperChar, hcode, hbyte, charOf]

theorem lowerByte_low : lowerByte b < 0x80 ↔ b < 0x80 := by
  simp only [UInt8.lt_iff_toNat_lt, UInt8.reduceToNat, toNat_lowerByte]
  split <;> omega

theorem upperByte_low : upperByte b < 0x80 ↔ b < 0x80 := by
  simp only [UInt8.lt_iff_toNat_lt, UInt8.reduceToNat, toNat_upperByte]
  split <;> omega

theorem encode_lower (h : b < 0x80) :
    String.utf8EncodeChar (lowerChar (charOf b)) = [lowerByte b] := by
  rw [lowerChar_byte h]
  exact encode_one (lowerByte_low.2 h)

theorem encode_upper (h : b < 0x80) :
    String.utf8EncodeChar (upperChar (charOf b)) = [upperByte b] := by
  rw [upperChar_byte h]
  exact encode_one (upperByte_low.2 h)

theorem charOf_inj (ha : a < 0x80) (hb : b < 0x80) : charOf a = charOf b ↔ a = b := by
  constructor
  · intro h
    have hsame := congrArg String.utf8EncodeChar h
    have ha : String.utf8EncodeChar (charOf a) = [a] := encode_one ha
    have hb : String.utf8EncodeChar (charOf b) = [b] := encode_one hb
    rw [ha, hb] at hsame
    exact (List.cons.inj hsame).1
  · rintro rfl
    rfl

/-- Two bytes are ASCII characters that agree up to case. -/
theorem sameCase_iff (ha : a < 0x80) : SameCase a b ↔ b = lowerByte a ∨ b = upperByte a := by
  constructor
  · rintro ⟨-, hb, hfold⟩
    have hlower := charOf_inj (lowerByte_low.2 ha) (lowerByte_low.2 hb)
    have hupper := charOf_inj (upperByte_low.2 ha) (upperByte_low.2 hb)
    simp only [sameFold, Bool.or_eq_true, beq_iff_eq, lowerChar_byte ha, lowerChar_byte hb,
      upperChar_byte ha, upperChar_byte hb, charOf_inj ha hb, hlower, hupper] at hfold
    simp only [← UInt8.toNat_inj, toNat_lowerByte, toNat_upperByte] at hfold ⊢
    split_ifs at hfold ⊢ <;> omega
  · intro h
    obtain ⟨b', hb', hsame⟩ := sameCase_image ha (c := charOf b) (by
      rw [lowerChar_byte ha, upperChar_byte ha]
      exact h.imp (congrArg charOf) (congrArg charOf))
    have hb : b < 0x80 := by
      rcases h with rfl | rfl
      · exact lowerByte_low.2 ha
      · exact upperByte_low.2 ha
    have hencode : String.utf8EncodeChar (charOf b) = [b] := encode_one hb
    rw [hencode] at hb'
    cases hb'
    exact hsame

theorem SameCase.eq_slash_iff (h : SameCase a b) : a = Bytes.slash ↔ b = Bytes.slash := by
  have hslash : Bytes.slash.toNat = 47 := rfl
  have hcase := (sameCase_iff h.left).1 h
  simp only [← UInt8.toNat_inj, toNat_lowerByte, toNat_upperByte, hslash] at hcase ⊢
  split_ifs at hcase <;> omega

end Byte

section Bytes

variable {cs ds : List Char} {as bs : Bytes}

theorem sameCase_of_fold (hcs : ∀ c ∈ cs, c.toNat < 128) (hds : ∀ d ∈ ds, d.toNat < 128)
    (h : sameFoldAll cs ds = true) : List.Forall₂ SameCase (encode cs) (encode ds) := by
  fun_induction sameFoldAll cs ds with
  | case1 => exact .nil
  | case2 c cs d ds ih =>
      rw [Bool.and_eq_true] at h
      obtain ⟨hc, hcs⟩ := List.forall_mem_cons.1 hcs
      obtain ⟨hd, hds⟩ := List.forall_mem_cons.1 hds
      rw [encode_cons, encode_cons, encodeChar_low (Nat.le_of_lt_succ hc),
        encodeChar_low (Nat.le_of_lt_succ hd)]
      refine .cons ⟨ofNat_low hc, ofNat_low hd, ?_⟩ (ih hcs hds h.2)
      have hchar {c : Char} (hc : c.toNat < 128) : charOf (UInt8.ofNat c.toNat) = c := by
        rw [charOf, toNat_ofNat (by omega), Char.ofNat_toNat]
      exact (congrArg₂ sameFold (hchar hc) (hchar hd)).trans h.1
  | case3 => cases h

theorem no_replacement (h : ∀ b ∈ bs, b < 0x80) : replacement ∉ decodeLossy bs := by
  induction bs with
  | nil =>
      rw [decodeLossy]
      exact List.not_mem_nil
  | cons b bs ih =>
      obtain ⟨hb, hbs⟩ := List.forall_mem_cons.1 h
      rw [decodeLossy_ascii hb, List.mem_cons, not_or]
      refine ⟨fun heq => ?_, ih hbs⟩
      have hlow := charOf_low hb
      rw [← heq] at hlow
      exact absurd hlow (by decide)

theorem isText_low (h : ∀ b ∈ bs, b < 0x80) : IsText bs := ⟨_, encode_decodeLossy (no_replacement h)⟩

theorem fold_of_sameCase (h : List.Forall₂ SameCase as bs) :
    sameFoldAll (decodeLossy as) (decodeLossy bs) = true := by
  induction h with
  | nil => rw [decodeLossy]; rfl
  | cons hab _ ih =>
      rw [decodeLossy_ascii hab.left, decodeLossy_ascii hab.right, sameFoldAll, hab.fold, ih]
      rfl

theorem length_encode_cons (c : Char) (cs : List Char) :
    (encode (c :: cs)).length = c.utf8Size + (encode cs).length := by
  rw [encode_cons, List.length_append, String.length_utf8EncodeChar]

theorem length_le_encode (cs : List Char) : cs.length ≤ (encode cs).length := by
  induction cs with
  | nil => exact Nat.le_refl _
  | cons c cs ih =>
      have := c.utf8Size_pos
      rw [length_encode_cons, List.length_cons]
      omega

theorem length_encode_low : (encode cs).length = cs.length ↔ ∀ c ∈ cs, c.toNat < 128 := by
  induction cs with
  | nil => exact iff_of_true rfl nofun
  | cons c cs ih =>
      have hsize : c.utf8Size = 1 ↔ c.toNat < 128 := Char.utf8Size_eq_one_iff.trans Nat.lt_succ_iff.symm
      have hpos := c.utf8Size_pos
      have hle := length_le_encode cs
      rw [List.forall_mem_cons, ← ih, ← hsize, length_encode_cons, List.length_cons]
      omega

theorem bytes_of_low (h : ∀ c ∈ cs, c.toNat < 128) : ∀ b ∈ encode cs, b < 0x80 := by
  intro b hb
  obtain ⟨c, hc, hmem⟩ := List.mem_flatMap.1 hb
  rw [encodeChar_low (Nat.le_of_lt_succ (h c hc)), List.mem_singleton] at hmem
  rw [hmem]
  exact ofNat_low (h c hc)

theorem low_of_bytes (h : ∀ b ∈ encode cs, b < 0x80) : ∀ c ∈ cs, c.toNat < 128 := by
  intro c hc
  refine Decidable.byContradiction fun hhigh => ?_
  obtain ⟨b, bs, hb, -⟩ := front_char c []
  have hmem : b ∈ String.utf8EncodeChar c := by simp [hb]
  exact encodeChar_high (fun hle => hhigh (Nat.lt_succ_of_le hle)) b hmem
    (h b (List.mem_flatMap.2 ⟨c, hc, hmem⟩))

theorem length_of_fold (h : sameFoldAll cs ds = true) : cs.length = ds.length := by
  fun_induction sameFoldAll cs ds with
  | case1 => rfl
  | case2 c cs d ds ih =>
      rw [Bool.and_eq_true] at h
      rw [List.length_cons, List.length_cons, ih h.2]
  | case3 => cases h

end Bytes

end HttpRouting

import HttpRouting.Proofs.Text.CaseFold

namespace HttpRouting

open Utf8

def charOf (b : UInt8) : Char := Char.ofNat b.toNat

theorem charOf_low {b : UInt8} (h : b < 0x80) : (charOf b).toNat < 128 := by
  have hlow : b.toNat < 128 := UInt8.lt_iff_toNat_lt.1 h
  have hnat : (charOf b).toNat = b.toNat := toNat_char (by omega)
  omega

theorem ofNat_low {k : Nat} (h : k < 128) : UInt8.ofNat k < 0x80 := by
  rw [UInt8.lt_iff_toNat_lt, toNat_ofNat (by omega)]
  exact h

section Reading

variable {b : UInt8} {bs : Bytes}

theorem front_ascii (h : b < 0x80) (bs : Bytes) : front b bs = (some (charOf b), bs) := by
  have hlow : b.toNat < 0x80 := UInt8.lt_iff_toNat_lt.1 h
  have hfront := front_one (v := b.toNat) (by omega) bs
  rwa [UInt8.ofNat_toNat] at hfront

theorem decodeLossy_ascii (h : b < 0x80) (bs : Bytes) :
    decodeLossy (b :: bs) = charOf b :: decodeLossy bs := by
  rw [decodeLossy, front_ascii h]
  rfl

theorem first?_ascii (hb : b < 0x80) (h : bs.head? = some b) : first? bs = some (charOf b) := by
  obtain ⟨tail, rfl⟩ := List.head?_eq_some_iff.1 h
  rw [first?, front_ascii hb]

end Reading

structure SameCase (a b : UInt8) : Prop where
  left : a < 0x80
  right : b < 0x80
  fold : sameFold (charOf a) (charOf b) = true

theorem SameCase.refl {b : UInt8} (h : b < 0x80) : SameCase b b :=
  ⟨h, h, by simp [sameFold]⟩

theorem sameCase_slash : SameCase Bytes.slash Bytes.slash := .refl (by decide)

theorem sameCase_image {b : UInt8} (h : b < 0x80) {c : Char}
    (hc : c = lowerChar (charOf b) ∨ c = upperChar (charOf b)) :
    ∃ b', String.utf8EncodeChar c = [b'] ∧ SameCase b b' := by
  have hlower := lowerChar_low (charOf_low h)
  have hupper := upperChar_low (charOf_low h)
  have hlow : c.toNat < 128 := by
    rcases hc with rfl | rfl
    · exact hlower.1
    · exact hupper.1
  have hfold : sameFold (charOf b) c = true := by
    rcases hc with rfl | rfl
    · simp [sameFold, hlower.2]
    · simp [sameFold, hupper.2]
  refine ⟨UInt8.ofNat c.toNat, encodeChar_low (Nat.le_of_lt_succ hlow), h, ofNat_low hlow, ?_⟩
  have hchar : charOf (UInt8.ofNat c.toNat) = c := by
    rw [charOf, toNat_ofNat (by omega), Char.ofNat_toNat]
  rw [hchar]
  exact hfold

section Fold

variable {cs ds : List Char}

theorem sameFoldAll_refl (cs : List Char) : sameFoldAll cs cs = true := by
  induction cs with
  | nil => rfl
  | cons c cs ih => simp [sameFoldAll, sameFold, ih]

theorem sameFoldAll_append {cs' ds' : List Char} (h : sameFoldAll cs ds = true)
    (h' : sameFoldAll cs' ds' = true) : sameFoldAll (cs ++ cs') (ds ++ ds') = true := by
  fun_induction sameFoldAll cs ds with
  | case1 => exact h'
  | case2 c cs d ds ih =>
      rw [Bool.and_eq_true] at h
      rw [List.cons_append, List.cons_append, sameFoldAll, h.1, ih h.2]
      rfl
  | case3 => cases h

theorem sameFoldAll_of_append {cs ds cs' ds' : List Char} (hlength : cs.length = ds.length)
    (h : sameFoldAll (cs ++ cs') (ds ++ ds') = true) : sameFoldAll cs' ds' = true := by
  induction cs generalizing ds with
  | nil =>
    cases List.eq_nil_of_length_eq_zero hlength.symm
    exact h
  | cons c cs ih =>
    cases ds with
    | nil => cases hlength
    | cons d ds =>
      rw [List.cons_append, List.cons_append, sameFoldAll, Bool.and_eq_true] at h
      exact ih (Nat.succ.inj hlength) h.2

theorem sameFoldAll_replacement (h : sameFoldAll cs ds = true) :
    replacement ∈ cs ↔ replacement ∈ ds := by
  fun_induction sameFoldAll cs ds with
  | case1 => rfl
  | case2 c cs d ds ih =>
      rw [Bool.and_eq_true] at h
      rw [List.mem_cons, List.mem_cons, eq_comm, sameFold_replacement h.1, eq_comm, ih h.2]
  | case3 => cases h

end Fold

/-- Characters of equally many bytes that agree up to case. -/
structure Variant (c d : Char) : Prop where
  fold : sameFold c d = true
  width : c.utf8Size = d.utf8Size

instance (c d : Char) : Decidable (Variant c d) :=
  decidable_of_iff (sameFold c d = true ∧ c.utf8Size = d.utf8Size)
    ⟨fun h => ⟨h.1, h.2⟩, fun h => ⟨h.fold, h.width⟩⟩

theorem Variant.refl (c : Char) : Variant c c := ⟨by simp [sameFold], rfl⟩

theorem utf8Size_low {c : Char} (h : c.toNat < 128) : c.utf8Size = 1 := by
  rw [← String.length_utf8EncodeChar, encodeChar_low (Nat.le_of_lt_succ h)]
  rfl

theorem variant_image {c d : Char} (h : c.toNat < 128) (hd : d ∈ [c, lowerChar c, upperChar c]) :
    d.toNat < 128 ∧ Variant c d := by
  obtain ⟨hlower, hlower'⟩ := lowerChar_low h
  obtain ⟨hupper, hupper'⟩ := upperChar_low h
  simp only [List.mem_cons, List.not_mem_nil, or_false] at hd
  rcases hd with rfl | rfl | rfl
  · exact ⟨h, .refl _⟩
  · exact ⟨hlower, by simp [sameFold, hlower'], by rw [utf8Size_low h, utf8Size_low hlower]⟩
  · exact ⟨hupper, by simp [sameFold, hupper'], by rw [utf8Size_low h, utf8Size_low hupper]⟩

def SameText (as bs : Bytes) : Prop :=
  ∃ cs ds, encode cs = as ∧ encode ds = bs ∧ sameFoldAll cs ds = true

section SameText

variable {as bs as' bs' : Bytes}

theorem SameText.left (h : SameText as bs) : IsText as := by
  obtain ⟨cs, -, hcs, -⟩ := h
  exact ⟨cs, hcs⟩

theorem SameText.right (h : SameText as bs) : IsText bs := by
  obtain ⟨-, ds, -, hds, -⟩ := h
  exact ⟨ds, hds⟩

theorem SameText.refl (h : IsText as) : SameText as as := by
  obtain ⟨cs, rfl⟩ := h
  exact ⟨cs, cs, rfl, rfl, sameFoldAll_refl cs⟩

theorem SameText.nil : SameText [] [] := .refl .nil

theorem SameText.append (h : SameText as bs) (h' : SameText as' bs') :
    SameText (as ++ as') (bs ++ bs') := by
  obtain ⟨cs, ds, rfl, rfl, hfold⟩ := h
  obtain ⟨cs', ds', rfl, rfl, hfold'⟩ := h'
  exact ⟨cs ++ cs', ds ++ ds', encode_append .., encode_append .., sameFoldAll_append hfold hfold'⟩

theorem Variant.sameText {c d : Char} (h : Variant c d) :
    SameText (String.utf8EncodeChar c) (String.utf8EncodeChar d) :=
  ⟨[c], [d], by simp [encode], by simp [encode], by rw [sameFoldAll, h.fold]; rfl⟩

/-- Bytes that are read alike are texts that agree, where one side has no replacement character. -/
theorem sameText_of_fold (hfold : sameFoldAll (decodeLossy as) (decodeLossy bs) = true)
    (hclear : replacement ∉ decodeLossy as ∨ replacement ∉ decodeLossy bs) : SameText as bs := by
  have hiff := sameFoldAll_replacement hfold
  have has : replacement ∉ decodeLossy as := hclear.elim id (mt hiff.1)
  exact ⟨_, _, encode_decodeLossy has, encode_decodeLossy (mt hiff.2 has), hfold⟩

theorem SameText.fold {s t : String} (h : SameText (utf8 s) (utf8 t)) :
    sameFoldAll s.toList t.toList = true := by
  obtain ⟨cs, ds, hcs, hds, hfold⟩ := h
  rwa [encode_injective hcs, encode_injective hds] at hfold

end SameText

theorem utf8_slash {s : String} {front : Bytes} (h : utf8 s = front ++ [Bytes.slash]) :
    ∃ t : String, s = t ++ "/" ∧ utf8 t = front := by
  have htext : IsText (front ++ Bytes.slash :: []) := h ▸ isText_utf8 s
  obtain ⟨cs, rfl⟩ := (htext.cut (by decide)).1
  refine ⟨String.ofList cs, ?_, by rw [utf8, String.toList_ofList]⟩
  have hencode : encode s.toList = encode (cs ++ ['/']) := by
    rw [encode_append]
    exact h
  rw [← String.toList_inj, encode_injective hencode, String.toList_append, String.toList_ofList]
  rfl

end HttpRouting

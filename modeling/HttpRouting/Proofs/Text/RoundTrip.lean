import HttpRouting.Text.Utf8

namespace HttpRouting

namespace Utf8

theorem toNat_ofNat {n : Nat} (h : n < 256) : (UInt8.ofNat n).toNat = n := by
  rw [UInt8.toNat_ofNat']
  omega

theorem lead?_ofNat {n : Nat} (h : n < 256) :
    lead? (UInt8.ofNat n) =
      if n < 0x80 then some { owed := 0, payload := n }
      else if n < 0xC2 then none
      else if n < 0xE0 then some { owed := 1, payload := n % 32 }
      else if n = 0xE0 then some { owed := 2, low := 0xA0, payload := 0 }
      else if n = 0xED then some { owed := 2, high := 0x9F, payload := 13 }
      else if n < 0xF0 then some { owed := 2, payload := n % 16 }
      else if n = 0xF0 then some { owed := 3, low := 0x90, payload := 0 }
      else if n < 0xF4 then some { owed := 3, payload := n % 8 }
      else if n = 0xF4 then some { owed := 3, high := 0x8F, payload := 4 }
      else none := by
  simp only [lead?, UInt8.lt_iff_toNat_lt, ← UInt8.toNat_inj, toNat_ofNat h, UInt8.reduceToNat]

theorem finish_next (owed low high payload : Nat) {b : Nat} (hlow : low ≤ b) (hhigh : b ≤ high)
    (hbyte : high < 256) (bs : Bytes) :
    finish (owed + 1) (UInt8.ofNat low) (UInt8.ofNat high) payload (UInt8.ofNat b :: bs) =
      finish owed 0x80 0xBF (payload * 64 + b % 64) bs := by
  have hrange : UInt8.ofNat low ≤ UInt8.ofNat b ∧ UInt8.ofNat b ≤ UInt8.ofNat high := by
    rw [UInt8.le_iff_toNat_le, UInt8.le_iff_toNat_le, toNat_ofNat (by omega),
      toNat_ofNat (by omega), toNat_ofNat hbyte]
    exact ⟨hlow, hhigh⟩
  rw [finish, if_pos hrange, toNat_ofNat (by omega)]

theorem finish_one (payload : Nat) {a v : Nat} (hv : payload * 64 + a % 64 = v) (rest : Bytes) :
    finish 1 0x80 0xBF payload (UInt8.ofNat (a % 64 + 0x80) :: rest) =
      (some (Char.ofNat v), rest) := by
  have h := finish_next 0 0x80 0xBF payload (b := a % 64 + 0x80) (by omega) (by omega) (by omega) rest
  rw [show payload * 64 + (a % 64 + 0x80) % 64 = v by omega] at h
  exact h

theorem finish_two (low high payload : Nat) {a b v : Nat} (hlow : low ≤ a) (hhigh : a ≤ high)
    (hbyte : high < 256) (hv : (payload * 64 + a % 64) * 64 + b % 64 = v) (rest : Bytes) :
    finish 2 (UInt8.ofNat low) (UInt8.ofNat high) payload
        (UInt8.ofNat a :: UInt8.ofNat (b % 64 + 0x80) :: rest) =
      (some (Char.ofNat v), rest) := by
  rw [finish_next 1 low high payload hlow hhigh hbyte]
  exact finish_one _ hv rest

theorem finish_three (low high payload : Nat) {a b c v : Nat} (hlow : low ≤ a) (hhigh : a ≤ high)
    (hbyte : high < 256) (hv : ((payload * 64 + a % 64) * 64 + b % 64) * 64 + c % 64 = v)
    (rest : Bytes) :
    finish 3 (UInt8.ofNat low) (UInt8.ofNat high) payload
        (UInt8.ofNat a :: UInt8.ofNat (b % 64 + 0x80) :: UInt8.ofNat (c % 64 + 0x80) :: rest) =
      (some (Char.ofNat v), rest) := by
  rw [finish_next 2 low high payload hlow hhigh hbyte]
  exact finish_two 0x80 0xBF _ (by omega) (by omega) (by omega) (by omega) rest

theorem front_one {v : Nat} (h : v ≤ 0x7F) (rest : Bytes) :
    front (UInt8.ofNat v) rest = (some (Char.ofNat v), rest) := by
  rw [front, lead?_ofNat (by omega), if_pos (by omega)]
  rfl

theorem front_two {v : Nat} (hlow : 0x7F < v) (hhigh : v ≤ 0x7FF) (rest : Bytes) :
    front (UInt8.ofNat (v / 64 % 32 + 0xC0)) (UInt8.ofNat (v % 64 + 0x80) :: rest) =
      (some (Char.ofNat v), rest) := by
  rw [front, lead?_ofNat (by omega), if_neg (by omega), if_neg (by omega), if_pos (by omega)]
  exact finish_one ((v / 64 % 32 + 0xC0) % 32) (by omega) rest

/-- The three leads that announce two bytes differ in the range of the first of them. -/
theorem front_three {v : Nat} (hlow : 0x7FF < v) (hhigh : v ≤ 0xFFFF) (hv : v < 0xD800 ∨ 0xDFFF < v)
    (rest : Bytes) :
    front (UInt8.ofNat (v / 4096 % 16 + 0xE0))
        (UInt8.ofNat (v / 64 % 64 + 0x80) :: UInt8.ofNat (v % 64 + 0x80) :: rest) =
      (some (Char.ofNat v), rest) := by
  rw [front, lead?_ofNat (by omega), if_neg (by omega), if_neg (by omega), if_neg (by omega)]
  by_cases h0 : v / 4096 = 0
  · rw [if_pos (by omega)]
    exact finish_two 0xA0 0xBF 0 (by omega) (by omega) (by omega) (by omega) rest
  rw [if_neg (by omega)]
  by_cases h13 : v / 4096 = 13
  · rw [if_pos (by omega)]
    exact finish_two 0x80 0x9F 13 (by omega) (by omega) (by omega) (by omega) rest
  · rw [if_neg (by omega), if_pos (by omega)]
    exact finish_two 0x80 0xBF ((v / 4096 % 16 + 0xE0) % 16) (by omega) (by omega) (by omega)
      (by omega) rest

theorem front_four {v : Nat} (hlow : 0xFFFF < v) (hhigh : v < 0x110000) (rest : Bytes) :
    front (UInt8.ofNat (v / 262144 % 8 + 0xF0))
        (UInt8.ofNat (v / 4096 % 64 + 0x80) :: UInt8.ofNat (v / 64 % 64 + 0x80) ::
          UInt8.ofNat (v % 64 + 0x80) :: rest) =
      (some (Char.ofNat v), rest) := by
  rw [front, lead?_ofNat (by omega), if_neg (by omega), if_neg (by omega), if_neg (by omega),
    if_neg (by omega), if_neg (by omega), if_neg (by omega)]
  by_cases h0 : v / 262144 = 0
  · rw [if_pos (by omega)]
    exact finish_three 0x90 0xBF 0 (by omega) (by omega) (by omega) (by omega) rest
  rw [if_neg (by omega)]
  by_cases h4 : v / 262144 = 4
  · rw [if_neg (by omega), if_pos (by omega)]
    exact finish_three 0x80 0x8F 4 (by omega) (by omega) (by omega) (by omega) rest
  · rw [if_pos (by omega)]
    exact finish_three 0x80 0xBF ((v / 262144 % 8 + 0xF0) % 8) (by omega) (by omega) (by omega)
      (by omega) rest

theorem front_char (c : Char) (rest : Bytes) :
    ∃ b bs, String.utf8EncodeChar c = b :: bs ∧ front b (bs ++ rest) = (some c, rest) := by
  have hv := c.valid
  simp only [UInt32.isValidChar, Nat.isValidChar] at hv
  have hc : Char.ofNat c.val.toNat = c := Char.ofNat_toNat c
  unfold String.utf8EncodeChar
  generalize c.val.toNat = v at hv hc
  subst hc
  dsimp only
  split
  · exact ⟨_, _, rfl, front_one ‹_› rest⟩
  split
  · exact ⟨_, _, rfl, front_two (by omega) ‹_› rest⟩
  split
  · exact ⟨_, _, rfl, front_three (by omega) ‹_› (by omega) rest⟩
  · exact ⟨_, _, rfl, front_four (by omega) (by omega) rest⟩

theorem encode_cons (c : Char) (cs : List Char) :
    encode (c :: cs) = String.utf8EncodeChar c ++ encode cs :=
  List.flatMap_cons

theorem encode_append (cs ds : List Char) : encode (cs ++ ds) = encode cs ++ encode ds :=
  List.flatMap_append

theorem decodeLossy_encode_append (cs : List Char) (rest : Bytes) :
    decodeLossy (encode cs ++ rest) = cs ++ decodeLossy rest := by
  induction cs with
  | nil => rfl
  | cons c cs ih =>
      obtain ⟨b, bs, hc, hf⟩ := front_char c (encode cs ++ rest)
      have he : encode (c :: cs) ++ rest = b :: (bs ++ (encode cs ++ rest)) := by
        simp [encode, hc]
      rw [he, decodeLossy, hf, ih]
      rfl

theorem decodeLossy_encode (cs : List Char) : decodeLossy (encode cs) = cs := by
  simpa [decodeLossy] using decodeLossy_encode_append cs []

theorem encode_injective {cs ds : List Char} (h : encode cs = encode ds) : cs = ds := by
  rw [← decodeLossy_encode cs, h, decodeLossy_encode]

def IsText (bs : Bytes) : Prop := ∃ cs, encode cs = bs

theorem IsText.nil : IsText [] := ⟨[], rfl⟩

theorem isText_utf8 (s : String) : IsText (utf8 s) := ⟨s.toList, rfl⟩

theorem IsText.append {xs ys : Bytes} (hx : IsText xs) (hy : IsText ys) : IsText (xs ++ ys) := by
  obtain ⟨cs, rfl⟩ := hx
  obtain ⟨ds, rfl⟩ := hy
  exact ⟨cs ++ ds, encode_append cs ds⟩

theorem IsText.cancel {xs ys : Bytes} (h : IsText (xs ++ ys)) (hx : IsText xs) : IsText ys := by
  obtain ⟨cs, hcs⟩ := h
  obtain ⟨ds, rfl⟩ := hx
  have hdecoded : cs = ds ++ decodeLossy ys := by
    rw [← decodeLossy_encode cs, hcs, decodeLossy_encode_append]
  rw [hdecoded, encode_append] at hcs
  exact ⟨decodeLossy ys, List.append_cancel_left hcs⟩

theorem utf8_append (s t : String) : utf8 (s ++ t) = utf8 s ++ utf8 t := by
  rw [utf8, String.toList_append, encode_append]
  rfl

theorem utf8_injective {s t : String} (h : utf8 s = utf8 t) : s = t :=
  String.toList_inj.1 (encode_injective h)

theorem utf8_asText {bs : Bytes} (h : IsText bs) : utf8 (asText bs) = bs := by
  obtain ⟨cs, rfl⟩ := h
  rw [utf8, asText, decodeLossy_encode, String.toList_ofList]

theorem encodeChar_low {c : Char} (h : c.val.toNat ≤ 0x7F) :
    String.utf8EncodeChar c = [UInt8.ofNat c.val.toNat] := by
  rw [String.utf8EncodeChar]
  exact if_pos h

theorem le_ofNat {n k : Nat} (hk : 0x80 ≤ k) (hn : n + k < 256) :
    ¬ UInt8.ofNat (n + k) < 0x80 := by
  have h80 : (0x80 : UInt8).toNat = 0x80 := rfl
  rw [UInt8.lt_iff_toNat_lt, toNat_ofNat hn, h80]
  omega

theorem encodeChar_high {c : Char} (h : ¬ c.val.toNat ≤ 0x7F) :
    ∀ b ∈ String.utf8EncodeChar c, ¬ b < 0x80 := by
  unfold String.utf8EncodeChar
  generalize c.val.toNat = v at h
  dsimp only
  rw [if_neg h]
  split
  · intro b hb
    simp only [List.mem_cons, List.not_mem_nil, or_false] at hb
    rcases hb with rfl | rfl <;> exact le_ofNat (by omega) (by omega)
  split
  · intro b hb
    simp only [List.mem_cons, List.not_mem_nil, or_false] at hb
    rcases hb with rfl | rfl | rfl <;> exact le_ofNat (by omega) (by omega)
  · intro b hb
    simp only [List.mem_cons, List.not_mem_nil, or_false] at hb
    rcases hb with rfl | rfl | rfl | rfl <;> exact le_ofNat (by omega) (by omega)

theorem continuation_range (v : Nat) :
    0x80 ≤ UInt8.ofNat (v % 64 + 0x80) ∧ UInt8.ofNat (v % 64 + 0x80) < 0xC0 := by
  simp only [UInt8.le_iff_toNat_le, UInt8.lt_iff_toNat_lt, UInt8.reduceToNat]
  rw [toNat_ofNat (by omega)]
  omega

theorem encodeChar_tail (c : Char) :
    ∀ b ∈ (String.utf8EncodeChar c).tail, 0x80 ≤ b ∧ b < 0xC0 := by
  unfold String.utf8EncodeChar
  dsimp only
  split
  · exact nofun
  split
  · exact List.forall_mem_singleton.2 (continuation_range _)
  split
  · exact List.forall_mem_cons.2 ⟨continuation_range _,
      List.forall_mem_singleton.2 (continuation_range _)⟩
  · exact List.forall_mem_cons.2 ⟨continuation_range _, List.forall_mem_cons.2
      ⟨continuation_range _, List.forall_mem_singleton.2 (continuation_range _)⟩⟩

theorem IsText.cut {xs ys : Bytes} {a : UInt8} (ha : a < 0x80) (h : IsText (xs ++ a :: ys)) :
    IsText xs ∧ IsText ys := by
  obtain ⟨cs, hcs⟩ := h
  induction cs generalizing xs with
  | nil => simp [encode] at hcs
  | cons c cs ih =>
      have hcons : String.utf8EncodeChar c ++ encode cs = xs ++ a :: ys := hcs
      rcases List.append_eq_append_iff.1 hcons with ⟨t, rfl, ht⟩ | ⟨t, ht, hys⟩
      · obtain ⟨htext, hys⟩ := ih ht
        have hc : IsText (String.utf8EncodeChar c) := ⟨[c], by simp [encode]⟩
        exact ⟨hc.append htext, hys⟩
      cases t with
      | nil =>
          rw [List.append_nil] at ht
          have hrest : encode cs = [] ++ a :: ys := hys.symm
          rw [← ht]
          exact ⟨⟨[c], by simp [encode]⟩, (ih hrest).2⟩
      | cons a' t =>
          obtain ⟨rfl, rfl⟩ := List.cons.inj hys
          have hlow : c.val.toNat ≤ 0x7F := by
            refine Decidable.byContradiction fun hhigh => encodeChar_high hhigh a ?_ ha
            rw [ht]
            exact List.mem_append_right _ List.mem_cons_self
          rw [encodeChar_low hlow, eq_comm, List.append_eq_singleton_iff] at ht
          rcases ht with ⟨rfl, ht⟩ | ⟨-, ht⟩
          · cases ht
            exact ⟨.nil, cs, rfl⟩
          · cases ht

end Utf8

end HttpRouting

import HttpRouting.Proofs.Text.Decoding
import HttpRouting.Text.CaseMap

namespace HttpRouting

namespace CaseTable

theorem image_cases (runs : List Run) (code : Nat) :
    image runs code = code ∨
      ∃ r ∈ runs, r.image ≤ image runs code ∧ image runs code ≤ r.image + (r.last - r.first) := by
  unfold image
  split
  · next r hr =>
      have hcovers := List.find?_some hr
      simp only [Run.covers, Bool.and_eq_true, decide_eq_true_eq] at hcovers
      exact .inr ⟨r, List.mem_of_find?_eq_some hr, by omega, by omega⟩
  · exact .inl rfl

/-- A code point outside the images of all runs is the image of itself only. -/
theorem image_apart {runs : List Run} {code target : Nat}
    (hruns : ∀ r ∈ runs, r.image + (r.last - r.first) < target ∨ target < r.image)
    (h : image runs code = target) : code = target := by
  rcases image_cases runs code with hsame | ⟨r, hr, hlow, hhigh⟩
  · exact hsame.symm.trans h
  · have := hruns r hr
    omega

def fixedCodes : List Nat := [0x2F, 0xFFFD]

theorem lowercase_apart : ∀ r ∈ lowercase, ∀ target ∈ fixedCodes,
    r.image + (r.last - r.first) < target ∨ target < r.image := by
  decide +kernel

theorem uppercase_apart : ∀ r ∈ uppercase, ∀ target ∈ fixedCodes,
    r.image + (r.last - r.first) < target ∨ target < r.image := by
  decide +kernel

theorem lowercase_first :
    ∀ r ∈ lowercase, r.first < 128 → r.first = 65 ∧ r.last = 90 ∧ r.image = 97 := by
  decide +kernel

theorem uppercase_first :
    ∀ r ∈ uppercase, r.first < 128 → r.first = 97 ∧ r.last = 122 ∧ r.image = 65 := by
  decide +kernel

theorem image_low {runs : List Run} {first last start code : Nat}
    (hruns : ∀ r ∈ runs, r.first < 128 → r.first = first ∧ r.last = last ∧ r.image = start)
    (hcode : code < 128) :
    image runs code = code ∨
      first ≤ code ∧ code ≤ last ∧ image runs code = start + (code - first) := by
  unfold image
  split
  · next r hr =>
      have hcovers := List.find?_some hr
      simp only [Run.covers, Bool.and_eq_true, decide_eq_true_eq] at hcovers
      obtain ⟨⟨hfirst, hlast⟩, -⟩ := hcovers
      obtain ⟨rfl, rfl, rfl⟩ := hruns r (List.mem_of_find?_eq_some hr) (by omega)
      exact .inr ⟨hfirst, hlast, rfl⟩
  · exact .inl rfl

/-- Below 128 a case mapping stays there and comes to rest after one step. -/
theorem image_rests {runs : List Run} {first last start code : Nat}
    (hruns : ∀ r ∈ runs, r.first < 128 → r.first = first ∧ r.last = last ∧ r.image = start)
    (hbound : start + (last - first) < 128) (hapart : last < start ∨ start + (last - first) < first)
    (hcode : code < 128) :
    image runs code < 128 ∧ image runs (image runs code) = image runs code := by
  rcases image_low hruns hcode with hsame | ⟨hfirst, hlast, hmapped⟩
  · rw [hsame, hsame]
    exact ⟨hcode, rfl⟩
  · have hlow : image runs code < 128 := by omega
    refine ⟨hlow, ?_⟩
    rcases image_low hruns hlow with hsame | hagain
    · exact hsame
    · omega

end CaseTable

open CaseTable

theorem eq_toNat {code : Nat} {d : Char} (hd : d.toNat ∈ fixedCodes) (h : Char.ofNat code = d) :
    code = d.toNat := by
  subst h
  by_cases hvalid : code.isValidChar
  · rw [Char.ofNat, dif_pos hvalid]
    rfl
  · rw [Char.ofNat, dif_neg hvalid] at hd
    exact absurd hd (by decide)

theorem lowerChar_apart {c d : Char} (hd : d.toNat ∈ fixedCodes) (h : lowerChar c = d) : c = d :=
  Char.toNat_inj.1 (image_apart (fun r hr => lowercase_apart r hr _ hd) (eq_toNat hd h))

theorem upperChar_apart {c d : Char} (hd : d.toNat ∈ fixedCodes) (h : upperChar c = d) : c = d :=
  Char.toNat_inj.1 (image_apart (fun r hr => uppercase_apart r hr _ hd) (eq_toNat hd h))

theorem lowerChar_slash {c : Char} (h : lowerChar c = '/') : c = '/' :=
  lowerChar_apart (by decide) h

theorem upperChar_slash {c : Char} (h : upperChar c = '/') : c = '/' :=
  upperChar_apart (by decide) h

theorem toNat_image {runs : List Run} {c : Char} (h : image runs c.toNat < 128) :
    (Char.ofNat (image runs c.toNat)).toNat = image runs c.toNat :=
  Utf8.toNat_char (by omega)

theorem lowerChar_low {c : Char} (h : c.toNat < 128) :
    (lowerChar c).toNat < 128 ∧ lowerChar (lowerChar c) = lowerChar c := by
  obtain ⟨hlow, hrests⟩ := image_rests lowercase_first (by decide) (by decide) h
  have hnat : (lowerChar c).toNat = image lowercase c.toNat := toNat_image hlow
  refine ⟨by omega, ?_⟩
  rw [lowerChar, hnat, hrests, lowerChar]

theorem upperChar_low {c : Char} (h : c.toNat < 128) :
    (upperChar c).toNat < 128 ∧ upperChar (upperChar c) = upperChar c := by
  obtain ⟨hlow, hrests⟩ := image_rests uppercase_first (by decide) (by decide) h
  have hnat : (upperChar c).toNat = image uppercase c.toNat := toNat_image hlow
  refine ⟨by omega, ?_⟩
  rw [upperChar, hnat, hrests, upperChar]

theorem lower_or_upper {c : Char} (h : c.toNat < 128) : lowerChar c = c ∨ upperChar c = c := by
  rcases image_low lowercase_first h with hlower | ⟨hfirst, hlast, -⟩
  · exact .inl (by rw [lowerChar, hlower, Char.ofNat_toNat])
  · rcases image_low uppercase_first h with hupper | ⟨hfirst', -, -⟩
    · exact .inr (by rw [upperChar, hupper, Char.ofNat_toNat])
    · omega

theorem sameFold_replacement {c d : Char} (h : sameFold c d = true) :
    c = Utf8.replacement ↔ d = Utf8.replacement := by
  have hlower : lowerChar Utf8.replacement = Utf8.replacement := by decide +kernel
  have hupper : upperChar Utf8.replacement = Utf8.replacement := by decide +kernel
  have hfixed : Utf8.replacement.toNat ∈ fixedCodes := by decide
  simp only [sameFold, Bool.or_eq_true, beq_iff_eq] at h
  constructor
  · rintro rfl
    rcases h with (h | h) | h
    · exact h.symm
    · exact lowerChar_apart hfixed (h.symm.trans hlower)
    · exact upperChar_apart hfixed (h.symm.trans hupper)
  · rintro rfl
    rcases h with (h | h) | h
    · exact h
    · exact lowerChar_apart hfixed (h.trans hlower)
    · exact upperChar_apart hfixed (h.trans hupper)

end HttpRouting

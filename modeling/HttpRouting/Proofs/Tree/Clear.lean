import HttpRouting.Proofs.Pattern.Captured
import HttpRouting.Proofs.Text.SameText
import HttpRouting.Proofs.Tree.Standing

namespace HttpRouting

namespace Utf8

variable {p q : Char → Prop} {path as bs : Bytes} {c : Char}

/-- The bytes of a text with a property of its characters, one-byte characters excepted. -/
def TextOf (p : Char → Prop) (bs : Bytes) : Prop :=
  ∃ cs, encode cs = bs ∧ ∀ c ∈ cs, c.toNat < 128 ∨ p c

theorem textOf_utf8 {s : String} (h : ∀ c ∈ s.toList, c.toNat < 128 ∨ p c) : TextOf p (utf8 s) :=
  ⟨s.toList, rfl, h⟩

theorem TextOf.isText (h : TextOf p bs) : IsText bs := by
  obtain ⟨cs, hcs, -⟩ := h
  exact ⟨cs, hcs⟩

theorem TextOf.mono (h : TextOf p bs) (hpq : ∀ c, p c → q c) : TextOf q bs := by
  obtain ⟨cs, hcs, hall⟩ := h
  exact ⟨cs, hcs, fun c hc => (hall c hc).imp_right (hpq c)⟩

theorem TextOf.behind (h : TextOf p (as ++ bs)) (has : IsText as) : TextOf p bs := by
  obtain ⟨cs, hcs, hall⟩ := h
  obtain ⟨as, rfl⟩ := has
  obtain ⟨bs, rfl⟩ := IsText.cancel ⟨cs, hcs⟩ ⟨as, rfl⟩
  rw [← encode_append] at hcs
  cases encode_injective hcs
  exact ⟨bs, rfl, fun c hc => hall c (List.mem_append_right as hc)⟩

theorem TextOf.afterSegment (h : TextOf p path) : TextOf p (path.dropWhile (· ≠ Bytes.slash)) := by
  have hsplit := Bytes.segment_append_rest path
  rw [← hsplit] at h
  exact h.behind (Pattern.isText_segment (hsplit ▸ h.isText)).1

theorem TextOf.first (h : TextOf p bs) (hc : first? bs = some c) : c.toNat < 128 ∨ p c := by
  obtain ⟨cs, rfl, hall⟩ := h
  cases cs with
  | nil => cases hc
  | cons c' cs =>
      rw [first?_text] at hc
      cases hc
      exact hall _ List.mem_cons_self

end Utf8

namespace Node

open Bytes Pattern Utf8

variable {α : Type} {n : Node α} {path label rest : Bytes}

def Begins (path label : Bytes) : Prop :=
  path ≠ [] → label ≠ [] → ∃ c d as bs, path = String.utf8EncodeChar c ++ as ∧
    label = String.utf8EncodeChar d ++ bs ∧ Variant c d

/-- A label that starts with the first byte of the character, or with that of its lower or upper case,
starts with the character up to case. -/
def Discerns (label : Bytes) (c : Char) : Prop :=
  ∀ d ∈ first? label, (String.utf8EncodeChar d).head? ∈
    [c, lowerChar c, upperChar c].map (fun e => (String.utf8EncodeChar e).head?) → Variant c d

instance (label : Bytes) (c : Char) : Decidable (Discerns label c) :=
  Option.decidableForallMem (first? label)

/-- The labels of a tree discern the character. They are whole characters, the replacement character not
among them. -/
def Apart (n : Node α) (c : Char) : Prop :=
  n.Every fun m => replacement ∉ decodeLossy m.label ∧ Discerns m.label c

instance (n : Node α) (c : Char) : Decidable (Apart n c) :=
  inferInstanceAs (Decidable (n.Every _))

def Clear (n : Node α) (path : Bytes) : Prop := TextOf (Apart n) path

theorem Clear.child (h : Clear n path) {c : Node α} (hc : c ∈ n.children) : Clear c path :=
  h.mono fun _ hapart => hapart.child hc

/-- A label that a clear path is compared with has no character cut, or that part of the path has
none. -/
theorem Clear.whole (h : Clear n path) (k : Nat) :
    replacement ∉ decodeLossy (path.take k) ∨ replacement ∉ decodeLossy n.label := by
  obtain ⟨cs, rfl, hclear⟩ := h
  by_cases hlow : ∀ c ∈ cs, c.toNat < 128
  · left
    rw [take_encode hlow, decodeLossy_encode]
    intro hmem
    exact absurd (hlow _ (List.mem_of_mem_take hmem)) (by decide)
  · right
    obtain ⟨c, hc, hhigh⟩ : ∃ c ∈ cs, ¬ c.toNat < 128 := by simpa using hlow
    have hapart := (hclear c hc).resolve_left hhigh
    exact hapart.here.1

theorem Clear.begins (h : Clear n path) {c d : Char} (hc : first? path = some c)
    (hd : d ∈ [c, lowerChar c, upperChar c])
    (hlabel : n.label ≠ [] → n.label.head? = (String.utf8EncodeChar d).head?) :
    Begins path n.label := by
  intro _ hne
  have hhead := hlabel hne
  obtain ⟨as, has⟩ := first?_append hc
  rcases h.first hc with hlow | hapart
  · obtain ⟨hdlow, hvariant⟩ := variant_image hlow hd
    obtain ⟨b, bs, hb⟩ := List.exists_cons_of_ne_nil hne
    rw [hb, encodeChar_low (Nat.le_of_lt_succ hdlow)] at hhead
    cases hhead
    exact ⟨c, d, as, bs, has, by rw [hb, encodeChar_low (Nat.le_of_lt_succ hdlow)]; rfl, hvariant⟩
  · have htext : IsText n.label := ⟨_, encode_decodeLossy hapart.here.1⟩
    obtain ⟨e, he⟩ := htext.first? hne
    obtain ⟨bs, hbs⟩ := first?_append he
    refine ⟨c, e, as, bs, has, hbs, hapart.here.2 e he (List.mem_map.2 ⟨d, hd, ?_⟩)⟩
    rw [← hhead, first?_head he]

theorem Clear.label_isText (h : Clear n path) (hpath : path = n.label ++ rest) : IsText n.label := by
  have hwhole := h.whole n.label.length
  rw [hpath, List.take_left', or_self] at hwhole
  · exact ⟨_, encode_decodeLossy hwhole⟩
  · rfl

end Node

end HttpRouting

import HttpRouting.Proofs.Pattern.Reach
import HttpRouting.Proofs.Text.ByteCase
import Mathlib.Data.Finset.Image

namespace HttpRouting.Pattern

open Bytes

def Element.isParam : Element → Bool
  | .param _ => true
  | .literal _ | .catchAll _ => false

def Element.isCatchAll : Element → Bool
  | .catchAll _ => true
  | .literal _ | .param _ => false

def past (b : UInt8) (es : Finset (List Element)) : Finset (List Element) :=
  (es.filter (·.head? = some (.literal b))).image List.tail

def pastParam (es : Finset (List Element)) : Finset (List Element) :=
  (es.filter fun p => p.head?.any Element.isParam).image List.tail

/-- Whether a pattern takes all that is left of a path. -/
def Catches (es : Finset (List Element)) : Prop := ∃ p ∈ es, p.head?.any Element.isCatchAll

instance (es : Finset (List Element)) : Decidable (Catches es) :=
  inferInstanceAs (Decidable (∃ p ∈ es, _))

/-- What becomes of a path that no literal byte leads on. A parameter takes its first segment, and
`next` is the answer behind the slash that follows. -/
def leftover (fix : Bool) (es : Finset (List Element)) (path : Bytes) (next : Option Bytes) :
    Option Bytes :=
  let inner := pastParam es
  let after := path.dropWhile (· ≠ slash)
  if inner = ∅ then
    if fix = true ∧ path = [slash] ∧ [] ∈ es then some [] else none
  else if after = [] then
    if [] ∈ inner then some (firstSegment path)
    else if fix = true ∧ [.literal slash] ∈ inner then some (firstSegment path ++ [slash])
    else none
  else if past slash inner = ∅ then
    if fix = true ∧ after = [slash] ∧ [] ∈ inner then some (firstSegment path) else none
  else next.map (firstSegment path ++ slash :: ·)

/-- The registered spelling of a path. A literal byte is tried in lower case, then in upper case, and
a parameter where neither leads to an answer. With `fix` a last slash is added where a pattern goes on
with it, and dropped where a pattern ends before it. -/
def recase (fix : Bool) (es : Finset (List Element)) : Bytes → Option Bytes
  | [] =>
      if [] ∈ es ∨ Catches es then some []
      else if fix = true ∧ ([.literal slash] ∈ es ∨ Catches (past slash es)) then some [slash]
      else none
  | b :: rest =>
      if Catches es then some (b :: rest)
      else
        (((recase fix (past (lowerByte b) es) rest).map (lowerByte b :: ·)).or
          ((recase fix (past (upperByte b) es) rest).map (upperByte b :: ·))).or
            (leftover fix es (b :: rest) (recase fix (past slash (pastParam es))
              ((b :: rest).dropWhile (· ≠ slash)).tail))
termination_by path => path.length
decreasing_by
  all_goals simp only [List.length_cons, List.length_tail]
  · omega
  · omega
  · have hle := (List.dropWhile_sublist (l := b :: rest) (· ≠ slash)).length_le
    rw [List.length_cons] at hle
    omega

section Sets

variable {es es' : Finset (List Element)} {p : List Element} {b : UInt8} {label : Bytes}

@[simp] theorem mem_past : p ∈ past b es ↔ .literal b :: p ∈ es := by
  simp only [past, Finset.mem_image, Finset.mem_filter]
  constructor
  · rintro ⟨q, ⟨hq, hhead⟩, rfl⟩
    obtain ⟨q, rfl⟩ := List.head?_eq_some_iff.1 hhead
    exact hq
  · exact fun h => ⟨_, ⟨h, rfl⟩, rfl⟩

@[simp] theorem mem_pastParam : p ∈ pastParam es ↔ ∃ name, .param name :: p ∈ es := by
  simp only [pastParam, Finset.mem_image, Finset.mem_filter]
  constructor
  · rintro ⟨q, ⟨hq, hhead⟩, rfl⟩
    cases q with
    | nil => cases hhead
    | cons e q =>
        cases e with
        | literal | catchAll => cases hhead
        | param name => exact ⟨name, hq⟩
  · exact fun ⟨name, h⟩ => ⟨_, ⟨h, rfl⟩, rfl⟩

theorem catches_iff : Catches es ↔ ∃ name p, .catchAll name :: p ∈ es := by
  constructor
  · rintro ⟨q, hq, hhead⟩
    cases q with
    | nil => cases hhead
    | cons e q =>
        cases e with
        | literal | param => cases hhead
        | catchAll name => exact ⟨name, q, hq⟩
  · exact fun ⟨name, p, h⟩ => ⟨_, h, rfl⟩

/-- The patterns behind a text that all of them start with. -/
def under (label : Bytes) (es : Finset (List Element)) : Finset (List Element) :=
  es.image (literals label ++ ·)

@[simp] theorem mem_under :
    p ∈ under label es ↔ ∃ q ∈ es, literals label ++ q = p := by
  simp [under]

theorem under_nil (es : Finset (List Element)) : under [] es = es := by
  simp [under, literals]

theorem under_cons (b : UInt8) (label : Bytes) (es : Finset (List Element)) :
    under (b :: label) es = under [b] (under label es) := by
  ext p
  simp [literals]

theorem past_under (b : UInt8) (es : Finset (List Element)) : past b (under [b] es) = es := by
  ext p
  simp [literals]

theorem under_past (h : ∀ p ∈ es, ∃ q, p = .literal b :: q) : under [b] (past b es) = es := by
  ext p
  rw [mem_under]
  constructor
  · rintro ⟨q, hq, rfl⟩
    exact mem_past.1 hq
  · intro hp
    obtain ⟨q, rfl⟩ := h p hp
    exact ⟨q, mem_past.2 hp, rfl⟩

end Sets

section Recase

variable {fix : Bool} {es : Finset (List Element)} {path front rest label : Bytes} {b k : UInt8}

theorem recase_catches (h : Catches es) (path : Bytes) : recase fix es path = some path := by
  cases path with
  | nil => rw [recase, if_pos (.inr h)]
  | cons b rest => rw [recase, if_pos h]

theorem leftover_none (hparam : pastParam es = ∅) (hnil : [] ∉ es) (next : Option Bytes) :
    leftover fix es path next = none := by
  rw [leftover, if_pos hparam, if_neg fun h => hnil h.2.2]

theorem recase_empty (fix : Bool) (path : Bytes) : recase fix ∅ path = none := by
  have hcatches : ¬ Catches ∅ := by simp [Catches]
  have hpast (b : UInt8) : past b ∅ = ∅ := rfl
  have hleftover (path : Bytes) (next : Option Bytes) : leftover fix ∅ path next = none :=
    leftover_none rfl (Finset.notMem_empty _) next
  induction path with
  | nil => simp [recase, hcatches, hpast]
  | cons b rest ih => simp [recase, hcatches, hpast, hleftover, ih]

theorem catches_under (b : UInt8) (es : Finset (List Element)) : ¬ Catches (under [b] es) := by
  simp [catches_iff, literals]

theorem not_catches_under (h : ¬ Catches es) (label : Bytes) : ¬ Catches (under label es) := by
  cases label with
  | nil => rwa [under_nil]
  | cons b label =>
      rw [under_cons]
      exact catches_under b _

theorem past_other (h : k ≠ b) (es : Finset (List Element)) : past k (under [b] es) = ∅ := by
  ext p
  simp [literals, h.symm]

theorem pastParam_under (b : UInt8) (es : Finset (List Element)) :
    pastParam (under [b] es) = ∅ := by
  ext p
  simp [literals]

theorem leftover_under (fix : Bool) (k : UInt8) (es : Finset (List Element)) (path : Bytes)
    (next : Option Bytes) : leftover fix (under [k] es) path next = none :=
  leftover_none (pastParam_under k es) (by simp [literals]) next

theorem recase_byte (fix : Bool) (es : Finset (List Element)) (k b : UInt8) (rest : Bytes) :
    recase fix (under [k] es) (b :: rest) =
      if k = lowerByte b ∨ k = upperByte b then (recase fix es rest).map (k :: ·) else none := by
  have hvia (k' : UInt8) : (recase fix (past k' (under [k] es)) rest).map (k' :: ·) =
      if k = k' then (recase fix es rest).map (k :: ·) else none := by
    split
    · next hk =>
        subst hk
        rw [past_under]
    · next hk =>
        rw [past_other (Ne.symm hk), recase_empty]
        rfl
  rw [recase, if_neg (catches_under k es), leftover_under, hvia, hvia, Option.or_none]
  by_cases hlower : k = lowerByte b
  · rw [if_pos hlower, if_pos (Or.inl hlower)]
    split
    · exact Option.or_self
    · exact Option.or_none
  · rw [if_neg hlower, Option.none_or]
    exact if_congr (or_iff_right hlower).symm rfl rfl

theorem recase_other (h : ∀ p ∈ es, ∃ q, p = .literal k :: q) (hk : k < 0x80)
    (hbk : ¬ SameCase b k) : recase fix es (b :: rest) = none := by
  rw [← under_past h, recase_byte, if_neg]
  intro hcase
  have hb : b < 0x80 := by
    rcases hcase with rfl | rfl
    · exact lowerByte_low.1 hk
    · exact upperByte_low.1 hk
  exact hbk ((sameCase_iff hb).2 hcase)

/-- A path that starts with a label in whichever case. -/
theorem recase_label (h : List.Forall₂ SameCase front label) (fix : Bool)
    (es : Finset (List Element)) (rest : Bytes) :
    recase fix (under label es) (front ++ rest) = (recase fix es rest).map (label ++ ·) := by
  induction h with
  | nil => simp [under_nil]
  | @cons b k front label hbk h ih =>
      rw [under_cons, List.cons_append, recase_byte, if_pos ((sameCase_iff hbk.left).1 hbk), ih,
        Option.map_map]
      rfl

theorem recase_nil (fix : Bool) (k : UInt8) (es : Finset (List Element)) :
    recase fix (under [k] es) [] =
      if fix = true ∧ k = slash ∧ ([] ∈ es ∨ Catches es) then some [slash] else none := by
  have hnil : [] ∉ under [k] es := by simp [literals]
  have hslash : [Element.literal slash] ∈ under [k] es ↔ k = slash ∧ [] ∈ es := by
    simp [literals, and_comm]
  have hcatches : Catches (past slash (under [k] es)) ↔ k = slash ∧ Catches es := by
    by_cases hk : k = slash
    · subst hk
      simp [past_under]
    · rw [past_other (Ne.symm hk)]
      simp [Catches, hk]
  rw [recase, if_neg (not_or_intro hnil (catches_under k es))]
  simp only [hslash, hcatches, and_or_left]

theorem recase_short (h : List.Forall₂ SameCase path front) (hes : ¬ Catches es) :
    recase fix (under (front ++ [k]) es) path =
      if fix = true ∧ k = slash ∧ [] ∈ es then some (front ++ [k]) else none := by
  have hsplit : under (front ++ [k]) es = under front (under [k] es) := by
    ext p
    simp [literals]
  have hlabel := recase_label h fix (under [k] es) []
  rw [List.append_nil] at hlabel
  rw [hsplit, hlabel, recase_nil]
  simp only [hes, or_false]
  split
  · next h => rw [h.2.1]; rfl
  · rfl

end Recase

end HttpRouting.Pattern

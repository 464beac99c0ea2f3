import HttpRouting.Proofs.Pattern.Element

namespace HttpRouting.Pattern

open Bytes

/-- The patterns agree up to a place where both have a wildcard, of another kind or name. -/
def Clash (es fs : List Element) : Prop :=
  ∃ shared e f es' fs', es = shared ++ e :: es' ∧ fs = shared ++ f :: fs' ∧
    e.isWildcard = true ∧ f.isWildcard = true ∧ e ≠ f

/-- The first pattern is a catch-all below a part that the second one follows by a slash. -/
def Covers (es fs : List Element) : Prop :=
  ∃ front name rest, es = front ++ [.literal slash, .catchAll name] ∧
    fs = front ++ .literal slash :: rest

def Conflict (es fs : List Element) : Prop := es = fs ∨ Clash es fs ∨ Covers es fs ∨ Covers fs es

/-- A registered pattern keeps a new one out by a wildcard of its own. -/
def Blocks (es fs : List Element) : Prop := Clash es fs ∨ Covers es fs

def EndsInCatchAll (es : List Element) : Prop := ∃ front name, es = front ++ [.catchAll name]

theorem clash_comm {es fs : List Element} : Clash es fs ↔ Clash fs es := by
  constructor <;>
  · rintro ⟨shared, e, f, es', fs', hes, hfs, he, hf, hne⟩
    exact ⟨shared, f, e, fs', es', hfs, hes, hf, he, hne.symm⟩

theorem conflict_comm {es fs : List Element} : Conflict es fs ↔ Conflict fs es := by
  have hclash : Clash es fs ↔ Clash fs es := clash_comm
  rw [Conflict, Conflict, hclash, eq_comm, or_comm (a := Covers es fs)]

theorem not_conflict_iff {es fs : List Element} :
    ¬ Conflict es fs ↔ ¬ Blocks es fs ∧ es ≠ fs ∧ ¬ Covers fs es := by
  simp only [Conflict, Blocks]
  grind

theorem not_clash_nil_left (fs : List Element) : ¬ Clash [] fs := by
  rintro ⟨shared, e, f, es', fs', hes, -⟩
  simp at hes

theorem not_clash_nil_right (es : List Element) : ¬ Clash es [] := by
  rintro ⟨shared, e, f, es', fs', -, hfs, -⟩
  simp at hfs

theorem not_covers_nil_left (fs : List Element) : ¬ Covers [] fs := by
  rintro ⟨front, name, rest, hes, -⟩
  simp at hes

theorem not_covers_nil_right (es : List Element) : ¬ Covers es [] := by
  rintro ⟨front, name, rest, -, hfs⟩
  simp at hfs

theorem clash_cons_cons {e f : Element} {es fs : List Element} :
    Clash (e :: es) (f :: fs) ↔
      (e = f ∧ Clash es fs) ∨ (e.isWildcard = true ∧ f.isWildcard = true ∧ e ≠ f) := by
  constructor
  · rintro ⟨shared, e', f', es', fs', hes, hfs, he, hf, hne⟩
    cases shared with
    | nil =>
        cases hes; cases hfs
        exact .inr ⟨he, hf, hne⟩
    | cons g shared =>
        cases hes; cases hfs
        exact .inl ⟨rfl, shared, e', f', es', fs', rfl, rfl, he, hf, hne⟩
  · rintro (⟨rfl, shared, e', f', es', fs', rfl, rfl, he, hf, hne⟩ | ⟨he, hf, hne⟩)
    · exact ⟨e :: shared, e', f', es', fs', rfl, rfl, he, hf, hne⟩
    · exact ⟨[], e, f, es, fs, rfl, rfl, he, hf, hne⟩

theorem covers_cons_cons {e f : Element} {es fs : List Element} :
    Covers (e :: es) (f :: fs) ↔
      e = f ∧ (Covers es fs ∨ (e = .literal slash ∧ ∃ name, es = [.catchAll name])) := by
  constructor
  · rintro ⟨front, name, rest, hes, hfs⟩
    cases front with
    | nil =>
        cases hes; cases hfs
        exact ⟨rfl, .inr ⟨rfl, name, rfl⟩⟩
    | cons g front =>
        cases hes; cases hfs
        exact ⟨rfl, .inl ⟨front, name, rest, rfl, rfl⟩⟩
  · rintro ⟨rfl, ⟨front, name, rest, rfl, rfl⟩ | ⟨rfl, name, rfl⟩⟩
    · exact ⟨e :: front, name, rest, rfl, rfl⟩
    · exact ⟨[], name, fs, rfl, rfl⟩

theorem not_clash_self (es : List Element) : ¬ Clash es es := by
  induction es with
  | nil => exact not_clash_nil_left []
  | cons e es ih =>
      intro h
      rcases clash_cons_cons.1 h with ⟨-, h⟩ | ⟨-, -, hne⟩
      · exact ih h
      · exact hne rfl

theorem not_conflict_nil_cons (e : Element) (es : List Element) : ¬ Conflict [] (e :: es) := by
  rw [not_conflict_iff]
  refine ⟨?_, nofun, not_covers_nil_right _⟩
  rintro (h | h)
  · exact not_clash_nil_left _ h
  · exact not_covers_nil_left _ h

theorem not_conflict_heads {e f : Element} {es fs : List Element} (hne : e ≠ f)
    (hliteral : e.isWildcard = false ∨ f.isWildcard = false) : ¬ Conflict (e :: es) (f :: fs) := by
  rw [not_conflict_iff]
  refine ⟨?_, fun h => hne (List.cons.inj h).1, fun h => hne (covers_cons_cons.1 h).1.symm⟩
  rintro (h | h)
  · rcases clash_cons_cons.1 h with ⟨h, -⟩ | ⟨he, hf, -⟩
    · exact hne h
    · rcases hliteral with h | h
      · simp [h] at he
      · simp [h] at hf
  · exact hne (covers_cons_cons.1 h).1

end HttpRouting.Pattern

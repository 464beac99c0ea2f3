import HttpRouting.Proofs.Pattern.Conflict

namespace HttpRouting.Pattern

open Bytes

/-- What stands behind a first element in the patterns that start with it. -/
def behind (e : Element) (P : List Element → Prop) (es : List Element) : Prop := P (e :: es)

def fronted (front : List Element) (P : List Element → Prop) (es : List Element) : Prop :=
  ∃ q, P q ∧ es = front ++ q

def Opens (P : List Element → Prop) (e : Element) : Prop := ∃ es, P (e :: es)

inductive Strays : (List Element → Prop) → Bytes → List Capture → Prop
  | stop {P : List Element → Prop} {path : Bytes}
      (h : ∀ b rest, path = b :: rest →
        ¬ Opens P (.literal b) ∧ ∀ name, ¬ Opens P (.param name)) : Strays P path []
  | literal {P : List Element → Prop} {b : UInt8} {path : Bytes} {caps : List Capture}
      (hopens : Opens P (.literal b)) (hparam : ∀ name, ¬ Opens P (.param name))
      (h : Strays (behind (.literal b) P) path caps) : Strays P (b :: path) caps
  | param {P : List Element → Prop} {name : Bytes} {b : UInt8} {path : Bytes} {caps : List Capture}
      (hopens : Opens P (.param name))
      (h : Strays (behind (.param name) P) ((b :: path).dropWhile (· ≠ slash)) caps) :
      Strays P (b :: path) (⟨name, firstSegment (b :: path)⟩ :: caps)

theorem Strays.unique {P : List Element → Prop} {path : Bytes} {caps caps' : List Capture}
    (h : Strays P path caps) (h' : Strays P path caps')
    (hP : ∀ q q', P q → P q' → ¬ Clash q q') : caps = caps' := by
  have hbehind {P : List Element → Prop} (hP : ∀ q q', P q → P q' → ¬ Clash q q') (e : Element) :
      ∀ q q', behind e P q → behind e P q' → ¬ Clash q q' :=
    fun q q' hq hq' h => hP _ _ hq hq' (clash_cons_cons.2 (.inl ⟨rfl, h⟩))
  induction h generalizing caps' with
  | stop hstop =>
      cases h' with
      | stop => rfl
      | literal hopens _ _ => exact absurd hopens (hstop _ _ rfl).1
      | param hopens _ => exact absurd hopens ((hstop _ _ rfl).2 _)
  | literal hopens hparam _ ih =>
      cases h' with
      | stop hstop => exact absurd hopens (hstop _ _ rfl).1
      | literal _ _ h' => exact ih h' (hbehind hP _)
      | param hopens' _ => exact absurd hopens' (hparam _)
  | @param P name b path caps hopens _ ih =>
      cases h' with
      | stop hstop => exact absurd hopens ((hstop _ _ rfl).2 _)
      | literal _ hparam _ => exact absurd hopens (hparam _)
      | @param _ name' _ _ caps' hopens' h' =>
          have hname : name = name' := by
            obtain ⟨es, hes⟩ := hopens
            obtain ⟨es', hes'⟩ := hopens'
            refine Decidable.byContradiction fun hne => hP _ _ hes hes' ?_
            exact clash_cons_cons.2 (.inr ⟨rfl, rfl, by simpa using hne⟩)
          subst hname
          rw [ih h' (hbehind hP _)]

theorem behind_fronted (e : Element) (front : List Element) (P : List Element → Prop) :
    behind e (fronted (e :: front) P) = fronted front P := by
  funext es
  simp [behind, fronted]

theorem not_opens_fronted {e f : Element} (hne : e ≠ f) (front : List Element)
    (P : List Element → Prop) : ¬ Opens (fronted (e :: front) P) f := by
  rintro ⟨es, q, -, hes⟩
  exact hne (List.cons.inj hes).1.symm

theorem opens_fronted {P : List Element → Prop} (hP : ∃ q, P q) (e : Element)
    (front : List Element) : Opens (fronted (e :: front) P) e := by
  obtain ⟨q, hq⟩ := hP
  exact ⟨front ++ q, q, hq, rfl⟩

theorem strays_literals {P : List Element → Prop} (hP : ∃ q, P q) (label : Bytes) {path : Bytes}
    {caps : List Capture} (h : Strays P path caps) :
    Strays (fronted (literals label) P) (label ++ path) caps := by
  induction label with
  | nil =>
      have hsame : fronted (literals []) P = P := by
        funext es
        simp [fronted, literals]
      rwa [hsame]
  | cons b label ih =>
      apply Strays.literal (opens_fronted hP _ _) (fun name => not_opens_fronted (by simp) _ _)
      rw [behind_fronted]
      exact ih

theorem strays_off {P : List Element → Prop} (hP : ∃ q, P q) {label path : Bytes}
    (h : strip? label path = none) : Strays (fronted (literals label) P) path [] := by
  fun_induction strip? label path with
  | case1 => cases h
  | case2 => exact .stop nofun
  | case3 b label path ih =>
      apply Strays.literal (opens_fronted hP _ _) (fun name => not_opens_fronted (by simp) _ _)
      rw [behind_fronted]
      exact ih h
  | case4 a label b path hne =>
      apply Strays.stop
      intro b' rest heq
      cases heq
      exact ⟨not_opens_fronted (by simpa using hne) _ _, fun name => not_opens_fronted (by simp) _ _⟩

theorem Strays.behind_param {P : List Element → Prop} (hP : ∃ q, P q) (name : Bytes) {b : UInt8}
    {path : Bytes} {caps : List Capture} (h : Strays P ((b :: path).dropWhile (· ≠ slash)) caps) :
    Strays (fronted [.param name] P) (b :: path) (⟨name, firstSegment (b :: path)⟩ :: caps) := by
  apply Strays.param (opens_fronted hP _ _)
  have hsame : fronted [] P = P := by
    funext es
    simp [fronted]
  rwa [behind_fronted, hsame]

/-- More patterns change nothing as long as none of them starts like the chosen ones. -/
theorem Strays.widen_literal {P Q : List Element → Prop} {b : UInt8} {path : Bytes}
    {caps : List Capture} (h : Strays P (b :: path) caps) (hopens : Opens P (.literal b))
    (hparamP : ∀ name, ¬ Opens P (.param name)) (hparamQ : ∀ name, ¬ Opens Q (.param name))
    (hsame : behind (.literal b) P = behind (.literal b) Q) : Strays Q (b :: path) caps := by
  cases h with
  | stop hstop => exact absurd hopens (hstop _ _ rfl).1
  | literal _ _ h =>
      have hopensQ : Opens Q (.literal b) := by
        obtain ⟨es, hes⟩ := hopens
        exact ⟨es, (congrFun hsame es).mp hes⟩
      exact .literal hopensQ hparamQ (hsame ▸ h)
  | param hopens _ => exact absurd hopens (hparamP _)

theorem Strays.widen_param {P Q : List Element → Prop} {name : Bytes} {b : UInt8} {path : Bytes}
    {caps : List Capture} (h : Strays P (b :: path) caps) (hopens : Opens P (.param name))
    (honly : ∀ name', Opens P (.param name') → name' = name)
    (hsame : behind (.param name) P = behind (.param name) Q) : Strays Q (b :: path) caps := by
  cases h with
  | stop hstop => exact absurd hopens ((hstop _ _ rfl).2 _)
  | literal _ hparam _ => exact absurd hopens (hparam _)
  | param hopens' h =>
      cases honly _ hopens'
      obtain ⟨es, hes⟩ := hopens
      exact .param ⟨es, (congrFun hsame es).mp hes⟩ (hsame ▸ h)

end HttpRouting.Pattern

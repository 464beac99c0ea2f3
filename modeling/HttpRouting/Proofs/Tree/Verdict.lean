import HttpRouting.Proofs.Pattern.Conflict
import HttpRouting.RouteError

namespace HttpRouting.Pattern

open Bytes

inductive Verdict (registered : List (List Element)) (es : List Element) (route : String) :
    Except RouteError Unit → Prop
  | accepted (hblocks : ∀ q ∈ registered, ¬ Blocks q es) (hnew : es ∉ registered)
      (hcovers : ∀ q ∈ registered, ¬ Covers es q) : Verdict registered es route (.ok ())
  | blocked {q : List Element} (hq : q ∈ registered) (h : Blocks q es)
      (segment wildcard existing : String) :
      Verdict registered es route (.error (.wildcardConflict segment route wildcard existing))
  | duplicate (hblocks : ∀ q ∈ registered, ¬ Blocks q es) (h : es ∈ registered) :
      Verdict registered es route (.error (.duplicateRoute route))
  | crowded (hblocks : ∀ q ∈ registered, ¬ Blocks q es) (hnew : es ∉ registered)
      {q : List Element} (hq : q ∈ registered) (h : Covers es q)
      (wildcard segment existing : String) :
      Verdict registered es route (.error (.catchAllConflict wildcard route segment existing))

/-- What follows the shared part is not the name of a catch-all, whose slash is in the shared part. -/
def Whole (es : List Element) : Prop := ∀ name, es ≠ [.catchAll name]

theorem whole_nil : Whole [] := nofun

theorem whole_literal (b : UInt8) (es : List Element) : Whole (.literal b :: es) := nofun

theorem whole_param (name : Bytes) (es : List Element) : Whole (.param name :: es) := nofun

theorem covers_behind {e : Element} {es fs : List Element} (hes : Whole es) :
    Covers (e :: es) (e :: fs) ↔ Covers es fs := by
  rw [covers_cons_cons]
  constructor
  · rintro ⟨-, h | ⟨-, name, hname⟩⟩
    · exact h
    · exact absurd hname (hes name)
  · exact fun h => ⟨rfl, .inl h⟩

theorem clash_behind {e : Element} {es fs : List Element} :
    Clash (e :: es) (e :: fs) ↔ Clash es fs := by
  rw [clash_cons_cons]
  constructor
  · rintro (⟨-, h⟩ | ⟨-, -, hne⟩)
    · exact h
    · exact absurd rfl hne
  · exact fun h => .inl ⟨rfl, h⟩

theorem blocks_behind {e : Element} {es fs : List Element} (hes : Whole es) :
    Blocks (e :: es) (e :: fs) ↔ Blocks es fs :=
  or_congr clash_behind (covers_behind hes)

theorem clash_literals (label : Bytes) {es fs : List Element} :
    Clash (literals label ++ es) (literals label ++ fs) ↔ Clash es fs := by
  induction label with
  | nil => rfl
  | cons b label ih => exact clash_behind.trans ih

theorem covers_literals {label : Bytes} {es fs : List Element}
    (h : Covers (literals label ++ es) (literals label ++ fs)) :
    Covers es fs ∨ ∃ name, es = [.catchAll name] := by
  induction label with
  | nil => exact .inl h
  | cons b label ih =>
      rcases (covers_cons_cons.1 h).2 with h | ⟨-, name, hname⟩
      · exact ih h
      · cases label with
        | nil => exact .inr ⟨name, hname⟩
        | cons b' label => cases hname

theorem Verdict.apart {registered : List (List Element)} {es : List Element} {route : String}
    (h : ∀ q ∈ registered, ¬ Conflict q es) : Verdict registered es route (.ok ()) := by
  refine .accepted (fun q hq => ?_) (fun hes => h es hes (.inl rfl)) (fun q hq => ?_)
  · exact (not_conflict_iff.1 (h q hq)).1
  · exact (not_conflict_iff.1 (h q hq)).2.2

theorem Verdict.widen {registered wider : List (List Element)} {es : List Element} {route : String}
    {outcome : Except RouteError Unit} (h : Verdict registered es route outcome)
    (hsub : registered ⊆ wider) (hrest : ∀ q ∈ wider, q ∈ registered ∨ ¬ Conflict q es) :
    Verdict wider es route outcome := by
  have hblocks (hr : ∀ q ∈ registered, ¬ Blocks q es) : ∀ q ∈ wider, ¬ Blocks q es := by
    intro q hq
    rcases hrest q hq with hq | hq
    · exact hr q hq
    · exact (not_conflict_iff.1 hq).1
  have hfresh (hnew : es ∉ registered) : es ∉ wider := by
    intro hes
    rcases hrest es hes with hes | hes
    · exact hnew hes
    · exact hes (.inl rfl)
  cases h with
  | accepted hr hnew hcovers =>
      refine .accepted (hblocks hr) (hfresh hnew) (fun q hq => ?_)
      rcases hrest q hq with hq | hq
      · exact hcovers q hq
      · exact (not_conflict_iff.1 hq).2.2
  | blocked hq h => exact .blocked (hsub hq) h ..
  | duplicate hr h => exact .duplicate (hblocks hr) (hsub h)
  | crowded hr hnew hq h => exact .crowded (hblocks hr) (hfresh hnew) (hsub hq) h ..

theorem Verdict.behind {registered : List (List Element)} {es : List Element} {route : String}
    {outcome : Except RouteError Unit} (h : Verdict registered es route outcome) (e : Element)
    (hregistered : ∀ q ∈ registered, Whole q) (hes : Whole es) :
    Verdict (registered.map (e :: ·)) (e :: es) route outcome := by
  have hblocks (hr : ∀ q ∈ registered, ¬ Blocks q es) :
      ∀ q ∈ registered.map (e :: ·), ¬ Blocks q (e :: es) := by
    intro q hq
    obtain ⟨q', hq', rfl⟩ := List.mem_map.1 hq
    rw [blocks_behind (hregistered q' hq')]
    exact hr q' hq'
  have hfresh (hnew : es ∉ registered) : e :: es ∉ registered.map (e :: ·) := by simpa using hnew
  cases h with
  | accepted hr hnew hcovers =>
      refine .accepted (hblocks hr) (hfresh hnew) (fun q hq => ?_)
      obtain ⟨q', hq', rfl⟩ := List.mem_map.1 hq
      rw [covers_behind hes]
      exact hcovers q' hq'
  | blocked hq h =>
      exact .blocked (List.mem_map_of_mem hq) ((blocks_behind (hregistered _ hq)).2 h) ..
  | duplicate hr h => exact .duplicate (hblocks hr) (List.mem_map_of_mem h)
  | crowded hr hnew hq h =>
      exact .crowded (hblocks hr) (hfresh hnew) (List.mem_map_of_mem hq) ((covers_behind hes).2 h) ..

theorem Verdict.behind_literals {registered : List (List Element)} {es : List Element}
    {route : String} {outcome : Except RouteError Unit} (h : Verdict registered es route outcome)
    (label : Bytes) (hregistered : ∀ q ∈ registered, Whole q) (hes : Whole es) :
    Verdict (registered.map (literals label ++ ·)) (literals label ++ es) route outcome := by
  induction label with
  | nil => simpa [literals] using h
  | cons b label ih =>
      have hwhole {q : List Element} (hq : Whole q) : Whole (literals label ++ q) := by
        cases label with
        | nil => exact hq
        | cons b' label => exact whole_literal b' _
      have h' := ih.behind (.literal b) (by simpa using fun q hq => hwhole (hregistered q hq)) (hwhole hes)
      rw [List.map_map] at h'
      exact h'

theorem Verdict.ok_iff {registered : List (List Element)} {es : List Element} {route : String}
    {outcome : Except RouteError Unit} (h : Verdict registered es route outcome) :
    outcome = .ok () ↔ ∀ q ∈ registered, ¬ Conflict q es := by
  cases h with
  | accepted hblocks hnew hcovers =>
      refine iff_of_true rfl fun q hq => not_conflict_iff.2 ⟨hblocks q hq, ?_, hcovers q hq⟩
      rintro rfl
      exact hnew hq
  | blocked hq h => exact iff_of_false nofun fun hall => (not_conflict_iff.1 (hall _ hq)).1 h
  | duplicate _ h => exact iff_of_false nofun fun hall => hall es h (.inl rfl)
  | crowded _ _ hq h => exact iff_of_false nofun fun hall => (not_conflict_iff.1 (hall _ hq)).2.2 h

theorem Verdict.duplicate_iff {registered : List (List Element)} {es : List Element} {route : String}
    {outcome : Except RouteError Unit} (h : Verdict registered es route outcome)
    (hapart : ∀ q ∈ registered, es ∈ registered → Conflict q es → q = es) :
    outcome = .error (.duplicateRoute route) ↔ es ∈ registered ∧ ¬ Covers es es := by
  cases h with
  | accepted _ hnew _ => exact iff_of_false nofun fun h => hnew h.1
  | blocked hq h =>
      refine iff_of_false nofun fun ⟨hes, hcovers⟩ => ?_
      cases hapart _ hq hes (.inr (or_assoc.1 (.inl h)))
      rcases h with h | h
      · exact not_clash_self _ h
      · exact hcovers h
  | duplicate hblocks hes => exact iff_of_true rfl ⟨hes, fun h => hblocks es hes (.inr h)⟩
  | crowded _ hnew _ _ => exact iff_of_false nofun fun h => hnew h.1

theorem Verdict.cause {registered : List (List Element)} {es : List Element} {route : String}
    {e : RouteError} (h : Verdict registered es route (.error e)) :
    e = .duplicateRoute route ∨
      (∃ segment wildcard existing, e = .wildcardConflict segment route wildcard existing) ∨
        ∃ wildcard segment existing, e = .catchAllConflict wildcard route segment existing := by
  cases h with
  | blocked _ _ segment wildcard existing => exact .inr (.inl ⟨segment, wildcard, existing, rfl⟩)
  | duplicate => exact .inl rfl
  | crowded _ _ _ _ wildcard segment existing =>
      exact .inr (.inr ⟨wildcard, segment, existing, rfl⟩)

/-- The registered patterns leave no choice of how an insertion ends, up to the texts of an error. -/
theorem Verdict.unique {registered registered' : List (List Element)} {es : List Element}
    {route route' : String} {outcome outcome' : Except RouteError Unit}
    (h : Verdict registered es route outcome) (h' : Verdict registered' es route' outcome')
    (hsame : ∀ q, q ∈ registered ↔ q ∈ registered') :
    outcome.mapError RouteError.ctorIdx = outcome'.mapError RouteError.ctorIdx := by
  cases h with
  | accepted hblocks hnew hcovers =>
      cases h' with
      | accepted => rfl
      | blocked hq h => exact absurd h (hblocks _ ((hsame _).2 hq))
      | duplicate _ h => exact absurd ((hsame _).2 h) hnew
      | crowded _ _ hq h => exact absurd h (hcovers _ ((hsame _).2 hq))
  | blocked hq h =>
      cases h' with
      | accepted hblocks _ _ | duplicate hblocks _ | crowded hblocks _ _ _ =>
          exact absurd h (hblocks _ ((hsame _).1 hq))
      | blocked => rfl
  | duplicate hblocks h =>
      cases h' with
      | accepted _ hnew _ | crowded _ hnew _ _ => exact absurd ((hsame _).1 h) hnew
      | blocked hq h => exact absurd h (hblocks _ ((hsame _).2 hq))
      | duplicate => rfl
  | crowded hblocks hnew hq h =>
      cases h' with
      | accepted _ _ hcovers => exact absurd h (hcovers _ ((hsame _).1 hq))
      | blocked hq h => exact absurd h (hblocks _ ((hsame _).2 hq))
      | duplicate _ h => exact absurd ((hsame _).2 h) hnew
      | crowded => rfl

end HttpRouting.Pattern

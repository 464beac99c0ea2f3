import HttpRouting.Proofs.Tree.Built
import HttpRouting.Proofs.Tree.Exploration

namespace HttpRouting.Node

open Bytes Pattern

variable {α : Type}

theorem Answers.of_mem {unescape : Bool} {es es' : List (Entry α)} {path : Bytes} {params : Params}
    {o : Outcome α} (h : Answers unescape es path params o) (hsame : ∀ e, e ∈ es ↔ e ∈ es') :
    Answers unescape es' path params o := by
  cases h with
  | hit h =>
      refine .hit ⟨(hsame _).1 h.mem, h.captures, fun e' he' => ?_⟩
      exact h.best e' ((hsame e').2 he')
  | miss hnone hstrays =>
      have hpatterns : (· ∈ patterns es) = (· ∈ patterns es') := by
        funext q
        simp only [mem_patterns, hsame]
      exact .miss (fun e he => hnone e ((hsame e).2 he)) (hpatterns ▸ hstrays)

theorem Answers.unique {unescape unescape' : Bool} {es : List (Entry α)} {path : Bytes}
    {params params' : Params} {o o' : Outcome α} (h : Answers unescape es path params o)
    (h' : Answers unescape' es path params' o')
    (hapart : ∀ q ∈ patterns es, ∀ q' ∈ patterns es, ¬ Clash q q') :
    o.hit? = o'.hit? ∧ ∃ caps : List Capture,
      o.params = params ++ caps.map (paramOf unescape) ∧
        o'.params = params' ++ caps.map (paramOf unescape') := by
  cases h with
  | @hit e caps h =>
      cases h' with
      | hit h' =>
          obtain ⟨rfl, rfl⟩ := h.unique h'
          exact ⟨rfl, _, rfl, rfl⟩
      | miss hnone _ => exact absurd (matches_of_captures h.captures) (hnone e h.mem)
  | @miss caps hnone hstrays =>
      cases h' with
      | @hit e _ h => exact absurd (matches_of_captures h.captures) (hnone e h.mem)
      | miss _ hstrays' =>
          cases hstrays.unique hstrays' fun q q' hq hq' => hapart q hq q' hq'
          exact ⟨rfl, caps, rfl, rfl⟩

theorem Bare.walk {n : Node α} (h : n.Bare) (path : Bytes) (unescape : Bool) (buffer : Params) :
    n.walk path unescape buffer = .ok ⟨none, []⟩ := by
  have hstrip : strip? n.label path = some path := by rw [h.label]; rfl
  cases path with
  | nil =>
      have hhit : n.hit? = none := hit?_none.2 h.value
      rw [Node.walk, run_end hstrip (suited_nil _), hhit]
      rfl
  | cons b rest =>
      have hslot : n.slot? b = none := slot_none.2 (by simp [h.keys])
      rw [Node.walk, run_stop hstrip hslot h.hasWild (suited_nil _)]
      rfl

theorem Tracks.answers {n : Node α} {routes : List (String × α)} (h : Tracks n routes) (path : Bytes)
    (unescape : Bool) (buffer : Params) :
    ∃ o, n.walk path unescape buffer = .ok o ∧
      Answers unescape (routes.map entryOf) path [] o := by
  rcases h.shape with hbare | hsound
  · have hnil := h.entries.symm
    rw [hbare.entries, List.perm_nil] at hnil
    rw [hnil]
    refine ⟨⟨none, []⟩, hbare.walk path unescape buffer, answers_miss unescape [] nofun ?_⟩
    have hopens (e : Element) : ¬ Opens (· ∈ patterns ([] : List (Entry α))) e := by
      rintro ⟨es, hes⟩
      cases hes
    exact .stop fun b rest _ => ⟨hopens _, fun name => hopens _⟩
  · obtain ⟨o, hwalk, ho⟩ := walk_answers hsound h.kind path unescape buffer
    exact ⟨o, hwalk, ho.of_mem fun e => h.entries.mem_iff⟩

theorem patterns_routes (routes : List (String × α)) :
    patterns (routes.map entryOf) = registered routes := by
  rw [patterns, List.map_map]
  rfl

theorem Tracks.no_clash {n : Node α} {routes : List (String × α)} (h : Tracks n routes) :
    ∀ q ∈ patterns (routes.map entryOf), ∀ q' ∈ patterns (routes.map entryOf), ¬ Clash q q' := by
  rw [patterns_routes]
  intro q hq q' hq'
  obtain ⟨r, hr, rfl⟩ := List.mem_map.1 hq
  obtain ⟨r', hr', rfl⟩ := List.mem_map.1 hq'
  exact h.not_clash hr hr'

theorem lookup_of_walk {n : Node α} {path : String} {unescape : Bool} {buffer : Params}
    {o : Outcome α} (h : n.walk (utf8 path) unescape buffer = .ok o) :
    n.lookup path unescape buffer =
      ⟨o.hit?, o.hit?.isNone && n.slashHint path, o.params⟩ := by
  obtain ⟨hit?, params⟩ := o
  rw [lookup, h]
  cases hit? <;> rfl

section Same

variable {n m : Node α} {routes routes' : List (String × α)}

theorem answers_same (h : Tracks n routes) (h' : Tracks m routes')
    (hsame : ∀ r, r ∈ routes ↔ r ∈ routes') (path : Bytes) (unescape unescape' : Bool)
    (buffer buffer' : Params) :
    ∃ o o', n.walk path unescape buffer = .ok o ∧ m.walk path unescape' buffer' = .ok o' ∧
      o.hit? = o'.hit? ∧ ∃ caps : List Capture,
        o.params = caps.map (paramOf unescape) ∧ o'.params = caps.map (paramOf unescape') := by
  obtain ⟨o, hwalk, ho⟩ := h.answers path unescape buffer
  obtain ⟨o', hwalk', ho'⟩ := h'.answers path unescape' buffer'
  have hentries (e : Entry α) : e ∈ routes'.map entryOf ↔ e ∈ routes.map entryOf := by
    simp only [List.mem_map, hsame]
  exact ⟨o, o', hwalk, hwalk', ho.unique (ho'.of_mem hentries) h.no_clash⟩

theorem walk_same (h : Tracks n routes) (h' : Tracks m routes')
    (hsame : ∀ r, r ∈ routes ↔ r ∈ routes') (path : Bytes) (unescape : Bool)
    (buffer buffer' : Params) : n.walk path unescape buffer = m.walk path unescape buffer' := by
  obtain ⟨⟨hit?, params⟩, ⟨hit?', params'⟩, hwalk, hwalk', hhit, caps, hparams, hparams'⟩ :=
    answers_same h h' hsame path unescape unescape buffer buffer'
  dsimp only at hhit hparams hparams'
  rw [hwalk, hwalk', hhit, hparams, hparams']

theorem hit_same (h : Tracks n routes) (h' : Tracks m routes')
    (hsame : ∀ r, r ∈ routes ↔ r ∈ routes') (path : String) (unescape unescape' : Bool)
    (buffer buffer' : Params) :
    (n.lookup path unescape buffer).hit? = (m.lookup path unescape' buffer').hit? := by
  obtain ⟨o, o', hwalk, hwalk', hhit, -⟩ :=
    answers_same h h' hsame (utf8 path) unescape unescape' buffer buffer'
  rw [lookup_of_walk hwalk, lookup_of_walk hwalk', hhit]

/-- Trees with the same routes answer every lookup alike, the slash hint and the parameters of a miss
included. -/
theorem lookup_same (h : Tracks n routes) (h' : Tracks m routes')
    (hsame : ∀ r, r ∈ routes ↔ r ∈ routes') (path : String) (unescape : Bool)
    (buffer buffer' : Params) : n.lookup path unescape buffer = m.lookup path unescape buffer' := by
  have hhint : n.slashHint path = m.slashHint path := by
    rw [slashHint, slashHint, hits, hits, walk_same h h' hsame _ false [] []]
  rw [lookup, lookup, walk_same h h' hsame (utf8 path) unescape buffer buffer', hhint]

/-- How the insertions of a list of routes end one after another, up to the texts of the errors. -/
def endings (n : Node α) : List (String × α) → List (Except Nat Unit)
  | [] => []
  | r :: later =>
      (n.insert r.1 r.2).outcome.mapError RouteError.ctorIdx :: endings (n.insert r.1 r.2).node later

theorem endings_same (h : Tracks n routes) (h' : Tracks m routes')
    (hsame : ∀ q, q ∈ registered routes ↔ q ∈ registered routes') (later : List (String × α)) :
    endings n later = endings m later := by
  induction later generalizing n m routes routes' with
  | nil => rfl
  | cons r later ih =>
      obtain ⟨route, v⟩ := r
      have hcons (q : List Element) :
          q ∈ registered ((route, v) :: routes) ↔ q ∈ registered ((route, v) :: routes') := by
        rw [registered, registered, List.map_cons, List.map_cons, List.mem_cons, List.mem_cons]
        exact or_congr_right (hsame q)
      have hending : (n.insert route v).outcome.mapError RouteError.ctorIdx =
          (m.insert route v).outcome.mapError RouteError.ctorIdx := by
        cases hcheck : Pattern.check route with
        | error e => rw [insert_malformed hcheck, insert_malformed hcheck]
        | ok _ => exact (h.verdict hcheck v).unique (h'.verdict hcheck v) hsame
      rw [endings, endings, hending]
      congr 1
      cases hn : (n.insert route v).outcome with
      | ok _ =>
          cases hm : (m.insert route v).outcome with
          | ok _ => exact ih (h.accepted hn) (h'.accepted hm) hcons
          | error e =>
              rw [hn, hm] at hending
              cases hending
      | error e =>
          cases hm : (m.insert route v).outcome with
          | ok _ =>
              rw [hn, hm] at hending
              cases hending
          | error e' => exact ih (h.refused hn) (h'.refused hm) hsame

end Same

end HttpRouting.Node

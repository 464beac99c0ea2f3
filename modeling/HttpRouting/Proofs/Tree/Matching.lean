import HttpRouting.Proofs.Pattern.Spaced
import HttpRouting.Proofs.Tree.Agreement

namespace HttpRouting.Node

open Bytes Pattern Utf8

variable {α : Type} {n : Node α} {routes : List (String × α)}

theorem mem_entries_of_routes {e : Entry α} :
    e ∈ routes.map entryOf ↔ (e.hit.route, e.hit.value) ∈ routes ∧ e.pattern = ofRoute e.hit.route := by
  rw [List.mem_map]
  constructor
  · rintro ⟨r, hr, rfl⟩
    exact ⟨hr, rfl⟩
  · rintro ⟨hr, hpattern⟩
    refine ⟨_, hr, ?_⟩
    rw [entryOf, ← hpattern]

theorem Tracks.hit (h : Tracks n routes) {path : String} {unescape : Bool} {buffer : Params}
    {hit : Hit α} (hhit : (n.lookup path unescape buffer).hit? = some hit) :
    ∃ caps, Wins (routes.map entryOf) (utf8 path) ⟨ofRoute hit.route, hit⟩ caps ∧
      (n.lookup path unescape buffer).params = caps.map (paramOf unescape) := by
  obtain ⟨o, hwalk, ho⟩ := h.answers (utf8 path) unescape buffer
  rw [lookup_of_walk hwalk] at hhit ⊢
  cases ho with
  | @hit e caps hwins =>
      cases hhit
      have hpattern := (mem_entries_of_routes.1 hwins.mem).2
      refine ⟨caps, ?_, rfl⟩
      rw [← hpattern]
      exact hwins
  | miss => cases hhit

theorem Tracks.hit_of_matches (h : Tracks n routes) (path : String) (unescape : Bool)
    (buffer : Params) {r : String × α} (hr : r ∈ routes)
    (hmatches : Matches (ofRoute r.1) (utf8 path)) :
    ∃ hit, (n.lookup path unescape buffer).hit? = some hit := by
  obtain ⟨o, hwalk, ho⟩ := h.answers (utf8 path) unescape buffer
  rw [lookup_of_walk hwalk]
  cases ho with
  | hit => exact ⟨_, rfl⟩
  | miss hnone => exact absurd hmatches (hnone (entryOf r) (List.mem_map_of_mem hr))

theorem hits_of_walk {path : Bytes} {o : Outcome α} (h : n.walk path false = .ok o) :
    n.hits path = o.hit?.isSome := by
  rw [hits, h]

theorem Tracks.hits (h : Tracks n routes) {path : Bytes} (hhits : n.hits path = true) :
    ∃ r ∈ routes, Matches (ofRoute r.1) path := by
  obtain ⟨o, hwalk, ho⟩ := h.answers path false []
  rw [hits_of_walk hwalk] at hhits
  cases ho with
  | @hit e caps hwins =>
      obtain ⟨r, hr, rfl⟩ := List.mem_map.1 hwins.mem
      exact ⟨r, hr, matches_of_captures hwins.captures⟩
  | miss => cases hhits

theorem Tracks.hits_of_matches (h : Tracks n routes) {path : Bytes} {r : String × α} (hr : r ∈ routes)
    (hmatches : Matches (ofRoute r.1) path) : n.hits path = true := by
  obtain ⟨o, hwalk, ho⟩ := h.answers path false []
  rw [hits_of_walk hwalk]
  cases ho with
  | hit => rfl
  | miss hnone => exact absurd hmatches (hnone (entryOf r) (List.mem_map_of_mem hr))

/-- The hint of a lookup is true: the path with its slash toggled has a value. -/
theorem Tracks.slashHint (h : Tracks n routes) {path : String} {unescape : Bool} {buffer : Params}
    (hhint : (n.lookup path unescape buffer).slashHint = true) :
    ∃ r ∈ routes, Matches (ofRoute r.1) (utf8 (Path.toggleSlash path)) := by
  obtain ⟨o, hwalk, -⟩ := h.answers (utf8 path) unescape buffer
  rw [lookup_of_walk hwalk] at hhint
  simp only [Bool.and_eq_true, Node.slashHint] at hhint
  exact h.hits hhint.2.2

theorem Tracks.captures_text (h : Tracks n routes) {route : String} {v : α}
    (hr : (route, v) ∈ routes) {path : String} {caps : List Capture}
    (hcaps : captures? (ofRoute route) (utf8 path) = some caps) :
    ∀ c ∈ caps, IsText c.name ∧ IsText c.text := by
  have hroute : IsText ([] ++ utf8 route) := isText_utf8 route
  have hpath : IsText ([] ++ utf8 path) := isText_utf8 path
  exact Pattern.captures_text (grammar_of_check (h.checked _ hr)) hroute hpath hcaps

theorem paramOf_keys {caps : List Capture} (h : ∀ c ∈ caps, IsText c.name ∧ IsText c.text)
    (unescape : Bool) :
    (caps.map (paramOf unescape)).map (utf8 ·.key) = caps.map (·.name) := by
  rw [List.map_map]
  exact List.map_congr_left fun c hc => utf8_asText (h c hc).1

theorem paramOf_raw {caps : List Capture} (h : ∀ c ∈ caps, IsText c.name ∧ IsText c.text) :
    (caps.map (paramOf false)).map (utf8 ·.value) = caps.map (·.text) := by
  rw [List.map_map]
  exact List.map_congr_left fun c hc => utf8_asText (h c hc).2

theorem paramOf_decoded (caps : List Capture) (unescape : Bool) :
    (caps.map (paramOf unescape)).map (·.value) =
      (caps.map (paramOf false)).map fun p =>
        if unescape then FormValue.decode p.value else p.value := by
  rw [List.map_map, List.map_map]
  cases unescape <;> rfl

/-- A lookup finds a value exactly if an accepted pattern matches the path. It is the value of that
pattern, the parameters are the captures under the names of its wildcards, and the raw captures in
the places of the wildcards give the path back. -/
theorem lookup_matches (h : Built n routes) (path : String) (unescape : Bool)
    (buffer buffer' : Params) :
    ((n.lookup path unescape buffer).hit?.isSome = true ↔
      ∃ r ∈ routes, Matches (ofRoute r.1) (utf8 path)) ∧
    ∀ hit, (n.lookup path unescape buffer).hit? = some hit →
      (∀ v, (hit.route, v) ∈ routes ↔ v = hit.value) ∧
      ∃ caps, captures? (ofRoute hit.route) (utf8 path) = some caps ∧
        (n.lookup path unescape buffer).params.map (utf8 ·.key) =
          wildcardNames (ofRoute hit.route) ∧
        (n.lookup path unescape buffer).params.map (·.value) =
          ((n.lookup path false buffer').params.map fun p =>
            if unescape then FormValue.decode p.value else p.value) ∧
        (n.lookup path false buffer').params.map (utf8 ·.value) = caps.map (·.text) ∧
        fill (ofRoute hit.route) ((n.lookup path false buffer').params.map (utf8 ·.value)) =
          utf8 path := by
  have htracks := h.tracks
  constructor
  · constructor
    · intro hsome
      obtain ⟨hit, hhit⟩ := Option.isSome_iff_exists.1 hsome
      obtain ⟨caps, hwins, -⟩ := htracks.hit hhit
      have hmem := (mem_entries_of_routes.1 hwins.mem).1
      exact ⟨_, hmem, matches_of_captures hwins.captures⟩
    · rintro ⟨r, hr, hmatches⟩
      obtain ⟨hit, hhit⟩ := htracks.hit_of_matches path unescape buffer hr hmatches
      rw [hhit]
      rfl
  · intro hit hhit
    obtain ⟨caps, hwins, hparams⟩ := htracks.hit hhit
    have hmem := (mem_entries_of_routes.1 hwins.mem).1
    have hmatches := matches_of_captures hwins.captures
    have htext := htracks.captures_text hmem hwins.captures
    obtain ⟨hit', hhit'⟩ := htracks.hit_of_matches path false buffer' hmem hmatches
    obtain ⟨caps', hwins', hparams'⟩ := htracks.hit hhit'
    obtain ⟨-, rfl⟩ := hwins.unique hwins'
    rw [hparams, hparams']
    refine ⟨fun v => ⟨fun hv => ?_, ?_⟩, caps', hwins.captures, ?_, ?_, paramOf_raw htext, ?_⟩
    · cases htracks.eq_of_conflict hv hmem (.inl rfl)
      rfl
    · rintro rfl
      exact hmem
    · rw [paramOf_keys htext]
      exact captures_names hwins.captures
    · exact paramOf_decoded caps' unescape
    · have hgrammar := grammar_of_check (htracks.checked _ hmem)
      rw [paramOf_raw htext]
      exact fill_captures hgrammar (head_ne_star hgrammar) hwins.captures

theorem lookup_matches_seven :
    ∃ hit, (sample.lookup "/users/7" true []).hit? = some hit ∧
      fill (ofRoute hit.route) ((sample.lookup "/users/7" false []).params.map (utf8 ·.value)) =
        utf8 "/users/7" := by
  obtain ⟨hfound, hread⟩ := lookup_matches built_sample "/users/7" true [] []
  obtain ⟨hit, hhit⟩ := Option.isSome_iff_exists.1
    (hfound.2 ⟨("/users/:id", 1), by simp, by decide +kernel⟩)
  obtain ⟨-, caps, -, -, -, -, hfill⟩ := hread hit hhit
  exact ⟨hit, hhit, hfill⟩

/-- Of all patterns that match a path, the one whose value is found beats every other one, so the
shape of the tree and the order of the insertions play no part. -/
theorem lookup_precedence (h : Built n routes) (path : String) (unescape : Bool) (buffer : Params) :
    (∀ r ∈ routes, Matches (ofRoute r.1) (utf8 path) →
      ∃ hit, (n.lookup path unescape buffer).hit? = some hit ∧ (hit.route, hit.value) ∈ routes ∧
        Matches (ofRoute hit.route) (utf8 path) ∧
        (r.1 ≠ hit.route → Beats (ofRoute hit.route) (ofRoute r.1))) ∧
    ∀ {m : Node α} {routes' : List (String × α)}, Built m routes' →
      (∀ r, r ∈ routes ↔ r ∈ routes') → ∀ unescape' buffer',
        (m.lookup path unescape' buffer').hit? = (n.lookup path unescape buffer).hit? := by
  have htracks := h.tracks
  constructor
  · intro r hr hmatches
    obtain ⟨hit, hhit⟩ := htracks.hit_of_matches path unescape buffer hr hmatches
    obtain ⟨caps, hwins, -⟩ := htracks.hit hhit
    have hmem := (mem_entries_of_routes.1 hwins.mem).1
    refine ⟨hit, hhit, hmem, matches_of_captures hwins.captures, fun hne => ?_⟩
    rcases hwins.best (entryOf r) (List.mem_map_of_mem hr) hmatches with heq | hbeats
    · exact absurd (congrArg (·.hit.route) heq) hne
    · exact hbeats
  · intro m routes' h' hsame unescape' buffer'
    exact (hit_same htracks h'.tracks hsame path unescape unescape' buffer buffer').symm

theorem lookup_precedence_me :
    ∃ hit, (sample.lookup "/users/me" true []).hit? = some hit ∧
      ("/users/:id" ≠ hit.route → Beats (ofRoute hit.route) (ofRoute "/users/:id")) := by
  obtain ⟨hit, hhit, -, -, hbeats⟩ :=
    (lookup_precedence built_sample "/users/me" true []).1 ("/users/:id", 1) (by simp)
      (by decide +kernel)
  exact ⟨hit, hhit, hbeats⟩

theorem Tracks.spaced (h : Tracks n routes) {r : String × α} (hr : r ∈ routes) :
    Spaced (ofRoute r.1) := spaced_elements (grammar_of_check (h.checked r hr))

theorem raw_value_empty {c : Capture} (hc : IsText c.text) :
    (paramOf false c).value = "" ↔ c.text = [] := by
  have hvalue : utf8 (paramOf false c).value = c.text := utf8_asText hc
  constructor
  · intro hempty
    rw [← hvalue, hempty]
    rfl
  · intro hnil
    have hvalue : (paramOf false c).value = asText c.text := rfl
    rw [hvalue, hnil]
    decide +kernel

/-- A lookup gives a parameter the empty value exactly where the route goes on behind the parameter, and
the path has the slash that follows right behind what the route has in front of the parameter. So a
parameter at the end of its route always takes something. -/
theorem lookup_empty_value (h : Built n routes) {path : String} {buffer : Params} {hit : Hit α}
    (hhit : (n.lookup path false buffer).hit? = some hit) :
    (∃ p ∈ (n.lookup path false buffer).params, p.value = "") ↔
      ∃ front name more taken rest, ofRoute hit.route = front ++ .param name :: .literal slash :: more ∧
        utf8 path = taken ++ slash :: rest ∧ Matches front taken := by
  have htracks := h.tracks
  obtain ⟨caps, hwins, hparams⟩ := htracks.hit hhit
  have hmem := (mem_entries_of_routes.1 hwins.mem).1
  have htext := htracks.captures_text hmem hwins.captures
  rw [hparams, ← captures_empty_iff (htracks.spaced hmem) hwins.captures]
  constructor
  · rintro ⟨p, hp, hempty⟩
    obtain ⟨c, hc, rfl⟩ := List.mem_map.1 hp
    exact ⟨c, hc, (raw_value_empty (htext c hc).2).1 hempty⟩
  · rintro ⟨c, hc, hnil⟩
    exact ⟨_, List.mem_map_of_mem hc, (raw_value_empty (htext c hc).2).2 hnil⟩

def midway : Node Nat := (Node.emptyRoot.insert "/a/:x/b" 0).node

theorem built_midway : Built midway [("/a/:x/b", 0)] := .accepted .root (by decide +kernel)

theorem lookup_empty_value_midway :
    ∃ p ∈ (midway.lookup "/a//b" false []).params, p.value = "" := by
  have hsome : (midway.lookup "/a//b" false []).hit?.isSome = true := by decide +kernel
  obtain ⟨hit, hhit⟩ := Option.isSome_iff_exists.1 hsome
  have hroute : (midway.lookup "/a//b" false []).hit?.map (·.route) = some "/a/:x/b" := by
    decide +kernel
  rw [hhit] at hroute
  have hroute : hit.route = "/a/:x/b" := Option.some_inj.1 hroute
  refine (lookup_empty_value built_midway hhit).2 ⟨literals [slash, 97, slash], [120], [.literal 98],
    [slash, 97, slash], [98], ?_, by decide +kernel, by decide +kernel⟩
  rw [hroute]
  decide +kernel

/-- The parameter takes nothing between two slashes, and the path is found. -/
theorem lookup_captures_nothing :
    Built midway [("/a/:x/b", 0)] ∧
      (midway.lookup "/a//b" false []).hit?.map (·.route) = some "/a/:x/b" ∧
      (midway.lookup "/a//b" false []).params = [⟨"x", ""⟩] :=
  ⟨built_midway, by decide +kernel, by decide +kernel⟩

end HttpRouting.Node

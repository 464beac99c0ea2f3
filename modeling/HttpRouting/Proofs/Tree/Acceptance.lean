import HttpRouting.Proofs.Pattern.Captured
import HttpRouting.Proofs.Tree.Agreement

namespace HttpRouting.Node

open Bytes Pattern

variable {α : Type} {n : Node α} {routes : List (String × α)}

def RoutesConflict (q r : String) : Prop :=
  q = r ∨ Clash (ofRoute q) (ofRoute r) ∨ Covers (ofRoute q) (ofRoute r) ∨
    Covers (ofRoute r) (ofRoute q)

theorem routesConflict_iff {q r : String} (hq : check q = .ok ()) (hr : check r = .ok ()) :
    RoutesConflict q r ↔ Conflict (ofRoute q) (ofRoute r) := by
  rw [RoutesConflict, Conflict]
  refine or_congr_left ⟨congrArg ofRoute, ofRoute_injective hq hr⟩

theorem routesConflict_comm {q r : String} : RoutesConflict q r ↔ RoutesConflict r q := by
  have hclash : Clash (ofRoute q) (ofRoute r) ↔ Clash (ofRoute r) (ofRoute q) := clash_comm
  rw [RoutesConflict, RoutesConflict, hclash, eq_comm,
    or_comm (a := Covers (ofRoute q) (ofRoute r))]

theorem covers_self {route : String} (hcheck : check route = .ok ()) :
    Covers (ofRoute route) (ofRoute route) ↔ EndsInCatchAll (ofRoute route) := by
  constructor
  · rintro ⟨front, name, rest, hes, -⟩
    exact ⟨front ++ [.literal slash], name, by simp [hes]⟩
  · rintro ⟨front, name, hes⟩
    have hgrammar := grammar_of_check hcheck
    obtain ⟨front', rfl⟩ := slash_of_endsInCatchAll hgrammar (head_ne_star hgrammar) hes
    rw [hes]
    exact ⟨front', name, [.catchAll name], by simp, by simp⟩

theorem mem_registered (h : Tracks n routes) {route : String} (hcheck : check route = .ok ()) :
    ofRoute route ∈ registered routes ↔ ∃ r ∈ routes, r.1 = route := by
  rw [registered, List.mem_map]
  constructor
  · rintro ⟨r, hr, hes⟩
    exact ⟨r, hr, ofRoute_injective (h.checked r hr) hcheck hes⟩
  · rintro ⟨r, hr, rfl⟩
    exact ⟨r, hr, rfl⟩

theorem Tracks.ok_iff (h : Tracks n routes) {route : String} (hcheck : check route = .ok ()) (v : α) :
    (n.insert route v).outcome = .ok () ↔ ∀ r ∈ routes, ¬ RoutesConflict r.1 route := by
  rw [(h.verdict hcheck v).ok_iff, registered, List.forall_mem_map]
  exact forall₂_congr fun r hr => not_congr (routesConflict_iff (h.checked r hr) hcheck).symm

/-- An insertion of a well-formed route accepts it exactly if it conflicts with no accepted route.
A conflict needs no more than the two routes, in either order. -/
theorem insert_accepts (h : Built n routes) {route : String} (hcheck : check route = .ok ()) (v : α) :
    ((n.insert route v).outcome = .ok () ↔ ∀ r ∈ routes, ¬ RoutesConflict r.1 route) ∧
    ((n.insert route v).outcome = .error (.duplicateRoute route) ↔
      (∃ r ∈ routes, r.1 = route) ∧ ¬ EndsInCatchAll (ofRoute route)) ∧
    (∀ e, (n.insert route v).outcome = .error e →
      e = .duplicateRoute route ∨
        (∃ segment wildcard existing, e = .wildcardConflict segment route wildcard existing) ∨
          ∃ wildcard segment existing, e = .catchAllConflict wildcard route segment existing) ∧
    (∀ q, RoutesConflict q route ↔ RoutesConflict route q) ∧
    ∀ {m : Node α} {routes' : List (String × α)}, Built m routes' →
      (∀ q, (∃ r ∈ routes, r.1 = q) ↔ ∃ r ∈ routes', r.1 = q) →
        ∀ v', (m.insert route v').outcome = .ok () ↔ (n.insert route v).outcome = .ok () := by
  have htracks := h.tracks
  have hverdict := htracks.verdict hcheck v
  refine ⟨htracks.ok_iff hcheck v, ?_, ?_, fun q => routesConflict_comm, ?_⟩
  · rw [hverdict.duplicate_iff, mem_registered htracks hcheck, covers_self hcheck]
    intro q hq hes hconflict
    obtain ⟨r, hr, rfl⟩ := List.mem_map.1 hq
    obtain ⟨r', hr', rfl⟩ := (mem_registered htracks hcheck).1 hes
    rw [htracks.eq_of_conflict hr hr' hconflict]
  · intro e herror
    rw [herror] at hverdict
    exact hverdict.cause
  · intro m routes' h' hsame v'
    rw [h'.tracks.ok_iff hcheck v', htracks.ok_iff hcheck v]
    have hroutes (routes : List (String × α)) :
        (∀ r ∈ routes, ¬ RoutesConflict r.1 route) ↔
          ∀ q, (∃ r ∈ routes, r.1 = q) → ¬ RoutesConflict q route := by
      constructor
      · rintro hall q ⟨r, hr, rfl⟩
        exact hall r hr
      · exact fun hall r hr => hall r.1 ⟨r, hr, rfl⟩
    rw [hroutes, hroutes]
    exact forall_congr' fun q => imp_congr_left (hsame q).symm

theorem insert_accepts_sample :
    ((sample.insert "/users/:name" 3).outcome = .ok () ↔
      ∀ r ∈ [("/users/me", 2), ("/users/:id", 1)], ¬ RoutesConflict r.1 "/users/:name") :=
  (insert_accepts built_sample (by decide +kernel) 3).1

/-- A refused insertion is invisible to lookups and to later insertions, and the tree holds what it
held, whatever edges were split and priorities raised on the way. -/
theorem insert_refused (h : Built n routes) {route : String} {v : α} {e : RouteError}
    (herror : (n.insert route v).outcome = .error e) :
    (∀ path unescape buffer,
      (n.insert route v).node.lookup path unescape buffer = n.lookup path unescape buffer) ∧
    (n.insert route v).node.entries.Perm n.entries ∧
    (n.insert route v).node.priority = n.priority ∧
    ∀ later, endings (n.insert route v).node later = endings n later := by
  have hbefore := h.tracks
  have hafter := hbefore.refused herror
  refine ⟨fun path unescape buffer => ?_, ?_, ?_, fun later => ?_⟩
  · exact lookup_same hafter hbefore (fun r => Iff.rfl) path unescape buffer buffer
  · exact hafter.entries.trans hbefore.entries.symm
  · rw [hafter.priority, hbefore.priority]
  · exact endings_same hafter hbefore (fun q => Iff.rfl) later

theorem insert_refused_sample :
    (sample.insert "/users/:name" 3).outcome =
        .error (.wildcardConflict ":name" "/users/:name" ":id" "/users/:id") ∧
      (sample.insert "/users/:name" 3).node.lookup "/users/me" true [] =
        sample.lookup "/users/me" true [] ∧
      (sample.insert "/users/:name" 3).node.priority = sample.priority := by
  have herror : (sample.insert "/users/:name" 3).outcome =
      .error (.wildcardConflict ":name" "/users/:name" ":id" "/users/:id") := by decide +kernel
  obtain ⟨hlookup, -, hpriority, -⟩ := insert_refused built_sample herror
  exact ⟨herror, hlookup "/users/me" true [], hpriority⟩

/-- A route is written well if it is in the grammar. Then an insertion is only refused for routes that the
tree holds, and otherwise before the tree is touched. -/
theorem insert_grammar (h : Built n routes) (route : String) (v : α) :
    (check route = .ok () ↔ Grammar false (utf8 route)) ∧
    (Grammar false (utf8 route) → ∀ e, (n.insert route v).outcome = .error e →
      e = .duplicateRoute route ∨
        (∃ segment wildcard existing, e = .wildcardConflict segment route wildcard existing) ∨
          ∃ wildcard segment existing, e = .catchAllConflict wildcard route segment existing) ∧
    (¬ Grammar false (utf8 route) →
      ∃ e, Malformed route e ∧ check route = .error e ∧ n.insert route v = ⟨n, .error e⟩) := by
  refine ⟨check_iff, fun hgrammar e herror => ?_, fun hgrammar => ?_⟩
  · have hverdict := h.tracks.verdict (check_iff.2 hgrammar) v
    rw [herror] at hverdict
    exact hverdict.cause
  · cases hcheck : check route with
    | ok _ => exact absurd (check_iff.1 hcheck) hgrammar
    | error e => exact ⟨e, checkFrom_malformed hcheck, rfl, insert_malformed hcheck v⟩

theorem insert_grammar_sample :
    (∃ e, (sample.insert "/users/:name" 3).outcome = .error e ∧
      (e = .duplicateRoute "/users/:name" ∨
        (∃ segment wildcard existing,
          e = .wildcardConflict segment "/users/:name" wildcard existing) ∨
          ∃ wildcard segment existing,
            e = .catchAllConflict wildcard "/users/:name" segment existing)) ∧
      ∃ e, Malformed "/users/:id/*rest/x" e ∧
        sample.insert "/users/:id/*rest/x" 3 = ⟨sample, .error e⟩ := by
  obtain ⟨hname, hkept, -⟩ := insert_grammar built_sample "/users/:name" 3
  obtain ⟨hrest, -, huntouched⟩ := insert_grammar built_sample "/users/:id/*rest/x" 3
  have herror : (sample.insert "/users/:name" 3).outcome =
      .error (.wildcardConflict ":name" "/users/:name" ":id" "/users/:id") := by decide +kernel
  obtain ⟨e, he, -, hsame⟩ := huntouched (mt hrest.2 (by decide +kernel))
  exact ⟨⟨_, herror, hkept (hname.1 (by decide +kernel)) _ herror⟩, e, he, hsame⟩

end HttpRouting.Node

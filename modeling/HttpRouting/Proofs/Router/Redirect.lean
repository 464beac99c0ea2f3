import HttpRouting.Proofs.Router.Reachable
import HttpRouting.Proofs.Tree.Landing
import HttpRouting.Proofs.Tree.Matching
import HttpRouting.Router.Live

namespace HttpRouting

open Bytes Pattern

namespace Router

variable {H : Type} {r : Router H} {method path location : String}

theorem redirect?_some {root : Node (List H)} {slashHint : Bool}
    (h : r.redirect? root method path slashHint = some location) :
    (slashHint = true ∧ location = Path.toggleSlash path) ∨
      (r.config.redirectFixedPath = true ∧
        root.findCase path r.config.redirectTrailingSlash = some location) := by
  unfold redirect? at h
  split at h
  · cases h
  split at h
  · next hhint =>
      simp only [Bool.and_eq_true] at hhint
      cases h
      exact .inl ⟨hhint.1, rfl⟩
  split at h
  · next hfixed => exact .inr ⟨hfixed, h⟩
  · cases h

theorem answer_redirect (h : r.answer method path = .redirect location) :
    ∃ root, r.trees.root? method = some root ∧
      r.redirect? root method path (root.lookup path r.config.unescapePathValues).slashHint =
        some location := by
  have hothers : r.answerOthers method path ≠ .redirect location := by
    unfold answerOthers
    split
    · nofun
    · dsimp only
      split
      · nofun
      split <;> nofun
  unfold answer at h
  split at h
  · exact absurd h hothers
  next root hroot =>
    dsimp only at h
    split at h
    · cases h
    split at h
    · next hredirect =>
        cases h
        exact ⟨root, hroot, hredirect⟩
    · exact absurd h hothers

theorem answer_found {root : Node (List H)} (hroot : r.trees.root? method = some root)
    {routes : List (String × List H)} (htracks : Node.Tracks root routes)
    (hmatches : ∃ route ∈ routes, Matches (ofRoute route.1) (utf8 path)) :
    ∃ handlers params route, r.answer method path = .found handlers params route := by
  obtain ⟨route, hr, hmatches⟩ := hmatches
  obtain ⟨hit, hhit⟩ := htracks.hit_of_matches path r.config.unescapePathValues [] hr hmatches
  unfold answer
  rw [hroot]
  dsimp only
  rw [hhit]
  exact ⟨_, _, _, rfl⟩

/-- A redirect lands on a route of its method. The exception drops a slash behind a last parameter
that took nothing, and needs both switches for redirects. -/
theorem Reachable.redirect_lands (h : Reachable r) (hanswer : r.answer method path = .redirect location) :
    (∃ handlers params route, r.answer method location = .found handlers params route) ∨
      r.config.redirectFixedPath = true ∧ r.config.redirectTrailingSlash = true ∧
        (utf8 path).getLast? = some slash ∧ ∃ route ∈ r.routesOf method, ∃ front name,
          ofRoute route = front ++ [.param name] ∧ Matches front (utf8 location) := by
  obtain ⟨root, hroot, hredirect⟩ := answer_redirect hanswer
  obtain ⟨routes, hbuilt, hroutes⟩ := h.root hroot
  have htracks := hbuilt.tracks
  rcases redirect?_some hredirect with ⟨hhint, rfl⟩ | ⟨hfixed, hfind⟩
  · exact .inl (answer_found hroot htracks (htracks.slashHint hhint))
  rcases htracks.findCase_landing hfind with hmatches |
    ⟨hslash, hlast, route, hr, front, name, hpattern, hmatches⟩
  · exact .inl (answer_found hroot htracks hmatches)
  · exact .inr ⟨hfixed, hslash, hlast, route.1, (hroutes _).1 ⟨route.2, hr⟩, front, name, hpattern,
      hmatches⟩

def oneParam : Router Nat := (({} : Router Nat).register "GET" "/a/:id" [1]).router

theorem reachable_oneParam : Reachable oneParam := (Reachable.new {}).register "GET" "/a/:id" [1]

theorem redirect_lands_recased :
    (∃ handlers params route, oneParam.answer "GET" "/a/7" = .found handlers params route) ∨
      oneParam.config.redirectFixedPath = true ∧ oneParam.config.redirectTrailingSlash = true ∧
        (utf8 "/A/7").getLast? = some slash ∧ ∃ route ∈ oneParam.routesOf "GET", ∃ front name,
          ofRoute route = front ++ [.param name] ∧ Matches front (utf8 "/a/7") :=
  reachable_oneParam.redirect_lands (by decide +kernel)

/-- The redirect for "/a//" drops the slash behind an empty parameter and leads nowhere. -/
theorem redirect_astray :
    Reachable oneParam ∧ oneParam.answer "GET" "/a//" = .redirect "/a/" ∧
      oneParam.answer "GET" "/a/" = .notFound :=
  ⟨reachable_oneParam, by decide +kernel, by decide +kernel⟩

end Router

end HttpRouting

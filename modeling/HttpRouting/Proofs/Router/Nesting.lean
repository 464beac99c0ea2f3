import HttpRouting.Proofs.Path.Joining
import HttpRouting.Router.Register

namespace HttpRouting

variable {H : Type}

def RouteRecord.ungrouped (info : RouteRecord) : RouteRecord := { info with group := none }

namespace Router

/-- Routers that serve the same routes. Where a route was registered, and what runs before the routes
to come, may differ. -/
structure Alike (a b : Router H) : Prop where
  trees : a.trees = b.trees
  maxParams : a.maxParams = b.maxParams
  maxSections : a.maxSections = b.maxSections
  routes : a.routes.map RouteRecord.ungrouped = b.routes.map RouteRecord.ungrouped

end Router

structure Registration.Alike (a b : Registration H) : Prop where
  outcome : a.outcome = b.outcome
  router : a.router.Alike b.router

namespace Router

variable {a b : Router H}

theorem Alike.add (h : a.Alike b) (method path : String) (chain : List H) (group group' : Option String) :
    (a.add method path chain group).Alike (b.add method path chain group') := by
  rw [Router.add, Router.add, h.trees]
  split
  · exact ⟨rfl, h⟩
  · split
    · exact ⟨rfl, rfl, h.maxParams, h.maxSections, h.routes⟩
    · refine ⟨rfl, rfl, ?_, ?_, ?_⟩
      · exact congrArg (max · _) h.maxParams
      · exact congrArg (max · _) h.maxSections
      · dsimp only
        rw [List.map_append, List.map_append, h.routes]
        rfl

theorem Alike.addAll (h : a.Alike b) (path : String) (chain : List H) (group group' : Option String)
    (methods : List String) :
    (addAll path chain group methods a).Alike (addAll path chain group' methods b) := by
  induction methods generalizing a b with
  | nil => exact ⟨rfl, h⟩
  | cons m ms ih =>
      have hadd := h.add m path chain group group'
      rw [Router.addAll, Router.addAll, hadd.outcome]
      split
      · exact ih hadd.router
      · exact hadd

theorem alike_bare (r : Router H) : r.Alike { r with handlers := [] } := ⟨rfl, rfl, rfl, rfl⟩

end Router

namespace Scope

/-- A scope to be opened: its prefix, the handlers given with it and those added to it later. -/
structure Level (H : Type) where
  base : String
  handlers : List H
  added : List H

def Level.chain (l : Level H) : List H := l.handlers ++ l.added

def useAll (s : Scope H) (handlers : List H) : Scope H := handlers.foldl use s

def within (s : Scope H) (l : Level H) : Scope H := (s.nest l.base l.handlers).useAll l.added

/-- The innermost of scopes that are opened one in the other, the outermost on a router. -/
def nested (r : Router H) (outer : Level H) (inner : List (Level H)) : Scope H :=
  inner.foldl within ((start r outer.base outer.handlers).useAll outer.added)

theorem useAll_eq (s : Scope H) (handlers : List H) :
    s.useAll handlers = { s with handlers := s.handlers ++ handlers } := by
  induction handlers generalizing s with
  | nil => rw [List.append_nil]; rfl
  | cons handler handlers ih =>
      rw [useAll, List.foldl_cons]
      exact (ih (s.use handler)).trans (congrArg (Scope.mk s.base) (List.append_assoc ..))

theorem within_flat (parts : List String) (handlers : List H) (l : Level H) :
    within ⟨Path.flatten parts, handlers⟩ l =
      ⟨Path.flatten (parts ++ [l.base]), handlers ++ l.chain⟩ := by
  rw [within, useAll_eq, Level.chain, ← List.append_assoc, ← Path.join_flatten]
  rfl

theorem within_levels (parts : List String) (handlers : List H) (levels : List (Level H)) :
    levels.foldl within ⟨Path.flatten parts, handlers⟩ =
      ⟨Path.flatten (parts ++ levels.map (·.base)), handlers ++ levels.flatMap Level.chain⟩ := by
  induction levels generalizing parts handlers with
  | nil => simp
  | cons l levels ih =>
      rw [List.foldl_cons, within_flat, ih, List.append_assoc, List.append_assoc]
      rfl

def prefixes (levels : List (Level H)) : List String := levels.map (·.base)

def chains (levels : List (Level H)) : List H := levels.flatMap Level.chain

theorem nested_eq (r : Router H) (outer : Level H) (inner : List (Level H)) :
    nested r outer inner =
      ⟨Path.flatten (prefixes (outer :: inner)), r.handlers ++ chains (outer :: inner)⟩ := by
  have hstart : (start r outer.base outer.handlers).useAll outer.added =
      within ⟨Path.flatten [], r.handlers⟩ outer := by
    rw [Path.flatten_nil]
    rfl
  rw [nested, hstart, ← List.foldl_cons, within_levels]
  rfl

variable (opened now : Router H) (outer : Level H) (inner : List (Level H)) (relative : String)
  (handlers : List H)

/-- A route registered through nested scopes is registered at one path with one chain. The path is the
prefixes and the route's own path one behind the other, cleaned once. The chain begins with the handlers
that the router had when the outermost scope was opened, and takes up those of the scopes from the
outermost to the innermost. -/
theorem nested_register (method : String) :
    ((nested opened outer inner).register now method relative handlers).Alike
        (Router.register { now with handlers := [] } method
          (Path.flatten (prefixes (outer :: inner) ++ [relative]))
          (opened.handlers ++ chains (outer :: inner) ++ handlers)) ∧
      (relative ≠ "" →
        Path.flatten (prefixes (outer :: inner) ++ [relative]) =
          Path.close (Path.endsWithSlash relative.toList)
            (Path.clean ("/" ++ "/".intercalate (prefixes (outer :: inner) ++ [relative])))) ∧
      (relative = "" →
        Path.flatten (prefixes (outer :: inner) ++ [relative]) =
          Path.flatten (prefixes (outer :: inner))) := by
  refine ⟨?_, fun hne => Path.flatten_append hne _, ?_⟩
  · rw [register, nested_eq, Path.join_flatten]
    exact now.alike_bare.add ..
  · rintro rfl
    exact Path.flatten_append_empty _

theorem nested_registerFor (methods : MethodSet) (h : methods.isEmpty = false) :
    ((nested opened outer inner).registerFor now methods relative handlers).Alike
      (Router.registerFor { now with handlers := [] } methods
        (Path.flatten (prefixes (outer :: inner) ++ [relative]))
        (opened.handlers ++ chains (outer :: inner) ++ handlers)) := by
  have hsome : ¬methods.isEmpty = true := by
    rw [h]
    exact Bool.false_ne_true
  rw [registerFor, Router.registerFor, if_neg hsome, if_neg hsome, nested_eq, Path.join_flatten]
  exact now.alike_bare.addAll ..

end Scope

end HttpRouting

import HttpRouting.Router.Basic

namespace HttpRouting

inductive Answer (H : Type)
  | found (handlers : List H) (params : Params) (route : String)
  | redirect (location : String)
  | methodNotAllowed (allowed : List String)
  | options (allowed : List String)
  | notFound
  deriving DecidableEq, Repr

namespace Answer

variable {H : Type}

def status : Answer H → Nat
  | found .. => 200
  | redirect _ => 301
  | methodNotAllowed _ => 405
  | options _ => 200
  | notFound => 404

def allow? : Answer H → Option String
  | methodNotAllowed allowed | options allowed => some (", ".intercalate allowed)
  | _ => none

end Answer

namespace Router

variable {H : Type}

/-- Where a request without a match is sent, given the hint of its lookup. Requests to CONNECT and
for the root are not redirected. -/
def redirect? (r : Router H) (root : Node (List H)) (method path : String) (slashHint : Bool) :
    Option String :=
  if method = "CONNECT" ∨ path = "/" then none
  else if slashHint && r.config.redirectTrailingSlash then some (Path.toggleSlash path)
  else if r.config.redirectFixedPath then root.findCase path r.config.redirectTrailingSlash
  else none

def answerOthers (r : Router H) (method path : String) : Answer H :=
  if !r.config.handleMethodNotAllowed then .notFound
  else
    let allowed := r.methodsFor path
    let others := allowed.filter (· ≠ method)
    if method = "OPTIONS" ∧ allowed ≠ [] then .options allowed
    else if others ≠ [] then .methodNotAllowed others
    else .notFound

def answer (r : Router H) (method path : String) : Answer H :=
  match r.trees.root? method with
  | none => r.answerOthers method path
  | some root =>
      let found := root.lookup path r.config.unescapePathValues
      match found.hit? with
      | some hit => .found hit.value found.params hit.route
      | none =>
          match r.redirect? root method path found.slashHint with
          | some location => .redirect location
          | none => r.answerOthers method path

end Router

structure LiveRouter (H : Type) where
  current : Router H

namespace LiveRouter

variable {H ε β : Type}

def store (s : LiveRouter H) (next : Router H) : LiveRouter H := { s with current := next }

/-- Applies an edit to a copy of the router and publishes the copy if the edit succeeds. -/
def update (s : LiveRouter H) (edit : Router H → Router H × Except ε β) :
    LiveRouter H × Except ε β :=
  match edit s.current with
  | (next, .ok done) => (s.store next, .ok done)
  | (_, .error e) => (s, .error e)

def describe (s : LiveRouter H) : String :=
  describeRecord "SharedRouter" [("current", s.current.describe)]

end LiveRouter

end HttpRouting

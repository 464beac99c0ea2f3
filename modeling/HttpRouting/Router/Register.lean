import HttpRouting.Path.Clean
import HttpRouting.Router.Basic

namespace HttpRouting

inductive RegisterError
  | emptyMethod (path : String)
  | noMethod (path : String)
  | rejected (method path : String) (cause : RouteError)
  deriving DecidableEq, Repr

namespace RegisterError

def message : RegisterError → String
  | emptyMethod path => s!"HTTP method must not be empty for path '{path}'"
  | noMethod path => s!"No HTTP method given for path '{path}'"
  | rejected method path cause =>
      s!"Failed to register route {method} {path}: " ++ cause.message

end RegisterError

structure Registration (H : Type) where
  router : Router H
  outcome : Except RegisterError Unit

namespace Router

variable {H : Type}

def refusal? (method path : String) (chain : List H) : Option RegisterError :=
  if method.isEmpty then some (.emptyMethod path)
  else if path.isEmpty then some (.rejected method path .emptyPath)
  else if path.toList.head? ≠ some '/' then
    some (.rejected method path (.missingLeadingSlash path))
  else if chain.isEmpty then some (.rejected method path (.emptyHandlers path))
  else none

def add (r : Router H) (method path : String) (chain : List H) (group : Option String) :
    Registration H :=
  match refusal? method path chain with
  | some e => ⟨r, .error e⟩
  | none =>
      match r.trees.insert method path chain with
      | (trees, .error e) => ⟨{ r with trees }, .error (.rejected method path e)⟩
      | (trees, .ok ()) =>
          ⟨{ r with
              trees
              maxParams := max r.maxParams (Pattern.paramCount path)
              maxSections := max r.maxSections (Pattern.sectionCount path)
              routes := r.routes ++ [⟨method, path, group, chain.length⟩] }, .ok ()⟩

/-- Registers a chain for several methods, up to the first that is refused. -/
def addAll (path : String) (chain : List H) (group : Option String) :
    (methods : List String) → Router H → Registration H
  | [], r => ⟨r, .ok ()⟩
  | m :: ms, r =>
      let done := r.add m path chain group
      match done.outcome with
      | .ok () => addAll path chain group ms done.router
      | .error _ => done

def register (r : Router H) (method path : String) (handlers : List H) : Registration H :=
  r.add method path (r.handlers ++ handlers) none

def registerFor (r : Router H) (methods : MethodSet) (path : String) (handlers : List H) :
    Registration H :=
  if methods.isEmpty then ⟨r, .error (.noMethod path)⟩
  else addAll path (r.handlers ++ handlers) none methods.names r

end Router

structure Scope (H : Type) where
  base : String
  handlers : List H

namespace Scope

variable {H : Type}

/-- A scope of a router. It takes over the handlers that the router has now. -/
def start (r : Router H) (base : String) (handlers : List H) : Scope H :=
  ⟨Path.join "/" base, r.handlers ++ handlers⟩

def nest (s : Scope H) (relative : String) (handlers : List H) : Scope H :=
  ⟨Path.join s.base relative, s.handlers ++ handlers⟩

def use (s : Scope H) (handler : H) : Scope H :=
  { s with handlers := s.handlers ++ [handler] }

def register (s : Scope H) (r : Router H) (method relative : String) (handlers : List H) :
    Registration H :=
  r.add method (Path.join s.base relative) (s.handlers ++ handlers) (some s.base)

def registerFor (s : Scope H) (r : Router H) (methods : MethodSet) (relative : String)
    (handlers : List H) : Registration H :=
  if methods.isEmpty then ⟨r, .error (.noMethod relative)⟩
  else
    Router.addAll (Path.join s.base relative) (s.handlers ++ handlers) (some s.base)
      methods.names r

end Scope

end HttpRouting

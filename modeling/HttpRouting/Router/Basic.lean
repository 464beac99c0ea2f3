import HttpRouting.Method
import HttpRouting.Router.Forest
import HttpRouting.Tree.CaseSearch
import HttpRouting.Tree.Describe

namespace HttpRouting

structure Config where
  redirectTrailingSlash : Bool := true
  redirectFixedPath : Bool := true
  handleMethodNotAllowed : Bool := true
  unescapePathValues : Bool := true
  deriving DecidableEq, Repr

/-- A registered route. `group` is the base path of the scope it came through, `handlers` the length
of its chain. -/
structure RouteRecord where
  method : String
  path : String
  group : Option String
  handlers : Nat
  deriving DecidableEq, Repr

structure Router (H : Type) where
  config : Config := {}
  trees : Forest H := []
  handlers : List H := []
  routes : List RouteRecord := []
  maxParams : Nat := 0
  maxSections : Nat := 0

namespace Router

variable {H : Type}

def methods (r : Router H) : List String := r.trees.map (·.method)

def use (r : Router H) (handler : H) : Router H := { r with handlers := r.handlers ++ [handler] }

def lookup (r : Router H) (method path : String) (unescape : Bool) : Node.Lookup (List H) :=
  match r.trees.root? method with
  | some root => root.lookup path unescape
  | none => {}

def findCase (r : Router H) (method path : String) (fixSlash : Bool) : Option String :=
  (r.trees.root? method).bind (·.findCase path fixSlash)

def methodsFor (r : Router H) (path : String) : List String := r.trees.serving path

def describeConfig (c : Config) : String :=
  describeRecord "RouterConfig"
    [("redirect_trailing_slash", describeBool c.redirectTrailingSlash),
      ("redirect_fixed_path", describeBool c.redirectFixedPath),
      ("handle_method_not_allowed", describeBool c.handleMethodNotAllowed),
      ("unescape_path_values", describeBool c.unescapePathValues)]

def describe (r : Router H) : String :=
  describeRecord "Router"
    [("config", describeConfig r.config),
      ("methods", describeList (r.methods.map quoted)),
      ("route_count", toString r.routes.length),
      ("max_params", toString r.maxParams)]

end Router

end HttpRouting

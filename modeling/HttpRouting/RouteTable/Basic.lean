import HttpRouting.Json.Value
import HttpRouting.Router.Register

namespace HttpRouting

/-- A route without methods is registered for any method. -/
structure RouteEntry where
  methods : List String := []
  path : String
  metadata : Json := .null

structure RouteTable where
  config : Config := {}
  routes : List RouteEntry := []

inductive TableError
  | unreadable
  | unknownMethod (name : String) (index : Nat) (path : String)
  | rejected (index : Nat) (cause : RegisterError)

namespace TableError

def message : TableError → String
  | unreadable => "Failed to parse route table"
  | unknownMethod name index path => s!"Unknown HTTP method '{name}' in route #{index} ({path})"
  | rejected index cause => s!"Failed to build route #{index}: " ++ cause.message

end TableError

namespace RouteEntry

def methodSet (entry : RouteEntry) : Except String MethodSet :=
  if entry.methods.isEmpty then .ok .any
  else (parse entry.methods).map MethodSet.ofList
where
  parse : List String → Except String (List Method)
    | [] => .ok []
    | name :: names =>
        match Method.ofName? name with
        | some m => (parse names).map (m :: ·)
        | none => .error name

end RouteEntry

namespace RouteTable

def buildFrom (r : Router Json) (index : Nat) : List RouteEntry → Except TableError (Router Json)
  | [] => .ok r
  | entry :: entries =>
      match entry.methodSet with
      | .error name => .error (.unknownMethod name index entry.path)
      | .ok methods =>
          match r.registerFor methods entry.path [entry.metadata] with
          | ⟨r, .ok ()⟩ => buildFrom r (index + 1) entries
          | ⟨_, .error e⟩ => .error (.rejected index e)

def build (t : RouteTable) : Except TableError (Router Json) :=
  buildFrom { config := t.config } 0 t.routes

end RouteTable

end HttpRouting

import HttpRouting.Json.Reading
import HttpRouting.RouteTable.Basic

namespace HttpRouting

open Json (Document)

namespace RouteTable

def member? (members : List (String × Document)) (name : String) : Option (Option Document) :=
  match members.filter (·.1 == name) with
  | [] => some none
  | [m] => some (some m.2)
  | _ => none

/-- The documents of the named fields of a record, in the order of their names. -/
def fields? (names : List String) : Document → Option (List (Option Document))
  | .object members => do
      let members ← members.mapM fun (key, v) => (Json.string? key).map (·, v)
      names.mapM (member? members)
  | .array items =>
      if names.length < items.length then none
      else some (items.map some ++ List.replicate (names.length - items.length) none)
  | _ => none

def field? {β : Type} (default : β) (read : Document → Option β) : Option Document → Option β
  | none => some default
  | some doc => read doc

def bool? : Document → Option Bool
  | .bool b => some b
  | _ => none

def string? : Document → Option String
  | .string pieces => Json.string? pieces
  | _ => none

def list? {β : Type} (read : Document → Option β) : Document → Option (List β)
  | .array items => items.mapM read
  | _ => none

def config? (doc : Document) : Option Config := do
  let names := ["redirect_trailing_slash", "redirect_fixed_path", "handle_method_not_allowed",
    "unescape_path_values"]
  let [trailing, fixed, allowed, unescape] ← fields? names doc | none
  return { redirectTrailingSlash := ← field? true bool? trailing
           redirectFixedPath := ← field? true bool? fixed
           handleMethodNotAllowed := ← field? true bool? allowed
           unescapePathValues := ← field? true bool? unescape }

/-- How deep metadata may nest: it stands inside the table, its routes and a route. -/
def metadataDepth : Nat := Json.depthLimit - 3

def entry? (doc : Document) : Option RouteEntry := do
  let [methods, path, metadata] ← fields? ["methods", "path", "metadata"] doc | none
  return { methods := ← field? [] (list? string?) methods
           path := ← path.bind string?
           metadata := ← field? .null (Json.ofDocument? metadataDepth) metadata }

def table? (doc : Document) : Option RouteTable := do
  let [config, routes] ← fields? ["config", "routes"] doc | none
  return { config := ← field? {} config? config
           routes := ← field? [] (list? entry?) routes }

def ofText (text : String) : Except TableError RouteTable :=
  match (Document.read? text).bind table? with
  | some table => .ok table
  | none => .error .unreadable

end RouteTable

end HttpRouting

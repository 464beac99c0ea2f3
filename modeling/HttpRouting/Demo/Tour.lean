import HttpRouting.RouteTable.Printing
import HttpRouting.Router.Live
import HttpRouting.Router.Register

namespace HttpRouting.Demo

def line (text : String) : String := "   " ++ text ++ "\n"

def details : Answer Json → List String
  | .found handlers params route =>
      ["✓ Matched " ++ route] ++ handlers.map ("Handler: " ++ ·.text) ++
        params.map fun p => "Param " ++ p.key ++ " = " ++ quoted p.value
  | .redirect location => ["→ Redirect to " ++ location]
  | .notFound => ["✗ No match"]
  | answer => ["Allow: " ++ answer.allow?.getD ""]

def report (r : Router Json) (method path : String) : String :=
  let answer := r.answer method path
  let lines := [s!"Request: {method} {path}"] ++ details answer ++ [s!"Status: {answer.status}"]
  String.join (lines.map line) ++ "\n"

def handler (role name : String) : Json := .object [(role, .string name)]

def entry (methods : List String) (path name : String) : RouteEntry :=
  { methods, path, metadata := handler "handler" name }

def table : RouteTable where
  routes :=
    [entry ["GET"] "/api/users" "list_users",
      entry ["POST"] "/api/users" "create_user",
      entry ["GET"] "/api/user/:id" "get_user",
      entry ["GET"] "/api/user/:id/posts/:pid" "get_post",
      entry ["GET"] "/api/user/me" "current_user",
      entry ["GET", "HEAD"] "/static/*filepath" "serve_file",
      entry ["GET"] "/About/Team" "team"]

def stops : List (String × String × String) :=
  [("Exact path match", "GET", "/api/users"),
    ("Parameter extraction", "GET", "/api/user/12345"),
    ("Multiple parameters", "GET", "/api/user/12345/posts/67"),
    ("Static segment beats parameter", "GET", "/api/user/me"),
    ("Catch-all", "GET", "/static/css/site%20main.css"),
    ("Trailing slash redirect", "GET", "/api/users/"),
    ("Case-insensitive redirect", "GET", "/about/team"),
    ("Method not allowed", "DELETE", "/api/users"),
    ("OPTIONS", "OPTIONS", "/api/users"),
    ("Group handlers", "GET", "/admin/dashboard"),
    ("No match", "GET", "/nonexistent")]

def router : Except String (Router Json) := do
  let r ← table.build.mapError (·.message)
  let r := r.use (handler "middleware" "logger")
  let admin := Scope.start r "/admin" [handler "middleware" "auth"]
  let done := admin.register r "GET" "/dashboard" [handler "handler" "dashboard"]
  done.outcome.mapError (·.message)
  return done.router

def conflict (r : Router Json) : String :=
  match (r.register "GET" "/api/user/:name" [handler "handler" "by_name"]).outcome with
  | .ok () => line "✗ Unexpectedly accepted"
  | .error e => line ("✓ Rejected: " ++ e.message)

def tour : Except String String := do
  let r ← router
  let routes := r.routes.map fun info => line info.toJson.text
  let visits := stops.zipIdx.map fun ((title, method, path), i) =>
    s!"{i + 1}. {title}:\n" ++ report r method path
  return "=== Radix Router Examples ===\n\nRegistered routes:\n" ++ String.join routes ++ "\n" ++
    String.join visits ++ s!"{stops.length + 1}. Conflicting registration:\n" ++ conflict r

end HttpRouting.Demo

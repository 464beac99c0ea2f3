import HttpRouting.RouteTable.Basic

namespace HttpRouting

namespace Config

def toJson (c : Config) : Json :=
  .object
    [("redirect_trailing_slash", .bool c.redirectTrailingSlash),
      ("redirect_fixed_path", .bool c.redirectFixedPath),
      ("handle_method_not_allowed", .bool c.handleMethodNotAllowed),
      ("unescape_path_values", .bool c.unescapePathValues)]

end Config

namespace RouteRecord

def toJson (info : RouteRecord) : Json :=
  let group := match info.group with
    | some base => [("group", Json.string base)]
    | none => []
  .object <|
    [("method", .string info.method), ("path", .string info.path)] ++ group ++
      [("handlers", .number (.whole info.handlers))]

end RouteRecord

namespace RouteEntry

def toJson (entry : RouteEntry) : Json :=
  .object
    [("methods", .array (entry.methods.map .string)),
      ("path", .string entry.path),
      ("metadata", entry.metadata)]

end RouteEntry

namespace RouteTable

def toJson (t : RouteTable) : Json :=
  .object [("config", t.config.toJson), ("routes", .array (t.routes.map (·.toJson)))]

end RouteTable

end HttpRouting

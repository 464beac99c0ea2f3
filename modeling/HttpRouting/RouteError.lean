namespace HttpRouting

inductive RouteError
  | emptyPath
  | missingLeadingSlash (path : String)
  | emptyHandlers (path : String)
  | duplicateRoute (path : String)
  | wildcardConflict (segment path wildcard existing : String)
  | catchAllConflict (wildcard path segment existing : String)
  | catchAllNotLast (path : String)
  | missingSlashBeforeCatchAll (path : String)
  | unnamedWildcard (path : String)
  | multipleWildcards (segment path : String)
  | invalidEscape (path : String)
  /-- The tree lacks a child that one of its nodes announces. Trees grown by insertion never do. -/
  | malformedTree
  deriving DecidableEq, Repr

namespace RouteError

def message : RouteError → String
  | emptyPath => "route path must not be empty"
  | missingLeadingSlash path => s!"route path must begin with '/', got '{path}'"
  | emptyHandlers path => s!"handler chain for '{path}' must not be empty"
  | duplicateRoute path => s!"handlers are already registered for path '{path}'"
  | wildcardConflict segment path wildcard existing =>
      s!"'{segment}' in new path '{path}' conflicts with existing wildcard '{wildcard}'" ++
        s!" in existing prefix '{existing}'"
  | catchAllConflict wildcard path segment existing =>
      s!"catch-all wildcard '{wildcard}' in new path '{path}' conflicts with existing path" ++
        s!" segment '{segment}' in existing prefix '{existing}'"
  | catchAllNotLast path =>
      s!"catch-all routes are only allowed at the end of the path in path '{path}'"
  | missingSlashBeforeCatchAll path => s!"no / before catch-all in path '{path}'"
  | unnamedWildcard path =>
      s!"wildcards must be named with a non-empty name in path '{path}'"
  | multipleWildcards segment path =>
      s!"only one wildcard per path segment is allowed, has: '{segment}' in path '{path}'"
  | invalidEscape path => s!"invalid escape string in path '{path}'"
  | malformedTree => "the routing tree is malformed"

end RouteError

end HttpRouting

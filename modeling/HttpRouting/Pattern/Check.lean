import HttpRouting.Pattern.Wildcard
import HttpRouting.RouteError
import HttpRouting.Text.Utf8

namespace HttpRouting.Pattern

open Bytes

def firstWildcard (pattern : Bytes) : Except RouteError (Option Wildcard) :=
  (Wildcard.find? pattern).mapError fun _ => .invalidEscape (asText pattern)

def checkWildcard (route : String) (rest : Bytes) (w : Wildcard) : Except RouteError Unit :=
  if !w.valid then .error (.multipleWildcards (asText w.token) route)
  else if w.token.length < 2 then .error (.unnamedWildcard route)
  else if !w.isCatchAll then .ok ()
  else if w.stop ≠ rest.length then .error (.catchAllNotLast route)
  else if w.start = 0 ∨ rest[w.start - 1]? ≠ some slash then
    .error (.missingSlashBeforeCatchAll route)
  else .ok ()

theorem two_le_of_checkWildcard {route : String} {rest : Bytes} {w : Wildcard}
    (h : checkWildcard route rest w = .ok ()) : 2 ≤ w.token.length := by
  unfold checkWildcard at h
  split at h
  · simp at h
  · split at h
    · simp at h
    · omega

/-- Checks the wildcards of `rest`, a part of `route` that starts outside of wildcards. -/
def checkFrom (route : String) (rest : Bytes) : Except RouteError Unit :=
  if _ : rest = [] then .ok ()
  else
    match Wildcard.find? rest with
    | .error _ => .error (.invalidEscape route)
    | .ok none => .ok ()
    | .ok (some w) =>
        match _ : checkWildcard route rest w with
        | .error e => .error e
        | .ok () => checkFrom route (rest.drop w.stop)
termination_by rest.length
decreasing_by
  rename_i hrest hw
  have := List.length_pos_iff.2 hrest
  have := two_le_of_checkWildcard hw
  simp only [List.length_drop, Wildcard.stop]
  omega

def check (route : String) : Except RouteError Unit := checkFrom route (utf8 route)

/-- The largest count that is kept; larger ones stay there. -/
def countLimit : Nat := 65535

def paramCount (path : String) : Nat :=
  min (path.toList.countP fun c => c == ':' || c == '*') countLimit

def sectionCount (path : String) : Nat := min (path.toList.countP (· == '/')) countLimit

end HttpRouting.Pattern

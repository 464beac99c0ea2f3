import HttpRouting.Path.Clean
import HttpRouting.Tree.Weight

namespace HttpRouting.Node

variable {α : Type}

def run (unescape : Bool) (s : Search α) : Except Defect (Outcome α) :=
  match _ : step unescape s with
  | .error e => .error e
  | .ok (.done outcome) => .ok outcome
  | .ok (.move next) => run unescape next
termination_by s.weight
decreasing_by exact step_weight ‹_›

def walk (root : Node α) (path : Bytes) (unescape : Bool) (buffer : Params := []) :
    Except Defect (Outcome α) :=
  run unescape { node := root, path, params := buffer.cleared }

/-- The answer to a lookup. After a miss, `slashHint` tells that the path with its trailing slash
toggled has a value, and `params` holds what the last branch captured. -/
structure Lookup (α : Type) where
  hit? : Option (Hit α) := none
  slashHint : Bool := false
  params : Params := []

def hits (root : Node α) (path : Bytes) : Bool :=
  match root.walk path false with
  | .ok outcome => outcome.hit?.isSome
  | .error _ => false

def slashHint (root : Node α) (path : String) : Bool :=
  Path.toggleSlash path ≠ "" && root.hits (utf8 (Path.toggleSlash path))

def lookup (root : Node α) (path : String) (unescape : Bool) (buffer : Params := []) : Lookup α :=
  match root.walk (utf8 path) unescape buffer with
  | .error _ => {}
  | .ok ⟨some hit, params⟩ => { hit? := some hit, params }
  | .ok ⟨none, params⟩ => { slashHint := root.slashHint path, params }

end HttpRouting.Node

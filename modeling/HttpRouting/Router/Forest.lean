import HttpRouting.Tree.Insert
import HttpRouting.Tree.Lookup

namespace HttpRouting

structure Forest.Tree (H : Type) where
  method : String
  root : Node (List H)

abbrev Forest (H : Type) := List (Forest.Tree H)

namespace Forest

variable {H : Type}

def root? (f : Forest H) (method : String) : Option (Node (List H)) :=
  (f.find? (·.method == method)).map (·.root)

def touch (f : Forest H) (method : String) : Forest H :=
  if (f.root? method).isSome then f else f ++ [⟨method, .emptyRoot⟩]

def setRoot (method : String) (root : Node (List H)) : Forest H → Forest H
  | [] => []
  | t :: ts => if t.method = method then { t with root } :: ts else t :: setRoot method root ts

/-- Inserts a chain into the tree of a method, which stays even where the route is refused. -/
def insert (f : Forest H) (method route : String) (chain : List H) :
    Forest H × Except RouteError Unit :=
  let root := (f.root? method).getD .emptyRoot
  let placed := root.insert route chain
  ((f.touch method).setRoot method placed.node, placed.outcome)

def serving (f : Forest H) (path : String) : List String :=
  (f.filter (·.root.hits (utf8 path))).map (·.method)

end Forest

end HttpRouting

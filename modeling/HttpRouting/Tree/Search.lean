import HttpRouting.Path.FormValue
import HttpRouting.Tree.Node

namespace HttpRouting

structure Param where
  key : String
  value : String
  deriving DecidableEq, Repr

abbrev Params := List Param

namespace Params

def cleared (_ : Params) : Params := []

def value? (params : Params) (name : String) : Option String :=
  (params.find? (·.key == name)).map (·.value)

def valueOrEmpty (params : Params) (name : String) : String := (params.value? name).getD ""

end Params

namespace Node

open Bytes

variable {α : Type}

structure Frame (α : Type) where
  node : Node α
  path : Bytes
  captured : Nat

/-- Where a search stands. A resumed search has tried the static children of its node. -/
structure Search (α : Type) where
  node : Node α
  path : Bytes
  params : Params := []
  skipped : List (Frame α) := []
  resumed : Bool := false

structure Hit (α : Type) where
  value : α
  route : String

/-- How a search ends. A miss leaves the parameters of its last branch. -/
structure Outcome (α : Type) where
  hit? : Option (Hit α)
  params : Params

inductive Step (α : Type)
  | move (next : Search α)
  | done (outcome : Outcome α)

def hit? (n : Node α) : Option (Hit α) := n.value.map (⟨·, n.route⟩)

/-- Resumes the latest frame from which the rest of the path can still be reached. -/
def backtrack (path : Bytes) (params : Params) (skipped : List (Frame α)) : Step α :=
  match skipped.dropWhile fun f => !path.isSuffixOf f.path with
  | [] => .done ⟨none, params⟩
  | f :: rest => .move ⟨f.node, f.path, params.take f.captured, rest, true⟩

def finish (n : Node α) (path : Bytes) (params : Params) (skipped : List (Frame α)) : Step α :=
  match n.hit? with
  | some hit => .done ⟨some hit, params⟩
  | none => backtrack path params skipped

/-- What is proved of lookups holds for any percent decoding in place of `FormValue.percentDecoded`, which
none of those proofs opens. -/
def capture (unescape : Bool) (raw : Bytes) : String :=
  if unescape then FormValue.decode (asText raw) else asText raw

def stepParam (unescape : Bool) (w : Node α) (path : Bytes) (params : Params)
    (skipped : List (Frame α)) : Step α :=
  let params := params ++ [⟨asText (w.label.drop 1), capture unescape (firstSegment path)⟩]
  match path.dropWhile (· ≠ slash), w.children with
  | [], _ => finish w path params skipped
  | after, c :: _ => .move { node := c, path := after, params, skipped }
  | _, [] => backtrack path params skipped

def stepCatchAll (unescape : Bool) (w : Node α) (path : Bytes) (params : Params) : Step α :=
  .done ⟨w.hit?, params ++ [⟨asText (w.label.drop 2), capture unescape path⟩]⟩

def stepWild (unescape : Bool) (w : Node α) (path : Bytes) (params : Params)
    (skipped : List (Frame α)) : Except Defect (Step α) :=
  match w.kind with
  | .param =>
      if w.label.length < 1 then .error .unnamed
      else .ok (stepParam unescape w path params skipped)
  | .catchAll =>
      if w.label.length < 2 then .error .unnamed
      else .ok (stepCatchAll unescape w path params)
  | .static | .root => .error .notWildcard

def step (unescape : Bool) (s : Search α) : Except Defect (Step α) :=
  match strip? s.node.label s.path with
  | none => .ok (backtrack s.path s.params s.skipped)
  | some [] => .ok (finish s.node s.path s.params s.skipped)
  | some (b :: rest) =>
      match if s.resumed then .ok none else s.node.keyed b with
      | .error e => .error e
      | .ok (some ⟨c, _⟩) =>
          let frame := ⟨s.node, s.path, s.params.length⟩
          .ok <| .move
            { node := c
              path := b :: rest
              params := s.params
              skipped := if s.node.hasWild then frame :: s.skipped else s.skipped }
      | .ok none =>
          if s.node.hasWild then
            match s.node.lastChild with
            | .error e => .error e
            | .ok ⟨w, _⟩ => stepWild unescape w (b :: rest) s.params s.skipped
          else .ok (backtrack (b :: rest) s.params s.skipped)

end Node

end HttpRouting

import HttpRouting.Text.Utf8

namespace HttpRouting

inductive Kind
  | static
  | root
  | param
  | catchAll
  deriving DecidableEq, Repr

/-- A node with the first byte of each static child in `keys`; `hasWild` tells that the last child
is a wildcard, and `route` is the pattern of the value. -/
structure Node (α : Type) where
  kind : Kind := .static
  label : Bytes := []
  keys : Bytes := []
  hasWild : Bool := false
  /-- The number of values at and below the node, a counter of thirty-two bits: trees of fewer than
  `2 ^ 32` routes are meant. -/
  priority : Nat := 0
  children : List (Node α) := []
  value : Option α := none
  route : String := ""

inductive Defect
  | childMissing
  | notWildcard
  | unnamed
  deriving DecidableEq, Repr

namespace Node

variable {α : Type}

def empty : Node α := {}

def emptyRoot : Node α := { kind := .root }

def isWildcard (n : Node α) : Bool := n.kind == .param || n.kind == .catchAll

def size : Node α → Nat
  | ⟨_, _, _, _, _, children, _, _⟩ => 1 + sizes children
where
  sizes : List (Node α) → Nat
    | [] => 0
    | c :: cs => size c + sizes cs

theorem size_le_sizes_of_mem {c : Node α} : ∀ {cs : List (Node α)}, c ∈ cs → c.size ≤ size.sizes cs
  | d :: cs, h => by
      rcases List.mem_cons.1 h with rfl | h
      · simp [size.sizes]
      · have := size_le_sizes_of_mem h
        simp only [size.sizes]
        omega

theorem size_lt_of_mem {n c : Node α} (h : c ∈ n.children) : c.size < n.size := by
  obtain ⟨_, _, _, _, _, children, _, _⟩ := n
  have := size_le_sizes_of_mem h
  simp only [size] at this ⊢
  omega

def slot? (n : Node α) (b : UInt8) : Option Nat := n.keys.idxOf? b

def keyed (n : Node α) (b : UInt8) : Except Defect (Option { c : Node α // c ∈ n.children }) :=
  match n.slot? b with
  | none => .ok none
  | some i =>
      match h : n.children[i]? with
      | some c => .ok (some ⟨c, List.mem_of_getElem? h⟩)
      | none => .error .childMissing

def lastChild (n : Node α) : Except Defect { c : Node α // c ∈ n.children } :=
  match h : n.children.getLast? with
  | some c => .ok ⟨c, List.mem_of_getLast? h⟩
  | none => .error .childMissing

/-- Counts the values anew, as a failed insertion leaves raised priorities behind. -/
def recount : Node α → Node α
  | ⟨kind, label, keys, hasWild, _, children, value, route⟩ =>
      let children := recounts children
      let below := children.foldr (·.priority + ·) 0
      ⟨kind, label, keys, hasWild, below + value.isSome.toNat, children, value, route⟩
where
  recounts : List (Node α) → List (Node α)
    | [] => []
    | c :: cs => recount c :: recounts cs

end Node

end HttpRouting

import HttpRouting.Pattern.Check
import HttpRouting.Pattern.Literal
import HttpRouting.Tree.Node

namespace HttpRouting

open Bytes

structure Placement (α : Type) where
  node : Node α
  outcome : Except RouteError Unit

namespace Placement

variable {α : Type}

def map (f : Node α → Node α) (p : Placement α) : Placement α := { p with node := f p.node }

end Placement

def move {β : Type} (xs : List β) (i j : Nat) : List β :=
  match xs[i]? with
  | some x => (xs.eraseIdx i).insertIdx j x
  | none => xs

def before? (part : List Char) : List Char → Option (List Char)
  | [] => if part.isEmpty then some [] else none
  | c :: cs => if part.isPrefixOf (c :: cs) then some [] else (before? part cs).map (c :: ·)

theorem before?_first {part cs front : List Char} (h : before? part cs = some front) :
    (∃ more, cs = front ++ part ++ more) ∧
      ∀ sooner more, cs = sooner ++ part ++ more → front.length ≤ sooner.length := by
  fun_induction before? part cs generalizing front with
  | case1 hpart =>
      cases h
      exact ⟨⟨[], by simpa using hpart⟩, fun _ _ _ => Nat.zero_le _⟩
  | case2 => cases h
  | case3 c cs hpart =>
      cases h
      obtain ⟨more, hmore⟩ := List.isPrefixOf_iff_prefix.1 hpart
      exact ⟨⟨more, hmore.symm⟩, fun _ _ _ => Nat.zero_le _⟩
  | case4 c cs hpart ih =>
      obtain ⟨front, hfront, rfl⟩ := Option.map_eq_some_iff.1 h
      obtain ⟨⟨more, rfl⟩, hfirst⟩ := ih hfront
      refine ⟨⟨more, rfl⟩, fun sooner more' heq => ?_⟩
      cases sooner with
      | nil => exact absurd (List.isPrefixOf_iff_prefix.2 ⟨more', heq.symm⟩) hpart
      | cons d sooner => exact Nat.succ_le_succ (hfirst sooner more' (List.cons.inj heq).2)

theorem before?_isSome (part more : List Char) (sooner : List Char) :
    ∃ front, before? part (sooner ++ part ++ more) = some front := by
  induction sooner with
  | nil =>
      rw [List.nil_append]
      cases htext : part ++ more with
      | nil => exact ⟨[], by simp [before?, (List.append_eq_nil_iff.1 htext).1]⟩
      | cons c cs =>
          have hpart : part.isPrefixOf (c :: cs) = true :=
            List.isPrefixOf_iff_prefix.2 ⟨more, htext⟩
          exact ⟨[], by rw [before?, if_pos hpart]⟩
  | cons c sooner ih =>
      obtain ⟨front, hfront⟩ := ih
      rw [List.cons_append, List.cons_append, before?]
      split
      · exact ⟨[], rfl⟩
      · exact ⟨c :: front, by rw [hfront]; rfl⟩

theorem before?_iff {part cs front more : List Char} (hcs : cs = front ++ part ++ more) :
    before? part cs = some front ↔
      ∀ sooner more, cs = sooner ++ part ++ more → front.length ≤ sooner.length := by
  refine ⟨fun h => (before?_first h).2, fun h => ?_⟩
  obtain ⟨first, hfirst⟩ := before?_isSome part more front
  rw [← hcs] at hfirst
  obtain ⟨⟨more', hmore⟩, hle⟩ := before?_first hfirst
  have hlength : first.length = front.length :=
    Nat.le_antisymm (hle front more hcs) (h first more' hmore)
  have hsame : first ++ (part ++ more') = front ++ (part ++ more) := by
    rw [← List.append_assoc, ← List.append_assoc, ← hmore, hcs]
  rw [hfirst, (List.append_inj hsame hlength).1]

namespace Node

variable {α : Type}

def raised (n : Node α) : Node α := { n with priority := n.priority + 1 }

def split (n : Node α) (k : Nat) : Node α where
  kind := n.kind
  label := n.label.take k
  keys := (n.label.drop k).take 1
  priority := n.priority
  children :=
    [{ n with kind := .static, label := n.label.drop k }]

def promote (n : Node α) (i : Nat) : Node α :=
  match n.children[i]? with
  | some c =>
      let passed := ((n.children.take i).reverse.takeWhile (·.priority < c.priority)).length
      { n with children := move n.children i (i - passed), keys := move n.keys i (i - passed) }
  | none => n

def settle (n : Node α) (i : Nat) (c : Node α) : Node α :=
  { n with children := n.children.set i c }.promote i

def replaceLast (n : Node α) (c : Node α) : Node α :=
  { n with children := n.children.dropLast ++ [c] }

def addStatic (n : Node α) (key : UInt8) (c : Node α) : Node α :=
  { n with
    keys := n.keys ++ [key]
    children := n.children.insertIdx n.keys.length c }.promote n.keys.length

def addWild (n : Node α) (c : Node α) : Node α :=
  { n with hasWild := true, children := n.children ++ [c] }

def catchAllConflict (n : Node α) (route : String) (path : Bytes) : RouteError :=
  let blocking := asText (firstSegment ((n.children.head?.map (·.label)).getD []))
  .catchAllConflict (asText path) route blocking (asText n.label ++ blocking)

/-- Grafts a pattern that ends in the catch-all `w`: a nameless holder, reached by the slash, keeps
the leaf apart from the siblings. -/
def graftCatchAll (route : String) (v : α) (n : Node α) (path : Bytes) (w : Wildcard) :
    Placement α :=
  if w.stop ≠ path.length then ⟨n, .error (.catchAllNotLast route)⟩
  else if n.label.getLast? = some slash then ⟨n, .error (n.catchAllConflict route path)⟩
  else if w.start = 0 ∨ path[w.start - 1]? ≠ some slash then
    ⟨n, .error (.missingSlashBeforeCatchAll route)⟩
  else
    let leaf : Node α :=
      { kind := .catchAll, label := path.drop (w.start - 1), priority := 1, value := some v, route }
    let holder : Node α :=
      { kind := .catchAll, hasWild := true, priority := 1, children := [leaf], route }
    ⟨{ n with
        label := Pattern.unescape (path.take (w.start - 1))
        keys := [slash]
        children := n.children ++ [holder] }, .ok ()⟩

def graft (route : String) (v : α) (n : Node α) (path : Bytes) : Placement α :=
  match Pattern.firstWildcard path with
  | .error e => ⟨n, .error e⟩
  | .ok none => ⟨{ n with label := Pattern.unescape path, value := some v, route }, .ok ()⟩
  | .ok (some w) =>
      if !w.valid then ⟨n, .error (.multipleWildcards (asText w.token) route)⟩
      else if w.token.length < 2 then ⟨n, .error (.unnamedWildcard route)⟩
      else if w.isCatchAll then graftCatchAll route v n path w
      else
        let n := if w.start = 0 then n else { n with label := Pattern.unescape (path.take w.start) }
        let param : Node α := { kind := .param, label := w.token, priority := 1, route }
        if path.drop w.stop = [] then ⟨n.addWild { param with value := some v }, .ok ()⟩
        else
          (graft route v { priority := 1, route } (path.drop w.stop)).map fun c =>
            n.addWild { param with children := [c] }
termination_by path.length
decreasing_by
  rename_i htoken _ hrest
  have := List.length_pos_iff.2 hrest
  simp only [List.length_drop, Wildcard.stop] at this ⊢
  omega

def extend (route : String) (v : α) (n : Node α) (rest : Bytes) : Placement α :=
  if rest = [] then
    match n.value with
    | some _ => ⟨n, .error (.duplicateRoute route)⟩
    | none => ⟨{ n with value := some v, route }, .ok ()⟩
  else
    match Pattern.nextLiteral? rest with
    | some (b, _) =>
        if n.kind = .catchAll then graft route v n rest
        else if n.children.length < n.keys.length then ⟨n, .error .malformedTree⟩
        else (graft route v { priority := 1, route } rest).map (n.addStatic b)
    | none => graft route v n rest

inductive Turn
  | stop
  | descend (i : Nat)
  | wild
  deriving DecidableEq, Repr

/-- A parameter leads on to its only child. Elsewhere a literal byte selects a static child, and
only a wildcard, or a literal below a catch-all, meets the wildcard child. -/
def turn (n : Node α) (rest : Bytes) : Turn :=
  let wildOrStop := if n.hasWild then Turn.wild else Turn.stop
  match rest, Pattern.nextLiteral? rest with
  | [], _ => .stop
  | _, none => wildOrStop
  | _, some (b, _) =>
      if n.kind = .param ∧ b = slash ∧ n.children.length = 1 then .descend 0
      else
        match n.slot? b with
        | some i => .descend i
        | none => if n.kind = .catchAll then wildOrStop else .stop

def takes (n : Node α) (rest : Bytes) : Bool :=
  n.kind != .catchAll && n.label.isPrefixOf rest &&
    ((rest.drop n.label.length).head?.all (· == slash))

/-- The refusal of a pattern that meets a wildcard other than its own. -/
def wildcardConflict (n : Node α) (route : String) (rest : Bytes) : RouteError :=
  let blocked := asText (if n.kind = .catchAll then rest else firstSegment rest)
  let wildcard := asText n.label
  let before := (before? blocked.toList route.toList).getD []
  .wildcardConflict blocked route wildcard (String.ofList before ++ wildcard)

/-- How far a pattern agrees with the label. Static labels are stored without escapes. -/
def overlap (n : Node α) (path : Bytes) : Nat × Nat :=
  if n.isWildcard then (commonLength path n.label, commonLength path n.label)
  else Pattern.overlap path n.label

def place (route : String) (v : α) (n : Node α) (path : Bytes) : Placement α :=
  let (used, common) := n.overlap path
  let rest := path.drop used
  if common < n.label.length then extend route v (n.split common).raised rest
  else
    match n.turn rest with
    | .stop => extend route v n.raised rest
    | .descend i =>
        match _ : n.children[i]? with
        | some c => (place route v c rest).map (n.raised.settle i)
        | none => ⟨n.raised, .error .malformedTree⟩
    | .wild =>
        match n.lastChild with
        | .ok ⟨c, _⟩ =>
            if c.takes rest then (place route v c rest).map n.raised.replaceLast
            else ⟨n.raised, .error (c.wildcardConflict route rest)⟩
        | .error _ => ⟨n.raised, .error .malformedTree⟩
termination_by n.size
decreasing_by
  · exact size_lt_of_mem (List.mem_of_getElem? ‹_›)
  · exact size_lt_of_mem ‹_›

def isVacant (n : Node α) : Bool := n.label.isEmpty && n.children.isEmpty && n.value.isNone

def insertChecked (root : Node α) (route : String) (v : α) : Placement α :=
  if root.isVacant then
    let p := graft route v root.raised (utf8 route)
    match p.outcome with
    | .ok () => p.map ({ · with kind := .root })
    | .error _ => p
  else place route v root (utf8 route)

/-- Inserts a value for a route. A malformed pattern leaves the tree alone, and a conflict leaves
all routes as they were. -/
def insert (root : Node α) (route : String) (v : α) : Placement α :=
  match Pattern.check route with
  | .error e => ⟨root, .error e⟩
  | .ok () =>
      let p := root.insertChecked route v
      match p.outcome with
      | .ok () => p
      | .error _ => p.map recount

end Node

end HttpRouting

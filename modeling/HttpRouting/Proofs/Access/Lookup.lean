import HttpRouting.Proofs.Access.Slice
import HttpRouting.Proofs.Tree.Matching

namespace HttpRouting.Strict

open Bytes Node

variable {α : Type}

def capture (unescape : Bool) (raw : Bytes) : Option String :=
  if unescape then decode (asText raw) else some (asText raw)

theorem capture_eq (unescape : Bool) (raw : Bytes) :
    capture unescape raw = some (Node.capture unescape raw) := by
  rw [capture, Node.capture, decode_eq]
  split <;> rfl

def stepParam (unescape : Bool) (w : Node α) (path : Bytes) (params : Params)
    (skipped : List (Frame α)) : Option (Step α) := do
  let name ← since w.label 1
  let stop := (firstSegment path).length
  let taken ← upTo path stop
  let params := params ++ [⟨asText name, ← capture unescape taken⟩]
  if stop < path.length then
    match w.children.head? with
    | some c => return .move { node := c, path := ← since path stop, params, skipped }
    | none => return backtrack path params skipped
  else return finish w path params skipped

/-- A wildcard child that is no wildcard is a failure, too. -/
def stepWild (unescape : Bool) (n : Node α) (path : Bytes) (params : Params)
    (skipped : List (Frame α)) : Option (Step α) := do
  let last ← lastIndex n.children
  let w ← n.children[last]?
  match w.kind with
  | .param => stepParam unescape w path params skipped
  | .catchAll =>
      let name ← since w.label 2
      return .done ⟨w.hit?, params ++ [⟨asText name, ← capture unescape path⟩]⟩
  | .static | .root => none

def step (unescape : Bool) (s : Search α) : Option (Step α) := do
  if s.node.label.length < s.path.length ∧ s.node.label.isPrefixOf s.path = true then
    let path ← since s.path s.node.label.length
    let first ← path[0]?
    match if s.resumed then none else s.node.slot? first with
    | some i =>
        let c ← s.node.children[i]?
        let frame := ⟨s.node, s.path, s.params.length⟩
        return .move
          { node := c
            path
            params := s.params
            skipped := if s.node.hasWild then frame :: s.skipped else s.skipped }
    | none =>
        if s.node.hasWild then stepWild unescape s.node path s.params s.skipped
        else return backtrack path s.params s.skipped
  else if s.path = s.node.label then return finish s.node s.path s.params s.skipped
  else return backtrack s.path s.params s.skipped

theorem take_firstSegment (path : Bytes) :
    path.take (firstSegment path).length = firstSegment path ∧
      path.drop (firstSegment path).length = path.dropWhile (· ≠ slash) := by
  have hpath := (segment_append_rest path).symm
  constructor
  · conv => lhs; rw [hpath, List.take_left' (by rw [← hpath])]
  · conv => lhs; rw [hpath, List.drop_left' (by rw [← hpath])]

theorem stepParam_eq (unescape : Bool) {w : Node α} (h : 1 ≤ w.label.length) (path : Bytes)
    (params : Params) (skipped : List (Frame α)) :
    stepParam unescape w path params skipped =
      some (Node.stepParam unescape w path params skipped) := by
  obtain ⟨htake, hdrop⟩ := take_firstSegment path
  have hle := length_firstSegment_le path
  have hlength := congrArg List.length hdrop
  rw [List.length_drop] at hlength
  rw [stepParam, since_eq h, Node.stepParam]
  dsimp only [Option.bind_eq_bind, Option.bind_some]
  rw [upTo_eq hle, since_eq hle, htake, hdrop, Option.bind_some, capture_eq]
  dsimp only [Option.bind_some]
  cases hafter : path.dropWhile (· ≠ slash) with
  | nil =>
      rw [hafter, List.length_nil] at hlength
      rw [if_neg (by omega)]
      rfl
  | cons b after =>
      rw [hafter, List.length_cons] at hlength
      rw [if_pos (by omega)]
      cases w.children <;> rfl

theorem keyed_missing {n : Node α} {b : UInt8} {i : Nat} (hi : n.slot? b = some i)
    (hc : n.children[i]? = none) : n.keyed b = .error .childMissing := by
  unfold keyed
  rw [hi]
  dsimp only
  split
  · next c hc' =>
      rw [hc] at hc'
      cases hc'
  · rfl

theorem lastChild_of_getLast? {n w : Node α} (h : n.children.getLast? = some w) :
    ∃ hw, n.lastChild = .ok ⟨w, hw⟩ := by
  obtain ⟨front, hfront⟩ := List.getLast?_eq_some_iff.1 h
  exact lastChild_eq hfront

theorem stepWild_eq (unescape : Bool) {n : Node α} (path : Bytes) (params : Params)
    (skipped : List (Frame α)) :
    stepWild unescape n path params skipped =
      (match n.lastChild with
        | .error e => Except.error e
        | .ok ⟨w, _⟩ => Node.stepWild unescape w path params skipped).toOption := by
  have hlast : stepWild unescape n path params skipped = n.children.getLast?.bind fun w =>
      match w.kind with
      | .param => stepParam unescape w path params skipped
      | .catchAll => do
          let name ← since w.label 2
          return .done ⟨w.hit?, params ++ [⟨asText name, ← capture unescape path⟩]⟩
      | .static | .root => none := by
    rw [← lastIndex_getElem?, Option.bind_assoc]
    rfl
  rw [hlast]
  cases hw : n.children.getLast? with
  | none =>
      rw [lastChild_of_none hw]
      rfl
  | some w =>
      obtain ⟨hmem, hchild⟩ := lastChild_of_getLast? hw
      rw [hchild, Option.bind_some]
      dsimp only
      rw [Node.stepWild]
      cases w.kind with
      | static | root => rfl
      | param =>
          dsimp only
          by_cases hlength : w.label.length < 1
          · rw [if_pos hlength, stepParam, since, if_neg (by omega)]
            rfl
          · rw [if_neg hlength, stepParam_eq unescape (by omega)]
            rfl
      | catchAll =>
          dsimp only
          by_cases hlength : w.label.length < 2
          · rw [if_pos hlength, since, if_neg (by omega)]
            rfl
          · rw [if_neg hlength, since_eq (by omega), capture_eq]
            rfl

theorem strip?_append (label rest : Bytes) : strip? label (label ++ rest) = some rest := by
  induction label with
  | nil => cases rest <;> rfl
  | cons a label ih => rw [List.cons_append, strip?, if_pos rfl, ih]

theorem step_eq (unescape : Bool) (s : Search α) :
    step unescape s = (Node.step unescape s).toOption := by
  rw [step, Node.step]
  cases hstrip : strip? s.node.label s.path with
  | none =>
      have hoff : ¬ s.node.label <+: s.path := by
        rintro ⟨rest, hrest⟩
        rw [← hrest, strip?_append] at hstrip
        cases hstrip
      have hne : s.path ≠ s.node.label := fun h => hoff (h ▸ List.prefix_rfl)
      rw [if_neg fun h => hoff (List.isPrefixOf_iff_prefix.1 h.2), if_neg hne]
      rfl
  | some rest =>
      have hpath := strip?_some hstrip
      have hprefix : s.node.label.isPrefixOf s.path = true := by
        rw [List.isPrefixOf_iff_prefix, hpath]
        exact List.prefix_append ..
      cases rest with
      | nil =>
          rw [List.append_nil] at hpath
          rw [if_neg (by simp [hpath]), if_pos hpath]
          rfl
      | cons b rest =>
          have hdrop : since s.path s.node.label.length = some (b :: rest) := by
            rw [since_eq (by simp [hpath]), hpath, List.drop_left]
          rw [if_pos ⟨by simp [hpath], hprefix⟩, hdrop]
          dsimp only [Option.bind_eq_bind, Option.bind_some, List.getElem?_cons_zero]
          rw [stepWild_eq]
          by_cases hresumed : s.resumed = true
          · rw [if_pos hresumed, if_pos hresumed]
            dsimp only
            split
            · cases s.node.lastChild <;> rfl
            · rfl
          rw [if_neg hresumed, if_neg hresumed]
          cases hi : s.node.slot? b with
          | none =>
              rw [keyed_none hi]
              dsimp only
              split
              · cases s.node.lastChild <;> rfl
              · rfl
          | some i =>
              dsimp only
              cases hc : s.node.children[i]? with
              | none =>
                  rw [keyed_missing hi hc]
                  rfl
              | some c =>
                  obtain ⟨hmem, hkeyed⟩ := keyed_some hi hc
                  rw [hkeyed]
                  rfl

def run (unescape : Bool) (s : Search α) : Option (Outcome α) :=
  match _ : step unescape s with
  | none => none
  | some (.done outcome) => some outcome
  | some (.move next) => run unescape next
termination_by s.weight
decreasing_by
  rename_i hstep
  rw [step_eq] at hstep
  cases hmove : Node.step unescape s with
  | error e =>
      rw [hmove] at hstep
      cases hstep
  | ok t =>
      rw [hmove] at hstep
      cases hstep
      exact step_weight hmove

theorem run_eq (unescape : Bool) (s : Search α) :
    run unescape s = (Node.run unescape s).toOption := by
  fun_induction Node.run unescape s with
  | case1 s e hstep =>
      have hnone := step_eq unescape s
      rw [hstep] at hnone
      rw [run]
      split <;> simp_all [Except.toOption]
  | case2 s o hstep =>
      have hdone := step_eq unescape s
      rw [hstep] at hdone
      rw [run]
      split <;> simp_all [Except.toOption]
  | case3 s next hstep ih =>
      have hmove := step_eq unescape s
      rw [hstep] at hmove
      rw [run]
      split <;> simp_all [Except.toOption]

def walk (root : Node α) (path : Bytes) (unescape : Bool) (buffer : Params := []) :
    Option (Outcome α) :=
  run unescape { node := root, path, params := buffer.cleared }

def slashHint (root : Node α) (path : String) : Option Bool :=
  if Path.toggleSlash path = "" then some false
  else (walk root (utf8 (Path.toggleSlash path)) false).map (·.hit?.isSome)

def lookup (root : Node α) (path : String) (unescape : Bool) (buffer : Params := []) :
    Option (Lookup α) := do
  match ← walk root (utf8 path) unescape buffer with
  | ⟨some hit, params⟩ => return { hit? := some hit, params }
  | ⟨none, params⟩ => return { slashHint := ← slashHint root path, params }

theorem walk_eq {root : Node α} {routes : List (String × α)} (h : Tracks root routes) (path : Bytes)
    (unescape : Bool) (buffer : Params) :
    ∃ o, root.walk path unescape buffer = .ok o ∧ walk root path unescape buffer = some o := by
  obtain ⟨o, ho, -⟩ := h.answers path unescape buffer
  refine ⟨o, ho, ?_⟩
  rw [Node.walk] at ho
  rw [walk, run_eq, ho]
  rfl

theorem lookup_eq {root : Node α} {routes : List (String × α)} (h : Tracks root routes)
    (path : String) (unescape : Bool) (buffer : Params) :
    lookup root path unescape buffer = some (root.lookup path unescape buffer) := by
  have hhint : slashHint root path = some (root.slashHint path) := by
    obtain ⟨o, ho, hwalk⟩ := walk_eq h (utf8 (Path.toggleSlash path)) false []
    rw [slashHint, Node.slashHint, hits, ho, hwalk]
    split
    · next hnil => simp [hnil]
    · next hne => simp [hne]
  obtain ⟨⟨hit?, params⟩, ho, hwalk⟩ := walk_eq h (utf8 path) unescape buffer
  rw [lookup, Node.lookup, ho, hwalk]
  cases hit? with
  | some hit => rfl
  | none =>
      dsimp only [Option.bind_eq_bind, Option.bind_some]
      rw [hhint]
      rfl

end HttpRouting.Strict

import HttpRouting.Text.CaseMap
import HttpRouting.Tree.Node

namespace HttpRouting.Node

open Bytes

variable {α : Type}

def foldEq (a b : Bytes) : Bool := sameFoldAll (Utf8.decodeLossy a) (Utf8.decodeLossy b)

def fits (n : Node α) (path : Bytes) : Bool :=
  n.label.length ≤ path.length &&
    (n.label.isEmpty || foldEq ((path.take n.label.length).drop 1) (n.label.drop 1))

/-- The character that covers byte `k` of a path, and how many of its bytes precede byte `k`. -/
def charAcross (path : Bytes) (k : Nat) : Char × Nat :=
  let starts := fun back => match path[k - back]? with
    | some b => b &&& 0xC0 != 0x80
    | none => false
  match (List.range (min k 3 + 1)).find? starts with
  | some back => ((Utf8.first? (path.drop (k - back))).getD Utf8.replacement, back)
  | none => ('\x00', min k 3)

def closeAt (fixSlash : Bool) (n : Node α) : Except Defect (Option Bytes) :=
  if n.value.isSome then .ok (some [])
  else if fixSlash then
    match n.keyed slash with
    | .error e => .error e
    | .ok none => .ok none
    | .ok (some ⟨c, _⟩) =>
        if c.label.length = 1 ∧ c.value.isSome ∨
            c.kind = .catchAll ∧ c.children.head?.any (·.value.isSome) then .ok (some [slash])
        else .ok none
  else .ok none

def closeParam (fixSlash : Bool) (w : Node α) : Option Bytes :=
  if w.value.isSome then some []
  else
    match w.children with
    | [c] => if fixSlash && c.label == [slash] && c.value.isSome then some [slash] else none
    | _ => none

/-- The end of a search at a node that the path does not spell out: a slash left over is dropped
where the path before it has a value, and a slash missing at the end of the label is added. -/
def closeBefore (fixSlash : Bool) (n : Node α) (path : Bytes) (above : Bool) : Option Bytes :=
  if !fixSlash then none
  else if path = [slash] then (if above then some [] else none)
  else if path ≠ [] ∧ path.length + 1 = n.label.length ∧ n.label[path.length]? = some slash ∧
      foldEq (path.drop 1) ((n.label.take path.length).drop 1) ∧ n.value.isSome then some n.label
  else none

def verdict (fixSlash : Bool) (n : Node α) (rest : Bytes) :
    Option (Option Bytes) → Option (Option Bytes)
  | some answer => if answer.isNone && n.hasWild then none else some answer
  | none =>
      if n.hasWild then none
      else some (if fixSlash && rest == [slash] && n.value.isSome then some [] else none)

def viaKey (n : Node α) (spelling : Bytes)
    (go : { c : Node α // c ∈ n.children } → Bytes → Except Defect (Option Bytes)) :
    Except Defect (Option (Option Bytes)) :=
  match n.keyed (spelling.headD 0) with
  | .error e => .error e
  | .ok none => .ok none
  | .ok (some c) => (go c spelling).map some

/-- Goes on to the static children. `awaited` are the bytes still expected of a character that
started above; where there are none, the character across the end of the label is tried in lower
case and then in upper case. -/
def viaStatic (fixSlash : Bool) (n : Node α) (path rest awaited : Bytes)
    (go : { c : Node α // c ∈ n.children } → Bytes → Except Defect (Option Bytes)) :
    Except Defect (Option (Option Bytes)) :=
  let (c, back) := charAcross path n.label.length
  let lower := (String.utf8EncodeChar (lowerChar c)).drop back
  let upper := (String.utf8EncodeChar (upperChar c)).drop back
  if n.keys.isEmpty && n.hasWild then .ok none
  else if awaited.headD 0 ≠ 0 then (n.viaKey awaited go).map (n.verdict fixSlash rest)
  else
    match n.viaKey lower go with
    | .error e => .error e
    | .ok (some (some answer)) => .ok (some (some answer))
    | .ok _ =>
        if upperChar c = lowerChar c then .ok (n.verdict fixSlash rest none)
        else (n.viaKey upper go).map (n.verdict fixSlash rest)

def viaWild (fixSlash : Bool) (w : Node α) (rest : Bytes)
    (go : { c : Node α // c ∈ w.children } → Bytes → Except Defect (Option Bytes)) :
    Except Defect (Option Bytes) :=
  match w.kind with
  | .static | .root => .error .notWildcard
  | .catchAll => .ok (some rest)
  | .param =>
      let taken := firstSegment rest
      match rest.dropWhile (· ≠ slash), h : w.children with
      | [], _ => .ok ((closeParam fixSlash w).map (taken ++ ·))
      | after, [] =>
          .ok (if fixSlash && after.length == 1 && w.value.isSome then some taken else none)
      | after, c :: _ => (go ⟨c, h ▸ List.mem_cons_self⟩ after).map (·.map (taken ++ ·))

/-- Searches below `n`. `pending` are the bytes still expected of a character that started above,
and `above` tells whether the path read so far has a value. -/
def recase (fixSlash : Bool) (n : Node α) (path pending : Bytes) (above : Bool) :
    Except Defect (Option Bytes) :=
  if n.fits path then
    let rest := path.drop n.label.length
    if rest = [] then (n.closeAt fixSlash).map (·.map (n.label ++ ·))
    else
      let static := n.viaStatic fixSlash path rest (pending.drop n.label.length) fun c spelling =>
        recase fixSlash c rest spelling n.value.isSome
      match static with
      | .error e => .error e
      | .ok (some answer) => .ok (answer.map (n.label ++ ·))
      | .ok none =>
          match n.lastChild with
          | .error e => .error e
          | .ok w =>
              (viaWild fixSlash w.1 rest fun c after =>
                recase fixSlash c after [] w.1.value.isSome).map (·.map (n.label ++ ·))
  else .ok (n.closeBefore fixSlash path above)
termination_by n.size
decreasing_by
  · exact size_lt_of_mem c.2
  · exact Nat.lt_trans (size_lt_of_mem c.2) (size_lt_of_mem w.2)

def findCase (root : Node α) (path : String) (fixSlash : Bool) : Option String :=
  match utf8 path, root.label with
  | p :: _, l :: _ => if p = l then search else none
  | _, _ => search
where
  search : Option String :=
    match root.recase fixSlash (utf8 path) [] false with
    | .ok (some bytes) => text? bytes
    | _ => none

end HttpRouting.Node

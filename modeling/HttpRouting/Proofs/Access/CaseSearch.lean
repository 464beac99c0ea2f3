import HttpRouting.Proofs.Access.Lookup
import HttpRouting.Proofs.Tree.Standing
import Mathlib.Data.List.Find

namespace HttpRouting.Strict

open Bytes Node

variable {α : Type}

def fits (n : Node α) (path : Bytes) : Option Bool :=
  if path.length < n.label.length then some false
  else if n.label.length = 0 then some true
  else do return foldEq (← between path 1 n.label.length) (← since n.label 1)

/-- The character that covers byte `k` of a path, searched for backwards. -/
def charAcross (path : Bytes) (k : Nat) : Option (Char × Nat) := scan (List.range (min k 3 + 1))
where
  scan : List Nat → Option (Char × Nat)
    | [] => some ('\x00', min k 3)
    | back :: backs => do
        let b ← path[k - back]?
        if b &&& 0xC0 != 0x80 then
          return ((Utf8.first? (← since path (k - back))).getD Utf8.replacement, back)
        else scan backs

def closeAt (fixSlash : Bool) (n : Node α) : Option (Option Bytes) :=
  if n.value.isSome then some (some [])
  else if fixSlash then
    match n.slot? slash with
    | none => some none
    | some i => do
        let c ← n.children[i]?
        return if c.label.length = 1 ∧ c.value.isSome ∨
            c.kind = .catchAll ∧ c.children.head?.any (·.value.isSome) then some [slash]
          else none
  else some none

def closeBefore (fixSlash : Bool) (n : Node α) (path : Bytes) (above : Bool) : Option (Option Bytes) :=
  if !fixSlash then some none
  else if path = [slash] then some (if above then some [] else none)
  else if path ≠ [] ∧ path.length + 1 = n.label.length then do
    let b ← n.label[path.length]?
    if b = slash then
      let same := foldEq (← since path 1) (← between n.label 1 path.length)
      return if same ∧ n.value.isSome then some n.label else none
    else return none
  else some none

theorem mem_of_place {n c : Node α} {i : Nat} (h : n.children[i]? = some c) : c ∈ n.children :=
  List.mem_of_getElem? h

theorem mem_of_first {n c : Node α} {cs : List (Node α)} (h : n.children = c :: cs) :
    c ∈ n.children :=
  h ▸ List.mem_cons_self

def viaKey (n : Node α) (spelling : Bytes)
    (go : { c : Node α // c ∈ n.children } → Bytes → Option (Option Bytes)) :
    Option (Option (Option Bytes)) :=
  match n.slot? (spelling.headD 0) with
  | none => some none
  | some i =>
      match h : n.children[i]? with
      | some c => (go ⟨c, mem_of_place h⟩ spelling).map some
      | none => none

def viaStatic (fixSlash : Bool) (n : Node α) (path rest awaited : Bytes)
    (go : { c : Node α // c ∈ n.children } → Bytes → Option (Option Bytes)) :
    Option (Option (Option Bytes)) :=
  if n.keys.isEmpty && n.hasWild then some none
  else if awaited.headD 0 ≠ 0 then (viaKey n awaited go).map (n.verdict fixSlash rest)
  else do
    let (c, back) ← charAcross path n.label.length
    let lower := (String.utf8EncodeChar (lowerChar c)).drop back
    let upper := (String.utf8EncodeChar (upperChar c)).drop back
    match ← viaKey n lower go with
    | some (some answer) => return some (some answer)
    | _ =>
        if upperChar c = lowerChar c then return n.verdict fixSlash rest none
        else return n.verdict fixSlash rest (← viaKey n upper go)

def lastChild (n : Node α) : Option { c : Node α // c ∈ n.children } :=
  match h : (lastIndex n.children).bind (n.children[·]?) with
  | some c => some ⟨c, List.mem_of_getLast? (lastIndex_getElem? n.children ▸ h)⟩
  | none => none

def viaWild (fixSlash : Bool) (w : Node α) (rest : Bytes)
    (go : { c : Node α // c ∈ w.children } → Bytes → Option (Option Bytes)) : Option (Option Bytes) :=
  match w.kind with
  | .static | .root => none
  | .catchAll => some (some rest)
  | .param => do
      let stop := (firstSegment rest).length
      let taken ← upTo rest stop
      if stop < rest.length then
        match h : w.children with
        | [] => return if fixSlash && rest.length == stop + 1 && w.value.isSome then some taken else none
        | c :: _ =>
            let answer ← go ⟨c, mem_of_first h⟩ (← since rest stop)
            return answer.map (taken ++ ·)
      else return (closeParam fixSlash w).map (taken ++ ·)

def recase (fixSlash : Bool) (n : Node α) (path pending : Bytes) (above : Bool) :
    Option (Option Bytes) := do
  if ← fits n path then
    let rest ← since path n.label.length
    if rest = [] then return (← closeAt fixSlash n).map (n.label ++ ·)
    else
      let static ← viaStatic fixSlash n path rest (pending.drop n.label.length) fun c spelling =>
        recase fixSlash c rest spelling n.value.isSome
      match static with
      | some answer => return answer.map (n.label ++ ·)
      | none =>
          let w ← lastChild n
          let answer ← viaWild fixSlash w.1 rest fun c after =>
            recase fixSlash c after [] w.1.value.isSome
          return answer.map (n.label ++ ·)
  else closeBefore fixSlash n path above
termination_by n.size
decreasing_by
  · exact size_lt_of_mem c.2
  · exact Nat.lt_trans (size_lt_of_mem c.2) (size_lt_of_mem w.2)

def findCase (root : Node α) (path : String) (fixSlash : Bool) : Option (Option String) :=
  match utf8 path, root.label with
  | p :: _, l :: _ => if p = l then search else some none
  | _, _ => search
where
  search : Option (Option String) := do
    return (← recase fixSlash root (utf8 path) [] false).bind text?

theorem fits_eq (n : Node α) (path : Bytes) : fits n path = some (n.fits path) := by
  rw [fits, Node.fits]
  by_cases hlength : path.length < n.label.length
  · rw [if_pos hlength]
    simp [Nat.not_le.2 hlength]
  by_cases hlabel : n.label.length = 0
  · rw [if_neg hlength, if_pos hlabel]
    simp [List.length_eq_zero_iff.1 hlabel]
  · have hne : n.label.isEmpty = false := by
      rw [List.isEmpty_eq_false_iff]
      exact fun h => hlabel (congrArg List.length h)
    rw [if_neg hlength, if_neg hlabel, between_eq (by omega) (by omega), since_eq (by omega), hne]
    simp [Nat.not_lt.1 hlength]

def starts (path : Bytes) (k back : Nat) : Bool := (path[k - back]?).any (· &&& 0xC0 != 0x80)

/-- The character that starts `back` bytes before byte `k`. -/
def charFrom (path : Bytes) (k : Nat) (back : Option Nat) : Char × Nat :=
  back.elim ('\x00', min k 3) fun back =>
    ((Utf8.first? (path.drop (k - back))).getD Utf8.replacement, back)

theorem scan_eq {path : Bytes} {k : Nat} (hk : k < path.length) (backs : List Nat) :
    charAcross.scan path k backs = some (charFrom path k (backs.find? (starts path k))) := by
  induction backs with
  | nil => rfl
  | cons back backs ih =>
      have hlt : k - back < path.length := by omega
      rw [charAcross.scan, since_eq (by omega), List.find?_cons, starts, List.getElem?_eq_getElem hlt,
        Option.any_some]
      dsimp only [Option.bind_eq_bind, Option.bind_some]
      split
      · next hstart =>
          rw [hstart]
          rfl
      · next hstart =>
          rw [Bool.not_eq_true] at hstart
          rw [hstart, ih]

theorem charFrom_eq (path : Bytes) (k : Nat) :
    charFrom path k ((List.range (min k 3 + 1)).find? (starts path k)) = Node.charAcross path k := by
  rw [Node.charAcross]
  split
  all_goals
    rename_i h
    refine congrArg (charFrom path k) ((List.find?_congr fun back _ => ?_).trans h)
    rw [starts]
    cases path[k - back]? <;> rfl

theorem charAcross_eq {path : Bytes} {k : Nat} (hk : k < path.length) :
    charAcross path k = some (Node.charAcross path k) := by
  rw [charAcross, scan_eq hk, charFrom_eq]

theorem closeAt_eq (fixSlash : Bool) (n : Node α) :
    closeAt fixSlash n = (Node.closeAt fixSlash n).toOption := by
  rw [closeAt, Node.closeAt]
  split
  · rfl
  split
  · cases hi : n.slot? slash with
    | none =>
        rw [keyed_none hi]
        rfl
    | some i =>
        dsimp only
        cases hc : n.children[i]? with
        | none =>
            rw [keyed_missing hi hc]
            rfl
        | some c =>
            obtain ⟨hmem, hkeyed⟩ := keyed_some hi hc
            rw [hkeyed]
            dsimp only [Option.bind_eq_bind, Option.bind_some]
            split <;> rfl
  · rfl

theorem closeBefore_eq (fixSlash : Bool) (n : Node α) (path : Bytes) (above : Bool) :
    closeBefore fixSlash n path above = some (Node.closeBefore fixSlash n path above) := by
  rw [closeBefore, Node.closeBefore]
  by_cases hfix : fixSlash = true
  · have hnot : ¬ (!fixSlash) = true := by simp [hfix]
    rw [if_neg hnot, if_neg hnot]
    split
    · rfl
    by_cases hlength : path ≠ [] ∧ path.length + 1 = n.label.length
    · obtain ⟨hne, hlength⟩ := hlength
      have hpos := List.length_pos_iff.2 hne
      rw [if_pos ⟨hne, hlength⟩, List.getElem?_eq_getElem (by omega)]
      dsimp only [Option.bind_eq_bind, Option.bind_some]
      by_cases hslash : n.label[path.length] = slash
      · rw [if_pos hslash, since_eq hpos, between_eq hpos (by omega), hslash]
        simp [hne, hlength]
      · simp [hslash]
    · rw [if_neg hlength, if_neg fun h => hlength ⟨h.1, h.2.1⟩]
  · simp [hfix]

theorem toOption_map {ε β γ : Type} (f : β → γ) (x : Except ε β) :
    (x.map f).toOption = x.toOption.map f := by
  cases x <;> rfl

section Children

variable {n : Node α} {go : { c : Node α // c ∈ n.children } → Bytes → Except Defect (Option Bytes)}

theorem viaKey_eq (spelling : Bytes) :
    viaKey n spelling (fun c after => (go c after).toOption) =
      (Node.viaKey n spelling go).toOption := by
  rw [viaKey, Node.viaKey]
  cases hi : n.slot? (spelling.headD 0) with
  | none =>
      rw [keyed_none hi]
      rfl
  | some i =>
      dsimp only
      split
      · next c hc =>
          obtain ⟨hmem, hkeyed⟩ := keyed_some hi hc
          rw [hkeyed]
          exact (toOption_map some _).symm
      · next hc =>
          rw [keyed_missing hi hc]
          rfl

theorem viaStatic_eq (fixSlash : Bool) {path rest : Bytes} (awaited : Bytes)
    (hrest : n.label.length < path.length) :
    viaStatic fixSlash n path rest awaited (fun c after => (go c after).toOption) =
      (Node.viaStatic fixSlash n path rest awaited go).toOption := by
  rw [viaStatic, Node.viaStatic, charAcross_eq hrest]
  obtain ⟨c, back⟩ := Node.charAcross path n.label.length
  dsimp only [Option.bind_eq_bind, Option.bind_some]
  split
  · rfl
  split
  · rw [viaKey_eq, toOption_map]
  · rw [viaKey_eq, viaKey_eq]
    cases Node.viaKey n ((String.utf8EncodeChar (lowerChar c)).drop back) go with
    | error e => rfl
    | ok lower =>
        rcases lower with _ | _ | answer
        · dsimp only [Except.toOption, Option.bind_some]
          split
          · rfl
          · cases Node.viaKey n ((String.utf8EncodeChar (upperChar c)).drop back) go <;> rfl
        · dsimp only [Except.toOption, Option.bind_some]
          split
          · rfl
          · cases Node.viaKey n ((String.utf8EncodeChar (upperChar c)).drop back) go <;> rfl
        · rfl

theorem lastChild_eq (n : Node α) : lastChild n = n.lastChild.toOption := by
  rw [lastChild]
  split
  · next w hw =>
      rw [lastIndex_getElem?] at hw
      obtain ⟨hmem, hlast⟩ := lastChild_of_getLast? hw
      rw [hlast]
      rfl
  · next hw =>
      rw [lastIndex_getElem?] at hw
      rw [lastChild_of_none hw]
      rfl

theorem viaWild_eq (fixSlash : Bool) (rest : Bytes) :
    viaWild fixSlash n rest (fun c after => (go c after).toOption) =
      (Node.viaWild fixSlash n rest go).toOption := by
  obtain ⟨htake, hdrop⟩ := take_firstSegment rest
  have hle := length_firstSegment_le rest
  have hlength := congrArg List.length hdrop
  rw [List.length_drop] at hlength
  rw [viaWild, Node.viaWild]
  cases n.kind with
  | static | root | catchAll => rfl
  | param =>
      dsimp only
      rw [upTo_eq hle, since_eq hle, htake, hdrop]
      dsimp only [Option.bind_eq_bind, Option.bind_some]
      cases hafter : rest.dropWhile (· ≠ slash) with
      | nil =>
          rw [hafter, List.length_nil] at hlength
          rw [if_neg (by omega)]
          rfl
      | cons b after =>
          rw [hafter, List.length_cons] at hlength
          rw [if_pos (by omega)]
          have hlast : (rest.length == (firstSegment rest).length + 1) =
              ((b :: after).length == 1) := by
            rw [Bool.eq_iff_iff, beq_iff_eq, beq_iff_eq, List.length_cons]
            omega
          obtain ⟨kind, label, keys, hasWild, priority, children, value, route⟩ := n
          cases children with
          | nil =>
              dsimp only
              rw [hlast]
              rfl
          | cons c cs =>
              dsimp only
              cases go ⟨c, List.mem_cons_self⟩ (b :: after) <;> rfl

end Children

theorem recase_eq (fixSlash : Bool) (n : Node α) (path pending : Bytes) (above : Bool) :
    recase fixSlash n path pending above = (Node.recase fixSlash n path pending above).toOption := by
  induction n using size_induction generalizing path pending above with
  | h n ih =>
      rw [recase, Node.recase, fits_eq]
      dsimp only [Option.bind_eq_bind, Option.bind_some]
      by_cases hfits : n.fits path = true
      · have hle : n.label.length ≤ path.length := by
          rw [Node.fits, Bool.and_eq_true, decide_eq_true_eq] at hfits
          exact hfits.1
        rw [if_pos hfits, if_pos hfits, since_eq hle]
        dsimp only [Option.bind_some]
        by_cases hrest : path.drop n.label.length = []
        · rw [if_pos hrest, if_pos hrest, closeAt_eq]
          cases Node.closeAt fixSlash n <;> rfl
        · have hchild (c : { c : Node α // c ∈ n.children }) :=
            ih c.1 (size_lt_of_mem c.2)
          have hgrandchild (w : { w : Node α // w ∈ n.children })
              (c : { c : Node α // c ∈ w.1.children }) :=
            ih c.1 (Nat.lt_trans (size_lt_of_mem c.2) (size_lt_of_mem w.2))
          have hlength : n.label.length < path.length := by
            rw [List.drop_eq_nil_iff] at hrest
            omega
          rw [if_neg hrest, if_neg hrest]
          simp only [hchild, hgrandchild, viaWild_eq, lastChild_eq]
          rw [viaStatic_eq fixSlash _ hlength]
          split
          · next e he =>
              rw [he]
              rfl
          · next answer he =>
              rw [he]
              rfl
          · next he =>
              rw [he]
              dsimp only [Except.toOption, Option.bind_some]
              cases n.lastChild with
              | error e => rfl
              | ok w =>
                  dsimp only [Option.bind_some]
                  generalize Node.viaWild fixSlash w.1 _ _ = answer
                  cases answer <;> rfl
      · rw [if_neg hfits, if_neg hfits, closeBefore_eq]
        rfl

theorem bare_recase {n : Node α} (h : n.Bare) (fixSlash : Bool) (path pending : Bytes) (above : Bool) :
    ∃ answer, Node.recase fixSlash n path pending above = .ok answer := by
  have hslot (b : UInt8) : n.slot? b = none := slot_none.2 (by simp [h.keys])
  have hkeyed (b : UInt8) : n.keyed b = .ok none := keyed_none (hslot b)
  rw [Node.recase]
  split
  · dsimp only
    split
    · rw [Node.closeAt, h.value, hkeyed]
      cases fixSlash <;> exact ⟨_, rfl⟩
    · have hkey (spelling : Bytes) (go) : n.viaKey spelling go = .ok none := by
        rw [Node.viaKey, hkeyed]
      have hstatic (rest awaited : Bytes) (go) :
          ∃ answer, Node.viaStatic fixSlash n path rest awaited go = .ok (some answer) := by
        have hverdict : n.verdict fixSlash rest none =
            some (if fixSlash && rest == [slash] && n.value.isSome then some [] else none) := by
          rw [verdict, h.hasWild]
          rfl
        rw [Node.viaStatic, h.hasWild, Bool.and_false]
        dsimp only
        rw [if_neg Bool.false_ne_true, hkey, hkey, hkey]
        dsimp only [Except.map]
        rw [hverdict, ite_self]
        split <;> exact ⟨_, rfl⟩
      obtain ⟨answer, hanswer⟩ := hstatic _ _ _
      rw [hanswer]
      exact ⟨_, rfl⟩
  · exact ⟨_, rfl⟩

theorem findCase_eq {root : Node α} {routes : List (String × α)} (h : Tracks root routes)
    (path : String) (fixSlash : Bool) :
    findCase root path fixSlash = some (root.findCase path fixSlash) := by
  have hsearch : findCase.search root path fixSlash =
      some (Node.findCase.search root path fixSlash) := by
    obtain ⟨answer, hanswer⟩ : ∃ answer,
        Node.recase fixSlash root (utf8 path) [] false = .ok answer := by
      rcases h.shape with hbare | hsound
      · exact bare_recase hbare ..
      · exact recase_total hsound (.inl h.kind) ..
    rw [findCase.search, Node.findCase.search, recase_eq, hanswer]
    cases answer <;> rfl
  rw [findCase, Node.findCase]
  cases utf8 path with
  | nil => exact hsearch
  | cons p ps =>
      cases root.label with
      | nil => exact hsearch
      | cons l ls =>
          dsimp only
          split
          · exact hsearch
          · rfl

end HttpRouting.Strict

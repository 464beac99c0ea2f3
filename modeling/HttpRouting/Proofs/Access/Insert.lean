import HttpRouting.Proofs.Access.Slice
import HttpRouting.Proofs.Tree.Built
import HttpRouting.Proofs.Tree.Growth

namespace HttpRouting.Strict

open Bytes Node

variable {α : Type}

section Siblings

/-- The place to which the child at `i` moves: ahead of the siblings right before it that have a lower
priority than `priority`. -/
def sink (children : List (Node α)) (priority : Nat) : (i : Nat) → Option Nat
  | 0 => some 0
  | i + 1 => do
      let before ← children[i]?
      let _ ← children[i + 1]?
      if before.priority < priority then sink children priority i else return i + 1

def promote (n : Node α) (i : Nat) : Option (Node α) := do
  let c ← n.children[i]?
  let place ← sink n.children c.priority i
  if place = i then return n
  else
    let front ← upTo n.keys place
    let key ← between n.keys i (i + 1)
    let passed ← between n.keys place i
    let back ← since n.keys (i + 1)
    return { n with children := move n.children i place, keys := front ++ key ++ passed ++ back }

def settle (n : Node α) (i : Nat) (c : Node α) : Option (Node α) :=
  promote { n with children := n.children.set i c } i

def addChild (n : Node α) (c : Node α) : Option (Node α) := do
  let i := if n.hasWild ∧ 0 < n.children.length then n.children.length - 1 else n.children.length
  let children := n.children.insertIdx i c
  let _ ← children[i]?
  return { n with children }

def addStatic (n : Node α) (key : UInt8) (c : Node α) : Option (Node α) := do
  let n ← addChild { n with keys := n.keys ++ [key] } c
  promote n (← lastIndex n.keys)

def addWild (n : Node α) (c : Node α) : Option (Node α) := do
  return { (← addChild n c) with hasWild := true }

theorem sink_eq {children : List (Node α)} (priority : Nat) {i : Nat} (hi : i < children.length) :
    sink children priority i =
      some (i - ((children.take i).reverse.takeWhile (·.priority < priority)).length) := by
  induction i with
  | zero => rfl
  | succ i ih =>
      have hi' : i < children.length := by omega
      rw [sink, List.getElem?_eq_getElem hi', List.getElem?_eq_getElem hi, List.take_succ_eq_append_getElem hi',
        List.reverse_append, List.reverse_singleton, List.singleton_append, List.takeWhile_cons]
      dsimp only [Option.bind_eq_bind, Option.bind_some]
      by_cases hlow : children[i].priority < priority
      · rw [if_pos hlow, ih hi', if_pos (decide_eq_true hlow), List.length_cons, Nat.succ_sub_succ]
      · rw [if_neg hlow, if_neg (by simpa using hlow)]
        rfl

theorem move_self {β : Type} (xs : List β) (i : Nat) : move xs i i = xs := by
  unfold move
  split
  · next x hx =>
      obtain ⟨hi, rfl⟩ := List.getElem?_eq_some_iff.1 hx
      exact List.insertIdx_eraseIdx_getElem hi
  · rfl

theorem insertIdx_end {β : Type} {xs : List β} {k : Nat} (h : xs.length = k) (x : β) :
    xs.insertIdx k x = xs ++ [x] := by
  subst h
  exact List.insertIdx_length_self

theorem move_parts {β : Type} {xs : List β} {i j : Nat} (hj : j ≤ i) (hi : i < xs.length) :
    move xs i j = xs.take j ++ [xs[i]] ++ (xs.take i).drop j ++ xs.drop (i + 1) := by
  have hfront : (xs.take i).take j = xs.take j := by rw [List.take_take, Nat.min_eq_left hj]
  have herase : xs.eraseIdx i = xs.take j ++ ((xs.take i).drop j ++ xs.drop (i + 1)) := by
    rw [List.eraseIdx_eq_take_drop_succ, ← List.append_assoc, ← hfront, List.take_append_drop]
  have hlength : (xs.take j).length = j := by
    rw [List.length_take]
    omega
  have hinsert : (xs.take j).insertIdx j xs[i] = xs.take j ++ [xs[i]] := insertIdx_end hlength _
  rw [move, List.getElem?_eq_getElem hi]
  dsimp only
  rw [herase, insertIdx_append (Nat.le_of_eq hlength.symm), hinsert]
  simp

theorem promote_eq {n c : Node α} {i : Nat} (hc : n.children[i]? = some c)
    (hkey : i < n.keys.length ∨ i = 0) : promote n i = some (n.promote i) := by
  have hi := (List.getElem?_eq_some_iff.1 hc).1
  rw [promote, Node.promote, hc]
  dsimp only [Option.bind_eq_bind, Option.bind_some]
  rw [sink_eq c.priority hi]
  dsimp only [Option.bind_some]
  generalize ((n.children.take i).reverse.takeWhile (·.priority < c.priority)).length = passed
  by_cases hplace : i - passed = i
  · rw [if_pos hplace, hplace, move_self, move_self]
    cases n
    rfl
  · have hkey : i < n.keys.length := by omega
    have hone : (n.keys.take (i + 1)).drop i = [n.keys[i]] := by
      rw [List.take_succ_eq_append_getElem hkey, List.drop_left' (by simp; omega)]
    rw [if_neg hplace, upTo_eq (by omega), between_eq (by omega) hkey,
      between_eq (by omega) (by omega), since_eq hkey, move_parts (Nat.sub_le i passed) hkey, hone]
    rfl

theorem settle_eq {n c c' : Node α} {i : Nat} (hc : n.children[i]? = some c)
    (hkey : i < n.keys.length ∨ i = 0) : settle n i c' = some (n.settle i c') := by
  have hi := (List.getElem?_eq_some_iff.1 hc).1
  have hset : (n.children.set i c')[i]? = some c' := by
    rw [List.getElem?_set_self hi]
  exact promote_eq (n := { n with children := n.children.set i c' }) hset hkey

theorem addChild_eq {n : Node α} {i : Nat} (h : i = n.statics.length) (c : Node α) :
    addChild n c = some { n with children := n.children.insertIdx i c } := by
  have hi : (if n.hasWild ∧ 0 < n.children.length then n.children.length - 1
      else n.children.length) = i := by
    rw [h, statics]
    split <;> split <;> simp_all
  have hle : i ≤ n.children.length := h ▸ length_statics_le n
  rw [addChild, hi, List.getElem?_insertIdx_self, if_pos hle]
  rfl

theorem addChild_last {n : Node α} (h : n.hasWild = false) (c : Node α) :
    addChild n c = some { n with children := n.children ++ [c] } := by
  have hstatics : n.children.length = n.statics.length := by rw [statics, h]; rfl
  rw [addChild_eq hstatics, List.insertIdx_length_self]

theorem addStatic_eq {n : Node α} (h : n.keys.length = n.statics.length) (key : UInt8) (c : Node α) :
    addStatic n key c = some (n.addStatic key c) := by
  have hle : n.keys.length ≤ n.children.length := h ▸ length_statics_le n
  have hadd := @addChild_eq _ { n with keys := n.keys ++ [key] } _ h c
  have hlast : lastIndex (n.keys ++ [key]) = some n.keys.length := by simp [lastIndex]
  have hc : (n.children.insertIdx n.keys.length c)[n.keys.length]? = some c := by
    rw [List.getElem?_insertIdx_self, if_pos hle]
  have hpromote := @promote_eq _ { n with
    keys := n.keys ++ [key]
    children := n.children.insertIdx n.keys.length c } c n.keys.length hc (.inl (by simp))
  rw [addStatic, hadd]
  dsimp only [Option.bind_eq_bind, Option.bind_some]
  rw [hlast, Option.bind_some, hpromote, Node.addStatic]

theorem addWild_eq {n : Node α} (h : n.hasWild = false) (c : Node α) :
    addWild n c = some (n.addWild c) := by
  rw [addWild, addChild_last h]
  rfl

end Siblings

section Grafts

def graftCatchAll (route : String) (v : α) (n : Node α) (path : Bytes) (w : Wildcard) :
    Option (Placement α) :=
  if w.stop ≠ path.length then some ⟨n, .error (.catchAllNotLast route)⟩
  else if n.label.getLast? = some slash then some ⟨n, .error (n.catchAllConflict route path)⟩
  else if w.start = 0 then some ⟨n, .error (.missingSlashBeforeCatchAll route)⟩
  else do
    let before ← path[w.start - 1]?
    if before ≠ slash then return ⟨n, .error (.missingSlashBeforeCatchAll route)⟩
    else
      let front ← unescape (← upTo path (w.start - 1)) 0
      let label ← since path (w.start - 1)
      let leaf : Node α := { kind := .catchAll, label, priority := 1, value := some v, route }
      let holder : Node α :=
        { kind := .catchAll, hasWild := true, priority := 1, children := [leaf], route }
      let n ← addChild { n with label := front } holder
      return ⟨{ n with keys := [slash] }, .ok ()⟩

/-- What stands before, in and behind a wildcard. -/
def cut (path : Bytes) (w : Wildcard) : Option (Bytes × Bytes × Bytes) := do
  let front ← upTo path w.start
  let tail ← since path w.start
  return (front, ← upTo tail w.token.length, ← since tail w.token.length)

theorem cut_eq {path : Bytes} {w : Wildcard} (h : w.stop ≤ path.length) :
    cut path w =
      some (path.take w.start, (path.drop w.start).take w.token.length, path.drop w.stop) := by
  have hle : w.start + w.token.length ≤ path.length := h
  have htoken : w.token.length ≤ (path.drop w.start).length := by
    rw [List.length_drop]
    omega
  rw [cut, upTo_eq (by omega), since_eq (by omega)]
  dsimp only [Option.bind_eq_bind, Option.bind_some]
  rw [upTo_eq htoken, since_eq htoken, List.drop_drop]
  rfl

theorem since_some {β : Type} {xs ys : List β} {k : Nat} (h : since xs k = some ys) :
    k + ys.length = xs.length := by
  unfold since at h
  split at h
  · cases h
    rw [List.length_drop]
    omega
  · cases h

theorem cut_length {path front token rest : Bytes} {w : Wildcard}
    (h : cut path w = some (front, token, rest)) : rest.length + w.token.length ≤ path.length := by
  simp only [cut, Option.bind_eq_bind, Option.bind_eq_some_iff] at h
  obtain ⟨_, -, tail, htail, _, -, rest', hrest, heq⟩ := h
  cases heq
  have := since_some htail
  have := since_some hrest
  omega

def labelled (n : Node α) (text : Bytes) : Option (Node α) :=
  if text.length = 0 then some n else do return { n with label := ← unescape text 0 }

def graft (route : String) (v : α) (n : Node α) (path : Bytes) : Option (Placement α) :=
  match find path with
  | none => none
  | some (.error _) => some ⟨n, .error (.invalidEscape (asText path))⟩
  | some (.ok none) => do
      return ⟨{ n with label := ← unescape path 0, value := some v, route }, .ok ()⟩
  | some (.ok (some w)) =>
      if !w.valid then some ⟨n, .error (.multipleWildcards (asText w.token) route)⟩
      else if w.token.length < 2 then some ⟨n, .error (.unnamedWildcard route)⟩
      else if w.isCatchAll then graftCatchAll route v n path w
      else
        match _ : cut path w with
        | none => none
        | some (front, label, rest) => do
            let n ← labelled n front
            let param : Node α := { kind := .param, label, priority := 1, route }
            if rest = [] then return ⟨← addWild n { param with value := some v }, .ok ()⟩
            else
              let p ← graft route v { priority := 1, route } rest
              return ⟨← addWild n (← addChild param p.node), p.outcome⟩
termination_by path.length
decreasing_by
  rename_i hcut _
  have := cut_length hcut
  omega

theorem labelled_eq (n : Node α) (text : Bytes) : labelled n text = some (n.labelled text) := by
  rw [labelled, Node.labelled, unescape_eq, List.drop_zero]
  split <;> rfl

theorem graftCatchAll_eq (route : String) (v : α) {n : Node α} (hn : n.hasWild = false) {path : Bytes}
    {w : Wildcard} (htoken : 2 ≤ w.token.length) :
    graftCatchAll route v n path w = some (Node.graftCatchAll route v n path w) := by
  rw [graftCatchAll, Node.graftCatchAll]
  by_cases hstop : w.stop = path.length
  · rw [if_neg (not_not.2 hstop), if_neg (not_not.2 hstop)]
    split
    · rfl
    by_cases hstart : w.start = 0
    · rw [if_pos hstart, if_pos (.inl hstart)]
    rw [Wildcard.stop] at hstop
    have hlt : w.start - 1 < path.length := by omega
    rw [if_neg hstart, List.getElem?_eq_getElem hlt]
    dsimp only [Option.bind_eq_bind, Option.bind_some]
    by_cases hslash : path[w.start - 1] = slash
    · rw [if_neg (not_not.2 hslash), if_neg (by simp [hstart, hslash]), upTo_eq (by omega),
        since_eq (by omega)]
      dsimp only [Option.bind_some]
      rw [unescape_eq, List.drop_zero]
      dsimp only [Option.bind_some]
      have hadd := @addChild_last _ { n with label := Pattern.unescape (path.take (w.start - 1)) } hn
      rw [hadd]
      rfl
    · rw [if_pos hslash, if_pos (.inr (by simpa using hslash))]
      rfl
  · rw [if_pos hstop, if_pos hstop]

theorem graft_eq (route : String) (v : α) {n : Node α} (hn : n.hasWild = false) (path : Bytes) :
    graft route v n path = some (Node.graft route v n path) := by
  induction hlength : path.length using Nat.strongRecOn generalizing n path with
  | ind length ih =>
      rw [graft, Node.graft, find_eq, Pattern.firstWildcard]
      cases hfind : Wildcard.find? path with
      | error e => rfl
      | ok found =>
          cases found with
          | none =>
              dsimp only [Except.mapError]
              rw [unescape_eq]
              rfl
          | some w =>
              dsimp only [Except.mapError]
              split
              · rfl
              split
              · rfl
              next htoken =>
                split
                · exact graftCatchAll_eq route v hn (Nat.not_lt.1 htoken)
                have hstop := stop_le hfind
                have hstart : (path.take w.start).length = w.start := by
                  rw [Wildcard.stop] at hstop
                  rw [List.length_take]
                  omega
                have hlabelled : labelled n (path.take w.start) = some
                    (if w.start = 0 then n
                      else { n with label := Pattern.unescape (path.take w.start) }) := by
                  rw [labelled_eq, Node.labelled, hstart]
                have hwild : (if w.start = 0 then n
                    else { n with label := Pattern.unescape (path.take w.start) }).hasWild = false := by
                  split <;> exact hn
                have hshorter : (path.drop w.stop).length < length := by
                  have hsum : w.stop = w.start + w.token.length := rfl
                  rw [List.length_drop]
                  omega
                split
                · next hcut =>
                    rw [cut_eq hstop] at hcut
                    cases hcut
                · next front label rest hcut =>
                    rw [cut_eq hstop, take_token hfind] at hcut
                    cases hcut
                    rw [hlabelled]
                    dsimp only [Option.bind_eq_bind, Option.bind_some]
                    split
                    · rw [addWild_eq hwild]
                      rfl
                    · have hparam : addChild { kind := .param, label := w.token, priority := 1, route }
                          (Node.graft route v { priority := 1, route } (path.drop w.stop)).node = _ :=
                        addChild_last rfl _
                      rw [ih _ hshorter rfl _ rfl]
                      dsimp only [Option.bind_some]
                      rw [hparam]
                      dsimp only [Option.bind_some]
                      rw [addWild_eq hwild]
                      rfl

end Grafts

section Places

def overlapAt (n : Node α) (path : Bytes) : Option (Nat × Nat) :=
  if n.isWildcard then some (commonLength path n.label, commonLength path n.label)
  else overlap path n.label 0 0

def split (n : Node α) (k : Nat) : Option (Node α) := do
  let label ← since n.label k
  let key ← n.label[k]?
  return {
    kind := n.kind
    label := n.label.take k
    keys := [key]
    priority := n.priority
    children := [{ n with kind := .static, label }] }

def extend (route : String) (v : α) (n : Node α) (rest : Bytes) : Option (Placement α) :=
  if rest = [] then
    match n.value with
    | some _ => some ⟨n, .error (.duplicateRoute route)⟩
    | none => some ⟨{ n with value := some v, route }, .ok ()⟩
  else
    match Pattern.nextLiteral? rest with
    | some (b, _) =>
        if n.kind = .catchAll then graft route v n rest
        else do
          let p ← graft route v { priority := 1, route } rest
          return ⟨← addStatic n b p.node, p.outcome⟩
    | none => graft route v n rest

def takes (n : Node α) (rest : Bytes) : Option Bool :=
  if rest.length < n.label.length then some false
  else do
    let front ← upTo rest n.label.length
    if front ≠ n.label ∨ n.kind = .catchAll then return false
    else if rest.length ≤ n.label.length then return true
    else return (← rest[n.label.length]?) == slash

/-- The refusal of a pattern that meets another wildcard. It quotes the route up to the byte at which
the blocked part was found. -/
def wildcardConflict (n : Node α) (route : String) (rest : Bytes) : Option RouteError := do
  let blocked := asText (if n.kind = .catchAll then rest else firstSegment rest)
  let wildcard := asText n.label
  let place := ((before? blocked.toList route.toList).map fun cs => (Utf8.encode cs).length).getD 0
  let front ← textUpTo route.toList place
  return .wildcardConflict blocked route wildcard (String.ofList front ++ wildcard)

def place (route : String) (v : α) (n : Node α) (path : Bytes) : Option (Placement α) := do
  let (used, common) ← overlapAt n path
  let rest ← since path used
  if common < n.label.length then extend route v (← split n common).raised rest
  else
    match n.turn rest with
    | .stop => extend route v n.raised rest
    | .descend i =>
        match _ : n.children[i]? with
        | none => none
        | some c =>
            let p ← place route v c rest
            return ⟨← settle n.raised i p.node, p.outcome⟩
    | .wild =>
        match _ : (lastIndex n.children).bind (n.children[·]?) with
        | none => none
        | some c =>
            if ← takes c rest then
              let p ← place route v c rest
              return ⟨n.raised.replaceLast p.node, p.outcome⟩
            else return ⟨n.raised, .error (← wildcardConflict c route rest)⟩
termination_by n.size
decreasing_by
  · exact size_lt_of_mem (List.mem_of_getElem? ‹_›)
  · rename_i hlast
    rw [lastIndex_getElem?] at hlast
    exact size_lt_of_mem (List.mem_of_getLast? hlast)

def insertChecked (root : Node α) (route : String) (v : α) : Option (Placement α) := do
  if root.isVacant then
    let p ← graft route v root.raised (utf8 route)
    match p.outcome with
    | .ok () => return p.map ({ · with kind := .root })
    | .error _ => return p
  else place route v root (utf8 route)

def insert (root : Node α) (route : String) (v : α) : Option (Placement α) := do
  match ← check route with
  | .error e => return ⟨root, .error e⟩
  | .ok () =>
      let p ← insertChecked root route v
      match p.outcome with
      | .ok () => return p
      | .error _ => return p.map recount

theorem commonLength_le (as bs : Bytes) : commonLength as bs ≤ as.length := by
  fun_induction commonLength as bs with
  | case1 | case2 | case3 => simp_all

theorem overlapAt_eq {n : Node α} {path : Bytes} {used common : Nat}
    (h : n.overlap path = (used, common)) :
    overlapAt n path = some (used, common) ∧ used ≤ path.length := by
  rw [Node.overlap] at h
  rw [overlapAt]
  split at h
  · next hwildcard =>
      cases h
      rw [if_pos hwildcard]
      exact ⟨rfl, commonLength_le ..⟩
  · next hstatic =>
      obtain ⟨hoverlap, hle⟩ := overlap_eq (Nat.zero_le _) (Nat.zero_le _) h
      rw [Nat.zero_add] at hoverlap hle
      rw [if_neg hstatic, hoverlap, Nat.zero_add]
      exact ⟨rfl, hle⟩

theorem split_eq {n : Node α} {k : Nat} (hk : k < n.label.length) :
    split n k = some (n.split k) := by
  have hkey : (n.label.drop k).take 1 = [n.label[k]] := by
    rw [List.drop_eq_getElem_cons hk]
    rfl
  rw [split, since_eq (Nat.le_of_lt hk), List.getElem?_eq_getElem hk, Node.split, hkey]
  rfl

theorem takes_eq (n : Node α) (rest : Bytes) : takes n rest = some (n.takes rest) := by
  rw [takes, Node.takes]
  by_cases hshort : rest.length < n.label.length
  · have hoff : n.label.isPrefixOf rest = false := by
      rw [Bool.eq_false_iff, ne_eq, List.isPrefixOf_iff_prefix]
      exact fun h => Nat.not_le.2 hshort h.length_le
    rw [if_pos hshort, hoff, Bool.and_false, Bool.false_and]
  · have hle := Nat.not_lt.1 hshort
    rw [if_neg hshort, upTo_eq hle]
    dsimp only [Option.bind_eq_bind, Option.bind_some]
    by_cases hfront : rest.take n.label.length = n.label
    · have hprefix : n.label.isPrefixOf rest = true :=
        List.isPrefixOf_iff_prefix.2 (List.prefix_iff_eq_take.2 hfront.symm)
      by_cases hkind : n.kind = .catchAll
      · rw [if_pos (.inr hkind)]
        simp [hkind]
      have hother : (n.kind != .catchAll) = true := by simpa using hkind
      rw [if_neg (not_or.2 ⟨not_not.2 hfront, hkind⟩), hprefix, hother]
      by_cases hend : rest.length ≤ n.label.length
      · rw [if_pos hend, List.drop_eq_nil_of_le hend]
        rfl
      · have hlt := Nat.not_le.1 hend
        rw [if_neg hend, List.drop_eq_getElem_cons hlt, List.getElem?_eq_getElem hlt]
        rfl
    · have hoff : n.label.isPrefixOf rest = false := by
        rw [Bool.eq_false_iff, ne_eq, List.isPrefixOf_iff_prefix, List.prefix_iff_eq_take]
        exact Ne.symm hfront
      rw [if_pos (.inl hfront), hoff, Bool.and_false, Bool.false_and]
      rfl

theorem wildcardConflict_eq (n : Node α) (route : String) (rest : Bytes) :
    wildcardConflict n route rest = some (n.wildcardConflict route rest) := by
  rw [wildcardConflict, Node.wildcardConflict]
  generalize asText (if n.kind = .catchAll then rest else firstSegment rest) = blocked
  have hfront : textUpTo route.toList
      (((before? blocked.toList route.toList).map fun cs => (Utf8.encode cs).length).getD 0) =
        some ((before? blocked.toList route.toList).getD []) := by
    cases hbefore : before? blocked.toList route.toList with
    | none => cases route.toList <;> rfl
    | some front =>
        obtain ⟨⟨more, hmore⟩, -⟩ := before?_first hbefore
        rw [hmore, List.append_assoc]
        exact textUpTo_encode front _
  rw [hfront]
  rfl

theorem extend_eq (route : String) (v : α) {n : Node α} (hkind : n.kind ≠ .catchAll) {rest : Bytes}
    (hkeys : rest ≠ [] → n.keys.length = n.statics.length)
    (hwild : rest ≠ [] → Pattern.nextLiteral? rest = none → n.hasWild = false) :
    extend route v n rest = some (Node.extend route v n rest) := by
  rw [extend, Node.extend]
  split
  · cases n.value <;> rfl
  next hne =>
    cases hb : Pattern.nextLiteral? rest with
    | some next =>
        have hle : n.keys.length ≤ n.children.length := hkeys hne ▸ length_statics_le n
        obtain ⟨b, width⟩ := next
        dsimp only
        rw [if_neg (Nat.not_lt.2 hle), graft_eq route v rfl]
        dsimp only [Option.bind_eq_bind, Option.bind_some]
        rw [addStatic_eq (hkeys hne)]
        rfl
    | none => exact graft_eq route v (hwild hne hb) rest

end Places

section Turns

variable {n : Node α} {path : Bytes}

/-- Where an insertion turns at a node of a grown tree, and what its next step can rely on. -/
inductive Turning (n : Node α) (path : Bytes) : Prop
  | split {used common : Nat} (hoverlap : n.overlap path = (used, common))
      (hlt : common < n.label.length) (hkind : n.kind ≠ .catchAll)
  | stop {used : Nat} (hoverlap : n.overlap path = (used, n.label.length))
      (hturn : n.turn (path.drop used) = .stop) (hkind : n.kind ≠ .catchAll)
      (hkeys : path.drop used ≠ [] → n.keys.length = n.statics.length)
  | descend {used i : Nat} {c : Node α} (hoverlap : n.overlap path = (used, n.label.length))
      (hturn : n.turn (path.drop used) = .descend i) (hc : n.children[i]? = some c)
      (hkey : i < n.keys.length ∨ i = 0) (hgrammar : Pattern.Grammar false (path.drop used))
      (henters : c.Enters (path.drop used))
  | wild {used : Nat} {front : List (Node α)} {c : Node α}
      (hoverlap : n.overlap path = (used, n.label.length))
      (hturn : n.turn (path.drop used) = .wild) (hchildren : n.children = front ++ [c])
      (hnext : c.takes (path.drop used) = true →
        Pattern.Grammar false (path.drop used) ∧ c.Enters (path.drop used))

theorem turning_below {used : Nat} {slots : List (UInt8 × Node α)} {wild : Option (Node α)}
    (hn : n.Sound) (hbranch : n.IsBranch slots wild)
    (hoverlap : n.overlap path = (used, n.label.length))
    (hrest : Pattern.Grammar (Pattern.slashedAfter false n.label) (path.drop used)) :
    Turning n path := by
  obtain ⟨hparam, hcatchAll⟩ := hbranch.not_wildcard
  have hkeys : n.keys.length = n.statics.length := by
    rw [hbranch.keys, hbranch.statics, List.length_map, List.length_map]
  cases hb : Pattern.nextLiteral? (path.drop used) with
  | some next =>
      obtain ⟨b, width⟩ := next
      obtain ⟨helements, -⟩ := Pattern.nextLiteral?_some hrest hb
      have hturn := turn_literal (n := n) hb
      rw [if_neg (fun h => hparam h.1), if_neg hcatchAll] at hturn
      cases hi : n.slot? b with
      | some i =>
          rw [hi] at hturn
          obtain ⟨c, hslot, hc⟩ := hbranch.slot_some hi
          have hkeyed := hbranch.keyed _ (List.mem_of_getElem? hslot)
          have hlt : i < n.keys.length := by
            rw [hbranch.keys, List.length_map]
            exact (List.getElem?_eq_some_iff.1 hslot).1
          exact .descend hoverlap hturn hc (.inl hlt) (Pattern.grammar_of_nextLiteral? hrest hb)
            (hkeyed.enters (hn.child (List.mem_of_getElem? hc)) helements)
      | none =>
          rw [hi] at hturn
          exact .stop hoverlap hturn hcatchAll fun _ => hkeys
  | none =>
      by_cases hnil : path.drop used = []
      · exact .stop hoverlap (by rw [hnil, turn_end]) hcatchAll fun _ => hkeys
      have hturn := turn_wildcard (n := n) hnil hb
      rw [hbranch.hasWild] at hturn
      cases wild with
      | none => exact .stop hoverlap hturn hcatchAll fun _ => hkeys
      | some w =>
          have hchildren : n.children = slots.map Prod.snd ++ [w] := hbranch.children
          have hkind := hbranch.param w rfl
          obtain ⟨name, next, hw⟩ := Sound.param (hn.child (by simp [hchildren])) hkind
          obtain ⟨e, es, -, -, -, hgrammar⟩ :=
            hw.takes_front (Pattern.nextLiteral?_none hrest hb) hnil
          exact .wild hoverlap hturn hchildren fun htakes =>
            ⟨hgrammar htakes, fun _ => htakes, fun h => by simp [hkind] at h⟩

theorem turning_param {name : Bytes} {next : Option (Node α)} (hn : n.Sound)
    (hparam : n.IsParam name next) (hpath : Pattern.Grammar false path)
    (htakes : n.takes path = true) : Turning n path := by
  obtain ⟨rest, rfl, hstop, hrest⟩ := hparam.of_takes hpath htakes
  have hoverlap := overlap_wildcard (n := n) (by simp [isWildcard, hparam.kind]) rest
  have hdrop : (n.label ++ rest).drop n.label.length = rest := List.drop_left
  have hkind : n.kind ≠ .catchAll := by simp [hparam.kind]
  by_cases hnil : rest = []
  · exact .stop hoverlap (by rw [hdrop, hnil, turn_end]) hkind fun hne => absurd (hdrop.trans hnil) hne
  obtain ⟨es, hes⟩ := elements_of_firstSegment hstop hnil
  obtain ⟨width, hb⟩ := Pattern.nextLiteral?_of_elements hrest hes
  have hturn := turn_literal (n := n) hb
  cases next with
  | some c =>
      have hc : n.children[0]? = some c := by simp [hparam.children]
      have henters := (hparam.keyed c rfl).enters (hn.child (List.mem_of_getElem? hc)) hes
      rw [if_pos ⟨hparam.kind, rfl, by simp [hparam.children]⟩] at hturn
      rw [← hdrop] at hturn hrest henters
      exact .descend hoverlap hturn hc (.inr rfl) hrest henters
  | none =>
      have hslot : n.slot? slash = none := slot_none.2 (by simp [hparam.keys rfl])
      rw [if_neg (by simp [hparam.children]), hslot, if_neg hkind] at hturn
      rw [← hdrop] at hturn
      exact .stop hoverlap hturn hkind fun _ => by rw [hparam.keys rfl, hparam.statics]; rfl

theorem turning (hn : n.Sound) (hpath : Pattern.Grammar false path) (henters : n.Enters path) :
    Turning n path := by
  cases hn.here with
  | branch slots wild hbranch =>
      obtain ⟨-, hrest, -⟩ := Pattern.overlap_elements hpath n.label
      have hle := Pattern.overlap_snd_le path n.label
      obtain ⟨⟨used, common⟩, ho⟩ : ∃ o, Pattern.overlap path n.label = o := ⟨_, rfl⟩
      have hoverlap := (hbranch.overlap path).trans ho
      rw [ho] at hrest hle
      rcases Nat.lt_or_eq_of_le hle with hlt | heq
      · exact .split hoverlap hlt hbranch.not_wildcard.2
      · dsimp only at *
        subst heq
        rw [List.take_length] at hrest
        exact turning_below hn hbranch hoverlap hrest
  | param name next hparam =>
      exact turning_param hn hparam hpath (henters.param hparam.kind)
  | holder leaf hholder =>
      have hturn : n.turn (path.drop 0) = .wild := hholder.turn (henters.holder hholder.kind).2
      have hchildren : n.children = [] ++ [leaf] := hholder.children
      refine .wild (hholder.overlap path) hturn hchildren fun htakes => ?_
      simp [Node.takes, hholder.leafKind] at htakes
  | leaf name hleaf =>
      have hwild := (henters.holder hleaf.kind).1
      simp [hleaf.hasWild] at hwild

end Turns

section Insert

/-- A raised or split node stands as the node does. -/
theorem split_extend (route : String) (v : α) {n : Node α} {k : Nat} (hk : k < n.label.length)
    (hkind : n.kind ≠ .catchAll) (rest : Bytes) :
    extend route v (n.split k).raised rest = some (Node.extend route v (n.split k).raised rest) := by
  have hkeys : (n.split k).raised.keys.length = (n.split k).raised.statics.length := by
    rw [raised, Node.split, List.drop_eq_getElem_cons hk]
    rfl
  exact @extend_eq _ route v (n.split k).raised hkind rest (fun _ => hkeys) fun _ _ => rfl

theorem place_eq (route : String) (v : α) {n : Node α} {path : Bytes} (hn : n.Sound)
    (hpath : Pattern.Grammar false path) (henters : n.Enters path) :
    place route v n path = some (Node.place route v n path) := by
  induction n using below_induction generalizing path with
  | h n ih =>
      cases turning hn hpath henters with
      | split hoverlap hlt hkind =>
          obtain ⟨hstrict, hle⟩ := overlapAt_eq hoverlap
          rw [place, hstrict, place_split hoverlap hlt]
          dsimp only [Option.bind_eq_bind, Option.bind_some]
          rw [since_eq hle, Option.bind_some, if_pos hlt, split_eq hlt]
          exact split_extend route v hlt hkind _
      | stop hoverlap hturn hkind hkeys =>
          obtain ⟨hstrict, hle⟩ := overlapAt_eq hoverlap
          rw [place, hstrict, place_stop hoverlap hturn]
          dsimp only [Option.bind_eq_bind, Option.bind_some]
          rw [since_eq hle, Option.bind_some, if_neg (Nat.lt_irrefl _), hturn]
          refine extend_eq route v (n := n.raised) hkind hkeys fun hne hb => ?_
          rw [turn_wildcard hne hb] at hturn
          split at hturn
          · cases hturn
          · next hwild => exact Bool.not_eq_true _ ▸ hwild
      | descend hoverlap hturn hc hkey hgrammar henters =>
          have hmem := List.mem_of_getElem? hc
          obtain ⟨hstrict, hle⟩ := overlapAt_eq hoverlap
          rw [place, hstrict, place_descend hoverlap hturn hc]
          dsimp only [Option.bind_eq_bind, Option.bind_some]
          rw [since_eq hle, Option.bind_some, if_neg (Nat.lt_irrefl _), hturn]
          dsimp only
          split
          · next hnone =>
              rw [hc] at hnone
              cases hnone
          · next c' hc' =>
              cases hc.symm.trans hc'
              rw [ih _ hmem (hn.child hmem) hgrammar henters]
              dsimp only [Option.bind_some]
              rw [@settle_eq _ n.raised _ _ _ hc hkey]
              rfl
      | @wild used front c hoverlap hturn hchildren hnext =>
          have hmem : c ∈ n.children := by simp [hchildren]
          have hlast : (lastIndex n.children).bind (n.children[·]?) = some c := by
            rw [lastIndex_getElem?, hchildren, List.getLast?_concat]
          obtain ⟨hstrict, hle⟩ := overlapAt_eq hoverlap
          rw [place, hstrict, place_wild hoverlap hturn hchildren]
          dsimp only [Option.bind_eq_bind, Option.bind_some]
          rw [since_eq hle, Option.bind_some, if_neg (Nat.lt_irrefl _), hturn]
          dsimp only
          split
          · next hnone =>
              rw [hlast] at hnone
              cases hnone
          · next c' hc' =>
              cases hlast.symm.trans hc'
              rw [takes_eq, Option.bind_some]
              split
              · next htakes =>
                  obtain ⟨hgrammar, henters⟩ := hnext htakes
                  rw [ih _ hmem (hn.child hmem) hgrammar henters]
                  rfl
              · rw [wildcardConflict_eq]
                rfl

theorem insert_eq {root : Node α} {routes : List (String × α)} (h : Tracks root routes)
    (route : String) (v : α) : insert root route v = some (root.insert route v) := by
  rw [insert, Node.insert, check_eq]
  dsimp only [Option.bind_eq_bind, Option.bind_some]
  cases hcheck : Pattern.check route with
  | error e => rfl
  | ok _ =>
      have hchecked : insertChecked root route v = some (root.insertChecked route v) := by
        rw [insertChecked, Node.insertChecked]
        rcases h.shape with hbare | hsound
        · rw [hbare.isVacant, graft_eq route v hbare.raised.hasWild, if_pos rfl, if_pos rfl]
          obtain ⟨node, outcome⟩ := Node.graft route v root.raised (utf8 route)
          cases outcome <;> rfl
        · rw [hsound.not_isVacant]
          exact place_eq route v hsound (Pattern.grammar_of_check hcheck) (enters_of_kind h.kind _)
      dsimp only
      rw [hchecked]
      obtain ⟨node, outcome⟩ := root.insertChecked route v
      cases outcome <;> rfl

end Insert

end HttpRouting.Strict

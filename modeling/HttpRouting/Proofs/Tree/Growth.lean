import HttpRouting.Proofs.Tree.Place
import HttpRouting.Proofs.Tree.Recount

namespace HttpRouting.Node

open Bytes Pattern

variable {α : Type} {route : String} {v : α}

def statics (n : Node α) : List (Node α) := if n.hasWild then n.children.dropLast else n.children

/-- What stands in the way of a pattern at the node where it ends: a value, or a slash in front of the
catch-all that is left, below which the tree goes on. -/
inductive Occupied (route : String) (n : Node α) : Bytes → RouteError → Prop
  | value : Occupied route n [] (.duplicateRoute route)
  | slash {name : Bytes} (hname : IsName name) (hlast : n.label.getLast? = some Bytes.slash) :
      Occupied route n (star :: name) (n.catchAllConflict route (star :: name))

/-- How an insertion ends at a node with the rest of its pattern. -/
inductive Extends (route : String) (v : α) (n : Node α) : Bytes → Placement α → Prop
  | refused {rest : Bytes} {e : RouteError} (h : Occupied route n rest e) :
      Extends route v n rest ⟨n, .error e⟩
  | value (hvalue : n.value = none) :
      Extends route v n [] ⟨{ n with value := some v, route }, .ok ()⟩
  | static {rest : Bytes} {b : UInt8} {es : List Element} {c : Node α}
      (helements : elements rest = .literal b :: es) (hkeys : n.keys.length = n.statics.length)
      (hc : Grafts route v rest { priority := 1, route } c) :
      Extends route v n rest ⟨n.addStatic b c, .ok ()⟩
  | wild {name rest : Bytes} {next : Option (Node α)} (hwild : n.hasWild = false)
      (hname : IsName name) (hstop : firstSegment rest = []) (hnext : next = none ↔ rest = [])
      (hc : ∀ c, next = some c → Grafts route v rest { priority := 1, route } c) :
      Extends route v n (colon :: (name ++ rest)) ⟨n.addWild (stalk route v name next), .ok ()⟩

/-- How an insertion walks down. It splits the edge that its pattern leaves, ends at a node, goes on to
a child that grows in its stead, or meets a wildcard that does not take the rest. -/
inductive Walks (route : String) (v : α) : Bytes → Node α → Placement α → Prop
  | split {path rest : Bytes} {n : Node α} {k : Nat} {p : Placement α} (hk : k < n.label.length)
      (hkind : n.kind = .static ∨ n.kind = .root)
      (hfront : elements path = literals (n.label.take k) ++ elements rest)
      (hhead : ∀ b, n.label[k]? = some b → (elements rest).head? ≠ some (.literal b))
      (hp : Extends route v (n.split k).raised rest p) : Walks route v path n p
  | stop {path rest : Bytes} {n : Node α} {p : Placement α} (hkind : n.kind ≠ .catchAll)
      (hfront : elements path = edge n.kind n.label ++ elements rest)
      (hkeys : ∀ b, (elements rest).head? = some (.literal b) → b ∉ n.keys)
      (hp : Extends route v n.raised rest p) : Walks route v path n p
  | descend {path rest : Bytes} {n c : Node α} {i : Nat} {b : UInt8} {p : Placement α}
      (hfront : elements path = edge n.kind n.label ++ elements rest)
      (hi : i < n.statics.length) (hc : n.children[i]? = some c) (hkeyed : c.Keyed b)
      (hhead : (elements rest).head? = some (.literal b))
      (hgrows : Grows route v (elements rest) c p) (hp : Walks route v rest c p) :
      Walks route v path n (p.map (n.raised.settle i))
  | wild {path rest : Bytes} {n c : Node α} {front : List (Node α)} {p : Placement α}
      (hfront : elements path = edge n.kind n.label ++ elements rest) (hwild : n.hasWild = true)
      (hc : n.children = front ++ [c]) (hkind : c.kind = .param)
      (hgrows : Grows route v (elements rest) c p) (hp : Walks route v rest c p) :
      Walks route v path n (p.map n.raised.replaceLast)
  | refused {slashed : Bool} {path rest : Bytes} {n c : Node α} {front : List (Node α)}
      (hfront : elements path = edge n.kind n.label ++ elements rest) (hrest : Grammar slashed rest)
      (hwild : n.hasWild = true) (hc : n.children = front ++ [c]) :
      Walks route v path n ⟨n.raised, .error (c.wildcardConflict route rest)⟩

theorem statics_eq {n : Node α} (front : List (Node α)) (wild : Option (Node α))
    (hchildren : n.children = front ++ wild.toList) (hwild : n.hasWild = wild.isSome) :
    n.statics = front := by
  rw [statics, hchildren, hwild]
  cases wild with
  | none => simp
  | some w => simp

theorem IsBranch.statics {n : Node α} {slots : List (UInt8 × Node α)} {wild : Option (Node α)}
    (h : n.IsBranch slots wild) : n.statics = slots.map Prod.snd :=
  statics_eq _ _ h.children h.hasWild

theorem IsParam.statics {n : Node α} {name : Bytes} {next : Option (Node α)}
    (h : n.IsParam name next) : n.statics = next.toList := by
  have hchildren : n.children = next.toList ++ (none : Option (Node α)).toList := by
    simpa using h.children
  exact statics_eq _ _ hchildren h.hasWild

theorem length_statics_le (n : Node α) : n.statics.length ≤ n.children.length := by
  unfold statics
  split
  · exact (List.dropLast_sublist _).length_le
  · exact Nat.le_refl _

theorem extend_extends (route : String) (v : α) {n : Node α} (hkind : n.kind ≠ .catchAll)
    (hkeys : n.keys.length = n.statics.length) {slashed : Bool} {rest : Bytes}
    (hrest : Grammar slashed rest) (hslashed : slashed = true → n.label.getLast? = some slash)
    (hwild : ∀ name es, elements rest = .param name :: es → n.hasWild = false) :
    Extends route v n rest (extend route v n rest) := by
  cases hb : nextLiteral? rest with
  | some next =>
      obtain ⟨b, width⟩ := next
      have hne : rest ≠ [] := by
        rintro rfl
        cases hb
      obtain ⟨c, hgraft, hc⟩ := graft_grafts route v (grammar_of_nextLiteral? hrest hb)
        (bare_fresh route)
      have hlength : n.keys.length ≤ n.children.length := hkeys ▸ length_statics_le n
      have hextend : extend route v n rest = ⟨n.addStatic b c, .ok ()⟩ := by
        rw [extend, if_neg hne, hb]
        simp only [if_neg hkind, if_neg (Nat.not_lt.2 hlength), hgraft]
        rfl
      rw [hextend]
      exact .static (nextLiteral?_some hrest hb).1 hkeys hc
  | none =>
      cases nextLiteral?_none hrest hb with
      | ended =>
          rw [extend, if_pos rfl]
          cases hvalue : n.value with
          | some old => exact .refused .value
          | none => exact .value hvalue
      | @param name tail hname hstop htail =>
          obtain ⟨next, hnext, hc, hgraft⟩ := graft_wildcard route v hname hstop htail
          have hextend : extend route v n (colon :: (name ++ tail)) =
              ⟨n.addWild (stalk route v name next), .ok ()⟩ := by
            rw [extend, if_neg (List.cons_ne_nil _ _), ← hgraft]
            rfl
          rw [hextend]
          exact .wild (hwild _ _ (elements_param hname hstop)) hname hstop hnext hc
      | @catchAll name hname hslash =>
          have hextend : extend route v n (star :: name) =
              ⟨n, .error (n.catchAllConflict route (star :: name))⟩ := by
            rw [extend, if_neg (List.cons_ne_nil _ _), ← graft_star hname route v (hslashed hslash)]
            rfl
          rw [hextend]
          exact .refused (.slash hname (hslashed hslash))

theorem getLast?_of_slashedAfter {text : Bytes} (h : slashedAfter false text = true) :
    text.getLast? = some slash := by
  rcases slashedAfter_eq_true h with ⟨-, hfalse⟩ | ⟨front, rfl⟩
  · cases hfalse
  · exact List.getLast?_concat

section Kinds

variable {n : Node α} {path : Bytes} {used common : Nat} (hn : n.Sound) (hpath : Grammar false path)
  (ih : ∀ c ∈ n.children, ∀ path, Grammar false path → c.Enters path →
    Walks route v path c (place route v c path))

include hn hpath ih

omit hpath in
theorem walks_below {slots : List (UInt8 × Node α)} {wild : Option (Node α)}
    (hbranch : n.IsBranch slots wild) (hoverlap : n.overlap path = (used, n.label.length))
    (hfront : elements path = literals n.label ++ elements (path.drop used))
    (hrest : Grammar (slashedAfter false n.label) (path.drop used)) :
    Walks route v path n (place route v n path) := by
  obtain ⟨hparam, hcatchAll⟩ := hbranch.not_wildcard
  have hextends := extend_extends route v (n := n.raised) hcatchAll
    (by rw [hbranch.raised.keys, hbranch.raised.statics, List.length_map, List.length_map]) hrest
    getLast?_of_slashedAfter
  rw [← hbranch.edge] at hfront
  cases hb : nextLiteral? (path.drop used) with
  | some next =>
      obtain ⟨b, width⟩ := next
      obtain ⟨helements, -⟩ := nextLiteral?_some hrest hb
      have hturn := turn_literal (n := n) hb
      rw [if_neg (fun h => hparam h.1), if_neg hcatchAll] at hturn
      cases hi : n.slot? b with
      | some i =>
          rw [hi] at hturn
          obtain ⟨c, hslot, hc⟩ := hbranch.slot_some hi
          have hmem := List.mem_of_getElem? hc
          have hkeyed := hbranch.keyed _ (List.mem_of_getElem? hslot)
          have hgrammar := grammar_of_nextLiteral? hrest hb
          have henters := hkeyed.enters (hn.child hmem) helements
          have hlt : i < n.statics.length := by
            rw [hbranch.statics, List.length_map]
            exact (List.getElem?_eq_some_iff.1 hslot).1
          rw [place_descend hoverlap hturn hc]
          exact .descend hfront hlt hc hkeyed (by rw [helements]; rfl)
            (place_grows route v (hn.child hmem) hgrammar henters) (ih c hmem _ hgrammar henters)
      | none =>
          rw [hi] at hturn
          rw [place_stop hoverlap hturn]
          refine .stop hcatchAll hfront (fun b' hb' => ?_) (hextends fun name es hes => ?_)
          · rw [helements] at hb'
            cases hb'
            exact slot_none.1 hi
          · rw [helements] at hes
            cases hes
  | none =>
      have hwildcard := nextLiteral?_none hrest hb
      have hkeys : ∀ b, (elements (path.drop used)).head? = some (.literal b) → b ∉ n.keys := by
        intro b hhead
        obtain ⟨es, hes⟩ := List.head?_eq_some_iff.1 hhead
        exact absurd hes (hwildcard.not_literal b es)
      by_cases hnil : path.drop used = []
      · rw [place_stop hoverlap (by rw [hnil, turn_end])]
        refine .stop hcatchAll hfront hkeys (hextends fun name es hes => ?_)
        rw [hnil, elements_nil] at hes
        cases hes
      have hturn := turn_wildcard (n := n) hnil hb
      rw [hbranch.hasWild] at hturn
      cases wild with
      | none =>
          rw [place_stop hoverlap hturn]
          exact .stop hcatchAll hfront hkeys (hextends fun _ _ _ => hbranch.hasWild)
      | some w =>
          have hchildren : n.children = slots.map Prod.snd ++ [w] := hbranch.children
          have hmem : w ∈ n.children := by simp [hchildren]
          have hkind := hbranch.param w rfl
          obtain ⟨name, next, hw⟩ := Sound.param (hn.child hmem) hkind
          obtain ⟨e, es, -, -, -, hgrammar⟩ := hw.takes_front hwildcard hnil
          rw [place_wild hoverlap hturn hchildren]
          by_cases h : w.takes (path.drop used) = true
          · have henters : w.Enters (path.drop used) := ⟨fun _ => h, fun h => by simp [hkind] at h⟩
            rw [if_pos h]
            exact .wild hfront hbranch.hasWild hchildren hkind
              (place_grows route v (hn.child hmem) (hgrammar h) henters)
              (ih w hmem _ (hgrammar h) henters)
          · rw [if_neg h]
            exact .refused hfront hrest hbranch.hasWild hchildren

theorem walks_branch {slots : List (UInt8 × Node α)} {wild : Option (Node α)}
    (hbranch : n.IsBranch slots wild) : Walks route v path n (place route v n path) := by
  obtain ⟨helements, hrest, hhead⟩ := overlap_elements hpath n.label
  have hle := overlap_snd_le path n.label
  obtain ⟨⟨used, common⟩, ho⟩ : ∃ o, Pattern.overlap path n.label = o := ⟨_, rfl⟩
  have hoverlap := (hbranch.overlap path).trans ho
  rw [ho] at helements hrest hhead hle
  rcases Nat.lt_or_eq_of_le hle with hlt | heq
  · have hsplit := (split_branch hbranch (List.getElem?_eq_getElem hlt)).raised
    rw [place_split hoverlap hlt]
    refine .split hlt hbranch.kind helements hhead ?_
    exact extend_extends route v hsplit.not_wildcard.2 (by rw [hsplit.keys, hsplit.statics]; rfl)
      hrest getLast?_of_slashedAfter fun _ _ _ => rfl
  · dsimp only at *
    subst heq
    rw [List.take_length] at *
    exact walks_below hn ih hbranch hoverlap helements hrest

theorem walks_param {name : Bytes} {next : Option (Node α)} (hparam : n.IsParam name next)
    (htakes : n.takes path = true) : Walks route v path n (place route v n path) := by
  obtain ⟨rest, rfl, hstop, hrest⟩ := hparam.of_takes hpath htakes
  have hoverlap := overlap_wildcard (n := n) (by simp [isWildcard, hparam.kind]) rest
  have hdrop : (n.label ++ rest).drop n.label.length = rest := List.drop_left
  have hkind : n.kind ≠ .catchAll := by simp [hparam.kind]
  have hfront : elements (n.label ++ rest) = edge n.kind n.label ++ elements rest := by
    rw [hparam.edge, hparam.label]
    exact elements_param hparam.isName hstop
  by_cases hnil : rest = []
  · subst hnil
    have hturn : n.turn ((n.label ++ []).drop n.label.length) = .stop := by rw [hdrop, turn_end]
    rw [place_stop hoverlap hturn, hdrop]
    have hextends : Extends route v n.raised [] (extend route v n.raised []) := by
      rw [extend, if_pos rfl]
      cases hvalue : n.raised.value with
      | some old => exact .refused .value
      | none => exact .value hvalue
    exact .stop hkind hfront (by simp [elements_nil]) hextends
  · obtain ⟨es, hes⟩ := elements_of_firstSegment hstop hnil
    obtain ⟨width, hb⟩ := nextLiteral?_of_elements hrest hes
    have hturn := turn_literal (n := n) hb
    cases next with
    | some c =>
        have hc : n.children[0]? = some c := by simp [hparam.children]
        have hmem := List.mem_of_getElem? hc
        have hkeyed := hparam.keyed c rfl
        have henters := hkeyed.enters (hn.child hmem) hes
        rw [← hdrop, if_pos ⟨hparam.kind, rfl, by simp [hparam.children]⟩] at hturn
        rw [place_descend hoverlap hturn hc, hdrop]
        exact .descend hfront (by simp [hparam.statics]) hc hkeyed (by rw [hes]; rfl)
          (place_grows route v (hn.child hmem) hrest henters) (ih c hmem _ hrest henters)
    | none =>
        have hslot : n.slot? slash = none := slot_none.2 (by simp [hparam.keys rfl])
        rw [← hdrop, if_neg (by simp [hparam.children]), hslot, if_neg hkind] at hturn
        rw [place_stop hoverlap hturn, hdrop]
        refine .stop hkind hfront (by simp [hparam.keys rfl]) ?_
        exact extend_extends route v (n := n.raised) hkind
          (by rw [hparam.raised.keys rfl, hparam.raised.statics]; rfl) hrest
          (fun hslashed => absurd hslashed Bool.false_ne_true) fun _ _ _ => hparam.hasWild

end Kinds

theorem place_walks (route : String) (v : α) {n : Node α} {path : Bytes} (hn : n.Sound)
    (hpath : Grammar false path) (henters : n.Enters path) :
    Walks route v path n (place route v n path) := by
  induction n using below_induction generalizing path with
  | h n below =>
      have ih : ∀ c ∈ n.children, ∀ path, Grammar false path → c.Enters path →
          Walks route v path c (place route v c path) :=
        fun c hc path hpath henters => below c hc (hn.child hc) hpath henters
      cases hn.here with
      | branch slots wild hbranch => exact walks_branch hn hpath ih hbranch
      | param name next hparam => exact walks_param hn hpath ih hparam (henters.param hparam.kind)
      | holder leaf hholder =>
          rw [place_refused hholder (henters.holder hholder.kind).2]
          have hfront : elements path = edge n.kind n.label ++ elements path := by rw [hholder.edge]; rfl
          have hchildren : n.children = [] ++ [leaf] := hholder.children
          exact .refused hfront hpath hholder.hasWild hchildren
      | leaf name hleaf =>
          have hwild := (henters.holder hleaf.kind).1
          simp [hleaf.hasWild] at hwild

end HttpRouting.Node

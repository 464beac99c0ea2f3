import HttpRouting.Proofs.Pattern.Grammar
import HttpRouting.Proofs.Tree.Entries
import Mathlib.Data.List.Nodup

namespace HttpRouting.Node

open Bytes Pattern

variable {α : Type}

def OpensWith (n : Node α) (b : UInt8) : Prop :=
  ∀ e ∈ n.entries, ∃ es, e.pattern = .literal b :: es

/-- A node that is reached by a byte: one with a text on its edge, or the holder of a catch-all. -/
structure Keyed (n : Node α) (b : UInt8) : Prop where
  kind : n.kind = .static ∨ (n.kind = .catchAll ∧ n.hasWild = true)
  opens : n.OpensWith b

/-- A node with a text on its edge, its keyed children and the parameter behind them. -/
structure IsBranch (n : Node α) (slots : List (UInt8 × Node α)) (wild : Option (Node α)) : Prop where
  kind : n.kind = .static ∨ n.kind = .root
  keys : n.keys = slots.map Prod.fst
  nodup : n.keys.Nodup
  children : n.children = slots.map Prod.snd ++ wild.toList
  hasWild : n.hasWild = wild.isSome
  keyed : ∀ s ∈ slots, s.2.Keyed s.1
  param : ∀ w ∈ wild, w.kind = .param

structure IsParam (n : Node α) (name : Bytes) (next : Option (Node α)) : Prop where
  kind : n.kind = .param
  label : n.label = colon :: name
  isName : IsName name
  keys : next = none → n.keys = []
  children : n.children = next.toList
  hasWild : n.hasWild = false
  keyed : ∀ c ∈ next, c.Keyed slash

/-- The nameless node that keeps a catch-all apart from its siblings. -/
structure IsHolder (n leaf : Node α) : Prop where
  kind : n.kind = .catchAll
  label : n.label = []
  keys : n.keys = []
  children : n.children = [leaf]
  hasWild : n.hasWild = true
  value : n.value = none
  leafKind : leaf.kind = .catchAll
  leafWild : leaf.hasWild = false

structure IsLeaf (n : Node α) (name : Bytes) : Prop where
  kind : n.kind = .catchAll
  label : n.label = slash :: star :: name
  isName : IsName name
  keys : n.keys = []
  children : n.children = []
  hasWild : n.hasWild = false
  value : n.value.isSome = true

/-- A node holds a value unless patterns go on below it. -/
def Live (n : Node α) : Prop := n.value.isSome = true ∨ n.children ≠ []

inductive Fit (n : Node α) : Prop
  | branch (slots : List (UInt8 × Node α)) (wild : Option (Node α)) (h : n.IsBranch slots wild)
      (live : n.Live)
  | param (name : Bytes) (next : Option (Node α)) (h : n.IsParam name next) (live : n.Live)
  | holder (leaf : Node α) (h : n.IsHolder leaf)
  | leaf (name : Bytes) (h : n.IsLeaf name)

/-- What holds at a node and at all nodes below it. -/
inductive Every (p : Node α → Prop) : Node α → Prop
  | node {n : Node α} (here : p n) (children : ∀ c ∈ n.children, Every p c) : Every p n

def Sound (n : Node α) : Prop := n.Every Fit

theorem Every.here {p : Node α → Prop} {n : Node α} (h : n.Every p) : p n := by
  cases h with
  | node here _ => exact here

theorem Every.child {p : Node α → Prop} {n c : Node α} (h : n.Every p) (hc : c ∈ n.children) :
    c.Every p := by
  cases h with
  | node _ children => exact children c hc

theorem every_iff {p : Node α → Prop} {n : Node α} :
    n.Every p ↔ p n ∧ ∀ c ∈ n.children.attach, c.1.Every p :=
  ⟨fun h => ⟨h.here, fun c _ => h.child c.2⟩,
    fun h => .node h.1 fun c hc => h.2 ⟨c, hc⟩ (List.mem_attach _ _)⟩

instance Every.decidable (p : Node α → Prop) [DecidablePred p] (n : Node α) :
    Decidable (n.Every p) :=
  have (c : { c : Node α // c ∈ n.children }) : Decidable (c.1.Every p) := Every.decidable p c.1
  decidable_of_iff _ every_iff.symm
termination_by n.size
decreasing_by exact size_lt_of_mem c.2

theorem Sound.branch {n : Node α} (h : n.Sound) (hkind : n.kind = .static ∨ n.kind = .root) :
    ∃ slots wild, n.IsBranch slots wild := by
  cases h.here with
  | branch slots wild h _ => exact ⟨slots, wild, h⟩
  | param _ _ h _ => simp [h.kind] at hkind
  | holder _ h => simp [h.kind] at hkind
  | leaf _ h => simp [h.kind] at hkind

theorem Sound.param {n : Node α} (h : n.Sound) (hkind : n.kind = .param) :
    ∃ name next, n.IsParam name next := by
  cases h.here with
  | branch _ _ h _ => simpa [hkind] using h.kind
  | param name next h _ => exact ⟨name, next, h⟩
  | holder _ h => simp [h.kind] at hkind
  | leaf _ h => simp [h.kind] at hkind

theorem Sound.leaf {n : Node α} (h : n.Sound) (hkind : n.kind = .catchAll)
    (hwild : n.hasWild = false) : ∃ name, n.IsLeaf name := by
  cases h.here with
  | branch _ _ h _ => simpa [hkind] using h.kind
  | param _ _ h _ => simp [h.kind] at hkind
  | holder _ h => simp [h.hasWild] at hwild
  | leaf name h => exact ⟨name, h⟩

theorem hit?_of_value {n : Node α} (h : n.value.isSome = true) : ∃ hit, n.hit? = some hit := by
  obtain ⟨v, hv⟩ := Option.isSome_iff_exists.1 h
  exact ⟨⟨v, n.route⟩, by rw [hit?, hv]; rfl⟩

theorem hit?_none {n : Node α} : n.hit? = none ↔ n.value = none := Option.map_eq_none_iff

theorem entries_ne_nil_of_child {n c : Node α} (hc : c ∈ n.children) (h : c.entries ≠ []) :
    n.entries ≠ [] := by
  obtain ⟨e, he⟩ := List.exists_mem_of_ne_nil _ h
  exact List.ne_nil_of_mem (mem_entries.2 ⟨e, mem_held.2 (.inr ⟨c, hc, he⟩), rfl⟩)

theorem entries_ne_nil_of_value {n : Node α} (h : n.value.isSome = true) : n.entries ≠ [] := by
  obtain ⟨hit, hhit⟩ := hit?_of_value h
  exact List.ne_nil_of_mem (mem_entries.2 ⟨_, mem_held.2 (.inl ⟨hit, hhit, rfl⟩), rfl⟩)

theorem Fit.live {n : Node α} (h : n.Fit) : n.Live := by
  cases h with
  | branch _ _ _ live | param _ _ _ live => exact live
  | holder leaf h => exact .inr (by simp [h.children])
  | leaf _ h => exact .inl h.value

theorem Sound.entries_ne_nil {n : Node α} (h : n.Sound) : n.entries ≠ [] := by
  induction h with
  | @node n here _ ih =>
      rcases here.live with hvalue | hchildren
      · exact entries_ne_nil_of_value hvalue
      · obtain ⟨c, hc⟩ := List.exists_mem_of_ne_nil _ hchildren
        exact entries_ne_nil_of_child hc (ih c hc)

theorem Sound.held_ne_nil {n : Node α} (h : n.Sound) : n.held ≠ [] := by
  have hne := h.entries_ne_nil
  rw [entries_eq] at hne
  exact fun hnil => hne (by rw [hnil]; rfl)

theorem IsBranch.edge {n : Node α} {slots : List (UInt8 × Node α)} {wild : Option (Node α)}
    (h : n.IsBranch slots wild) : Node.edge n.kind n.label = literals n.label := by
  rcases h.kind with hkind | hkind <;> rw [hkind] <;> rfl

theorem IsParam.edge {n : Node α} {name : Bytes} {next : Option (Node α)}
    (h : n.IsParam name next) : Node.edge n.kind n.label = [.param name] := by
  rw [h.kind, h.label]
  rfl

theorem IsHolder.edge {n leaf : Node α} (h : n.IsHolder leaf) : Node.edge n.kind n.label = [] := by
  rw [h.kind, h.label]
  rfl

theorem IsLeaf.edge {n : Node α} {name : Bytes} (h : n.IsLeaf name) :
    Node.edge n.kind n.label = [.literal slash, .catchAll name] := by
  rw [h.kind, h.label]
  rfl

theorem IsBranch.not_wildcard {n : Node α} {slots : List (UInt8 × Node α)} {wild : Option (Node α)}
    (h : n.IsBranch slots wild) : n.kind ≠ .param ∧ n.kind ≠ .catchAll := by
  rcases h.kind with hkind | hkind <;> simp [hkind]

theorem IsBranch.slot_some {n : Node α} {slots : List (UInt8 × Node α)} {wild : Option (Node α)}
    (h : n.IsBranch slots wild) {b : UInt8} {i : Nat} (hi : n.slot? b = some i) :
    ∃ c, slots[i]? = some (b, c) ∧ n.children[i]? = some c := by
  rw [slot?, h.keys] at hi
  obtain ⟨hlt, hb, -⟩ := List.idxOf?_eq_some_iff.1 hi
  have hslot : i < slots.length := by simpa using hlt
  have hkey : slots[i].1 = b := by simpa using hb
  refine ⟨slots[i].2, ?_, ?_⟩
  · rw [List.getElem?_eq_getElem hslot, ← hkey]
  · rw [h.children, List.getElem?_append_left (by simpa using hslot)]
    simp [hslot]

theorem slot_none {n : Node α} {b : UInt8} : n.slot? b = none ↔ b ∉ n.keys := by
  rw [slot?, List.idxOf?_eq_none_iff]

theorem IsLeaf.entries {n : Node α} {name : Bytes} (h : n.IsLeaf name) {hit : Hit α}
    (hhit : n.hit? = some hit) : n.entries = [⟨[.literal slash, .catchAll name], hit⟩] := by
  rw [entries_eq, h.edge, held, hhit, h.children]
  rfl

theorem IsHolder.entries {n leaf : Node α} (h : n.IsHolder leaf) : n.entries = leaf.entries := by
  have hbehind : Entry.behind [] = (id : Entry α → Entry α) := rfl
  rw [entries_eq, h.edge, held, hit?, h.value, h.children, hbehind]
  simp

theorem Sound.holder {n : Node α} (h : n.Sound) (hkind : n.kind = .catchAll)
    (hwild : n.hasWild = true) :
    ∃ leaf name hit, n.IsHolder leaf ∧ leaf.IsLeaf name ∧ leaf.hit? = some hit := by
  cases h.here with
  | branch _ _ h _ => simpa [hkind] using h.kind
  | param _ _ h _ => simp [h.kind] at hkind
  | holder leaf hholder =>
      have hleaf : leaf.Sound := h.child (by simp [hholder.children])
      obtain ⟨name, hname⟩ := hleaf.leaf hholder.leafKind hholder.leafWild
      obtain ⟨hit, hhit⟩ := hit?_of_value hname.value
      exact ⟨leaf, name, hit, hholder, hname, hhit⟩
  | leaf _ h => simp [h.hasWild] at hwild

theorem lastChild_eq {n c : Node α} {front : List (Node α)} (h : n.children = front ++ [c]) :
    ∃ hc, n.lastChild = .ok ⟨c, hc⟩ := by
  have hlast : n.children.getLast? = some c := by rw [h, List.getLast?_concat]
  refine ⟨List.mem_of_getLast? hlast, ?_⟩
  unfold lastChild
  split
  · next c' hc' =>
      rw [hlast] at hc'
      cases hc'
      rfl
  · next hnone => simp [hlast] at hnone

theorem lastChild_of_none {n : Node α} (h : n.children.getLast? = none) :
    n.lastChild = .error .childMissing := by
  unfold lastChild
  split
  · next w hw =>
      rw [h] at hw
      cases hw
  · rfl

theorem Keyed.eq_slash {n : Node α} {b : UInt8} (h : n.Keyed b) (hn : n.Sound)
    (hkind : n.kind = .catchAll) : b = slash := by
  rcases h.kind with hstatic | ⟨-, hwild⟩
  · rw [hkind] at hstatic
    cases hstatic
  · obtain ⟨leaf, name, hit, hholder, hleaf, hhit⟩ := hn.holder hkind hwild
    have hentries := hholder.entries.trans (hleaf.entries hhit)
    obtain ⟨es, hes⟩ := h.opens ⟨[.literal slash, .catchAll name], hit⟩ (by simp [hentries])
    cases hes
    rfl

theorem OpensWith.head {n : Node α} {b : UInt8} (h : n.OpensWith b) (hn : n.Sound)
    (hkind : n.kind = .static ∨ n.kind = .root) (hlabel : n.label ≠ []) :
    n.label.head? = some b := by
  obtain ⟨slots, wild, hbranch⟩ := hn.branch hkind
  obtain ⟨e, he⟩ := List.exists_mem_of_ne_nil _ hn.entries_ne_nil
  obtain ⟨es, hes⟩ := h e he
  obtain ⟨e', -, rfl⟩ := mem_entries.1 he
  obtain ⟨a, label, heq⟩ := List.exists_cons_of_ne_nil hlabel
  rw [hbranch.edge, heq, Entry.behind, literals, List.map_cons, List.cons_append] at hes
  cases hes
  rw [heq]
  rfl

theorem Keyed.head {n : Node α} {b : UInt8} (h : n.Keyed b) (hn : n.Sound)
    (hkind : n.kind = .static ∨ n.kind = .root) (hlabel : n.label ≠ []) :
    n.label.head? = some b :=
  h.opens.head hn hkind hlabel

theorem IsParam.mem_entries {n : Node α} {name : Bytes} {next : Option (Node α)}
    (h : n.IsParam name next) {e : Entry α} :
    e ∈ n.entries ↔ ∃ e' ∈ n.held, e = e'.behind [.param name] := by
  rw [Node.mem_entries, h.edge]

theorem IsParam.source {n : Node α} {name : Bytes} {next : Option (Node α)}
    (h : n.IsParam name next) {e : Entry α} (he : e ∈ n.held) :
    (∃ hit, n.hit? = some hit ∧ e = ⟨[], hit⟩) ∨ ∃ c, next = some c ∧ e ∈ c.entries := by
  rcases mem_held.1 he with hhit | ⟨c, hc, he⟩
  · exact .inl hhit
  · rw [h.children, Option.mem_toList] at hc
    exact .inr ⟨c, hc, he⟩

theorem IsParam.opens {n c : Node α} {name : Bytes} (h : n.IsParam name (some c)) {e : Entry α}
    (he : e ∈ c.entries) : ∃ es, e.pattern = .literal slash :: es :=
  (h.keyed c rfl).opens e he

theorem IsParam.next_of_head {n c : Node α} {name : Bytes} {next : Option (Node α)}
    (h : n.IsParam name next) (hchild : n.children.head? = some c) : next = some c := by
  rw [h.children] at hchild
  cases next with
  | none => cases hchild
  | some c' => exact hchild

inductive IsBranch.Source (n : Node α) (slots : List (UInt8 × Node α)) (wild : Option (Node α)) :
    Entry α → Prop
  | here (hit : Hit α) (h : n.hit? = some hit) : Source n slots wild ⟨[], hit⟩
  | slot (s : UInt8 × Node α) (hs : s ∈ slots) (es : List Element) (hit : Hit α)
      (h : ⟨.literal s.1 :: es, hit⟩ ∈ s.2.entries) : Source n slots wild ⟨.literal s.1 :: es, hit⟩
  | wild (w : Node α) (hw : wild = some w) (name : Bytes) (next : Option (Node α))
      (hparam : w.IsParam name next) (es : List Element) (hit : Hit α)
      (h : ⟨.param name :: es, hit⟩ ∈ w.entries) : Source n slots wild ⟨.param name :: es, hit⟩

theorem IsBranch.source {n : Node α} {slots : List (UInt8 × Node α)} {wild : Option (Node α)}
    (hn : n.Sound) (h : n.IsBranch slots wild) {e : Entry α} (he : e ∈ n.held) :
    IsBranch.Source n slots wild e := by
  rcases mem_held.1 he with ⟨hit, hhit, rfl⟩ | ⟨c, hc, he⟩
  · exact .here hit hhit
  · have hsound := hn.child hc
    rw [h.children, List.mem_append, List.mem_map, Option.mem_toList] at hc
    rcases hc with ⟨s, hs, rfl⟩ | hw
    · obtain ⟨es, hes⟩ := (h.keyed s hs).opens e he
      obtain ⟨pattern, hit⟩ := e
      cases hes
      exact .slot s hs es hit he
    · obtain ⟨name, next, hparam⟩ := Sound.param hsound (h.param c hw)
      obtain ⟨e', _, rfl⟩ := hparam.mem_entries.1 he
      exact .wild c hw name next hparam e'.pattern e'.hit he

theorem IsBranch.slot_unique {n c c' : Node α} {slots : List (UInt8 × Node α)}
    {wild : Option (Node α)} (h : n.IsBranch slots wild) {b : UInt8} (hs : (b, c) ∈ slots)
    (hs' : (b, c') ∈ slots) : c' = c :=
  congrArg Prod.snd (List.inj_on_of_nodup_map (h.keys ▸ h.nodup) hs' hs rfl)

theorem IsBranch.mem_slot {n c : Node α} {slots : List (UInt8 × Node α)} {wild : Option (Node α)}
    (h : n.IsBranch slots wild) (hn : n.Sound) {b : UInt8} (hs : (b, c) ∈ slots) {e : Entry α}
    (he : e ∈ n.held) {es : List Element} (hpattern : e.pattern = .literal b :: es) :
    e ∈ c.entries := by
  cases h.source hn he with
  | here => cases hpattern
  | slot s hs' es hit he' =>
      obtain ⟨b', c'⟩ := s
      cases hpattern
      cases h.slot_unique hs hs'
      exact he'
  | wild => cases hpattern

theorem IsBranch.mem_wild {n w : Node α} {slots : List (UInt8 × Node α)}
    (h : n.IsBranch slots (some w)) (hn : n.Sound) {e : Entry α} (he : e ∈ n.held) {name : Bytes}
    {es : List Element} (hpattern : e.pattern = .param name :: es) : e ∈ w.entries := by
  cases h.source hn he with
  | here => cases hpattern
  | slot => cases hpattern
  | wild w' hw' name' next hparam es hit he' =>
      cases hw'
      exact he'

end HttpRouting.Node

import HttpRouting.Proofs.Tree.Graft
import HttpRouting.Proofs.Tree.Verdict

namespace HttpRouting.Node

open Bytes Pattern

variable {α : Type}

/-- What a tree gains from an insertion. -/
def gain (e : Entry α) : Except RouteError Unit → List (Entry α)
  | .ok () => [e]
  | .error _ => []

def patterns (es : List (Entry α)) : List (List Element) := es.map (·.pattern)

/-- The insertion of a pattern keeps the tree sound, adds the pattern or nothing, and ends as the
registered patterns demand. -/
structure Grows (route : String) (v : α) (es : List Element) (n : Node α) (p : Placement α) :
    Prop where
  sound : p.node.Sound
  kind : p.node.kind = n.kind
  hasWild : n.kind = .catchAll → p.node.hasWild = n.hasWild
  entries : p.node.entries.Perm (gain ⟨es, ⟨v, route⟩⟩ p.outcome ++ n.entries)
  verdict : Verdict (patterns n.entries) es route p.outcome

theorem gain_behind (front es : List Element) (hit : Hit α) (outcome : Except RouteError Unit) :
    (gain ⟨es, hit⟩ outcome).map (Entry.behind front) = gain ⟨front ++ es, hit⟩ outcome := by
  cases outcome <;> rfl

theorem mem_patterns {es : List (Entry α)} {q : List Element} :
    q ∈ patterns es ↔ ∃ e ∈ es, e.pattern = q := List.mem_map

theorem patterns_entries (n : Node α) :
    patterns n.entries = (patterns n.held).map (edge n.kind n.label ++ ·) := by
  rw [entries_eq, patterns, patterns, List.map_map, List.map_map]
  rfl

@[simp] theorem raised_kind (n : Node α) : n.raised.kind = n.kind := rfl

@[simp] theorem raised_label (n : Node α) : n.raised.label = n.label := rfl

@[simp] theorem raised_held (n : Node α) : n.raised.held = n.held := rfl

@[simp] theorem raised_entries (n : Node α) : n.raised.entries = n.entries := by
  rw [entries_eq, entries_eq, raised_held, raised_kind, raised_label]

theorem IsBranch.raised {n : Node α} {slots : List (UInt8 × Node α)} {wild : Option (Node α)}
    (h : n.IsBranch slots wild) : n.raised.IsBranch slots wild :=
  ⟨h.kind, h.keys, h.nodup, h.children, h.hasWild, h.keyed, h.param⟩

theorem IsParam.raised {n : Node α} {name : Bytes} {next : Option (Node α)}
    (h : n.IsParam name next) : n.raised.IsParam name next :=
  ⟨h.kind, h.label, h.isName, h.keys, h.children, h.hasWild, h.keyed⟩

theorem IsHolder.raised {n leaf : Node α} (h : n.IsHolder leaf) : n.raised.IsHolder leaf :=
  ⟨h.kind, h.label, h.keys, h.children, h.hasWild, h.value, h.leafKind, h.leafWild⟩

theorem IsLeaf.raised {n : Node α} {name : Bytes} (h : n.IsLeaf name) : n.raised.IsLeaf name :=
  ⟨h.kind, h.label, h.isName, h.keys, h.children, h.hasWild, h.value⟩

theorem raised_sound {n : Node α} (h : n.Sound) : n.raised.Sound := by
  refine .node ?_ fun c hc => h.child hc
  cases h.here with
  | branch slots wild h live => exact .branch slots wild h.raised live
  | param name next h live => exact .param name next h.raised live
  | holder leaf h => exact .holder leaf h.raised
  | leaf name h => exact .leaf name h.raised

section Split

variable {n : Node α} {slots : List (UInt8 × Node α)} {wild : Option (Node α)} {k : Nat}

theorem split_child (h : n.IsBranch slots wild) (hsound : n.Sound) :
    { n with kind := .static, label := n.label.drop k }.Sound := by
  have hlive := hsound.here.live
  refine .node (.branch slots wild ?_ hlive) fun c hc => hsound.child hc
  exact ⟨.inl rfl, h.keys, h.nodup, h.children, h.hasWild, h.keyed, h.param⟩

theorem split_held (n : Node α) (k : Nat) :
    (n.split k).held = n.held.map (Entry.behind (literals (n.label.drop k))) := by
  simp [held, split, hit?, entries_eq { n with kind := .static, label := n.label.drop k }, edge]

theorem split_branch (h : n.IsBranch slots wild) {b : UInt8} (hb : n.label[k]? = some b) :
    (n.split k).IsBranch [(b, { n with kind := .static, label := n.label.drop k })] none := by
  obtain ⟨hk, rfl⟩ := List.getElem?_eq_some_iff.1 hb
  have hdrop : n.label.drop k = n.label[k] :: n.label.drop (k + 1) := List.drop_eq_getElem_cons hk
  have hkeys : (n.split k).keys = [n.label[k]] := by rw [split, hdrop]; rfl
  have hedge : edge .static (n.label.drop k) =
      .literal n.label[k] :: literals (n.label.drop (k + 1)) := by rw [hdrop]; rfl
  refine ⟨h.kind, hkeys, ?_, rfl, rfl, ?_, nofun⟩
  · rw [hkeys]
    exact List.pairwise_singleton ..
  · intro s hs
    rw [List.mem_singleton.1 hs]
    refine ⟨.inl rfl, fun e he => ?_⟩
    obtain ⟨e', -, rfl⟩ := mem_entries.1 he
    exact ⟨literals (n.label.drop (k + 1)) ++ e'.pattern, congrArg (· ++ e'.pattern) hedge⟩

theorem split_sound (h : n.IsBranch slots wild) (hsound : n.Sound) (hk : k < n.label.length) :
    (n.split k).Sound := by
  refine .node (.branch _ none (split_branch h (List.getElem?_eq_getElem hk)) (.inr ?_)) ?_
  · exact List.cons_ne_nil _ _
  · intro c hc
    rw [List.mem_singleton.1 hc]
    exact split_child h hsound

theorem split_entries (h : n.IsBranch slots wild) : (n.split k).entries = n.entries := by
  have hedge : edge (n.split k).kind (n.split k).label = literals (n.label.take k) := by
    rcases h.kind with hkind | hkind <;> rw [split, hkind] <;> rfl
  have hlabel : literals (n.label.take k) ++ literals (n.label.drop k) = literals n.label := by
    rw [literals, literals, ← List.map_append, List.take_append_drop, literals]
  rw [entries_eq, entries_eq, hedge, h.edge, split_held, List.map_map, ← hlabel]
  exact List.map_congr_left fun e _ => by simp [Entry.behind]

end Split

structure Fills (route : String) (v : α) (es : List Element) (n : Node α) (p : Placement α) :
    Prop where
  sound : p.node.Sound
  kind : p.node.kind = n.kind
  label : p.node.label = n.label
  held : p.node.held.Perm (gain ⟨es, ⟨v, route⟩⟩ p.outcome ++ n.held)
  verdict : Verdict (patterns n.held) es route p.outcome

theorem IsBranch.whole {n : Node α} {slots : List (UInt8 × Node α)} {wild : Option (Node α)}
    (h : n.IsBranch slots wild) (hn : n.Sound) : ∀ q ∈ patterns n.held, Whole q := by
  intro q hq
  obtain ⟨e, he, rfl⟩ := mem_patterns.1 hq
  cases h.source hn he with
  | here => exact whole_nil
  | slot => exact whole_literal _ _
  | wild => exact whole_param _ _

theorem Fills.entries {route : String} {v : α} {es : List Element} {n : Node α} {p : Placement α}
    (h : Fills route v es n p) :
    p.node.entries.Perm (gain ⟨edge n.kind n.label ++ es, ⟨v, route⟩⟩ p.outcome ++ n.entries) := by
  rw [← gain_behind]
  exact entries_gain h.kind h.label h.held

theorem Fills.branch {route : String} {v : α} {es : List Element} {n : Node α} {p : Placement α}
    (h : Fills route v es n p) {slots : List (UInt8 × Node α)} {wild : Option (Node α)}
    (hbranch : n.IsBranch slots wild) (hn : n.Sound) (hes : Whole es) :
    Grows route v (literals n.label ++ es) n p := by
  have hentries := h.entries
  rw [hbranch.edge] at hentries
  refine ⟨h.sound, h.kind, fun hkind => ?_, hentries, ?_⟩
  · simpa [hkind] using hbranch.kind
  · rw [patterns_entries, hbranch.edge]
    exact h.verdict.behind_literals n.label (hbranch.whole hn) hes

theorem IsParam.whole {n : Node α} {name : Bytes} {next : Option (Node α)}
    (h : n.IsParam name next) : ∀ q ∈ patterns n.held, Whole q := by
  intro q hq
  obtain ⟨e, he, rfl⟩ := mem_patterns.1 hq
  rcases h.source he with ⟨hit, -, rfl⟩ | ⟨c, rfl, he⟩
  · exact whole_nil
  · obtain ⟨es, hes⟩ := h.opens he
    rw [hes]
    exact whole_literal _ _

theorem Fills.param {route : String} {v : α} {es : List Element} {n : Node α} {p : Placement α}
    (h : Fills route v es n p) {name : Bytes} {next : Option (Node α)} (hparam : n.IsParam name next)
    (hes : Whole es) : Grows route v (.param name :: es) n p := by
  have hentries := h.entries
  rw [hparam.edge] at hentries
  refine ⟨h.sound, h.kind, fun hkind => ?_, hentries, ?_⟩
  · simp [hparam.kind] at hkind
  · rw [patterns_entries, hparam.edge]
    exact h.verdict.behind (.param name) hparam.whole hes

theorem Fills.of_raised {route : String} {v : α} {es : List Element} {n : Node α} {p : Placement α}
    (h : Fills route v es n.raised p) : Fills route v es n p :=
  ⟨h.sound, h.kind, h.label, h.held, h.verdict⟩

theorem setValue_sound {n : Node α} (h : n.Sound) (hkind : n.kind ≠ .catchAll) (v : α)
    (route : String) : { n with value := some v, route }.Sound := by
  refine .node ?_ fun c hc => h.child hc
  cases h.here with
  | branch slots wild h =>
      exact .branch slots wild ⟨h.kind, h.keys, h.nodup, h.children, h.hasWild, h.keyed, h.param⟩
        (.inl rfl)
  | param name next h =>
      exact .param name next ⟨h.kind, h.label, h.isName, h.keys, h.children, h.hasWild, h.keyed⟩
        (.inl rfl)
  | holder _ h => exact absurd h.kind hkind
  | leaf _ h => exact absurd h.kind hkind

theorem extend_end (route : String) (v : α) {n : Node α} (hn : n.Sound) (hkind : n.kind ≠ .catchAll)
    (hbelow : n.hit? = none → ∀ e ∈ n.held, e.pattern ≠ []) :
    Fills route v [] n (extend route v n []) := by
  have hblocks : ∀ q ∈ patterns n.held, ¬ Blocks q [] := by
    rintro q - (h | h)
    · exact not_clash_nil_right _ h
    · exact not_covers_nil_right _ h
  rw [extend, if_pos rfl]
  cases hvalue : n.value with
  | some old =>
      refine ⟨hn, rfl, rfl, .rfl, .duplicate hblocks (mem_patterns.2 ⟨⟨[], old, n.route⟩, ?_, rfl⟩)⟩
      exact mem_held.2 (.inl ⟨_, by rw [hit?, hvalue]; rfl, rfl⟩)
  | none =>
      refine ⟨setValue_sound hn hkind v route, rfl, rfl, ?_, .accepted hblocks ?_ ?_⟩
      · simp [held, hit?, hvalue, gain]
      · intro hmem
        obtain ⟨e, he, hnil⟩ := mem_patterns.1 hmem
        exact hbelow (hit?_none.2 hvalue) e he hnil
      · exact fun q _ => not_covers_nil_left q

theorem extend_static (route : String) (v : α) {n : Node α} (hn : n.Sound)
    (hkind : n.kind ≠ .catchAll) (hlength : n.keys.length ≤ n.children.length) {slashed : Bool}
    {rest : Bytes} (hrest : Grammar slashed rest) {b : UInt8} {width : Nat}
    (hb : nextLiteral? rest = some (b, width)) (hfit : ∀ c, c.Keyed b → (n.addStatic b c).Fit)
    (hapart : ∀ q ∈ patterns n.held, ¬ Conflict q (elements rest)) :
    Fills route v (elements rest) n (extend route v n rest) := by
  have hne : rest ≠ [] := by
    rintro rfl
    cases hb
  obtain ⟨c, hgraft, hc⟩ := graft_bare route v (grammar_of_nextLiteral? hrest hb)
    (n := { priority := 1, route }) ⟨.inl rfl, rfl, rfl, rfl, rfl, rfl⟩
  have hkeyed := hc.keyed rfl (nextLiteral?_some hrest hb).1
  have hextend : extend route v n rest = ⟨n.addStatic b c, .ok ()⟩ := by
    rw [extend, if_neg hne, hb]
    simp only [if_neg hkind, if_neg (Nat.not_lt.2 hlength), hgraft]
    rfl
  rw [hextend]
  refine ⟨addStatic_every hn hc.sound hlength (hfit c hkeyed), ?_, ?_, ?_, .apart hapart⟩
  · exact promote_kind ..
  · exact promote_label ..
  · have hheld := addStatic_held (c := c) b hlength
    rw [hc.entries] at hheld
    exact hheld

theorem extend_wild (route : String) (v : α) {n : Node α} (hn : n.Sound)
    {slots : List (UInt8 × Node α)} (hbranch : n.IsBranch slots none) {name rest : Bytes}
    (hname : IsName name) (hstop : firstSegment rest = []) (hrest : Grammar false rest)
    (hapart : ∀ q ∈ patterns n.held, ¬ Conflict q (elements (colon :: (name ++ rest)))) :
    Fills route v (elements (colon :: (name ++ rest))) n
      (extend route v n (colon :: (name ++ rest))) := by
  obtain ⟨next, hnext, hc, hgraft⟩ := graft_wildcard route v hname hstop hrest
  have hw := stalk_stem hname hstop hnext fun c h => (hc c h).grown (bare_fresh route)
  have hextend : extend route v n (colon :: (name ++ rest)) =
      ⟨n.addWild (stalk route v name next), .ok ()⟩ := by
    rw [extend, if_neg (List.cons_ne_nil _ _), ← hgraft]
    rfl
  rw [hextend]
  have hfit : (n.addWild (stalk route v name next)).Fit :=
    .branch _ _ (hbranch.addWild hw.kind) (addWild_live n _)
  refine ⟨addWild_every (fun c hc => hn.child hc) hw.sound hfit, rfl, rfl, ?_, .apart hapart⟩
  have hheld := addWild_held n (stalk route v name next)
  rw [hw.entries] at hheld
  exact hheld

/-- A pattern that no child of a branch starts like is apart from everything below the branch. -/
theorem IsBranch.apart {n : Node α} {slots : List (UInt8 × Node α)} {wild : Option (Node α)}
    (h : n.IsBranch slots wild) (hn : n.Sound) {e : Element}
    (hslot : ∀ b, e = .literal b → b ∉ n.keys) (hwild : e.isWildcard = true → wild = none)
    (es : List Element) : ∀ q ∈ patterns n.held, ¬ Conflict q (e :: es) := by
  intro q hq
  obtain ⟨e', he', rfl⟩ := mem_patterns.1 hq
  cases h.source hn he' with
  | here => exact not_conflict_nil_cons e es
  | slot s hs =>
      have hkey : s.1 ∈ n.keys := h.keys ▸ List.mem_map_of_mem hs
      exact not_conflict_heads (fun heq => hslot s.1 heq.symm hkey) (.inl rfl)
  | wild w hw name =>
      have hliteral : e.isWildcard = false := by
        by_cases he : e.isWildcard = true
        · rw [hwild he] at hw
          cases hw
        · exact Bool.eq_false_iff.2 he
      refine not_conflict_heads (fun heq => ?_) (.inr hliteral)
      rw [← heq] at hliteral
      cases hliteral

theorem extend_star (route : String) (v : α) {n : Node α} (hn : n.Sound)
    {slots : List (UInt8 × Node α)} (hbranch : n.IsBranch slots none) {name : Bytes}
    (hname : IsName name) {front : Bytes} (hlabel : n.label = front ++ [slash]) :
    Grows route v (literals n.label ++ [.catchAll name]) n (extend route v n (star :: name)) := by
  have hextend : extend route v n (star :: name) =
      ⟨n, .error (n.catchAllConflict route (star :: name))⟩ := by
    rw [extend, if_neg (List.cons_ne_nil _ _), ← graft_star hname route v (by simp [hlabel])]
    rfl
  have hliterals : literals n.label = literals front ++ [.literal slash] := by
    rw [hlabel]
    exact List.map_append
  rw [hextend]
  refine ⟨hn, rfl, fun _ => rfl, .rfl, ?_⟩
  have hwhole := hbranch.whole hn
  have hblocks : ∀ q ∈ patterns n.held,
      ¬ Blocks (literals n.label ++ q) (literals n.label ++ [.catchAll name]) := by
    intro q hq
    have hapart : ¬ Conflict q [.catchAll name] :=
      hbranch.apart hn (fun _ h => by cases h) (fun _ => rfl) [] q hq
    have hcatchAll : ¬ ∃ name, q = [.catchAll name] := fun ⟨name, h⟩ => hwhole q hq name h
    rintro (h | h)
    · exact (not_conflict_iff.1 hapart).1 (.inl ((clash_literals _).1 h))
    · rcases covers_literals h with h | h
      · exact (not_conflict_iff.1 hapart).1 (.inr h)
      · exact hcatchAll h
  obtain ⟨e, he⟩ := List.exists_mem_of_ne_nil _ hn.held_ne_nil
  have hq : e.pattern ∈ patterns n.held := mem_patterns.2 ⟨e, he, rfl⟩
  rw [patterns_entries, hbranch.edge]
  refine .crowded ?_ ?_ (List.mem_map_of_mem hq) ⟨literals front, name, e.pattern, ?_, ?_⟩ ..
  · simpa using hblocks
  · intro hmem
    obtain ⟨q, hq, heq⟩ := List.mem_map.1 hmem
    exact hwhole q hq name (List.append_cancel_left heq)
  · simp [hliterals]
  · simp [hliterals]

theorem extend_branch (route : String) (v : α) {n : Node α} (hn : n.Sound)
    {slots : List (UInt8 × Node α)} {wild : Option (Node α)} (hbranch : n.IsBranch slots wild)
    {rest : Bytes} (hrest : Grammar (slashedAfter false n.label) rest)
    (hfree : ∀ e es, elements rest = e :: es →
      (∀ b, e = .literal b → b ∉ n.keys) ∧ (e.isWildcard = true → wild = none)) :
    Grows route v (literals n.label ++ elements rest) n (extend route v n rest) := by
  have hkind : n.kind ≠ .catchAll := by
    rcases hbranch.kind with h | h <;> simp [h]
  have hlength : n.keys.length ≤ n.children.length := by
    simp [hbranch.keys, hbranch.children]
  cases hb : nextLiteral? rest with
  | some next =>
      obtain ⟨b, width⟩ := next
      obtain ⟨helements, -⟩ := nextLiteral?_some hrest hb
      obtain ⟨hslot, hwild⟩ := hfree _ _ helements
      have hfills := extend_static route v hn hkind hlength hrest hb (fun c hc => ?_) ?_
      · apply hfills.branch hbranch hn
        rw [helements]
        exact whole_literal _ _
      · obtain ⟨slots', h⟩ := hbranch.addStatic (hslot b rfl) hc
        exact .branch slots' wild h (addStatic_live hlength)
      · rw [helements]
        exact hbranch.apart hn hslot hwild _
  | none =>
      cases nextLiteral?_none hrest hb with
      | ended =>
          have hfills := extend_end route v hn hkind fun hnone e he hnil => ?_
          · rw [elements_nil]
            exact hfills.branch hbranch hn whole_nil
          · cases hbranch.source hn he with
            | here hit hhit => simp [hnone] at hhit
            | slot => cases hnil
            | wild => cases hnil
      | @param name tail hname hstop htail =>
          have helements := elements_param hname hstop
          obtain ⟨hslot, hwild⟩ := hfree _ _ helements
          cases hwild rfl
          have hfills := extend_wild route v hn hbranch hname hstop htail ?_
          · apply hfills.branch hbranch hn
            rw [helements]
            exact whole_param _ _
          · rw [helements]
            exact hbranch.apart hn hslot hwild _
      | @catchAll name hname hslash =>
          have helements := elements_catchAll hname
          obtain ⟨-, hwild⟩ := hfree _ _ helements
          cases hwild rfl
          rcases slashedAfter_eq_true hslash with ⟨-, hfalse⟩ | ⟨front, hlabel⟩
          · cases hfalse
          · rw [helements]
            exact extend_star route v hn hbranch hname hlabel

end HttpRouting.Node

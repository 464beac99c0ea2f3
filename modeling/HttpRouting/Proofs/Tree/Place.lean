import HttpRouting.Proofs.Tree.Extend

namespace HttpRouting.Node

open Bytes Pattern

variable {α : Type} {route : String} {v : α} {n c : Node α} {path : Bytes} {used common i : Nat}

section Turns

variable {rest : Bytes} {b : UInt8} {width : Nat}

theorem turn_end (n : Node α) : n.turn [] = .stop := rfl

theorem turn_literal (hb : nextLiteral? rest = some (b, width)) :
    n.turn rest =
      if n.kind = .param ∧ b = slash ∧ n.children.length = 1 then .descend 0
      else
        (n.slot? b).elim
          (if n.kind = .catchAll then (if n.hasWild then .wild else .stop) else .stop) .descend := by
  cases rest with
  | nil => cases hb
  | cons a rest =>
      unfold turn
      rw [hb]
      dsimp only
      cases n.slot? b <;> rfl

theorem turn_wildcard (hne : rest ≠ []) (hb : nextLiteral? rest = none) :
    n.turn rest = if n.hasWild then .wild else .stop := by
  cases rest with
  | nil => exact absurd rfl hne
  | cons a rest => simp only [turn, hb]

theorem commonLength_append (as bs : Bytes) : commonLength (as ++ bs) as = as.length := by
  induction as with
  | nil => cases bs <;> rfl
  | cons a as ih => rw [List.cons_append, commonLength, if_pos rfl, ih, List.length_cons]

theorem IsBranch.overlap {slots : List (UInt8 × Node α)} {wild : Option (Node α)}
    (h : n.IsBranch slots wild) (path : Bytes) :
    n.overlap path = Pattern.overlap path n.label := by
  obtain ⟨hparam, hcatchAll⟩ := h.not_wildcard
  have hwildcard : n.isWildcard = false := by simp [isWildcard, hparam, hcatchAll]
  rw [Node.overlap, hwildcard]
  rfl

theorem overlap_wildcard (h : n.isWildcard = true) (rest : Bytes) :
    n.overlap (n.label ++ rest) = (n.label.length, n.label.length) := by
  rw [Node.overlap, h, commonLength_append]
  rfl

theorem IsParam.takes_iff {name : Bytes} {next : Option (Node α)} (h : n.IsParam name next) :
    n.takes path = true ↔ ∃ rest, path = n.label ++ rest ∧ firstSegment rest = [] := by
  rw [Node.takes, h.kind]
  constructor
  · intro htakes
    simp only [Bool.and_eq_true, List.isPrefixOf_iff_prefix] at htakes
    obtain ⟨⟨-, rest, rfl⟩, hhead⟩ := htakes
    refine ⟨rest, rfl, firstSegment_eq_nil.2 ?_⟩
    cases rest with
    | nil => exact .inl rfl
    | cons b rest => exact .inr (by simpa using hhead)
  · rintro ⟨rest, rfl, hstop⟩
    rcases firstSegment_eq_nil.1 hstop with rfl | hhead
    · simp
    · simp [hhead]

theorem IsParam.takes {name' : Bytes} {next : Option (Node α)} (h : n.IsParam name' next)
    {name rest : Bytes} (hname : IsName name) (hstop : firstSegment rest = []) :
    n.takes (colon :: (name ++ rest)) = true ↔ name' = name := by
  have hslash {name : Bytes} (hname : IsName name) : ∀ b ∈ name, b ≠ slash :=
    fun b hb => (hname.2 b hb).1
  rw [h.takes_iff, h.label]
  constructor
  · rintro ⟨tail, htail, hstop'⟩
    have htail : name ++ rest = name' ++ tail := (List.cons.inj htail).2
    rw [← firstSegment_append (hslash h.isName) hstop', ← htail,
      firstSegment_append (hslash hname) hstop]
  · rintro rfl
    exact ⟨rest, rfl, hstop⟩

theorem IsParam.of_takes {name : Bytes} {next : Option (Node α)} (h : n.IsParam name next)
    (hpath : Grammar false path) (htakes : n.takes path = true) :
    ∃ rest, path = n.label ++ rest ∧ firstSegment rest = [] ∧ Grammar false rest := by
  obtain ⟨rest, rfl, hstop⟩ := h.takes_iff.1 htakes
  rw [h.label] at hpath ⊢
  obtain ⟨name', rest', heq, hname', hstop', hrest'⟩ := grammar_colon hpath
  have hsame : rest = rest' := by
    rw [← dropWhile_append (fun b hb => (h.isName.2 b hb).1) hstop,
      ← dropWhile_append (fun b hb => (hname'.2 b hb).1) hstop']
    exact congrArg _ heq
  exact ⟨rest, rfl, hstop, hsame ▸ hrest'⟩

theorem IsParam.takes_front {name : Bytes} {next : Option (Node α)} (h : n.IsParam name next)
    {slashed : Bool} (hfront : Front slashed rest) (hne : rest ≠ []) :
    ∃ e es, elements rest = e :: es ∧ e.isWildcard = true ∧
      (n.takes rest = true ↔ .param name = e) ∧ (n.takes rest = true → Grammar false rest) := by
  cases hfront with
  | ended => exact absurd rfl hne
  | @param name' tail hname hstop htail =>
      refine ⟨_, _, elements_param hname hstop, rfl, ?_, fun _ => .param hname hstop htail⟩
      rw [h.takes hname hstop, Element.param.injEq]
  | @catchAll name' hname hslash =>
      have htakes : n.takes (star :: name') = false := by
        rw [Node.takes, h.kind, h.label]
        rfl
      refine ⟨_, _, elements_catchAll hname, rfl, ?_, ?_⟩ <;> simp [htakes]

end Turns

section Steps

theorem place_split (hoverlap : n.overlap path = (used, common)) (hlt : common < n.label.length) :
    place route v n path = extend route v (n.split common).raised (path.drop used) := by
  rw [place, hoverlap]
  exact if_pos hlt

theorem place_stop (hoverlap : n.overlap path = (used, n.label.length))
    (hturn : n.turn (path.drop used) = .stop) :
    place route v n path = extend route v n.raised (path.drop used) := by
  rw [place, hoverlap]
  dsimp only
  rw [if_neg (Nat.lt_irrefl _), hturn]

theorem place_descend (hoverlap : n.overlap path = (used, n.label.length))
    (hturn : n.turn (path.drop used) = .descend i) (hc : n.children[i]? = some c) :
    place route v n path = (place route v c (path.drop used)).map (n.raised.settle i) := by
  rw [place, hoverlap]
  dsimp only
  rw [if_neg (Nat.lt_irrefl _), hturn]
  dsimp only
  split
  · next c' hc' =>
      rw [hc] at hc'
      cases hc'
      rfl
  · next hnone => simp [hc] at hnone

theorem place_wild (hoverlap : n.overlap path = (used, n.label.length))
    (hturn : n.turn (path.drop used) = .wild) {front : List (Node α)}
    (hlast : n.children = front ++ [c]) :
    place route v n path =
      if c.takes (path.drop used) then
        (place route v c (path.drop used)).map n.raised.replaceLast
      else ⟨n.raised, .error (c.wildcardConflict route (path.drop used))⟩ := by
  obtain ⟨hc, hchild⟩ := lastChild_eq hlast
  rw [place, hoverlap]
  dsimp only
  rw [if_neg (Nat.lt_irrefl _), hturn]
  dsimp only
  rw [hchild]

end Steps

/-- A wildcard is only entered by patterns that it takes, and a holder only by its slash. -/
structure Enters (n : Node α) (path : Bytes) : Prop where
  param : n.kind = .param → n.takes path = true
  holder : n.kind = .catchAll →
    n.hasWild = true ∧ (elements path).head? = some (.literal slash)

theorem Keyed.enters {b : UInt8} (h : n.Keyed b) (hn : n.Sound) {es : List Element}
    (hpath : elements path = .literal b :: es) : n.Enters path := by
  refine ⟨fun hparam => ?_, fun hholder => ?_⟩
  · rcases h.kind with hkind | ⟨hkind, -⟩ <;> simp [hkind] at hparam
  · have hslash := h.eq_slash hn hholder
    rw [hpath, hslash]
    rcases h.kind with hkind | ⟨-, hwild⟩
    · simp [hkind] at hholder
    · exact ⟨hwild, rfl⟩

theorem Grows.keyed {b : UInt8} {es : List Element} {p : Placement α}
    (h : Grows route v (.literal b :: es) n p) (hn : n.Keyed b) : p.node.Keyed b := by
  refine ⟨?_, fun e he => ?_⟩
  · rcases hn.kind with hkind | ⟨hkind, hwild⟩
    · exact .inl (h.kind.trans hkind)
    · exact .inr ⟨h.kind.trans hkind, (h.hasWild hkind).trans hwild⟩
  · rcases List.mem_append.1 (h.entries.mem_iff.1 he) with he | he
    · cases houtcome : p.outcome with
      | ok _ =>
          rw [houtcome, gain, List.mem_singleton] at he
          exact ⟨es, by rw [he]⟩
      | error _ =>
          rw [houtcome] at he
          cases he
    · exact hn.opens e he

section Children

variable {es : List Element} {p : Placement α}

theorem Fills.settle (hn : n.Sound) (hc : n.children[i]? = some c) (h : Grows route v es c p)
    (hfit : (n.raised.settle i p.node).Fit)
    (hrest : ∀ q ∈ patterns n.held, q ∈ patterns c.entries ∨ ¬ Conflict q es) :
    Fills route v es n (p.map (n.raised.settle i)) := by
  have hsub : patterns c.entries ⊆ patterns n.held := by
    refine List.map_subset _ fun e he => mem_held.2 (.inr ⟨c, List.mem_of_getElem? hc, he⟩)
  refine ⟨settle_every (raised_sound hn) h.sound hfit, ?_, ?_, ?_, h.verdict.widen hsub hrest⟩
  · exact promote_kind ..
  · exact promote_label ..
  · exact settle_held (n := n.raised) hc h.entries

theorem Fills.replaceLast (hn : n.Sound) {front : List (Node α)} (hc : n.children = front ++ [c])
    (h : Grows route v es c p) (hfit : (n.raised.replaceLast p.node).Fit)
    (hrest : ∀ q ∈ patterns n.held, q ∈ patterns c.entries ∨ ¬ Conflict q es) :
    Fills route v es n (p.map n.raised.replaceLast) := by
  have hsub : patterns c.entries ⊆ patterns n.held := by
    refine List.map_subset _ fun e he => mem_held.2 (.inr ⟨c, by simp [hc], he⟩)
  refine ⟨replaceLast_every (raised_sound hn) h.sound hfit, rfl, rfl, ?_, h.verdict.widen hsub hrest⟩
  exact replaceLast_held (n := n.raised) hc h.entries

end Children

/-- A tree that gained the same entries at a place of its own shape. -/
theorem Grows.of_entries {m : Node α} {es : List Element} {p : Placement α}
    (h : Grows route v es m p) (hkind : m.kind = n.kind) (hbranch : n.kind ≠ .catchAll)
    (hentries : m.entries = n.entries) : Grows route v es n p := by
  obtain ⟨hsound, hkind', -, hgain, hverdict⟩ := h
  rw [hentries] at hgain hverdict
  exact ⟨hsound, hkind'.trans hkind, fun h => absurd h hbranch, hgain, hverdict⟩

section Kinds

variable (hn : n.Sound) (hpath : Grammar false path)
  (ih : ∀ c ∈ n.children, ∀ path, Grammar false path → c.Enters path →
    Grows route v (elements path) c (place route v c path))

include hn hpath ih

theorem place_slot {slots : List (UInt8 × Node α)} {wild : Option (Node α)}
    (hbranch : n.IsBranch slots wild) {b : UInt8} {es : List Element}
    (helements : elements path = .literal b :: es) (hslot : slots[i]? = some (b, c))
    (hc : n.children[i]? = some c) :
    Fills route v (elements path) n ((place route v c path).map (n.raised.settle i)) := by
  have hmem := List.mem_of_getElem? hc
  have hs := List.mem_of_getElem? hslot
  have hkeyed := hbranch.keyed _ hs
  have hgrows := ih c hmem path hpath (hkeyed.enters (hn.child hmem) helements)
  apply Fills.settle hn hc hgrows
  · rw [helements] at hgrows
    obtain ⟨slots', h⟩ := hbranch.raised.settle hslot (hgrows.keyed hkeyed)
    exact .branch slots' wild h (settle_live (List.getElem?_eq_some_iff.1 hc).1)
  · intro q hq
    obtain ⟨e, he, rfl⟩ := mem_patterns.1 hq
    rw [helements]
    cases hbranch.source hn he with
    | here => exact .inr (not_conflict_nil_cons _ es)
    | slot s hs' es' hit he' =>
        obtain ⟨b', c'⟩ := s
        by_cases hkey : b' = b
        · subst hkey
          cases hbranch.slot_unique hs hs'
          exact .inl (mem_patterns.2 ⟨_, he', rfl⟩)
        · exact .inr (not_conflict_heads (by simpa using hkey) (.inl rfl))
    | wild => exact .inr (not_conflict_heads (by simp) (.inr rfl))

theorem place_same_wild {slots : List (UInt8 × Node α)} {w : Node α}
    (hbranch : n.IsBranch slots (some w)) {name : Bytes} {es : List Element}
    (helements : elements path = .param name :: es) (htakes : w.takes path = true) :
    Fills route v (elements path) n ((place route v w path).map n.raised.replaceLast) := by
  have hkind := hbranch.param w rfl
  have hchildren : n.children = slots.map Prod.snd ++ [w] := hbranch.children
  have henters : w.Enters path := ⟨fun _ => htakes, fun h => by simp [hkind] at h⟩
  have hgrows := ih w (by simp [hchildren]) path hpath henters
  apply Fills.replaceLast hn hchildren hgrows
  · exact .branch slots _ (hbranch.raised.replaceLast (hgrows.kind.trans hkind))
      (replaceLast_live _ _)
  · intro q hq
    obtain ⟨e, he, rfl⟩ := mem_patterns.1 hq
    rw [helements]
    cases hbranch.source hn he with
    | here => exact .inr (not_conflict_nil_cons _ es)
    | slot => exact .inr (not_conflict_heads (by simp) (.inl rfl))
    | wild w' hw' name' next hparam es' hit he' =>
        cases hw'
        exact .inl (mem_patterns.2 ⟨_, he', rfl⟩)

omit hpath ih in
theorem place_other_wild {slots : List (UInt8 × Node α)} {w : Node α}
    (hbranch : n.IsBranch slots (some w)) {name : Bytes} {next : Option (Node α)}
    (hparam : w.IsParam name next) {e : Element} (he : e.isWildcard = true) (hne : .param name ≠ e)
    (es : List Element) :
    Grows route v (literals n.label ++ e :: es) n
      ⟨n.raised, .error (w.wildcardConflict route path)⟩ := by
  have hw : w ∈ n.children := by simp [hbranch.children]
  obtain ⟨e', he'⟩ := List.exists_mem_of_ne_nil _ (Sound.entries_ne_nil (hn.child hw))
  obtain ⟨e'', -, rfl⟩ := hparam.mem_entries.1 he'
  have hmem : .param name :: e''.pattern ∈ patterns n.held :=
    mem_patterns.2 ⟨_, mem_held.2 (.inr ⟨w, hw, he'⟩), rfl⟩
  have hclash : Clash (.param name :: e''.pattern) (e :: es) :=
    clash_cons_cons.2 (.inr ⟨rfl, he, hne⟩)
  refine ⟨raised_sound hn, rfl, fun _ => rfl, ?_, ?_⟩
  · rw [raised_entries]
    exact .rfl
  · rw [patterns_entries, hbranch.edge]
    exact .blocked (List.mem_map_of_mem hmem) (.inl ((clash_literals _).2 hclash)) ..

omit hpath ih in
theorem place_inside {slots : List (UInt8 × Node α)} {wild : Option (Node α)}
    (hbranch : n.IsBranch slots wild) (hoverlap : n.overlap path = (used, common))
    (hlt : common < n.label.length)
    (hrest : Grammar (slashedAfter false (n.label.take common)) (path.drop used))
    (hhead : ∀ b, n.label[common]? = some b →
      (elements (path.drop used)).head? ≠ some (.literal b)) :
    Grows route v (literals (n.label.take common) ++ elements (path.drop used)) n
      (place route v n path) := by
  have hb := List.getElem?_eq_getElem hlt
  have hsplit := (split_branch hbranch hb).raised
  have hgrows := extend_branch route v (raised_sound (split_sound hbranch hn hlt)) hsplit hrest ?_
  · rw [place_split hoverlap hlt]
    have hentries := (raised_entries _).trans (split_entries (k := common) hbranch)
    exact hgrows.of_entries rfl hbranch.not_wildcard.2 hentries
  · intro e es hes
    refine ⟨?_, fun _ => rfl⟩
    rintro b rfl hmem
    rw [hsplit.keys] at hmem
    have hkey : b = n.label[common] := List.mem_singleton.1 hmem
    apply hhead _ hb
    rw [hes, hkey]
    rfl

omit hpath ih in
theorem place_here {slots : List (UInt8 × Node α)} {wild : Option (Node α)}
    (hbranch : n.IsBranch slots wild) (hoverlap : n.overlap path = (used, n.label.length))
    (hturn : n.turn (path.drop used) = .stop)
    (hrest : Grammar (slashedAfter false n.label) (path.drop used))
    (hfree : ∀ e es, elements (path.drop used) = e :: es →
      (∀ b, e = .literal b → b ∉ n.keys) ∧ (e.isWildcard = true → wild = none)) :
    Grows route v (literals n.label ++ elements (path.drop used)) n (place route v n path) := by
  have hgrows := extend_branch route v (raised_sound hn) hbranch.raised hrest hfree
  rw [place_stop hoverlap hturn]
  exact hgrows.of_entries rfl hbranch.not_wildcard.2 (raised_entries n)

omit hpath in
theorem place_below {slots : List (UInt8 × Node α)} {wild : Option (Node α)}
    (hbranch : n.IsBranch slots wild) (hoverlap : n.overlap path = (used, n.label.length))
    (hrest : Grammar (slashedAfter false n.label) (path.drop used)) :
    Grows route v (literals n.label ++ elements (path.drop used)) n (place route v n path) := by
  obtain ⟨hparam, hcatchAll⟩ := hbranch.not_wildcard
  cases hb : nextLiteral? (path.drop used) with
  | some next =>
      obtain ⟨b, width⟩ := next
      obtain ⟨helements, -⟩ := nextLiteral?_some hrest hb
      have hturn := turn_literal (n := n) hb
      rw [if_neg (fun h => hparam h.1), if_neg hcatchAll] at hturn
      cases hi : n.slot? b with
      | some i =>
          rw [hi] at hturn
          obtain ⟨c, hslot, hc⟩ := hbranch.slot_some hi
          have hfills := place_slot hn (grammar_of_nextLiteral? hrest hb) ih hbranch helements hslot hc
          rw [place_descend hoverlap hturn hc]
          apply hfills.branch hbranch hn
          rw [helements]
          exact whole_literal _ _
      | none =>
          rw [hi] at hturn
          apply place_here hn hbranch hoverlap hturn hrest
          intro e es hes
          rw [helements] at hes
          obtain ⟨rfl, -⟩ := List.cons.inj hes
          refine ⟨?_, fun h => by cases h⟩
          rintro b' ⟨⟩
          exact slot_none.1 hi
  | none =>
      by_cases hnil : path.drop used = []
      · apply place_here hn hbranch hoverlap (by rw [hnil, turn_end]) hrest
        intro e es hes
        rw [hnil, elements_nil] at hes
        cases hes
      have hturn := turn_wildcard (n := n) hnil hb
      have hfront := nextLiteral?_none hrest hb
      rw [hbranch.hasWild] at hturn
      cases wild with
      | none =>
          refine place_here hn hbranch hoverlap hturn hrest fun e es hes => ⟨?_, fun _ => rfl⟩
          rintro b rfl
          exact absurd hes (hfront.not_literal b es)
      | some w =>
          obtain ⟨name, next, hw⟩ := Sound.param (hn.child (by simp [hbranch.children]))
            (hbranch.param w rfl)
          obtain ⟨e, es, helements, he, htakes, hgrammar⟩ := hw.takes_front hfront hnil
          have hchildren : n.children = slots.map Prod.snd ++ [w] := hbranch.children
          rw [place_wild hoverlap hturn hchildren]
          by_cases h : w.takes (path.drop used) = true
          · rw [← htakes.1 h] at helements
            have hfills := place_same_wild hn (hgrammar h) ih hbranch helements h
            rw [if_pos h]
            apply hfills.branch hbranch hn
            rw [helements]
            exact whole_param _ _
          · rw [if_neg h, helements]
            exact place_other_wild hn hbranch hw he (fun heq => h (htakes.2 heq)) es

theorem place_branch {slots : List (UInt8 × Node α)} {wild : Option (Node α)}
    (hbranch : n.IsBranch slots wild) : Grows route v (elements path) n (place route v n path) := by
  obtain ⟨helements, hrest, hhead⟩ := overlap_elements hpath n.label
  have hle := overlap_snd_le path n.label
  obtain ⟨⟨used, common⟩, ho⟩ : ∃ o, Pattern.overlap path n.label = o := ⟨_, rfl⟩
  have hoverlap := (hbranch.overlap path).trans ho
  rw [ho] at helements hrest hhead hle
  rw [helements]
  rcases Nat.lt_or_eq_of_le hle with hlt | heq
  · exact place_inside hn hbranch hoverlap hlt hrest hhead
  · dsimp only at *
    subst heq
    rw [List.take_length] at *
    exact place_below hn ih hbranch hoverlap hrest

omit hpath ih in
theorem place_param_end {name : Bytes} {next : Option (Node α)} (hparam : n.IsParam name next) :
    Fills route v [] n (extend route v n.raised []) := by
  refine .of_raised (extend_end route v (raised_sound hn) (by simp [hparam.kind]) ?_)
  intro hnone e he hnil
  rcases hparam.raised.source he with ⟨hit, hhit, -⟩ | ⟨c, rfl, he⟩
  · rw [hnone] at hhit
    cases hhit
  · obtain ⟨es, hes⟩ := hparam.opens he
    rw [hnil] at hes
    cases hes

theorem place_param_next {name : Bytes} (hparam : n.IsParam name (some c)) {es : List Element}
    (hes : elements path = .literal slash :: es) :
    Fills route v (elements path) n ((place route v c path).map (n.raised.settle 0)) := by
  have hc : n.children[0]? = some c := by simp [hparam.children]
  have hmem := List.mem_of_getElem? hc
  have hkeyed := hparam.keyed c rfl
  have hgrows := ih c hmem path hpath (hkeyed.enters (hn.child hmem) hes)
  apply Fills.settle hn hc hgrows
  · rw [hes] at hgrows
    have hsettled := hparam.raised.settle (hgrows.keyed hkeyed)
    exact .param name _ hsettled (settle_live (List.getElem?_eq_some_iff.1 hc).1)
  · intro q hq
    obtain ⟨e, he, rfl⟩ := mem_patterns.1 hq
    rcases hparam.source he with ⟨hit, -, rfl⟩ | ⟨c', hc', he⟩
    · rw [hes]
      exact .inr (not_conflict_nil_cons _ es)
    · cases hc'
      exact .inl (mem_patterns.2 ⟨e, he, rfl⟩)

omit ih in
theorem place_param_new {name : Bytes} (hparam : n.IsParam name none) {es : List Element}
    (hes : elements path = .literal slash :: es) :
    Fills route v (elements path) n (extend route v n.raised path) := by
  obtain ⟨width, hb⟩ := nextLiteral?_of_elements hpath hes
  have hlength : n.raised.keys.length ≤ n.raised.children.length := by
    rw [hparam.raised.keys rfl]
    exact Nat.zero_le _
  refine .of_raised (extend_static route v (raised_sound hn) (by simp [hparam.kind]) hlength hpath hb
    ?_ ?_)
  · intro c hc
    exact .param name (some c) (hparam.raised.addStatic hc) (addStatic_live hlength)
  · intro q hq
    obtain ⟨e, he, rfl⟩ := mem_patterns.1 hq
    rcases hparam.raised.source he with ⟨hit, -, rfl⟩ | ⟨c, hc, -⟩
    · rw [hes]
      exact not_conflict_nil_cons _ es
    · cases hc

theorem place_param {name : Bytes} {next : Option (Node α)} (hparam : n.IsParam name next)
    (htakes : n.takes path = true) : Grows route v (elements path) n (place route v n path) := by
  obtain ⟨rest, rfl, hstop, hrest⟩ := hparam.of_takes hpath htakes
  have hoverlap := overlap_wildcard (n := n) (by simp [isWildcard, hparam.kind]) rest
  have hdrop : (n.label ++ rest).drop n.label.length = rest := List.drop_left
  have helements : elements (n.label ++ rest) = .param name :: elements rest := by
    rw [hparam.label]
    exact elements_param hparam.isName hstop
  rw [helements]
  by_cases hnil : rest = []
  · subst hnil
    have hturn : n.turn ((n.label ++ []).drop n.label.length) = .stop := by rw [hdrop, turn_end]
    rw [place_stop hoverlap hturn, hdrop, elements_nil]
    exact (place_param_end hn hparam).param hparam whole_nil
  · obtain ⟨es, hes⟩ := elements_of_firstSegment hstop hnil
    have hwhole : Whole (elements rest) := by
      rw [hes]
      exact whole_literal _ _
    obtain ⟨width, hb⟩ := nextLiteral?_of_elements hrest hes
    have hturn := turn_literal (n := n) hb
    cases next with
    | some c =>
        have hc : n.children[0]? = some c := by simp [hparam.children]
        rw [← hdrop, if_pos ⟨hparam.kind, rfl, by simp [hparam.children]⟩] at hturn
        rw [place_descend hoverlap hturn hc, hdrop]
        exact (place_param_next hn hrest ih hparam hes).param hparam hwhole
    | none =>
        have hslot : n.slot? slash = none := slot_none.2 (by simp [hparam.keys rfl])
        rw [← hdrop, if_neg (by simp [hparam.children]), hslot,
          if_neg (by simp [hparam.kind])] at hturn
        rw [place_stop hoverlap hturn, hdrop]
        exact (place_param_new hn hrest hparam hes).param hparam hwhole

omit hn hpath ih in
theorem IsHolder.overlap {leaf : Node α} (hholder : n.IsHolder leaf) (path : Bytes) :
    n.overlap path = (0, n.label.length) := by
  have h := overlap_wildcard (n := n) (by simp [isWildcard, hholder.kind]) path
  rwa [hholder.label] at h ⊢

omit hn hpath ih in
theorem IsHolder.turn {leaf : Node α} (hholder : n.IsHolder leaf)
    (hslash : (elements path).head? = some (.literal slash)) : n.turn path = .wild := by
  cases hb : nextLiteral? path with
  | some next =>
      have hslot : n.slot? next.1 = none := slot_none.2 (by simp [hholder.keys])
      rw [turn_literal hb, hslot]
      simp [hholder.kind, hholder.hasWild]
  | none =>
      have hne : path ≠ [] := by
        rintro rfl
        simp [elements_nil] at hslash
      rw [turn_wildcard hne hb, if_pos hholder.hasWild]

omit hn hpath ih in
/-- Nothing gets past a holder, since its leaf takes no pattern. -/
theorem place_refused {leaf : Node α} (hholder : n.IsHolder leaf)
    (hslash : (elements path).head? = some (.literal slash)) :
    place route v n path = ⟨n.raised, .error (leaf.wildcardConflict route path)⟩ := by
  have hchildren : n.children = [] ++ [leaf] := hholder.children
  have hplace : place route v n path = _ :=
    place_wild (hholder.overlap path) (hholder.turn hslash) hchildren
  have htakes : leaf.takes path = false := by simp [Node.takes, hholder.leafKind]
  rw [List.drop_zero, htakes, if_neg (by simp)] at hplace
  exact hplace

omit hpath ih in
theorem place_holder (hkind : n.kind = .catchAll) (hwild : n.hasWild = true)
    (hslash : (elements path).head? = some (.literal slash)) :
    Grows route v (elements path) n (place route v n path) := by
  obtain ⟨leaf, name, hit, hholder, hleaf, hhit⟩ := hn.holder hkind hwild
  have hentries := hholder.entries.trans (hleaf.entries hhit)
  obtain ⟨es, helements⟩ := List.head?_eq_some_iff.1 hslash
  rw [place_refused hholder hslash]
  refine ⟨raised_sound hn, rfl, fun _ => rfl, ?_, ?_⟩
  · rw [raised_entries]
    exact .rfl
  · have hcovers : Covers [.literal slash, .catchAll name] (elements path) :=
      ⟨[], name, es, rfl, helements⟩
    exact .blocked (mem_patterns.2 ⟨⟨_, hit⟩, by simp [hentries], rfl⟩) (.inr hcovers) ..

end Kinds

theorem place_grows (route : String) (v : α) (hn : n.Sound) (hpath : Grammar false path)
    (henters : n.Enters path) :
    Grows route v (elements path) n (place route v n path) := by
  induction n using below_induction generalizing path with
  | h n below =>
      have ih : ∀ c ∈ n.children, ∀ path, Grammar false path → c.Enters path →
          Grows route v (elements path) c (place route v c path) :=
        fun c hc path hpath henters => below c hc (hn.child hc) hpath henters
      cases hn.here with
      | branch slots wild hbranch => exact place_branch hn hpath ih hbranch
      | param name next hparam =>
          exact place_param hn hpath ih hparam (henters.param hparam.kind)
      | holder leaf hholder =>
          exact place_holder hn hholder.kind hholder.hasWild (henters.holder hholder.kind).2
      | leaf name hleaf =>
          -- no walk enters a leaf, which `takes` refuses
          have hwild := (henters.holder hleaf.kind).1
          simp [hleaf.hasWild] at hwild

end HttpRouting.Node

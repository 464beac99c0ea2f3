import HttpRouting.Proofs.Pattern.Escapes
import HttpRouting.Proofs.Tree.Ranking
import Mathlib.Data.List.Forall2

namespace HttpRouting.Node

open Bytes Pattern

variable {α : Type}

/-- The values at and below a node, each with the labels that lead to it. -/
def stored : Node α → List (Bytes × Hit α)
  | ⟨_, label, _, _, _, children, value, route⟩ =>
      ((value.map fun v => ([], Hit.mk v route)).toList ++ storedBelow children).map
        fun s : Bytes × Hit α => (label ++ s.1, s.2)
where
  storedBelow : List (Node α) → List (Bytes × Hit α)
    | [] => []
    | c :: cs => stored c ++ storedBelow cs

theorem storedBelow_eq (cs : List (Node α)) : stored.storedBelow cs = cs.flatMap stored := by
  induction cs with
  | nil => rfl
  | cons c cs ih => rw [stored.storedBelow, ih, List.flatMap_cons]

theorem stored_below (n : Node α) :
    n.stored = ((n.hit?.map fun hit => ([], hit)).toList ++ n.children.flatMap stored).map
      fun s : Bytes × Hit α => (n.label ++ s.1, s.2) := by
  obtain ⟨kind, label, keys, hasWild, priority, children, value, route⟩ := n
  rw [stored, storedBelow_eq, hit?, Option.map_map]
  rfl

theorem Fit.plain_edge {n : Node α} (h : n.Fit) (es : List Element) :
    plain (edge n.kind n.label ++ es) = n.label ++ plain es := by
  cases h with
  | branch slots wild h => rw [h.edge, plain_literals]
  | param name next h => rw [h.edge, h.label]; simp [plain]
  | holder leaf h => rw [h.edge, h.label]; rfl
  | leaf name h => rw [h.edge, h.label]; simp [plain]

theorem stored_eq {n : Node α} (hn : n.Sound) :
    n.stored = n.entries.map fun e => (plain e.pattern, e.hit) := by
  induction hn with
  | @node n here _ ih =>
      have hbelow : n.children.flatMap stored =
          (n.children.flatMap entries).map fun e => (plain e.pattern, e.hit) := by
        rw [List.map_flatMap]
        exact List.flatMap_congr ih
      rw [stored_below, hbelow, entries_eq, held, List.map_map, List.map_append, List.map_append,
        List.map_map]
      congr 1
      · cases n.hit? with
        | none => rfl
        | some hit =>
            have hhere := here.plain_edge []
            simp only [List.append_nil, plain] at hhere
            simp [Entry.behind, hhere]
      · refine List.map_congr_left fun e _ => ?_
        simp [Entry.behind, here.plain_edge]

/-- A node with nothing below it but the leaf of a catch-all. -/
inductive LeadsToCatchAll : Node α → Prop
  | leaf {n : Node α} (hkind : n.kind = .catchAll) (hwild : n.hasWild = false) : LeadsToCatchAll n
  | above {n c : Node α} (hchildren : n.children = [c]) (hvalue : n.value = none)
      (hc : LeadsToCatchAll c) : LeadsToCatchAll n

/-- A child stands behind the first byte of its label. One without a label stands behind a slash, on
the way to a catch-all. -/
inductive ReachedBy : UInt8 → Node α → Prop
  | byte {b : UInt8} {c : Node α} (hlabel : c.label.head? = some b) : ReachedBy b c
  | unlabelled {c : Node α} (hlabel : c.label = []) (hc : c.LeadsToCatchAll) : ReachedBy slash c

/-- A parameter, or the leaf of a catch-all. The holder above the leaf has no name. -/
def IsNamed (n : Node α) : Prop := n.kind = .param ∨ (n.kind = .catchAll ∧ n.label ≠ [])

structure Represented (n : Node α) : Prop where
  priority : n.priority = n.stored.length
  ordered : n.statics.Pairwise fun a b => b.priority ≤ a.priority
  wildLast : ∃ wild : Option (Node α), n.children = n.statics ++ wild.toList ∧
    n.hasWild = wild.isSome ∧ (∀ w ∈ wild, w.IsNamed) ∧ ∀ c ∈ n.statics, ¬ c.IsNamed
  keys : n.kind ≠ .param → n.keys.Nodup ∧ List.Forall₂ ReachedBy n.keys n.statics
  param : n.kind = .param → n.children.length ≤ 1 ∧ ∀ c ∈ n.children, ReachedBy slash c
  leaf : n.kind = .catchAll → n.hasWild = false → n.children = [] ∧ n.value.isSome = true

theorem only_child {cs : List (Node α)} {e : Entry α} (hcs : ∀ c ∈ cs, c.Sound)
    (h : cs.flatMap entries = [e]) : ∃ c, cs = [c] ∧ c.entries = [e] := by
  cases cs with
  | nil => cases h
  | cons c cs =>
      have hc := (hcs c List.mem_cons_self).entries_ne_nil
      rw [List.flatMap_cons, List.append_eq_singleton_iff] at h
      rcases h with ⟨hnil, -⟩ | ⟨hone, hrest⟩
      · exact absurd hnil hc
      · cases cs with
        | nil => exact ⟨c, rfl, hone⟩
        | cons d cs =>
            have hd := (hcs d (by simp)).entries_ne_nil
            rw [List.flatMap_cons, List.append_eq_nil_iff] at hrest
            exact absurd hrest.1 hd

theorem label_of_catchAll {label name : Bytes} {es : List Element}
    (h : literals label ++ es = [.literal slash, .catchAll name]) (hes : Whole es) : label = [] := by
  cases label with
  | nil => rfl
  | cons b label =>
      have htail : literals label ++ es = [.catchAll name] := (List.cons.inj h).2
      cases label with
      | nil => exact absurd htail (hes name)
      | cons c label => cases htail

theorem leadsToCatchAll {n : Node α} (hn : n.Sound) {name : Bytes} {hit : Hit α}
    (h : n.entries = [⟨[.literal slash, .catchAll name], hit⟩]) : n.LeadsToCatchAll := by
  induction hn with
  | @node n here children ih =>
      have hn : n.Sound := .node here children
      cases here with
      | branch slots wild hbranch =>
          rw [entries_eq, hbranch.edge] at h
          obtain ⟨⟨pattern, hit'⟩, hheld, heq⟩ := List.map_eq_singleton_iff.1 h
          obtain ⟨hpattern, rfl⟩ := Entry.mk.inj heq
          have hmem : pattern ∈ patterns n.held := by simp [hheld, patterns]
          have hlabel := label_of_catchAll hpattern (hbranch.whole hn pattern hmem)
          rw [hlabel] at hpattern
          cases hvalue : n.value with
          | some v =>
              rw [held, hit?, hvalue] at hheld
              cases (List.cons.inj hheld).1
              cases hpattern
          | none =>
              rw [held, hit?, hvalue] at hheld
              obtain ⟨c, hchildren, hc⟩ := only_child children hheld
              have hpattern : pattern = [.literal slash, .catchAll name] := hpattern
              exact .above hchildren hvalue (ih c (by simp [hchildren]) (by rw [hc, hpattern]))
      | param name' next hparam =>
          have hmem : ⟨[.literal slash, .catchAll name], hit⟩ ∈ n.entries := by simp [h]
          obtain ⟨e, -, heq⟩ := hparam.mem_entries.1 hmem
          cases heq
      | holder leaf hholder =>
          exact .above hholder.children hholder.value (.leaf hholder.leafKind hholder.leafWild)
      | leaf name' hleaf => exact .leaf hleaf.kind hleaf.hasWild

theorem Keyed.reachedBy {n : Node α} {b : UInt8} (h : n.Keyed b) (hn : n.Sound) (hmarked : n.Marked) :
    ReachedBy b n := by
  by_cases hlabel : n.label = []
  · obtain ⟨name, hit, hentries⟩ := hmarked hlabel
    obtain ⟨es, hes⟩ := h.opens ⟨[.literal slash, .catchAll name], hit⟩ (by simp [hentries])
    cases hes
    exact .unlabelled hlabel (leadsToCatchAll hn hentries)
  · rcases h.kind with hkind | ⟨hkind, hwild⟩
    · exact .byte (h.head hn (.inl hkind) hlabel)
    · obtain ⟨leaf, name, hit, hholder, -⟩ := hn.holder hkind hwild
      exact absurd hholder.label hlabel

theorem Keyed.not_isNamed {n : Node α} {b : UInt8} (h : n.Keyed b) (hn : n.Sound) : ¬ n.IsNamed := by
  rcases h.kind with hkind | ⟨hkind, hwild⟩
  · simp [IsNamed, hkind]
  · obtain ⟨leaf, name, hit, hholder, -⟩ := hn.holder hkind hwild
    simp [IsNamed, hkind, hholder.label]

theorem statics_subset (n : Node α) : n.statics ⊆ n.children := by
  unfold statics
  split
  · exact List.dropLast_subset _
  · exact List.Subset.refl _

theorem statics_ordered {n : Node α} (hneat : n.Neat) (hcounted : n.Every Counted) :
    n.statics.Pairwise fun a b => b.priority ≤ a.priority := by
  refine hneat.ordered.imp_of_mem fun {a b} ha hb hle => ?_
  have hcounta : a.priority = a.entries.length := (hcounted.child (statics_subset n ha)).here
  have hcountb : b.priority = b.entries.length := (hcounted.child (statics_subset n hb)).here
  omega

theorem stored_length {n : Node α} (hn : n.Sound) (hcounted : n.Counted) :
    n.priority = n.stored.length := by
  rw [stored_eq hn, List.length_map]
  exact hcounted

theorem IsBranch.represented {n : Node α} {slots : List (UInt8 × Node α)} {wild : Option (Node α)}
    (h : n.IsBranch slots wild) (hn : n.Sound) (hneat : n.Neat) (hcounted : n.Every Counted) :
    n.Represented := by
  obtain ⟨hparam, hcatchAll⟩ := h.not_wildcard
  have hslot : ∀ s ∈ slots, s.2 ∈ n.children := fun s hs => by
    rw [h.children]
    exact List.mem_append_left _ (List.mem_map_of_mem hs)
  refine ⟨stored_length hn hcounted.here, statics_ordered hneat hcounted, ⟨wild, ?_, h.hasWild,
    fun w hw => .inl (h.param w hw), fun c hc => ?_⟩, fun _ => ⟨h.nodup, ?_⟩,
    fun hkind => absurd hkind hparam, fun hkind => absurd hkind hcatchAll⟩
  · rw [h.statics, h.children]
  · rw [h.statics] at hc
    obtain ⟨s, hs, rfl⟩ := List.mem_map.1 hc
    exact (h.keyed s hs).not_isNamed (hn.child (hslot s hs))
  · rw [h.keys, h.statics, List.forall₂_map_left_iff, List.forall₂_map_right_iff,
      List.forall₂_same]
    exact fun s hs => (h.keyed s hs).reachedBy (hn.child (hslot s hs)) (hneat.marked _ (hslot s hs))

theorem IsParam.represented {n : Node α} {name : Bytes} {next : Option (Node α)}
    (h : n.IsParam name next) (hn : n.Sound) (hneat : n.Neat) (hcounted : n.Every Counted) :
    n.Represented := by
  have hkeyed : ∀ c ∈ n.children, c.Keyed slash := fun c hc => by
    rw [h.children, Option.mem_toList] at hc
    exact h.keyed c hc
  refine ⟨stored_length hn hcounted.here, statics_ordered hneat hcounted,
    ⟨none, ?_, h.hasWild, nofun, fun c hc => ?_⟩, fun hkind => absurd h.kind hkind,
    fun _ => ⟨?_, fun c hc => ?_⟩, fun hkind => by simp [h.kind] at hkind⟩
  · rw [h.statics, h.children]
    exact (List.append_nil _).symm
  · have hc := statics_subset n hc
    exact (hkeyed c hc).not_isNamed (hn.child hc)
  · rw [h.children]
    cases next <;> simp
  · exact (hkeyed c hc).reachedBy (hn.child hc) (hneat.marked c hc)

theorem IsHolder.represented {n leaf : Node α} (h : n.IsHolder leaf) (hn : n.Sound) (hneat : n.Neat)
    (hcounted : n.Every Counted) : n.Represented := by
  have hstatics : n.statics = [] := statics_eq [] (some leaf) h.children h.hasWild
  obtain ⟨name, hleaf⟩ := Sound.leaf (hn.child (by simp [h.children])) h.leafKind h.leafWild
  refine ⟨stored_length hn hcounted.here, statics_ordered hneat hcounted,
    ⟨some leaf, ?_, h.hasWild, fun w hw => ?_, ?_⟩, fun _ => ⟨?_, ?_⟩,
    fun hkind => by simp [h.kind] at hkind, fun _ hwild => by simp [h.hasWild] at hwild⟩
  · rw [hstatics, h.children]
    rfl
  · cases hw
    exact .inr ⟨h.leafKind, by simp [hleaf.label]⟩
  · simp [hstatics]
  · simp [h.keys]
  · rw [h.keys, hstatics]
    exact .nil

theorem represented_childless {n : Node α} (hkeys : n.keys = []) (hchildren : n.children = [])
    (hwild : n.hasWild = false) (hpriority : n.priority = n.stored.length)
    (hparam : n.kind ≠ .param) (hleaf : n.kind = .catchAll → n.value.isSome = true) :
    n.Represented := by
  have hstatics : n.statics = [] := statics_eq [] none hchildren hwild
  refine ⟨hpriority, ?_, ⟨none, ?_, hwild, nofun, ?_⟩, fun _ => ⟨?_, ?_⟩,
    fun hkind => absurd hkind hparam, fun hkind _ => ⟨hchildren, hleaf hkind⟩⟩
  · rw [hstatics]
    exact .nil
  · rw [hstatics, hchildren]
    rfl
  · simp [hstatics]
  · simp [hkeys]
  · rw [hkeys, hstatics]
    exact .nil

theorem Sound.represented {n : Node α} (hn : n.Sound) (hneat : n.Every Neat)
    (hcounted : n.Every Counted) : n.Every Represented := by
  induction hn with
  | @node n here children ih =>
      have hn : n.Sound := .node here children
      refine .node ?_ fun c hc => ih c hc (hneat.child hc) (hcounted.child hc)
      cases here with
      | branch slots wild h => exact h.represented hn hneat.here hcounted
      | param name next h => exact h.represented hn hneat.here hcounted
      | holder leaf h => exact h.represented hn hneat.here hcounted
      | leaf name h =>
          exact represented_childless h.keys h.children h.hasWild
            (stored_length hn hcounted.here) (by simp [h.kind]) fun _ => h.value

theorem Bare.stored {n : Node α} (h : n.Bare) : n.stored = [] := by
  rw [stored_below, hit?, h.value, h.children]
  rfl

theorem Tracks.stored {n : Node α} {routes : List (String × α)} (h : Tracks n routes) :
    n.stored.Perm (routes.map fun r => (Pattern.unescape (utf8 r.1), ⟨r.2, r.1⟩)) := by
  rcases h.shape with hbare | hsound
  · have hentries := h.entries
    rw [hbare.entries, List.nil_perm, List.map_eq_nil_iff] at hentries
    rw [hbare.stored, hentries]
    exact .rfl
  · have hperm := h.entries.map fun e => (plain e.pattern, e.hit)
    have hspelled : (routes.map entryOf).map (fun e => (plain e.pattern, e.hit)) =
        routes.map fun r => (Pattern.unescape (utf8 r.1), ⟨r.2, r.1⟩) := by
      rw [List.map_map]
      refine List.map_congr_left fun r hr => ?_
      simp [entryOf, ofRoute, plain_elements (grammar_of_check (h.checked r hr))]
    rw [stored_eq hsound]
    rwa [hspelled] at hperm

/-- The representation of a tree after any insertions, failed ones among them. Priorities, orders
and keys are right at every node, and the values are those of the accepted routes, each at the end
of the labels that spell its pattern. -/
theorem built_represents {n : Node α} {routes : List (String × α)} (h : Built n routes) :
    n.Every Represented ∧
      n.stored.Perm (routes.map fun r => (Pattern.unescape (utf8 r.1), ⟨r.2, r.1⟩)) := by
  have htracks := h.tracks
  obtain ⟨hneat, hcounted⟩ := h.neat_counted
  refine ⟨?_, htracks.stored⟩
  rcases htracks.shape with hbare | hsound
  · refine .node ?_ fun c hc => by simp [hbare.children] at hc
    refine represented_childless hbare.keys hbare.children hbare.hasWild ?_ ?_ ?_
    · rw [htracks.priority, htracks.stored.length_eq, List.length_map]
    · rcases hbare.kind with hkind | hkind <;> simp [hkind]
    · rcases hbare.kind with hkind | hkind <;> simp [hkind]
  · exact hsound.represented hneat hcounted

theorem built_represents_sample :
    sample.Every Represented ∧
      sample.stored.Perm
        [(utf8 "/users/me", ⟨2, "/users/me"⟩), (utf8 "/users/:id", ⟨1, "/users/:id"⟩)] := by
  have hme : Pattern.unescape (utf8 "/users/me") = utf8 "/users/me" := by decide +kernel
  have hid : Pattern.unescape (utf8 "/users/:id") = utf8 "/users/:id" := by decide +kernel
  obtain ⟨hrepresented, hstored⟩ := built_represents built_sample
  simp only [List.map_cons, List.map_nil, hme, hid] at hstored
  exact ⟨hrepresented, hstored⟩

end HttpRouting.Node

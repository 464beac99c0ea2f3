import HttpRouting.Proofs.Tree.Siblings

namespace HttpRouting.Node

open Bytes Pattern

variable {α : Type}

structure Bare (n : Node α) : Prop where
  kind : n.kind = .static ∨ n.kind = .root
  label : n.label = []
  keys : n.keys = []
  children : n.children = []
  hasWild : n.hasWild = false
  value : n.value = none

theorem Bare.branch {n : Node α} (h : n.Bare) (label : Bytes) :
    { n with label := label }.IsBranch [] none := by
  refine ⟨h.kind, h.keys, ?_, h.children, h.hasWild, nofun, nofun⟩
  simp [h.keys]

theorem Bare.held {n : Node α} (h : n.Bare) : n.held = [] := by
  rw [Node.held, hit?, h.value, h.children]
  rfl

/-- The node of a parameter with what follows it. The last one holds the value. -/
def stalk (route : String) (v : α) (name : Bytes) (next : Option (Node α)) : Node α where
  kind := .param
  label := colon :: name
  priority := 1
  children := next.toList
  value := if next.isNone then some v else none
  route := route

def leafNode (route : String) (v : α) (name : Bytes) : Node α :=
  { kind := .catchAll, label := slash :: star :: name, priority := 1, value := some v, route }

def holderNode (route : String) (v : α) (name : Bytes) : Node α :=
  { kind := .catchAll, hasWild := true, priority := 1, children := [leafNode route v name], route }

def labelled (n : Node α) (text : Bytes) : Node α :=
  if text.length = 0 then n else { n with label := Pattern.unescape text }

theorem labelled_label {n : Node α} (h : n.Bare) (text : Bytes) :
    n.labelled text = { n with label := Pattern.unescape text } := by
  unfold labelled
  split
  · next htext =>
      obtain ⟨kind, label, keys, hasWild, priority, children, value, route⟩ := n
      have hlabel : label = [] := h.label
      rw [List.length_eq_zero_iff.1 htext, hlabel, Pattern.unescape]
  · rfl

theorem firstWildcard_eq {path : Bytes} {found : Option Wildcard}
    (h : Wildcard.findFrom 0 path = .ok found) : firstWildcard path = .ok found := by
  rw [firstWildcard, Wildcard.find?, h]
  rfl

theorem graft_text {path : Bytes} (h : Wildcard.findFrom 0 path = .ok none) (route : String) (v : α)
    (n : Node α) : graft route v n path =
      ⟨{ n with label := Pattern.unescape path, value := some v, route }, .ok ()⟩ := by
  rw [graft, firstWildcard_eq h]

theorem graft_param {text name rest : Bytes} (hname : IsName name)
    (h : Wildcard.findFrom 0 (text ++ colon :: (name ++ rest)) =
      .ok (some ⟨colon :: name, 0 + text.length, true⟩)) (route : String) (v : α) (n : Node α) :
    graft route v n (text ++ colon :: (name ++ rest)) =
      if rest = [] then
        ⟨(n.labelled text).addWild (stalk route v name none), .ok ()⟩
      else
        (graft route v { priority := 1, route } rest).map fun c =>
          (n.labelled text).addWild (stalk route v name (some c)) := by
  have hlength : ¬ (colon :: name).length < 2 := Nat.not_lt.2 (hname.two_le _)
  have hrest : (text ++ colon :: (name ++ rest)).drop (text.length + (colon :: name).length) =
      rest := by
    simp
  have htake : (text ++ colon :: (name ++ rest)).take text.length = text := List.take_left
  rw [Nat.zero_add] at h
  rw [graft, firstWildcard_eq h]
  simp only [Bool.not_true, Bool.false_eq_true, if_false, if_neg hlength, Wildcard.stop, hrest, htake]
  rfl

theorem leafNode_isLeaf (route : String) (v : α) {name : Bytes} (hname : IsName name) :
    (leafNode route v name).IsLeaf name :=
  ⟨rfl, rfl, hname, rfl, rfl, rfl, rfl⟩

theorem holderNode_isHolder (route : String) (v : α) (name : Bytes) :
    (holderNode route v name).IsHolder (leafNode route v name) :=
  ⟨rfl, rfl, rfl, rfl, rfl, rfl, rfl, rfl⟩

theorem graft_catchAll {front name : Bytes} (hname : IsName name)
    (h : Wildcard.findFrom 0 (front ++ [slash] ++ star :: name) =
      .ok (some ⟨star :: name, 0 + (front ++ [slash]).length, true⟩))
    (route : String) (v : α) {n : Node α} (hn : n.Bare) :
    graft route v n (front ++ [slash] ++ star :: name) =
      ⟨{ n with
          label := Pattern.unescape front
          keys := [slash]
          children := [holderNode route v name] }, .ok ()⟩ := by
  have hlength : ¬ (star :: name).length < 2 := Nat.not_lt.2 (hname.two_le _)
  have hstop : (front ++ [slash]).length + (star :: name).length =
      (front ++ [slash] ++ star :: name).length := List.length_append.symm
  have hstart : (front ++ [slash]).length - 1 = front.length := by simp
  have hslash : (front ++ [slash] ++ star :: name)[front.length]? = some slash := by simp
  have hdrop : (front ++ [slash] ++ star :: name).drop front.length = slash :: star :: name := by
    simp
  have htake : (front ++ [slash] ++ star :: name).take front.length = front := by simp
  rw [Nat.zero_add] at h
  rw [graft, firstWildcard_eq h]
  simp only [Bool.not_true, Bool.false_eq_true, if_false, if_neg hlength]
  rw [if_pos (show Wildcard.isCatchAll ⟨star :: name, (front ++ [slash]).length, true⟩ = true from rfl),
    graftCatchAll]
  simp only [Wildcard.stop, hstop, hstart, hslash, hdrop, htake, hn.label, hn.children]
  simp [holderNode, leafNode]

/-- What a pattern is turned into on a bare node. -/
inductive Grafts (route : String) (v : α) : Bytes → Node α → Node α → Prop
  | text {path : Bytes} {n : Node α}
      (helements : elements path = literals (Pattern.unescape path)) :
      Grafts route v path n { n with label := Pattern.unescape path, value := some v, route }
  | param {text name rest : Bytes} {n : Node α} {next : Option (Node α)} (hname : IsName name)
      (hstop : firstSegment rest = [])
      (helements : elements (text ++ colon :: (name ++ rest)) =
        literals (Pattern.unescape text) ++ .param name :: elements rest)
      (hnext : next = none ↔ rest = [])
      (hc : ∀ c, next = some c → Grafts route v rest { priority := 1, route } c) :
      Grafts route v (text ++ colon :: (name ++ rest)) n
        ((n.labelled text).addWild (stalk route v name next))
  | catchAll {front name : Bytes} {n : Node α} (hname : IsName name)
      (helements : elements (front ++ [slash] ++ star :: name) =
        literals (Pattern.unescape front) ++ [.literal slash, .catchAll name]) :
      Grafts route v (front ++ [slash] ++ star :: name) n
        { n with
          label := Pattern.unescape front
          keys := [slash]
          children := [holderNode route v name] }

theorem labelled_priority (n : Node α) (text : Bytes) : (n.labelled text).priority = n.priority := by
  unfold labelled
  split <;> rfl

theorem Grafts.priority {route : String} {v : α} {path : Bytes} {n m : Node α}
    (h : Grafts route v path n m) : m.priority = n.priority := by
  cases h with
  | text => rfl
  | param => exact labelled_priority n _
  | catchAll => rfl

theorem bare_fresh (route : String) : ({ priority := 1, route } : Node α).Bare :=
  ⟨.inl rfl, rfl, rfl, rfl, rfl, rfl⟩

theorem graft_stalk {route : String} {v : α} {text name rest : Bytes} (hname : IsName name)
    (hrest : ∀ n : Node α, n.Bare →
      ∃ m, graft route v n rest = ⟨m, .ok ()⟩ ∧ Grafts route v rest n m)
    (h : Wildcard.findFrom 0 (text ++ colon :: (name ++ rest)) =
      .ok (some ⟨colon :: name, 0 + text.length, true⟩)) :
    ∃ next, (next = none ↔ rest = []) ∧
      (∀ c, next = some c → Grafts route v rest { priority := 1, route } c) ∧
        ∀ n, graft route v n (text ++ colon :: (name ++ rest)) =
          ⟨(n.labelled text).addWild (stalk route v name next), .ok ()⟩ := by
  by_cases hnil : rest = []
  · exact ⟨none, iff_of_true rfl hnil, nofun,
      fun n => (graft_param hname h route v n).trans (if_pos hnil)⟩
  · obtain ⟨c, hgraft, hc⟩ := hrest _ (bare_fresh route)
    refine ⟨some c, iff_of_false nofun hnil, ?_, fun n => ?_⟩
    · rintro c' ⟨⟩
      exact hc
    · rw [graft_param hname h, if_neg hnil, hgraft]
      rfl

theorem graft_grafts (route : String) (v : α) {path : Bytes} (h : Grammar false path) {n : Node α}
    (hn : n.Bare) : ∃ m, graft route v n path = ⟨m, .ok ()⟩ ∧ Grafts route v path n m := by
  induction hlength : path.length using Nat.strongRecOn generalizing path n with
  | ind length ih =>
      cases findFrom_opening h 0 with
      | text hfind helements => exact ⟨_, graft_text hfind route v n, .text helements⟩
      | param text name rest hpath hname hstop hrest hfind helements =>
          have hshorter : rest.length < length := by
            rw [← hlength, hpath]
            simp only [List.length_append, List.length_cons]
            omega
          subst hpath
          obtain ⟨next, hnext, hc, hgraft⟩ :=
            graft_stalk hname (fun n hn => ih _ hshorter hrest hn rfl) hfind
          exact ⟨_, hgraft n, .param hname hstop helements hnext hc⟩
      | catchAll text name hpath hname hslash hfind helements =>
          subst hpath
          rcases slashedAfter_eq_true hslash with ⟨-, hfalse⟩ | ⟨front, rfl⟩
          · cases hfalse
          · refine ⟨_, graft_catchAll hname hfind route v hn, .catchAll hname ?_⟩
            rw [helements, unescape_append_slash]
            simp [literals]

structure Stem (route : String) (v : α) (path : Bytes) (w : Node α) : Prop where
  sound : w.Sound
  kind : w.kind = .param
  entries : w.entries = [⟨elements path, ⟨v, route⟩⟩]

/-- A bare node after it has taken in a pattern. -/
structure Grown (route : String) (v : α) (path : Bytes) (n m : Node α) : Prop where
  sound : m.Sound
  kind : m.kind = n.kind
  entries : m.entries = [⟨elements path, ⟨v, route⟩⟩]

theorem Grown.keyed {route : String} {v : α} {path : Bytes} {n m : Node α}
    (h : Grown route v path n m) (hkind : n.kind = .static) {b : UInt8} {es : List Element}
    (hpath : elements path = .literal b :: es) : m.Keyed b := by
  refine ⟨.inl (h.kind.trans hkind), fun e he => ⟨es, ?_⟩⟩
  rw [h.entries, List.mem_singleton] at he
  rw [he, hpath]

theorem elements_of_firstSegment {rest : Bytes} (hstop : firstSegment rest = []) (hne : rest ≠ []) :
    ∃ es, elements rest = .literal slash :: es := by
  rcases firstSegment_eq_nil.1 hstop with hnil | hhead
  · exact absurd hnil hne
  · obtain ⟨tail, rfl⟩ := List.head?_eq_some_iff.1 hhead
    exact ⟨_, elements_byte (fun h => absurd h.1 (by decide)) (by decide) (by decide)⟩

theorem stalk_stem {route : String} {v : α} {name rest : Bytes} {next : Option (Node α)}
    (hname : IsName name) (hstop : firstSegment rest = []) (hnext : next = none ↔ rest = [])
    (hc : ∀ c, next = some c → Grown route v rest { priority := 1, route } c) :
    Stem route v (colon :: (name ++ rest)) (stalk route v name next) := by
  cases next with
  | none =>
      have hparam : (stalk route v name none).IsParam name none :=
        ⟨rfl, rfl, hname, fun _ => rfl, rfl, rfl, nofun⟩
      refine ⟨.node (.param name none hparam (.inl rfl)) nofun, rfl, ?_⟩
      rw [hnext.1 rfl, elements_param hname rfl, elements_nil]
      rfl
  | some c =>
      have hgrown := hc c rfl
      obtain ⟨es, hes⟩ := elements_of_firstSegment hstop (mt hnext.2 nofun)
      have hkeyed := hgrown.keyed rfl hes
      have hparam : (stalk route v name (some c)).IsParam name (some c) :=
        ⟨rfl, rfl, hname, nofun, rfl, rfl, fun c' hc' => Option.some.inj hc' ▸ hkeyed⟩
      refine ⟨.node (.param name (some c) hparam (.inr (List.cons_ne_nil _ _))) ?_, rfl, ?_⟩
      · intro c' hc'
        rw [List.mem_singleton.1 hc']
        exact hgrown.sound
      · rw [entries_eq, elements_param hname hstop]
        simp [held, hit?, hgrown.entries, stalk, edge, Entry.behind]

theorem grown_text (route : String) (v : α) {path : Bytes} {n : Node α} (hn : n.Bare)
    (helements : elements path = literals (Pattern.unescape path)) :
    Grown route v path n { n with label := Pattern.unescape path, value := some v, route } := by
  have hbranch : { n with label := Pattern.unescape path, value := some v, route }.IsBranch [] none := by
    have h := hn.branch (Pattern.unescape path)
    exact ⟨h.kind, h.keys, h.nodup, h.children, h.hasWild, h.keyed, h.param⟩
  refine ⟨.node (.branch [] none hbranch (.inl rfl)) ?_, rfl, ?_⟩
  · intro c hc
    simp [hn.children] at hc
  · rw [entries_eq, hbranch.edge, helements]
    simp [held, hit?, hn.children, Entry.behind]

theorem grown_param {route : String} {v : α} {text tail : Bytes} {n w : Node α} (hn : n.Bare)
    (hw : Stem route v tail w) {path : Bytes}
    (helements : elements path = literals (Pattern.unescape text) ++ elements tail) :
    Grown route v path n ((n.labelled text).addWild w) := by
  rw [labelled_label hn]
  have hbranch := (hn.branch (Pattern.unescape text)).addWild hw.kind
  refine ⟨addWild_every ?_ hw.sound (.branch [] (some w) hbranch (addWild_live _ _)), rfl, ?_⟩
  · intro c hc
    simp [hn.children] at hc
  · rw [entries_eq, hbranch.edge, helements]
    simp [held, hit?, hn.children, hn.value, hw.entries, addWild, Entry.behind]

theorem grown_catchAll {route : String} {v : α} {front name : Bytes} {n leaf holder : Node α}
    (hn : n.Bare) (hleaf : leaf.IsLeaf name) (hhit : leaf.hit? = some ⟨v, route⟩)
    (hholder : holder.IsHolder leaf) {path : Bytes}
    (helements : elements path =
      literals (Pattern.unescape front) ++ [.literal slash, .catchAll name]) :
    Grown route v path n
      { n with label := Pattern.unescape front, keys := [slash], children := [holder] } := by
  have hentries : holder.entries = [⟨[.literal slash, .catchAll name], ⟨v, route⟩⟩] :=
    hholder.entries.trans (hleaf.entries hhit)
  have hkeyed : holder.Keyed slash := by
    refine ⟨.inr ⟨hholder.kind, hholder.hasWild⟩, fun e he => ⟨[.catchAll name], ?_⟩⟩
    rw [hentries, List.mem_singleton] at he
    rw [he]
  have hbranch : { n with
      label := Pattern.unescape front
      keys := [slash]
      children := [holder] }.IsBranch [(slash, holder)] none := by
    refine ⟨hn.kind, rfl, List.pairwise_singleton .., rfl, hn.hasWild, ?_, nofun⟩
    intro s hs
    rw [List.mem_singleton.1 hs]
    exact hkeyed
  have hleafSound : leaf.Sound := .node (.leaf name hleaf) fun c hc => by simp [hleaf.children] at hc
  have hholderSound : holder.Sound := .node (.holder leaf hholder) fun c hc => by
    rw [hholder.children, List.mem_singleton] at hc
    exact hc ▸ hleafSound
  refine ⟨.node (.branch _ none hbranch (.inr (by simp))) ?_, rfl, ?_⟩
  · intro c hc
    rw [List.mem_singleton.1 hc]
    exact hholderSound
  · rw [entries_eq, hbranch.edge, helements]
    simp [held, hit?, hn.value, hentries, Entry.behind]

theorem Grafts.grown {route : String} {v : α} {path : Bytes} {n m : Node α}
    (h : Grafts route v path n m) (hn : n.Bare) : Grown route v path n m := by
  induction h with
  | text helements => exact grown_text route v hn helements
  | param hname hstop helements hnext _ ih =>
      refine grown_param hn (stalk_stem hname hstop hnext fun c hc => ih c hc (bare_fresh route)) ?_
      rw [helements, elements_param hname hstop]
  | catchAll hname helements =>
      exact grown_catchAll hn (leafNode_isLeaf route v hname) rfl (holderNode_isHolder route v _)
        helements

theorem graft_bare (route : String) (v : α) {path : Bytes} (h : Grammar false path) {n : Node α}
    (hn : n.Bare) : ∃ m, graft route v n path = ⟨m, .ok ()⟩ ∧ Grown route v path n m := by
  obtain ⟨m, hgraft, hm⟩ := graft_grafts route v h hn
  exact ⟨m, hgraft, hm.grown hn⟩

theorem graft_wildcard (route : String) (v : α) {name rest : Bytes} (hname : IsName name)
    (hstop : firstSegment rest = []) (hrest : Grammar false rest) :
    ∃ next, (next = none ↔ rest = []) ∧
      (∀ c, next = some c → Grafts route v rest { priority := 1, route } c) ∧
        ∀ n, graft route v n (colon :: (name ++ rest)) =
          ⟨n.addWild (stalk route v name next), .ok ()⟩ := by
  have hfind : Wildcard.findFrom 0 ([] ++ colon :: (name ++ rest)) =
      .ok (some ⟨colon :: name, 0 + ([] : Bytes).length, true⟩) := by
    have h := findFrom_byte (show colon ≠ backslash by decide) 0 (name ++ rest)
    rw [opened_eq hname hstop] at h
    exact h
  exact graft_stalk hname (fun n hn => graft_grafts route v hrest hn) hfind

/-- A catch-all finds no place of its own behind a label that ends with a slash. -/
theorem graft_star {name : Bytes} (hname : IsName name) (route : String) (v : α) {n : Node α}
    (hlabel : n.label.getLast? = some slash) :
    graft route v n (star :: name) = ⟨n, .error (n.catchAllConflict route (star :: name))⟩ := by
  have hopened : Wildcard.opened 0 star (name ++ []) = ⟨star :: name, 0, true⟩ :=
    opened_eq hname rfl 0 star
  have hlength : ¬ (star :: name).length < 2 := Nat.not_lt.2 (hname.two_le _)
  rw [List.append_nil] at hopened
  have hfind := findFrom_byte (show star ≠ backslash by decide) 0 name
  rw [hopened] at hfind
  rw [graft, firstWildcard_eq hfind]
  simp only [Bool.not_true, Bool.false_eq_true, if_false, if_neg hlength]
  rw [if_pos (show Wildcard.isCatchAll ⟨star :: name, 0, true⟩ = true from rfl), graftCatchAll]
  simp [Wildcard.stop, hlabel]

end HttpRouting.Node

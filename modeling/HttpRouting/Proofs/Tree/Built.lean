import HttpRouting.Proofs.Tree.Place
import HttpRouting.Proofs.Tree.Recount
import Mathlib.Data.List.Pairwise

namespace HttpRouting.Node

open Bytes Pattern

variable {α : Type}

/-- The trees grown from an empty one by insertions, with the routes accepted on the way. -/
inductive Built : Node α → List (String × α) → Prop
  | empty : Built Node.empty []
  | root : Built Node.emptyRoot []
  | accepted {n : Node α} {routes : List (String × α)} (h : Built n routes) {route : String} {v : α}
      (hok : (n.insert route v).outcome = .ok ()) :
      Built (n.insert route v).node ((route, v) :: routes)
  | refused {n : Node α} {routes : List (String × α)} (h : Built n routes) {route : String} {v : α}
      {e : RouteError} (herror : (n.insert route v).outcome = .error e) :
      Built (n.insert route v).node routes

def entryOf (r : String × α) : Entry α := ⟨ofRoute r.1, ⟨r.2, r.1⟩⟩

def registered (routes : List (String × α)) : List (List Element) := routes.map fun r => ofRoute r.1

/-- A tree holds the routes, none of which conflicts with another one. -/
structure Tracks (n : Node α) (routes : List (String × α)) : Prop where
  kind : n.kind = .static ∨ n.kind = .root
  shape : n.Bare ∨ n.Sound
  entries : n.entries.Perm (routes.map entryOf)
  checked : ∀ r ∈ routes, Pattern.check r.1 = .ok ()
  apart : (registered routes).Pairwise fun q es => ¬ Conflict q es
  priority : n.priority = routes.length

theorem Bare.entries {n : Node α} (h : n.Bare) : n.entries = [] := by rw [entries_eq, h.held]; rfl

theorem patterns_perm {n : Node α} {routes : List (String × α)}
    (h : n.entries.Perm (routes.map entryOf)) : (patterns n.entries).Perm (registered routes) := by
  have hpatterns := h.map Entry.pattern
  rw [List.map_map] at hpatterns
  exact hpatterns

theorem bare_emptyRoot : (Node.emptyRoot : Node α).Bare := ⟨.inr rfl, rfl, rfl, rfl, rfl, rfl⟩

theorem Bare.raised {n : Node α} (h : n.Bare) : n.raised.Bare :=
  ⟨h.kind, h.label, h.keys, h.children, h.hasWild, h.value⟩

theorem Bare.isVacant {n : Node α} (h : n.Bare) : n.isVacant = true := by
  simp [Node.isVacant, h.label, h.children, h.value]

theorem Sound.not_isVacant {n : Node α} (h : n.Sound) : n.isVacant = false := by
  rcases h.here.live with hvalue | hchildren
  · obtain ⟨v, hv⟩ := Option.isSome_iff_exists.1 hvalue
    simp [Node.isVacant, hv]
  · simp [Node.isVacant, hchildren]

theorem IsBranch.setRoot {n : Node α} {slots : List (UInt8 × Node α)} {wild : Option (Node α)}
    (h : n.IsBranch slots wild) : { n with kind := .root }.IsBranch slots wild :=
  ⟨.inr rfl, h.keys, h.nodup, h.children, h.hasWild, h.keyed, h.param⟩

theorem setRoot_sound {n : Node α} (h : n.Sound) (hkind : n.kind = .static ∨ n.kind = .root) :
    { n with kind := .root }.Sound := by
  have hlive := h.here.live
  obtain ⟨slots, wild, hbranch⟩ := h.branch hkind
  exact .node (.branch slots wild hbranch.setRoot hlive) fun c hc => h.child hc

theorem setRoot_entries {n : Node α} (hkind : n.kind = .static ∨ n.kind = .root) :
    { n with kind := .root }.entries = n.entries := by
  rw [entries_eq, entries_eq n]
  rcases hkind with hkind | hkind <;> rw [hkind] <;> rfl

/-- What an insertion of a checked route leaves, before anything is counted anew. -/
structure Inserted (n : Node α) (route : String) (v : α) (p : Placement α) : Prop where
  kind : p.node.kind = .static ∨ p.node.kind = .root
  sound : p.node.Sound
  entries : p.node.entries.Perm (gain (entryOf (route, v)) p.outcome ++ n.entries)
  verdict : Verdict (patterns n.entries) (ofRoute route) route p.outcome
  priority : p.node.priority = n.priority + 1

theorem Bare.insertChecked {n : Node α} (hn : n.Bare) {route : String}
    (hcheck : Pattern.check route = .ok ()) (v : α) :
    ∃ m, n.insertChecked route v = ⟨{ m with kind := .root }, .ok ()⟩ ∧
      Grafts route v (utf8 route) n.raised m := by
  obtain ⟨m, hgraft, hm⟩ := graft_grafts route v (grammar_of_check hcheck) hn.raised
  refine ⟨m, ?_, hm⟩
  rw [Node.insertChecked, hn.isVacant, hgraft]
  rfl

theorem Sound.insertChecked {n : Node α} (hn : n.Sound) (route : String) (v : α) :
    n.insertChecked route v = place route v n (utf8 route) := by
  rw [Node.insertChecked, hn.not_isVacant]
  rfl

theorem enters_of_kind {n : Node α} (hkind : n.kind = .static ∨ n.kind = .root) (path : Bytes) :
    n.Enters path := by
  rcases hkind with hkind | hkind <;>
    exact ⟨fun h => by simp [hkind] at h, fun h => by simp [hkind] at h⟩

theorem insertChecked_inserted {n : Node α} {routes : List (String × α)} (h : Tracks n routes)
    {route : String} (hcheck : Pattern.check route = .ok ()) (v : α) :
    Inserted n route v (n.insertChecked route v) := by
  have hgrammar := grammar_of_check hcheck
  rcases h.shape with hbare | hsound
  · obtain ⟨m, hinsert, hgrafts⟩ := hbare.insertChecked hcheck v
    have hm := hgrafts.grown hbare.raised
    have hkind : m.kind = .static ∨ m.kind = .root := by
      rw [hm.kind]
      exact h.kind
    have hpriority : m.priority = n.priority + 1 := hgrafts.priority
    rw [hinsert]
    refine ⟨.inr rfl, setRoot_sound hm.sound hkind, ?_, .apart ?_, hpriority⟩
    · rw [setRoot_entries hkind, hm.entries, hbare.entries]
      exact .rfl
    · rw [hbare.entries]
      exact nofun
  · have hgrows := place_grows route v hsound hgrammar (enters_of_kind h.kind _)
    rw [hsound.insertChecked]
    refine ⟨?_, hgrows.sound, hgrows.entries, hgrows.verdict, place_priority ..⟩
    rw [hgrows.kind]
    exact h.kind

theorem insert_malformed {n : Node α} {route : String} {e : RouteError}
    (hcheck : Pattern.check route = .error e) (v : α) : n.insert route v = ⟨n, .error e⟩ := by
  rw [insert, hcheck]

theorem insert_outcome {n : Node α} {route : String} (hcheck : Pattern.check route = .ok ()) (v : α) :
    (n.insert route v).outcome = (n.insertChecked route v).outcome := by
  rw [insert, hcheck]
  dsimp only
  split <;> rfl

theorem insert_ok {n : Node α} {route : String} {v : α} (h : (n.insert route v).outcome = .ok ()) :
    Pattern.check route = .ok () ∧ n.insert route v = n.insertChecked route v := by
  cases hcheck : Pattern.check route with
  | error e =>
      rw [insert_malformed hcheck] at h
      cases h
  | ok _ =>
      rw [insert_outcome hcheck] at h
      rw [insert, hcheck]
      dsimp only
      rw [h]
      exact ⟨rfl, rfl⟩

theorem insert_error {n : Node α} {route : String} {v : α} {e : RouteError}
    (h : (n.insert route v).outcome = .error e) :
    (n.insert route v).node = n ∨
      (Pattern.check route = .ok () ∧ (n.insertChecked route v).outcome = .error e ∧
        (n.insert route v).node = (n.insertChecked route v).node.recount) := by
  cases hcheck : Pattern.check route with
  | error e =>
      rw [insert_malformed hcheck]
      exact .inl rfl
  | ok _ =>
      rw [insert_outcome hcheck] at h
      refine .inr ⟨rfl, h, ?_⟩
      rw [insert, hcheck]
      dsimp only
      rw [h]
      rfl

theorem insert_emptyRoot {route : String} {v : α} {e : RouteError}
    (herror : ((Node.emptyRoot : Node α).insert route v).outcome = .error e) :
    ((Node.emptyRoot : Node α).insert route v).node = .emptyRoot := by
  rcases insert_error herror with hsame | ⟨hcheck, hinner, -⟩
  · exact hsame
  · obtain ⟨m, hinsert, -⟩ := bare_emptyRoot.insertChecked hcheck v
    rw [hinsert] at hinner
    cases hinner

theorem Tracks.verdict {n : Node α} {routes : List (String × α)} (h : Tracks n routes)
    {route : String} (hcheck : Pattern.check route = .ok ()) (v : α) :
    Verdict (registered routes) (ofRoute route) route (n.insert route v).outcome := by
  rw [insert_outcome hcheck]
  have hperm := patterns_perm h.entries
  refine (insertChecked_inserted h hcheck v).verdict.widen hperm.subset fun q hq => ?_
  exact .inl (hperm.mem_iff.2 hq)

theorem Tracks.accepted {n : Node α} {routes : List (String × α)} (h : Tracks n routes)
    {route : String} {v : α} (hok : (n.insert route v).outcome = .ok ()) :
    Tracks (n.insert route v).node ((route, v) :: routes) := by
  obtain ⟨hcheck, hinsert⟩ := insert_ok hok
  have hall := (h.verdict hcheck v).ok_iff.1 hok
  have hinserted := insertChecked_inserted h hcheck v
  rw [hinsert] at hok ⊢
  refine ⟨hinserted.kind, .inr hinserted.sound, ?_, ?_, ?_, ?_⟩
  · have hentries := hinserted.entries
    rw [hok] at hentries
    exact hentries.trans (h.entries.cons _)
  · intro r hr
    rcases List.mem_cons.1 hr with rfl | hr
    · exact hcheck
    · exact h.checked r hr
  · refine List.pairwise_cons.2 ⟨fun q hq => ?_, h.apart⟩
    rw [conflict_comm]
    exact hall q hq
  · rw [hinserted.priority, h.priority, List.length_cons]

theorem Tracks.refused {n : Node α} {routes : List (String × α)} (h : Tracks n routes)
    {route : String} {v : α} {e : RouteError} (herror : (n.insert route v).outcome = .error e) :
    Tracks (n.insert route v).node routes := by
  rcases insert_error herror with hsame | ⟨hcheck, hinner, hnode⟩
  · rw [hsame]
    exact h
  · have hinserted := insertChecked_inserted h hcheck v
    have hentries := hinserted.entries
    rw [hinner] at hentries
    have hentries := hentries.trans h.entries
    rw [hnode]
    refine ⟨?_, .inr (recount_sound hinserted.sound), ?_, h.checked, h.apart, ?_⟩
    · rw [recount_kind]
      exact hinserted.kind
    · rw [recount_entries]
      exact hentries
    · rw [recount_priority, hentries.length_eq, List.length_map]

theorem Built.tracks {n : Node α} {routes : List (String × α)} (h : Built n routes) :
    Tracks n routes := by
  induction h with
  | empty =>
      have hbare : (Node.empty : Node α).Bare := ⟨.inl rfl, rfl, rfl, rfl, rfl, rfl⟩
      exact ⟨.inl rfl, .inl hbare, by rw [hbare.entries]; exact .rfl, nofun, .nil, rfl⟩
  | root =>
      exact ⟨.inr rfl, .inl bare_emptyRoot, by rw [bare_emptyRoot.entries]; exact .rfl, nofun, .nil, rfl⟩
  | accepted _ hok ih => exact ih.accepted hok
  | refused _ herror ih => exact ih.refused herror

def sample : Node Nat := ((Node.emptyRoot.insert "/users/:id" 1).node.insert "/users/me" 2).node

theorem built_sample : Built sample [("/users/me", 2), ("/users/:id", 1)] :=
  .accepted (.accepted .root (by decide +kernel)) (by decide +kernel)

/-- Two routes of one tree conflict only if they are the same. -/
theorem Tracks.eq_of_conflict {n : Node α} {routes : List (String × α)} (h : Tracks n routes)
    {r r' : String × α} (hr : r ∈ routes) (hr' : r' ∈ routes)
    (hconflict : Conflict (ofRoute r.1) (ofRoute r'.1)) : r = r' := by
  have hapart : routes.Pairwise fun r r' => ¬ Conflict (ofRoute r.1) (ofRoute r'.1) :=
    List.pairwise_map.1 h.apart
  have hsymm : Std.Symm fun r r' : String × α => ¬ Conflict (ofRoute r.1) (ofRoute r'.1) :=
    ⟨fun _ _ hnot => mt conflict_comm.1 hnot⟩
  exact Classical.byContradiction fun hne => hapart.forall hr hr' hne hconflict

theorem Tracks.not_clash {n : Node α} {routes : List (String × α)} (h : Tracks n routes)
    {r r' : String × α} (hr : r ∈ routes) (hr' : r' ∈ routes) :
    ¬ Clash (ofRoute r.1) (ofRoute r'.1) := by
  intro hclash
  cases h.eq_of_conflict hr hr' (.inr (.inl hclash))
  exact not_clash_self _ hclash

end HttpRouting.Node

import HttpRouting.Proofs.Tree.Agreement
import HttpRouting.Proofs.Tree.Frames
import HttpRouting.Proofs.Tree.Places
import Mathlib.Data.List.Perm.Subperm

namespace HttpRouting.Node

open Bytes

variable {α : Type} {unescape : Bool} {s t : Search α} {request : Bytes}

inductive Run (unescape : Bool) : Search α → List (Search α) → Outcome α → Prop
  | done {s : Search α} {o : Outcome α} (h : step unescape s = .ok (.done o)) : Run unescape s [s] o
  | move {s t : Search α} {states : List (Search α)} {o : Outcome α}
      (h : step unescape s = .ok (.move t)) (hrun : Run unescape t states o) :
      Run unescape s (s :: states) o

theorem exists_run {o : Outcome α} (h : run unescape s = .ok o) : ∃ states, Run unescape s states o := by
  fun_induction run unescape s with
  | case1 => cases h
  | case2 s o' hstep =>
      cases h
      exact ⟨[s], .done hstep⟩
  | case3 s t hstep ih =>
      obtain ⟨states, hrun⟩ := ih h
      exact ⟨s :: states, .move hstep hrun⟩

structure Visit (α : Type) where
  node : Node α
  resumed : Bool

/-- The nodes that an iteration stands at: the one that it starts from, and the wildcard below it where
the iteration turns to that. -/
def Search.visits (s : Search α) : List (Visit α) :=
  ⟨s.node, s.resumed⟩ :: s.wild?.toList.map (⟨·, false⟩)

def visitsAt (n : Node α) : List (Visit α) := n.nodes.flatMap fun m => [⟨m, false⟩, ⟨m, true⟩]

def visitsBack (n : Node α) : List (Visit α) := ⟨n, true⟩ :: n.children.getLast?.toList.flatMap visitsAt

def Search.visitsHere (s : Search α) : List (Visit α) :=
  if s.resumed then s.node.visitsBack else s.node.visitsAt

/-- What a search may still visit. -/
def Search.ahead (s : Search α) : List (Visit α) :=
  s.visitsHere ++ s.skipped.flatMap (·.node.visitsBack)

theorem visitsAt_eq (n : Node α) :
    n.visitsAt = ⟨n, false⟩ :: ⟨n, true⟩ :: n.children.flatMap visitsAt := by
  rw [visitsAt, nodes_eq, List.flatMap_cons, List.flatMap_assoc]
  rfl

theorem mem_visitsAt {n : Node α} {v : Visit α} : v ∈ n.visitsAt ↔ v.node ∈ n.nodes := by
  obtain ⟨m, resumed⟩ := v
  simp only [visitsAt, List.mem_flatMap, List.mem_cons, List.not_mem_nil, or_false, Visit.mk.injEq]
  constructor
  · rintro ⟨m', hm', ⟨rfl, -⟩ | ⟨rfl, -⟩⟩ <;> exact hm'
  · intro hm
    cases resumed
    · exact ⟨m, hm, .inl ⟨rfl, rfl⟩⟩
    · exact ⟨m, hm, .inr ⟨rfl, rfl⟩⟩

theorem length_visitsAt (n : Node α) : n.visitsAt.length = 2 * n.nodes.length := by
  rw [visitsAt, List.length_flatMap]
  simp [Nat.mul_comm]

theorem visitsAt_nodup {n : Node α} (h : n.nodes.Nodup) : n.visitsAt.Nodup := by
  refine List.nodup_flatMap.2 ⟨fun m _ => by simp, h.imp fun {m m'} hne v hv hv' => hne ?_⟩
  have hnode : ∀ {k : Node α}, v ∈ [Visit.mk k false, ⟨k, true⟩] → v.node = k := by
    intro k hk
    rcases List.mem_pair.1 hk with rfl | rfl <;> rfl
  rw [← hnode hv, ← hnode hv']

theorem sublist_visitsAt {c : Node α} {cs : List (Node α)} (hc : c ∈ cs) :
    c.visitsAt.Sublist (cs.flatMap visitsAt) := by
  rw [List.flatMap_def]
  exact List.sublist_flatten_of_mem (List.mem_map_of_mem hc)

theorem visitsHere_eq (s : Search α) :
    ∃ more, s.visitsHere = ⟨s.node, s.resumed⟩ :: more ∧
      ∀ w, s.wild? = some w → w.visitsAt.Sublist more := by
  rw [Search.visitsHere]
  split
  · next hresumed =>
      refine ⟨_, by rw [hresumed]; rfl, fun w hwild => ?_⟩
      rw [(wild?_some hwild).2.1, Option.toList_some, List.flatMap_singleton]
  · next hfresh =>
      have hfresh : s.resumed = false := by simpa using hfresh
      refine ⟨_, by rw [hfresh, visitsAt_eq], fun w hwild => ?_⟩
      have hw := List.mem_of_getLast? (wild?_some hwild).2.1
      exact (sublist_visitsAt hw).cons _

theorem visits_sublist (s : Search α) : s.visits.Sublist s.visitsHere := by
  obtain ⟨more, hhere, hwild⟩ := visitsHere_eq s
  rw [Search.visits, hhere]
  refine List.Sublist.cons_cons _ ?_
  cases h : s.wild? with
  | none => exact List.nil_sublist _
  | some w =>
      have hw := hwild w h
      rw [visitsAt_eq] at hw
      exact ((List.nil_sublist _).cons_cons _).trans hw

theorem param_visits {w c : Node α} (hwild : s.wild? = some w) (hc : c ∈ w.children) :
    (s.visits ++ c.visitsAt).Sublist s.visitsHere := by
  obtain ⟨more, hhere, hmore⟩ := visitsHere_eq s
  have hw := hmore w hwild
  rw [visitsAt_eq] at hw
  rw [Search.visits, hwild, hhere]
  refine List.Sublist.cons_cons _ (List.Sublist.trans ?_ hw)
  exact ((sublist_visitsAt hc).cons _).cons_cons _

/-- The wildcard is not among the static children, so the visits below a static child and those of
coming back for the wildcard are different ones. -/
theorem key_visits {n c : Node α} (h : n.Forked) (hhas : n.hasWild = true) {b : UInt8} {i : Nat}
    (hslot : n.slot? b = some i) (hc : n.children[i]? = some c) :
    (⟨n, false⟩ :: (c.visitsAt ++ n.visitsBack)).Subperm n.visitsAt := by
  have hspare := h.spare hhas
  have hi : i < n.keys.length := (List.idxOf?_eq_some_iff.1 hslot).1
  obtain ⟨front, w, hchildren⟩ : ∃ front w, n.children = front ++ [w] := by
    rcases List.eq_nil_or_concat n.children with hnil | ⟨front, w, hchildren⟩
    · simp [hnil] at hspare
    · exact ⟨front, w, by simpa using hchildren⟩
  have hfront : c ∈ front := by
    rw [hchildren, List.length_append, List.length_singleton] at hspare
    rw [hchildren, List.getElem?_append_left (by omega)] at hc
    exact List.mem_of_getElem? hc
  have hback : n.visitsBack = ⟨n, true⟩ :: w.visitsAt := by
    rw [visitsBack, hchildren, List.getLast?_concat, Option.toList_some, List.flatMap_singleton]
  rw [visitsAt_eq n, hback, hchildren, List.flatMap_append, List.flatMap_singleton]
  refine (List.perm_middle.cons _).subperm.trans (List.Sublist.subperm ?_)
  exact (((sublist_visitsAt hfront).append_right w.visitsAt).cons_cons _).cons_cons _

theorem wild?_of_slot (hfresh : s.resumed = false) {b : UInt8} {rest : Bytes} {i : Nat}
    (hstrip : strip? s.node.label s.path = some (b :: rest)) (hslot : s.node.slot? b = some i) :
    s.wild? = none := by
  rw [Search.wild?, hstrip]
  exact if_neg (by simp [hfresh, hslot])

theorem Orderly.move_ahead (h : Orderly request s) (hnode : s.node.Forked)
    (hstep : step unescape s = .ok (.move t)) : (s.visits ++ t.ahead).Subperm s.ahead := by
  cases step_takes h.suited hstep with
  | @key b rest i c hfresh hstrip hslot hc =>
      have hvisits : s.visits = [⟨s.node, false⟩] := by
        rw [Search.visits, wild?_of_slot hfresh hstrip hslot, hfresh]
        rfl
      have hhere : s.visitsHere = s.node.visitsAt := by
        rw [Search.visitsHere, hfresh]
        rfl
      rw [hvisits, Search.ahead, Search.ahead, hhere]
      split
      · next hhas =>
          rw [List.flatMap_cons, ← List.append_assoc, ← List.append_assoc]
          exact (List.subperm_append_right _).2 (key_visits hnode hhas hslot hc)
      · rw [← List.append_assoc]
        refine List.Sublist.subperm (List.Sublist.append_right ?_ _)
        rw [visitsAt_eq s.node]
        exact ((sublist_visitsAt (List.mem_of_getElem? hc)).cons _).cons_cons _
  | param p hwild hc =>
      rw [Search.ahead, Search.ahead, ← List.append_assoc]
      exact ((param_visits hwild hc).append_right _).subperm
  | back hskipped =>
      rw [Search.ahead, Search.ahead, hskipped, List.flatMap_cons]
      exact ((visits_sublist s).append_right _).subperm

/-- A search for a request with its frames in order, at nodes that it can rely on. -/
structure Searching (request : Bytes) (s : Search α) : Prop where
  orderly : Orderly request s
  node : s.node.Every Forked
  frames : ∀ f ∈ s.skipped, f.node.Every Forked

theorem Searching.move (h : Searching request s) (hstep : step unescape s = .ok (.move t)) :
    Searching request t := by
  refine ⟨h.orderly.move hstep, ?_, ?_⟩
  · cases step_takes h.orderly.suited hstep with
    | key _ _ _ hc => exact h.node.child (List.mem_of_getElem? hc)
    | param _ hwild hc => exact (h.node.child (List.mem_of_getLast? (wild?_some hwild).2.1)).child hc
    | back hskipped => exact h.frames _ (by simp [hskipped])
  · intro f hf
    cases h.orderly.goesOn hstep with
    | below _ hskipped => exact h.frames f (hskipped ▸ hf)
    | aside _ _ hskipped =>
        rw [hskipped] at hf
        rcases List.mem_cons.1 hf with rfl | hf
        · exact h.node
        · exact h.frames f hf
    | back _ _ hskipped => exact h.frames f (by simp [hskipped, hf])

section Runs

variable {states : List (Search α)} {o : Outcome α}

theorem Run.searching (hrun : Run unescape s states o) (h : Searching request s) :
    ∀ t ∈ states, Searching request t := by
  induction hrun with
  | done => simpa using h
  | move hstep _ ih => exact List.forall_mem_cons.2 ⟨h, ih (h.move hstep)⟩

theorem Run.visits (hrun : Run unescape s states o) (h : Searching request s) :
    (states.flatMap Search.visits).Subperm s.ahead := by
  induction hrun with
  | @done s o hstep =>
      rw [List.flatMap_singleton]
      exact ((visits_sublist s).trans (List.sublist_append_left ..)).subperm
  | move hstep _ ih =>
      rw [List.flatMap_cons]
      refine List.Subperm.trans ?_ (h.orderly.move_ahead h.node.here hstep)
      exact (List.subperm_append_left _).2 (ih (h.move hstep))

theorem length_le_visits (states : List (Search α)) :
    states.length ≤ (states.flatMap Search.visits).length := by
  induction states with
  | nil => exact Nat.le_refl _
  | cons s states ih =>
      rw [List.flatMap_cons, List.length_append, List.length_cons, Search.visits, List.length_cons]
      omega

end Runs

theorem forked_of_not {n : Node α} (h : n.hasWild = false) : n.Forked :=
  ⟨fun hhas => by simp [h] at hhas, fun _ hhas => by simp [h] at hhas⟩

theorem Sound.forked {n : Node α} (hn : n.Sound) : n.Forked := by
  cases hn.here with
  | branch slots wild h =>
      cases wild with
      | none => exact forked_of_not h.hasWild
      | some w =>
          have hchildren : n.children = slots.map Prod.snd ++ [w] := h.children
          refine ⟨fun _ => ?_, fun w' _ hlast hkind => ?_⟩
          · simp [h.keys, hchildren]
          · rw [hchildren, List.getLast?_concat] at hlast
            cases hlast
            rw [h.param w rfl] at hkind
            cases hkind
  | param _ _ h => exact forked_of_not h.hasWild
  | holder leaf h =>
      refine ⟨fun _ => by simp [h.keys, h.children], fun w _ hlast _ => ?_⟩
      rw [h.children] at hlast
      cases hlast
      obtain ⟨name, hleaf⟩ := Sound.leaf (hn.child (by simp [h.children])) h.leafKind h.leafWild
      exact hleaf.value
  | leaf _ h => exact forked_of_not h.hasWild

theorem Tracks.forked {n : Node α} {routes : List (String × α)} (h : Tracks n routes) :
    n.Every Forked := by
  rcases h.shape with hbare | hsound
  · exact .node (forked_of_not hbare.hasWild) fun c hc => by simp [hbare.children] at hc
  · clear h
    induction hsound with
    | node here children ih => exact .node (Sound.forked (.node here children)) ih

/-- A walk through a tree that any insertions have grown loses no frame and ends. It goes down to each
node of the tree at most once and comes back to it at most once, so it takes at most twice as many
iterations as the tree has nodes. -/
theorem walk_visits_once {root : Node α} {routes : List (String × α)} (h : Built root routes)
    (path : Bytes) (unescape : Bool) (buffer : Params) :
    ∃ states outcome,
      root.walk path unescape buffer = .ok outcome ∧
      Run unescape { node := root, path, params := buffer.cleared } states outcome ∧
      (∀ s ∈ states, Orderly path s ∧ LosesNothing unescape s) ∧
      root.nodes.Nodup ∧
      (∀ v ∈ states.flatMap Search.visits, v.node ∈ root.nodes) ∧
      (states.flatMap Search.visits).Nodup ∧
      states.length ≤ 2 * root.nodes.length := by
  have htracks := h.tracks
  obtain ⟨outcome, hwalk, -⟩ := htracks.answers path unescape buffer
  obtain ⟨states, hrun⟩ := exists_run hwalk
  have hstart : Searching path { node := root, path, params := buffer.cleared : Search α } :=
    ⟨orderly_start root _, htracks.forked, nofun⟩
  have hahead : (states.flatMap Search.visits).Subperm root.visitsAt := by
    have hvisits := hrun.visits hstart
    rwa [Search.ahead, List.flatMap_nil, List.append_nil] at hvisits
  refine ⟨states, outcome, hwalk, hrun, fun s hs => ?_, htracks.nodes_nodup, fun v hv => ?_, ?_, ?_⟩
  · have hsearching := hrun.searching hstart s hs
    exact ⟨hsearching.orderly, hsearching.orderly.losesNothing hsearching.node.here⟩
  · exact mem_visitsAt.1 (hahead.subset hv)
  · obtain ⟨visits, hperm, hsublist⟩ := hahead
    exact hperm.nodup_iff.1 ((visitsAt_nodup htracks.nodes_nodup).sublist hsublist)
  · calc states.length ≤ (states.flatMap Search.visits).length := length_le_visits states
      _ ≤ root.visitsAt.length := hahead.length_le
      _ = 2 * root.nodes.length := length_visitsAt root

theorem walk_visits_once_mex :
    ∃ states outcome,
      sample.walk (utf8 "/users/mex") false [] = .ok outcome ∧
      outcome.hit?.map (·.route) = some "/users/:id" ∧
      Run false { node := sample, path := utf8 "/users/mex" } states outcome ∧
      (states.flatMap Search.visits).Nodup ∧ states.length ≤ 6 := by
  have hnodes : sample.nodes.length = 3 := by decide +kernel
  have hroute : (sample.walk (utf8 "/users/mex") false []).toOption.bind
      (fun o => o.hit?.map (·.route)) = some "/users/:id" := by decide +kernel
  obtain ⟨states, outcome, hwalk, hrun, -, -, -, hnodup, hlength⟩ :=
    walk_visits_once built_sample (utf8 "/users/mex") false []
  rw [hwalk] at hroute
  rw [hnodes] at hlength
  exact ⟨states, outcome, hwalk, hroute, hrun, hnodup, hlength⟩

end HttpRouting.Node

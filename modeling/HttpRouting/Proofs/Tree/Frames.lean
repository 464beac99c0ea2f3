import HttpRouting.Proofs.Tree.Exploration

namespace HttpRouting.Node

open Bytes

variable {α : Type} {unescape : Bool} {s t : Search α} {request : Bytes}

def Search.wild? (s : Search α) : Option (Node α) :=
  match strip? s.node.label s.path with
  | some (b :: _) =>
      if s.node.hasWild = true ∧ (s.resumed = true ∨ s.node.slot? b = none) then
        s.node.children.getLast?
      else none
  | _ => none

theorem wild?_some {w : Node α} (h : s.wild? = some w) :
    s.node.hasWild = true ∧ s.node.children.getLast? = some w ∧
      ∃ b rest, strip? s.node.label s.path = some (b :: rest) ∧
        (s.resumed = true ∨ s.node.slot? b = none) := by
  unfold Search.wild? at h
  split at h
  · next b rest hstrip =>
      split at h
      · next hturn => exact ⟨hturn.1, h, b, rest, hstrip, hturn.2⟩
      · cases h
  · cases h

theorem wild?_of_turn {b : UInt8} {rest : Bytes} (hstrip : strip? s.node.label s.path = some (b :: rest))
    (hhas : s.node.hasWild = true) (hturn : s.resumed = true ∨ s.node.slot? b = none) :
    s.wild? = s.node.children.getLast? := by
  rw [Search.wild?, hstrip]
  exact if_pos ⟨hhas, hturn⟩

inductive Takes (s : Search α) : Step α → Prop
  | key {b : UInt8} {rest : Bytes} {i : Nat} {c : Node α} (hfresh : s.resumed = false)
      (hstrip : strip? s.node.label s.path = some (b :: rest)) (hslot : s.node.slot? b = some i)
      (hc : s.node.children[i]? = some c) :
      Takes s (.move
        { node := c
          path := b :: rest
          params := s.params
          skipped := if s.node.hasWild then ⟨s.node, s.path, s.params.length⟩ :: s.skipped
            else s.skipped })
  | param {w c : Node α} {rest : Bytes} (p : Param) (hwild : s.wild? = some w)
      (hc : c ∈ w.children) (hrest : rest <:+ s.path) :
      Takes s (.move { node := c, path := rest, params := s.params ++ [p], skipped := s.skipped })
  | back {f : Frame α} {fs : List (Frame α)} {params : Params} (hskipped : s.skipped = f :: fs)
      (hparams : s.params <+: params) :
      Takes s (.move ⟨f.node, f.path, params.take f.captured, fs, true⟩)
  | miss (params : Params) (hskipped : s.skipped = []) : Takes s (.done ⟨none, params⟩)
  | catchAll {w : Node α} (params : Params) (hwild : s.wild? = some w) (hkind : w.kind = .catchAll) :
      Takes s (.done ⟨w.hit?, params⟩)
  | hit (hit : Hit α) (params : Params) : Takes s (.done ⟨some hit, params⟩)

section Steps

theorem keyed_ok {n c : Node α} {b : UInt8} {hc : c ∈ n.children}
    (h : n.keyed b = .ok (some ⟨c, hc⟩)) :
    ∃ i, n.slot? b = some i ∧ n.children[i]? = some c := by
  unfold keyed at h
  split at h
  · cases h
  · next i hi =>
      split at h
      · next c' hc' =>
          cases h
          exact ⟨i, hi, hc'⟩
      · cases h

theorem slot_of_keyed {n : Node α} {b : UInt8} (h : n.keyed b = .ok none) : n.slot? b = none := by
  unfold keyed at h
  split at h
  · assumption
  · split at h <;> cases h

variable {rest : Bytes} {params : Params}

theorem backtrack_takes (hs : Suited s.path s.skipped) (hrest : rest <:+ s.path)
    (hparams : s.params <+: params) : Takes s (backtrack rest params s.skipped) := by
  rw [Suited.backtrack (hs.suffix hrest)]
  cases hskipped : s.skipped with
  | nil => exact .miss params hskipped
  | cons f fs => exact .back hskipped hparams

theorem finish_takes (hs : Suited s.path s.skipped) (n : Node α) (hrest : rest <:+ s.path)
    (hparams : s.params <+: params) : Takes s (finish n rest params s.skipped) := by
  unfold finish
  split
  · exact .hit ..
  · exact backtrack_takes hs hrest hparams

theorem stepWild_takes (hs : Suited s.path s.skipped) {w : Node α} (hwild : s.wild? = some w)
    (hrest : rest <:+ s.path) {p : Step α}
    (h : stepWild unescape w rest s.params s.skipped = .ok p) : Takes s p := by
  unfold stepWild at h
  split at h
  · split at h
    · cases h
    · cases h
      unfold stepParam
      split
      · exact finish_takes hs w hrest (List.prefix_append ..)
      · next c cs hchildren _ =>
          refine .param _ hwild (by simp [hchildren]) ?_
          exact (List.dropWhile_suffix _).trans hrest
      · exact backtrack_takes hs hrest (List.prefix_append ..)
  · next hkind =>
      split at h
      · cases h
      · cases h
        exact .catchAll _ hwild hkind
  · cases h
  · cases h

theorem step_takes (hs : Suited s.path s.skipped) {p : Step α} (h : step unescape s = .ok p) :
    Takes s p := by
  cases hwild : s.wild? with
  | some w =>
      obtain ⟨hhas, hlast, b, rest, hstrip, hturn⟩ := wild?_some hwild
      obtain ⟨front, hchildren⟩ := List.getLast?_eq_some_iff.1 hlast
      have hstep : step unescape s = stepWild unescape w (b :: rest) s.params s.skipped :=
        step_wild hstrip hturn hhas hchildren
      exact stepWild_takes hs hwild (strip?_some hstrip ▸ List.suffix_append ..) (hstep ▸ h)
  | none =>
      unfold step at h
      split at h
      · cases h
        exact backtrack_takes hs List.suffix_rfl List.prefix_rfl
      · cases h
        exact finish_takes hs _ List.suffix_rfl List.prefix_rfl
      · next b rest hstrip =>
          split at h
          · cases h
          · next c hc hkeyed =>
              split at hkeyed
              · cases hkeyed
              · next hfresh =>
                  obtain ⟨i, hslot, hchild⟩ := keyed_ok hkeyed
                  cases h
                  exact .key (by simpa using hfresh) hstrip hslot hchild
          · next hkeyed =>
              have hturn : s.resumed = true ∨ s.node.slot? b = none := by
                by_cases hresumed : s.resumed = true
                · exact .inl hresumed
                · rw [if_neg hresumed] at hkeyed
                  exact .inr (slot_of_keyed hkeyed)
              split at h
              · next hhas =>
                  rw [wild?_of_turn hstrip hhas hturn] at hwild
                  rw [lastChild_of_none hwild] at h
                  cases h
              · cases h
                exact backtrack_takes hs (strip?_some hstrip ▸ List.suffix_append ..) List.prefix_rfl

end Steps

/-- The frames of a search for a request stand in order. The path at hand ends the path of each frame,
and no frame counts more parameters than there are. -/
structure Orderly (request : Bytes) (s : Search α) : Prop where
  path : s.path <:+ request
  frames : ∀ f ∈ s.skipped, s.path <:+ f.path ∧ f.path <:+ request ∧ f.captured ≤ s.params.length
  sorted : s.skipped.Pairwise fun f g => f.path <:+ g.path ∧ g.captured ≤ f.captured

theorem orderly_start (n : Node α) (params : Params) :
    Orderly request { node := n, path := request, params : Search α } :=
  ⟨List.suffix_rfl, nofun, .nil⟩

theorem Orderly.suited (h : Orderly request s) : Suited s.path s.skipped :=
  fun f hf => (h.frames f hf).1

theorem Orderly.down (h : Orderly request s) {n : Node α} {rest : Bytes} {params : Params}
    (hrest : rest <:+ s.path) (hparams : s.params.length ≤ params.length) :
    Orderly request { node := n, path := rest, params, skipped := s.skipped } := by
  refine ⟨hrest.trans h.path, fun f hf => ?_, h.sorted⟩
  obtain ⟨hpath, hrequest, hcaptured⟩ := h.frames f hf
  exact ⟨hrest.trans hpath, hrequest, Nat.le_trans hcaptured hparams⟩

theorem Orderly.push (h : Orderly request s) :
    Orderly request { s with skipped := ⟨s.node, s.path, s.params.length⟩ :: s.skipped } := by
  refine ⟨h.path, fun f hf => ?_, List.pairwise_cons.2 ⟨fun f hf => ?_, h.sorted⟩⟩
  · rcases List.mem_cons.1 hf with rfl | hf
    · exact ⟨List.suffix_rfl, h.path, Nat.le_refl _⟩
    · exact h.frames f hf
  · obtain ⟨hpath, -, hcaptured⟩ := h.frames f hf
    exact ⟨hpath, hcaptured⟩

theorem Orderly.pop (h : Orderly request s) {f : Frame α} {fs : List (Frame α)}
    (hskipped : s.skipped = f :: fs) :
    Orderly request ⟨f.node, f.path, s.params.take f.captured, fs, true⟩ := by
  obtain ⟨-, hrequest, hcaptured⟩ := h.frames f (by simp [hskipped])
  have hsorted := h.sorted
  rw [hskipped, List.pairwise_cons] at hsorted
  refine ⟨hrequest, fun g hg => ?_, hsorted.2⟩
  obtain ⟨hpath, hle⟩ := hsorted.1 g hg
  refine ⟨hpath, (h.frames g (by simp [hskipped, hg])).2.1, ?_⟩
  rw [List.length_take_of_le hcaptured]
  exact hle

theorem Orderly.take (h : Orderly request s) {f : Frame α} {fs : List (Frame α)}
    (hskipped : s.skipped = f :: fs) {params : Params} (hparams : s.params <+: params) :
    params.take f.captured = s.params.take f.captured := by
  obtain ⟨more, rfl⟩ := hparams
  exact List.take_append_of_le_length (h.frames f (by simp [hskipped])).2.2

theorem Orderly.move (h : Orderly request s) (hstep : step unescape s = .ok (.move t)) :
    Orderly request t := by
  cases step_takes h.suited hstep with
  | key _ hstrip =>
      have hrest := strip?_some hstrip ▸ List.suffix_append ..
      split
      · exact h.push.down hrest (Nat.le_refl _)
      · exact h.down hrest (Nat.le_refl _)
  | param p _ _ hrest => exact h.down hrest (by simp)
  | back hskipped hparams =>
      rw [h.take hskipped hparams]
      exact h.pop hskipped

/-- How a search goes on: below its node with the frames that it has, or with its node on top of them,
or at the node of the top frame with the parameters captured before it. -/
inductive GoesOn (s t : Search α) : Prop
  | below (hfresh : t.resumed = false) (hskipped : t.skipped = s.skipped)
  | aside (hhere : s.resumed = false) (hfresh : t.resumed = false)
      (hskipped : t.skipped = ⟨s.node, s.path, s.params.length⟩ :: s.skipped)
  | back (captured : Nat) (hresumed : t.resumed = true)
      (hskipped : s.skipped = ⟨t.node, t.path, captured⟩ :: t.skipped)
      (hparams : t.params = s.params.take captured)

/-- No frame is lost: from any rest of the path, coming back takes the top frame, a step leaves all
other frames alone, and a miss is the end only when no frame is left. -/
structure LosesNothing (unescape : Bool) (s : Search α) : Prop where
  top : ∀ rest params, rest <:+ s.path → backtrack rest params s.skipped = unwind params s.skipped
  goesOn : ∀ t, step unescape s = .ok (.move t) → GoesOn s t
  miss : ∀ params, step unescape s = .ok (.done ⟨none, params⟩) → s.skipped = []

/-- What a search relies on at a node: the keys leave the wildcard child out, and a catch-all that is
the wildcard child holds a value. -/
structure Forked (n : Node α) : Prop where
  spare : n.hasWild = true → n.keys.length < n.children.length
  full : ∀ w, n.hasWild = true → n.children.getLast? = some w → w.kind = .catchAll →
    w.value.isSome = true

theorem Orderly.goesOn (h : Orderly request s) (hstep : step unescape s = .ok (.move t)) :
    GoesOn s t := by
  cases step_takes h.suited hstep with
  | key hfresh =>
      split
      · exact .aside hfresh rfl rfl
      · exact .below rfl rfl
  | param => exact .below rfl rfl
  | back hskipped hparams => exact .back _ rfl hskipped (h.take hskipped hparams)

theorem Orderly.losesNothing (h : Orderly request s) (hnode : s.node.Forked) :
    LosesNothing unescape s := by
  refine ⟨fun rest params hrest => ?_, fun t => h.goesOn, fun params hmiss => ?_⟩
  · exact Suited.backtrack (h.suited.suffix hrest) params
  · generalize hp : Step.done ⟨none, params⟩ = p at hmiss
    cases step_takes h.suited hmiss with
    | miss _ hskipped => exact hskipped
    | catchAll _ hwild hkind =>
        obtain ⟨hhas, hlast, -⟩ := wild?_some hwild
        obtain ⟨hit, hhit⟩ := hit?_of_value (hnode.full _ hhas hlast hkind)
        rw [hhit] at hp
        cases hp
    | hit | key | param | back => cases hp

end HttpRouting.Node

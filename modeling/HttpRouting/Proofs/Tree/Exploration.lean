import HttpRouting.Proofs.Tree.Answers
import HttpRouting.Tree.Lookup

namespace HttpRouting.Node

open Bytes Pattern

variable {α : Type}

def proceed (unescape : Bool) : Except Defect (Step α) → Except Defect (Outcome α)
  | .error e => .error e
  | .ok (.done outcome) => .ok outcome
  | .ok (.move next) => run unescape next

theorem run_eq (unescape : Bool) (s : Search α) : run unescape s = proceed unescape (step unescape s) := by
  rw [run]
  split
  · next e h => rw [h]; rfl
  · next o h => rw [h]; rfl
  · next s' h => rw [h]; rfl

/-- What becomes of an outcome: after a miss the latest frame is resumed. -/
def resume (unescape : Bool) (o : Outcome α) : List (Frame α) → Except Defect (Outcome α)
  | [] => .ok o
  | f :: rest =>
      match o.hit? with
      | some _ => .ok o
      | none => run unescape ⟨f.node, f.path, o.params.take f.captured, rest, true⟩

/-- The frames can be resumed from a path. -/
def Suited (path : Bytes) (skipped : List (Frame α)) : Prop := ∀ f ∈ skipped, path <:+ f.path

theorem suited_nil (path : Bytes) : Suited path ([] : List (Frame α)) := nofun

theorem Suited.suffix {path rest : Bytes} {skipped : List (Frame α)} (h : Suited path skipped)
    (hrest : rest <:+ path) : Suited rest skipped :=
  fun f hf => hrest.trans (h f hf)

def unwind (params : Params) : List (Frame α) → Step α
  | [] => .done ⟨none, params⟩
  | f :: rest => .move ⟨f.node, f.path, params.take f.captured, rest, true⟩

theorem Suited.backtrack {path : Bytes} {skipped : List (Frame α)} (h : Suited path skipped)
    (params : Params) : backtrack path params skipped = unwind params skipped := by
  cases skipped with
  | nil => rfl
  | cons f rest =>
      have hf : path.isSuffixOf f.path = true :=
        List.isSuffixOf_iff_suffix.2 (h f List.mem_cons_self)
      rw [Node.backtrack, List.dropWhile_cons_of_neg (by simp [hf])]
      rfl

theorem resume_hit (unescape : Bool) {o : Outcome α} (h : o.hit?.isSome = true)
    (skipped : List (Frame α)) : resume unescape o skipped = .ok o := by
  obtain ⟨hit, hhit⟩ := Option.isSome_iff_exists.1 h
  cases skipped with
  | nil => rfl
  | cons f rest => rw [resume, hhit]

section Steps

variable {unescape : Bool} {n w c : Node α} {path rest : Bytes} {params : Params}
  {skipped : List (Frame α)} {b : UInt8} {i : Nat}

theorem proceed_backtrack (h : Suited path skipped) :
    proceed unescape (.ok (backtrack path params skipped)) =
      resume unescape ⟨none, params⟩ skipped := by
  rw [h.backtrack]
  cases skipped <;> rfl

theorem proceed_finish (h : Suited path skipped) :
    proceed unescape (.ok (finish n path params skipped)) =
      resume unescape ⟨n.hit?, params⟩ skipped := by
  unfold finish
  split
  · next hit hhit =>
      rw [resume_hit unescape (by simp [hhit]), hhit]
      rfl
  · next hnone =>
      rw [hnone]
      exact proceed_backtrack h

theorem keyed_some (hi : n.slot? b = some i) (hc : n.children[i]? = some c) :
    ∃ hmem, n.keyed b = .ok (some ⟨c, hmem⟩) := by
  refine ⟨List.mem_of_getElem? hc, ?_⟩
  unfold keyed
  rw [hi]
  dsimp only
  split
  · next c' hc' =>
      rw [hc] at hc'
      cases hc'
      rfl
  · next hnone => simp [hc] at hnone

theorem keyed_none (h : n.slot? b = none) : n.keyed b = .ok none := by rw [keyed, h]

theorem run_off (h : strip? n.label path = none) (hs : Suited path skipped) :
    run unescape ⟨n, path, params, skipped, false⟩ = resume unescape ⟨none, params⟩ skipped := by
  rw [run_eq, step, h]
  exact proceed_backtrack hs

theorem run_end (h : strip? n.label path = some []) (hs : Suited path skipped) :
    run unescape ⟨n, path, params, skipped, false⟩ = resume unescape ⟨n.hit?, params⟩ skipped := by
  rw [run_eq, step, h]
  exact proceed_finish hs

theorem run_slot (h : strip? n.label path = some (b :: rest)) (hi : n.slot? b = some i)
    (hc : n.children[i]? = some c) :
    run unescape ⟨n, path, params, skipped, false⟩ =
      run unescape
        { node := c
          path := b :: rest
          params
          skipped := if n.hasWild then ⟨n, path, params.length⟩ :: skipped else skipped } := by
  obtain ⟨hmem, hkeyed⟩ := keyed_some hi hc
  rw [run_eq, step, h]
  dsimp only
  rw [if_neg Bool.false_ne_true, hkeyed]
  rfl

theorem run_stop (h : strip? n.label path = some (b :: rest)) (hi : n.slot? b = none)
    (hwild : n.hasWild = false) (hs : Suited (b :: rest) skipped) :
    run unescape ⟨n, path, params, skipped, false⟩ = resume unescape ⟨none, params⟩ skipped := by
  rw [run_eq, step, h]
  dsimp only
  rw [if_neg Bool.false_ne_true, keyed_none hi]
  dsimp only
  rw [hwild, if_neg Bool.false_ne_true]
  exact proceed_backtrack hs

theorem step_wild {resumed : Bool} (h : strip? n.label path = some (b :: rest))
    (hi : resumed = true ∨ n.slot? b = none) (hwild : n.hasWild = true) {front : List (Node α)}
    (hw : n.children = front ++ [w]) :
    step unescape ⟨n, path, params, skipped, resumed⟩ =
      stepWild unescape w (b :: rest) params skipped := by
  have hkeyed : (if resumed then .ok none else n.keyed b) = .ok none := by
    rcases hi with rfl | hi
    · rfl
    · rw [keyed_none hi, ite_self]
  obtain ⟨hmem, hlast⟩ := lastChild_eq hw
  rw [step, h]
  dsimp only
  rw [hkeyed]
  dsimp only
  rw [if_pos hwild, hlast]

theorem run_wild {resumed : Bool} (h : strip? n.label path = some (b :: rest))
    (hi : resumed = true ∨ n.slot? b = none) (hwild : n.hasWild = true) {front : List (Node α)}
    (hw : n.children = front ++ [w]) :
    run unescape ⟨n, path, params, skipped, resumed⟩ =
      proceed unescape (stepWild unescape w (b :: rest) params skipped) := by
  rw [run_eq, step_wild h hi hwild hw]

end Steps

/-- Every search that starts at a node ends right for the entries of the node, or goes on with the
frames that it was given. -/
def Explores (unescape : Bool) (n : Node α) : Prop :=
  ∀ path params skipped, Suited path skipped → (n.kind = .catchAll → path.head? = some slash) →
    ∃ o, run unescape ⟨n, path, params, skipped, false⟩ = resume unescape o skipped ∧
      Answers unescape n.entries path params o

section Kinds

variable {unescape : Bool} {n : Node α}

theorem explore_param {w : Node α} {name : Bytes} {next : Option (Node α)} (hw : w.Sound)
    (hparam : w.IsParam name next)
    (ih : ∀ c ∈ w.children, ∀ b, c.Keyed b → c.Explores unescape) {b : UInt8}
    {rest : Bytes} (params : Params) {skipped : List (Frame α)} (hs : Suited (b :: rest) skipped) :
    ∃ o, proceed unescape (stepWild unescape w (b :: rest) params skipped) =
        resume unescape o skipped ∧ Answers unescape w.entries (b :: rest) params o := by
  have hstep : stepWild unescape w (b :: rest) params skipped =
      .ok (stepParam unescape w (b :: rest) params skipped) := by
    rw [stepWild, hparam.kind, hparam.label]
    rfl
  have hname : asText (w.label.drop 1) = asText name := by rw [hparam.label]; rfl
  rw [hstep, stepParam, entries_eq, hparam.edge, hname]
  have hlift {o : Outcome α} (h : Answers unescape w.held ((b :: rest).dropWhile (· ≠ slash))
      (params ++ [paramOf unescape ⟨name, firstSegment (b :: rest)⟩]) o) :=
    h.behind_param hw.held_ne_nil
  cases hafter : (b :: rest).dropWhile (· ≠ slash) with
  | nil =>
      rw [hafter] at hlift
      exact ⟨_, proceed_finish hs, hlift (answers_end unescape _ hparam.ends)⟩
  | cons s after =>
      rw [hafter] at hlift
      have hslash : s = slash := by
        have h := List.head?_dropWhile_not (fun b => decide (b ≠ slash)) (b :: rest)
        rw [hafter] at h
        simpa using h
      cases next with
      | none =>
          rw [hparam.children]
          exact ⟨_, proceed_backtrack hs, hlift (hparam.answers_stop (List.cons_ne_nil _ _))⟩
      | some c =>
          have hsuffix : s :: after <:+ b :: rest := hafter ▸ List.dropWhile_suffix _
          obtain ⟨o, hrun, ho⟩ := ih c (by simp [hparam.children]) slash (hparam.keyed c rfl) (s :: after)
            (params ++ [paramOf unescape ⟨name, firstSegment (b :: rest)⟩]) skipped
            (hs.suffix hsuffix) (fun _ => by rw [hslash]; rfl)
          rw [hparam.children]
          exact ⟨o, hrun, hlift (hparam.answers_next hw hslash ho)⟩

theorem explore_wild (hn : n.Sound) {slots : List (UInt8 × Node α)} {w : Node α}
    (hbranch : n.IsBranch slots (some w))
    (ihwild : ∀ w ∈ n.children, ∀ c ∈ w.children, ∀ b, c.Keyed b → c.Explores unescape)
    {path rest : Bytes} {b : UInt8} (hstrip : strip? n.label path = some (b :: rest))
    {skipped : List (Frame α)} (hs : Suited path skipped) (params : Params) {resumed : Bool}
    (hresumed : resumed = true ∨ n.slot? b = none)
    (hstatic : ∀ c, (b, c) ∈ slots → ∀ e ∈ c.entries, ¬ Matches e.pattern (b :: rest)) :
    ∃ o, run unescape ⟨n, path, params, skipped, resumed⟩ = resume unescape o skipped ∧
      Answers unescape n.held (b :: rest) params o := by
  have hw : w ∈ n.children := by simp [hbranch.children]
  have hchildren : n.children = slots.map Prod.snd ++ [w] := hbranch.children
  have hs' : Suited (b :: rest) skipped := hs.suffix (strip?_some hstrip ▸ List.suffix_append ..)
  obtain ⟨name, next, hparam⟩ := Sound.param (hn.child hw) (hbranch.param w rfl)
  obtain ⟨o, hrun, ho⟩ := explore_param (hn.child hw) hparam (ihwild w hw) params hs'
  refine ⟨o, ?_, hbranch.answers_wild hn hstatic ho⟩
  rw [run_wild hstrip hresumed hbranch.hasWild hchildren, hrun]

/-- The static child comes first. Its miss is followed by the parameter, with the parameters that
had been captured before. -/
theorem explore_below (hn : n.Sound) {slots : List (UInt8 × Node α)} {wild : Option (Node α)}
    (hbranch : n.IsBranch slots wild)
    (ih : ∀ c ∈ n.children, ∀ b, c.Keyed b → c.Explores unescape)
    (ihwild : ∀ w ∈ n.children, ∀ c ∈ w.children, ∀ b, c.Keyed b → c.Explores unescape)
    {path rest : Bytes} {b : UInt8} (hstrip : strip? n.label path = some (b :: rest))
    {skipped : List (Frame α)} (hs : Suited path skipped) (params : Params) :
    ∃ o, run unescape ⟨n, path, params, skipped, false⟩ = resume unescape o skipped ∧
      Answers unescape n.held (b :: rest) params o := by
  have hsuffix : b :: rest <:+ path := strip?_some hstrip ▸ List.suffix_append ..
  cases hi : n.slot? b with
  | none =>
      have hnew : ∀ c, (b, c) ∉ slots := by
        intro c hc
        exact slot_none.1 hi (hbranch.keys ▸ List.mem_map_of_mem hc)
      cases wild with
      | none =>
          refine ⟨_, run_stop hstrip hi hbranch.hasWild (hs.suffix hsuffix), ?_⟩
          exact hbranch.answers_stop hn hnew
      | some w =>
          exact explore_wild hn hbranch ihwild hstrip hs params (.inr hi)
            fun c hc => absurd hc (hnew c)
  | some i =>
      obtain ⟨c, hslot, hc⟩ := hbranch.slot_some hi
      have hmem := List.mem_of_getElem? hc
      have hslots := List.mem_of_getElem? hslot
      have hkeyed : c.Keyed b := hbranch.keyed _ hslots
      have hslash (hkind : c.kind = .catchAll) : (b :: rest).head? = some slash := by
        rw [hkeyed.eq_slash (hn.child hmem) hkind]
        rfl
      rw [run_slot hstrip hi hc, hbranch.hasWild]
      cases wild with
      | none =>
          obtain ⟨o, hrun, ho⟩ := ih c hmem b hkeyed (b :: rest) params skipped
            (hs.suffix hsuffix) hslash
          exact ⟨o, hrun, hbranch.answers_slot hn hslots ho (.inr rfl)⟩
      | some w =>
          have hframe : Suited (b :: rest) (⟨n, path, params.length⟩ :: skipped) := by
            intro f hf
            rcases List.mem_cons.1 hf with rfl | hf
            · exact hsuffix
            · exact hsuffix.trans (hs f hf)
          obtain ⟨o, hrun, ho⟩ := ih c hmem b hkeyed (b :: rest) params
            (⟨n, path, params.length⟩ :: skipped) hframe hslash
          by_cases hhit : o.hit?.isSome = true
          · refine ⟨o, ?_, hbranch.answers_slot hn hslots ho (.inl hhit)⟩
            rw [resume_hit unescape hhit] at hrun ⊢
            exact hrun
          · cases ho with
            | hit => exact absurd rfl hhit
            | miss hnone _ =>
                rw [resume, List.take_left] at hrun
                obtain ⟨o, hrun', ho⟩ := explore_wild hn hbranch ihwild hstrip hs params (.inl rfl)
                  fun c' hc' e he => hnone e (hbranch.slot_unique hslots hc' ▸ he)
                exact ⟨o, hrun.trans hrun', ho⟩

theorem explore_branch (hn : n.Sound) {slots : List (UInt8 × Node α)} {wild : Option (Node α)}
    (hbranch : n.IsBranch slots wild)
    (ih : ∀ c ∈ n.children, ∀ b, c.Keyed b → c.Explores unescape)
    (ihwild : ∀ w ∈ n.children, ∀ c ∈ w.children, ∀ b, c.Keyed b → c.Explores unescape) :
    n.Explores unescape := by
  intro path params skipped hs _
  have hedge := hbranch.edge
  cases hstrip : strip? n.label path with
  | none =>
      refine ⟨⟨none, params⟩, run_off hstrip hs, ?_⟩
      rw [entries_eq, hedge]
      exact answers_off hstrip hn.held_ne_nil
  | some rest =>
      have hpath := strip?_some hstrip
      have hs' : Suited rest skipped := hs.suffix (hpath ▸ List.suffix_append ..)
      have hlift {o : Outcome α} (h : Answers unescape n.held rest params o) :
          Answers unescape n.entries path params o := by
        rw [entries_eq, hedge, hpath]
        exact h.behind_literals hn.held_ne_nil n.label
      cases rest with
      | nil => exact ⟨_, run_end hstrip hs, hlift (answers_end unescape params (hbranch.ends hn))⟩
      | cons b rest =>
          obtain ⟨o, hrun, ho⟩ := explore_below hn hbranch ih ihwild hstrip hs params
          exact ⟨o, hrun, hlift ho⟩

theorem explore_holder (hn : n.Sound) (hkind : n.kind = .catchAll) (hwild : n.hasWild = true) :
    n.Explores unescape := by
  intro path params skipped hs hslash
  obtain ⟨leaf, name, hit, hholder, hleaf, hhit⟩ := hn.holder hkind hwild
  obtain ⟨rest, rfl⟩ := List.head?_eq_some_iff.1 (hslash hkind)
  have hstrip : strip? n.label (slash :: rest) = some (slash :: rest) := by rw [hholder.label]; rfl
  have hslot : n.slot? slash = none := slot_none.2 (by simp [hholder.keys])
  have hchildren : n.children = [] ++ [leaf] := hholder.children
  have hentries := hholder.entries.trans (hleaf.entries hhit)
  have hstep : stepWild unescape leaf (slash :: rest) params skipped =
      .ok (.done ⟨some hit, params ++ [paramOf unescape ⟨name, slash :: rest⟩]⟩) := by
    rw [stepWild, hleaf.kind, stepCatchAll, hhit, hleaf.label]
    rfl
  refine ⟨⟨some hit, params ++ [paramOf unescape ⟨name, slash :: rest⟩]⟩, ?_, ?_⟩
  · rw [run_wild hstrip (.inr hslot) hwild hchildren, hstep, resume_hit unescape rfl]
    rfl
  · rw [hentries]
    have hmem : (⟨[.literal slash, .catchAll name], hit⟩ : Entry α) ∈
        [⟨[.literal slash, .catchAll name], hit⟩] := List.mem_singleton_self _
    have hcaps : captures? (⟨[.literal slash, .catchAll name], hit⟩ : Entry α).pattern
        (slash :: rest) = some [⟨name, slash :: rest⟩] := rfl
    exact .hit ⟨hmem, hcaps, fun e' he' _ => .inl (List.mem_singleton.1 he')⟩

end Kinds

theorem explore (unescape : Bool) {n : Node α} (hn : n.Sound)
    (hkind : (n.kind = .static ∨ n.kind = .root) ∨ (n.kind = .catchAll ∧ n.hasWild = true)) :
    n.Explores unescape := by
  -- on the size, since a step passes a parameter on the way to the child below it
  induction hsize : n.size using Nat.strongRecOn generalizing n with
  | ind size ih =>
      have hsmaller (c : Node α) (hc : c.Sound) (hlt : c.size < size) (b : UInt8)
          (hkeyed : c.Keyed b) : c.Explores unescape := by
        refine ih c.size hlt hc ?_ rfl
        rcases hkeyed.kind with hstatic | hholder
        · exact .inl (.inl hstatic)
        · exact .inr hholder
      rcases hkind with hkind | ⟨hkind, hwild⟩
      · obtain ⟨slots, wild, hbranch⟩ := hn.branch hkind
        refine explore_branch hn hbranch (fun c hc => ?_) (fun w hw c hc => ?_)
        · exact hsmaller c (hn.child hc) (hsize ▸ size_lt_of_mem hc)
        · refine hsmaller c ((hn.child hw).child hc) ?_
          exact hsize ▸ Nat.lt_trans (size_lt_of_mem hc) (size_lt_of_mem hw)
      · exact explore_holder hn hkind hwild

theorem walk_answers {n : Node α} (hn : n.Sound) (hkind : n.kind = .static ∨ n.kind = .root)
    (path : Bytes) (unescape : Bool) (buffer : Params) :
    ∃ o, n.walk path unescape buffer = .ok o ∧ Answers unescape n.entries path [] o := by
  have hnot : n.kind ≠ .catchAll := by
    rcases hkind with hkind | hkind <;> simp [hkind]
  exact explore unescape hn (.inl hkind) path [] [] (suited_nil path) (fun h => absurd h hnot)

end HttpRouting.Node

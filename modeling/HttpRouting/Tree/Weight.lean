import HttpRouting.Tree.Search

namespace HttpRouting.Node

variable {α : Type}

def weight : Node α → Nat
  | ⟨_, _, _, _, _, children, _, _⟩ => 2 + 2 * weights children
where
  weights : List (Node α) → Nat
    | [] => 0
    | c :: cs => weight c + weights cs

def resumeWeight (n : Node α) : Nat := 1 + weight.weights n.children

def Frame.weights : List (Frame α) → Nat
  | [] => 0
  | f :: fs => f.node.resumeWeight + Frame.weights fs

def Search.weight (s : Search α) : Nat :=
  (if s.resumed then s.node.resumeWeight else s.node.weight) + Frame.weights s.skipped

theorem weight_eq (n : Node α) : n.weight = 2 + 2 * weight.weights n.children := by
  cases n; simp only [weight]

theorem weight_le_of_mem {c : Node α} :
    ∀ {cs : List (Node α)}, c ∈ cs → c.weight ≤ weight.weights cs
  | d :: cs, h => by
      rcases List.mem_cons.1 h with rfl | h
      · simp [weight.weights]
      · have := weight_le_of_mem h
        simp only [weight.weights]
        omega

theorem resumeWeight_le (s : Search α) :
    s.node.resumeWeight + Frame.weights s.skipped ≤ s.weight := by
  unfold Search.weight
  split
  · exact Nat.le_refl _
  · rw [weight_eq, resumeWeight]
    omega

theorem Frame.weights_dropWhile_le (p : Frame α → Bool) (fs : List (Frame α)) :
    Frame.weights (fs.dropWhile p) ≤ Frame.weights fs := by
  induction fs with
  | nil => exact Nat.le_refl _
  | cons f fs ih =>
      rw [List.dropWhile_cons]
      split
      · exact Nat.le_trans ih (by simp [Frame.weights])
      · exact Nat.le_refl _

theorem backtrack_weight {path : Bytes} {params : Params} {skipped : List (Frame α)}
    {s : Search α} (h : backtrack path params skipped = .move s) :
    s.weight ≤ Frame.weights skipped := by
  unfold backtrack at h
  split at h
  · cases h
  · next f rest hdrop =>
      cases h
      have := hdrop ▸ Frame.weights_dropWhile_le (fun f => !path.isSuffixOf f.path) skipped
      simpa [Search.weight, Frame.weights] using this

theorem finish_weight {n : Node α} {path : Bytes} {params : Params} {skipped : List (Frame α)}
    {s : Search α} (h : finish n path params skipped = .move s) :
    s.weight ≤ Frame.weights skipped := by
  unfold finish at h
  split at h
  · cases h
  · exact backtrack_weight h

theorem stepWild_weight {unescape : Bool} {w : Node α} {path : Bytes} {params : Params}
    {skipped : List (Frame α)} {s : Search α}
    (h : stepWild unescape w path params skipped = .ok (.move s)) :
    s.weight ≤ w.weight + Frame.weights skipped := by
  unfold stepWild at h
  split at h
  · split at h
    · cases h
    · simp only [Except.ok.injEq] at h
      unfold stepParam at h
      split at h
      · exact Nat.le_add_left_of_le (finish_weight h)
      · next c cs hw _ =>
          cases h
          have : c.weight ≤ weight.weights w.children := weight_le_of_mem (by simp [hw])
          have := weight_eq w
          simp only [Search.weight, Bool.false_eq_true, if_false]
          omega
      · exact Nat.le_add_left_of_le (backtrack_weight h)
  · split at h <;> cases h
  · cases h
  · cases h

theorem step_weight {unescape : Bool} {s t : Search α} (h : step unescape s = .ok (.move t)) :
    t.weight < s.weight := by
  have hs := resumeWeight_le s
  have hpos : 0 < s.node.resumeWeight := by rw [resumeWeight]; omega
  unfold step at h
  split at h
  · have := backtrack_weight (Except.ok.inj h)
    omega
  · have := finish_weight (Except.ok.inj h)
    omega
  · split at h
    · cases h
    · next c hc hkeyed =>
        split at hkeyed
        · cases hkeyed
        · next hfresh =>
            cases h
            have := weight_le_of_mem hc
            have := weight_eq s.node
            simp only [Search.weight, hfresh, Bool.false_eq_true, if_false]
            split
            · simp only [Frame.weights, resumeWeight]
              omega
            · omega
    · split at h
      · split at h
        · cases h
        · next w hw _ =>
            have := stepWild_weight h
            have := weight_le_of_mem hw
            simp only [resumeWeight] at hs
            omega
      · have := backtrack_weight (Except.ok.inj h)
        omega

end HttpRouting.Node

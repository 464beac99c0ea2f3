import HttpRouting.Proofs.Tree.Ranking

namespace HttpRouting.Node

open Bytes Pattern

variable {α : Type} {route : String} {v : α} {path rest : Bytes} {n m : Node α} {p : Placement α}

/-- A static child without a text on its edge stands beside a value or another child, unless it stands
below a parameter. -/
def Shared (n : Node α) : Prop :=
  ∀ c ∈ n.children, c.kind = .static → c.label = [] →
    n.kind = .param ∨ n.value.isSome = true ∨ 1 < n.children.length

theorem stalk_shared (route : String) (v : α) (name : Bytes) {next : Option (Node α)}
    (hnext : ∀ c, next = some c → c.Every Shared) : (stalk route v name next).Every Shared :=
  .node (fun _ _ _ _ => .inl rfl) fun c hc => hnext c (Option.mem_toList.1 hc)

theorem holderNode_shared (route : String) (v : α) (name : Bytes) :
    (holderNode route v name).Every Shared := by
  have hleaf : (leafNode route v name).Every Shared := .node nofun nofun
  refine .node (fun c hc hkind => ?_) fun c hc => ?_
  · rw [List.mem_singleton.1 hc] at hkind
    cases hkind
  · rw [List.mem_singleton.1 hc]
    exact hleaf

theorem Grafts.shared (h : Grafts route v path n m) (hn : n.Bare) : m.Every Shared := by
  induction h with
  | text => exact .node (by simp [Shared, hn.children]) (by simp [hn.children])
  | @param text name rest n next hname hstop helements hnext hc ih =>
      have hstalk := stalk_shared route v name fun c hsome => ih c hsome (bare_fresh route)
      have hchildren : ((n.labelled text).addWild (stalk route v name next)).children =
          [stalk route v name next] := by
        rw [addWild, labelled_children, hn.children]
        rfl
      refine .node (fun c hc hkind => ?_) fun c hc => ?_
      · rw [hchildren, List.mem_singleton] at hc
        rw [hc] at hkind
        cases hkind
      · rw [hchildren, List.mem_singleton] at hc
        rw [hc]
        exact hstalk
  | @catchAll front name n hname =>
      refine .node (fun c hc hkind => ?_) fun c hc => ?_
      · rw [List.mem_singleton.1 hc] at hkind
        cases hkind
      · rw [List.mem_singleton.1 hc]
        exact holderNode_shared route v name

@[simp] theorem promote_value (n : Node α) (i : Nat) : (n.promote i).value = n.value := by
  unfold promote
  split <;> rfl

theorem length_addStatic (key : UInt8) (c : Node α) (hlength : n.keys.length ≤ n.children.length) :
    (n.addStatic key c).children.length = n.children.length + 1 := by
  rw [addStatic, (promote_children _ _).length_eq]
  exact List.length_insertIdx_of_le_length hlength c

theorem length_settle (n c : Node α) (i : Nat) :
    (n.settle i c).children.length = n.children.length := by
  rw [settle, (promote_children _ _).length_eq]
  exact List.length_set

theorem shared_of_live (hn : n.Live) (hvalue : m.value = n.value)
    (hlength : m.children.length = n.children.length + 1) : m.Shared := by
  intro c hc _ _
  rcases hn with hsome | hchildren
  · exact .inr (.inl (hvalue ▸ hsome))
  · have := List.length_pos_of_ne_nil hchildren
    exact .inr (.inr (by omega))

theorem Extends.shared (h : Extends route v n rest p) (hlive : n.Live) (hshared : n.Every Shared) :
    p.node.Every Shared := by
  cases h with
  | refused => exact hshared
  | value =>
      exact .node (fun _ _ _ _ => .inr (.inl rfl)) fun c hc => hshared.child hc
  | @static _ b es c helements hkeys hc =>
      have hlength : n.keys.length ≤ n.children.length := hkeys ▸ length_statics_le n
      exact addStatic_every hshared (hc.shared (bare_fresh route)) hlength
        (shared_of_live hlive (promote_value ..) (length_addStatic b c hlength))
  | @wild name rest next hwild hname hstop hnext hc =>
      have hstalk := stalk_shared route v name fun c hsome => (hc c hsome).shared (bare_fresh route)
      exact addWild_every (fun c hc => hshared.child hc) hstalk
        (shared_of_live hlive rfl List.length_append)

theorem shared_raised (h : n.Every Shared) : n.raised.Every Shared :=
  .node h.here fun _ hc => h.child hc

theorem Walks.shared (h : Walks route v path n p) (hn : n.Sound) (hshared : n.Every Shared) :
    p.node.Every Shared := by
  induction h with
  | @split path rest n k p hk hkind hfront hhead hp =>
      obtain ⟨slots, wild, hbranch⟩ := hn.branch hkind
      have hsplit := raised_sound (split_sound hbranch hn hk)
      have hbelow : { n with kind := .static, label := n.label.drop k }.Every Shared := by
        refine .node (fun c hc hkind hlabel => ?_) fun c hc => hshared.child hc
        have hparam : n.kind ≠ .param := hbranch.not_wildcard.1
        exact .inr ((hshared.here c hc hkind hlabel).resolve_left hparam)
      refine hp.shared hsplit.here.live (.node (fun c hc _ hlabel => ?_) fun c hc => ?_)
      · rw [List.mem_singleton.1 hc] at hlabel
        have := List.drop_eq_nil_iff.1 hlabel
        omega
      · rw [List.mem_singleton.1 hc]
        exact hbelow
  | stop hkind hfront hkeys hp => exact hp.shared (raised_sound hn).here.live (shared_raised hshared)
  | @descend path rest n c i b p hfront hi hc hkeyed hhead hgrows hp ih =>
      have hmem := List.mem_of_getElem? hc
      have hsound := hn.child hmem
      refine settle_every (shared_raised hshared) (ih hsound (hshared.child hmem))
        fun d hd hkind hlabel => ?_
      have hmeans : (n.raised.settle i p.node).kind = n.kind := promote_kind ..
      have hvalue : (n.raised.settle i p.node).value = n.value := promote_value ..
      have hcount : (n.raised.settle i p.node).children.length = n.children.length := length_settle ..
      rw [hmeans, hvalue, hcount]
      rcases List.mem_or_eq_of_mem_set ((promote_children _ i).mem_iff.1 hd) with hd | rfl
      · exact hshared.here d hd hkind hlabel
      · exact hshared.here c hmem (hgrows.kind.symm.trans hkind)
          (hp.label_nil hsound hkeyed.opens hhead hlabel)
  | @wild path rest n c front p hfront hwild hc hparam hgrows hp ih =>
      have hmem : c ∈ n.children := by simp [hc]
      refine replaceLast_every (shared_raised hshared) (ih (hn.child hmem) (hshared.child hmem))
        fun d hd hkind hlabel => ?_
      have hcount : (n.raised.replaceLast p.node).children.length = n.children.length := by
        simp [replaceLast, raised, hc]
      rcases List.mem_append.1 hd with hd | hd
      · rw [hcount]
        exact hshared.here d (List.dropLast_subset _ hd) hkind hlabel
      · rw [List.mem_singleton.1 hd, hgrows.kind, hparam] at hkind
        cases hkind
  | refused => exact shared_raised hshared

theorem recount_shared (h : n.Every Shared) : n.recount.Every Shared := by
  induction h with
  | @node n here _ ih =>
      refine .node (fun d hd hkind hlabel => ?_) fun d hd => ?_
      · rw [recount_children] at hd
        obtain ⟨c, hc, rfl⟩ := List.mem_map.1 hd
        rw [recount_kind] at hkind ⊢
        rw [recount_label] at hlabel
        rw [recount_value, recount_children, List.length_map]
        exact here c hc hkind hlabel
      · rw [recount_children] at hd
        obtain ⟨c, hc, rfl⟩ := List.mem_map.1 hd
        exact ih c hc

section Built

variable {routes : List (String × α)}

theorem insertChecked_shared (h : Tracks n routes) (hcheck : Pattern.check route = .ok ()) (v : α)
    (hshared : n.Every Shared) : (n.insertChecked route v).node.Every Shared := by
  rcases h.shape with hbare | hsound
  · obtain ⟨m, hinsert, hgrafts⟩ := hbare.insertChecked hcheck v
    have hm := hgrafts.shared hbare.raised
    have hkind : m.kind ≠ .param := by
      rw [(hgrafts.grown hbare.raised).kind]
      rcases hbare.kind with hkind | hkind <;> simp [raised, hkind]
    rw [hinsert]
    exact .node (fun c hc hstatic hlabel => .inr ((hm.here c hc hstatic hlabel).resolve_left hkind))
      fun c hc => hm.child hc
  · have hwalks := place_walks route v hsound (grammar_of_check hcheck) (enters_of_kind h.kind _)
    rw [hsound.insertChecked]
    exact hwalks.shared hsound hshared

theorem Built.shared (h : Built n routes) : n.Every Shared := by
  induction h with
  | empty => exact .node nofun nofun
  | root => exact .node nofun nofun
  | accepted hn hok ih =>
      obtain ⟨hcheck, hinsert⟩ := insert_ok hok
      rw [hinsert]
      exact insertChecked_shared hn.tracks hcheck _ ih
  | refused hn herror ih =>
      rcases insert_error herror with hsame | ⟨hcheck, hinner, hnode⟩
      · rw [hsame]
        exact ih
      · rw [hnode]
        exact recount_shared (insertChecked_shared hn.tracks hcheck _ ih)

end Built

end HttpRouting.Node

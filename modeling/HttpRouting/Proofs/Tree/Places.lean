import HttpRouting.Proofs.Tree.Built

namespace HttpRouting.Node

variable {α : Type}

def nodes : Node α → List (Node α)
  | ⟨kind, label, keys, hasWild, priority, children, value, route⟩ =>
      ⟨kind, label, keys, hasWild, priority, children, value, route⟩ :: nodesOf children
where
  nodesOf : List (Node α) → List (Node α)
    | [] => []
    | c :: cs => nodes c ++ nodesOf cs

def routesAt (n : Node α) : List String := n.entries.map (·.hit.route)

theorem nodesOf_eq (cs : List (Node α)) : nodes.nodesOf cs = cs.flatMap nodes := by
  induction cs with
  | nil => rfl
  | cons c cs ih => rw [nodes.nodesOf, ih, List.flatMap_cons]

theorem nodes_eq (n : Node α) : n.nodes = n :: n.children.flatMap nodes := by
  obtain ⟨kind, label, keys, hasWild, priority, children, value, route⟩ := n
  rw [nodes, nodesOf_eq]

theorem mem_nodes {n m : Node α} : m ∈ n.nodes ↔ m = n ∨ ∃ c ∈ n.children, m ∈ c.nodes := by
  rw [nodes_eq, List.mem_cons, List.mem_flatMap]

theorem size_le_of_mem_nodes {n m : Node α} (h : m ∈ n.nodes) : m.size ≤ n.size := by
  induction n using below_induction with
  | h n ih =>
      rcases mem_nodes.1 h with rfl | ⟨c, hc, hm⟩
      · exact Nat.le_refl _
      · exact Nat.le_trans (ih c hc hm) (Nat.le_of_lt (size_lt_of_mem hc))

theorem Every.mem_nodes {p : Node α → Prop} {n m : Node α} (h : n.Every p) (hm : m ∈ n.nodes) :
    m.Every p := by
  induction h with
  | node here children ih =>
      rcases Node.mem_nodes.1 hm with rfl | ⟨c, hc, hm⟩
      · exact .node here children
      · exact ih c hc hm

theorem routesAt_eq (n : Node α) :
    n.routesAt = (n.hit?.map (·.route)).toList ++ n.children.flatMap routesAt := by
  have hchildren : n.children.flatMap routesAt =
      (n.children.flatMap entries).map (·.hit.route) := List.map_flatMap.symm
  rw [hchildren, routesAt, entries_eq, held, List.map_map, List.map_append]
  cases n.hit? <;> rfl

theorem routesAt_subset {n m : Node α} (h : m ∈ n.nodes) : m.routesAt ⊆ n.routesAt := by
  induction n using below_induction with
  | h n ih =>
      rcases mem_nodes.1 h with rfl | ⟨c, hc, hm⟩
      · exact List.Subset.refl _
      · intro route hroute
        rw [routesAt_eq]
        exact List.mem_append_right _ (List.mem_flatMap.2 ⟨c, hc, ih c hc hm hroute⟩)

theorem Sound.routesAt_ne_nil {n : Node α} (h : n.Sound) : n.routesAt ≠ [] := by
  rw [routesAt, ne_eq, List.map_eq_nil_iff]
  exact h.entries_ne_nil

/-- Two nodes side by side have no node in common, as no route is below both. -/
theorem Sound.nodes_nodup {n : Node α} (h : n.Sound) (hroutes : n.routesAt.Nodup) :
    n.nodes.Nodup := by
  induction h with
  | @node n _ children ih =>
      rw [routesAt_eq] at hroutes
      obtain ⟨heach, happart⟩ := List.nodup_flatMap.1 hroutes.of_append_right
      rw [nodes_eq, List.nodup_cons]
      refine ⟨fun hmem => ?_, List.nodup_flatMap.2 ⟨fun c hc => ih c hc (heach c hc), ?_⟩⟩
      · obtain ⟨c, hc, hn⟩ := List.mem_flatMap.1 hmem
        have := size_le_of_mem_nodes hn
        have := size_lt_of_mem hc
        omega
      · refine happart.imp_of_mem fun {c d} hc hd hdisjoint m hmc hmd => ?_
        have hm : m.Sound := (children c hc).mem_nodes hmc
        obtain ⟨route, hroute⟩ := List.exists_mem_of_ne_nil _ hm.routesAt_ne_nil
        exact hdisjoint (routesAt_subset hmc hroute) (routesAt_subset hmd hroute)

theorem Tracks.routes_nodup {n : Node α} {routes : List (String × α)} (h : Tracks n routes) :
    (routes.map Prod.fst).Nodup := by
  refine List.pairwise_map.2 ((List.pairwise_map.1 h.apart).imp fun hapart hsame => hapart ?_)
  exact .inl (congrArg Pattern.ofRoute hsame)

theorem Tracks.routesAt {n : Node α} {routes : List (String × α)} (h : Tracks n routes) :
    n.routesAt.Perm (routes.map Prod.fst) := by
  have hperm := h.entries.map (·.hit.route)
  rw [List.map_map] at hperm
  exact hperm

theorem Tracks.nodes_nodup {n : Node α} {routes : List (String × α)} (h : Tracks n routes) :
    n.nodes.Nodup := by
  rcases h.shape with hbare | hsound
  · rw [nodes_eq, hbare.children]
    exact List.nodup_singleton n
  · exact hsound.nodes_nodup (h.routesAt.nodup_iff.2 h.routes_nodup)

end HttpRouting.Node

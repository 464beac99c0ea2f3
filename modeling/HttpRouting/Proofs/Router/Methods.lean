import HttpRouting.Proofs.Router.Reachable
import HttpRouting.Proofs.Tree.Matching

namespace HttpRouting

open Pattern

namespace Forest

variable {H : Type} {f : Forest H} {method : String}

theorem root?_eq_none : f.root? method = none ↔ method ∉ f.map (·.method) := by
  induction f with
  | nil => simp [root?]
  | cons t f ih =>
      rw [root?_cons, List.map_cons, List.mem_cons, not_or]
      split
      · next h => simp [h]
      · next h => simp [ih, Ne.symm h]

theorem root?_isSome : (f.root? method).isSome = true ↔ method ∈ f.map (·.method) := by
  rw [← not_iff_not, ← root?_eq_none, Bool.not_eq_true, Option.isSome_eq_false_iff,
    Option.isNone_iff_eq_none]

theorem root?_of_mem (hnodup : (f.map (·.method)).Nodup) {t : Tree H} (ht : t ∈ f) :
    f.root? t.method = some t.root := by
  induction f with
  | nil => cases ht
  | cons u f ih =>
      rw [List.map_cons, List.nodup_cons] at hnodup
      rw [root?_cons]
      rcases List.mem_cons.1 ht with rfl | ht
      · rw [if_pos rfl]
      · rw [if_neg, ih hnodup.2 ht]
        intro hsame
        exact hnodup.1 (hsame ▸ List.mem_map_of_mem ht)

theorem mem_of_root? {root : Node (List H)} (h : f.root? method = some root) :
    ⟨method, root⟩ ∈ f := by
  obtain ⟨t, ht, rfl⟩ := Option.map_eq_some_iff.1 h
  have hmethod := List.find?_some ht
  simp only [beq_iff_eq] at hmethod
  rw [← hmethod]
  exact List.mem_of_find?_eq_some ht

theorem methods_touch (f : Forest H) (method : String) :
    (f.touch method).map (·.method) =
      if method ∈ f.map (·.method) then f.map (·.method) else f.map (·.method) ++ [method] := by
  rw [touch]
  split
  · next h => rw [if_pos (root?_isSome.1 h)]
  · next h => rw [if_neg (mt root?_isSome.2 h), List.map_append]; rfl

theorem methods_setRoot (method : String) (root : Node (List H)) (f : Forest H) :
    (f.setRoot method root).map (·.method) = f.map (·.method) := by
  induction f with
  | nil => rfl
  | cons t f ih =>
      rw [setRoot]
      split
      · rfl
      · rw [List.map_cons, List.map_cons, ih]

theorem methods_insert (f : Forest H) (method route : String) (chain : List H) :
    (f.insert method route chain).1.map (·.method) =
      if method ∈ f.map (·.method) then f.map (·.method) else f.map (·.method) ++ [method] := by
  rw [insert]
  dsimp only
  rw [methods_setRoot, methods_touch]

theorem mem_serving (hnodup : (f.map (·.method)).Nodup) (path : String) :
    method ∈ f.serving path ↔ ∃ root, f.root? method = some root ∧ root.hits (utf8 path) = true := by
  rw [serving, List.mem_map]
  constructor
  · rintro ⟨t, ht, rfl⟩
    obtain ⟨hmem, hhits⟩ := List.mem_filter.1 ht
    exact ⟨t.root, root?_of_mem hnodup hmem, hhits⟩
  · rintro ⟨root, hroot, hhits⟩
    exact ⟨⟨method, root⟩, List.mem_filter.2 ⟨mem_of_root? hroot, hhits⟩, rfl⟩

theorem serving_sublist (f : Forest H) (path : String) :
    (f.serving path).Sublist (f.map (·.method)) :=
  List.Sublist.map _ List.filter_sublist

end Forest

namespace Router

variable {H : Type} {r : Router H} {method path : String}

/-- A registration adds its method behind the others where it is new, and no other method. -/
theorem methods_add (r : Router H) (method path : String) (chain : List H) (group : Option String) :
    (r.add method path chain group).router.methods = r.methods ∨
      (method ∉ r.methods ∧
        (r.add method path chain group).router.methods = r.methods ++ [method]) := by
  have hinsert : (r.trees.insert method path chain).1.map (·.method) = r.methods ∨
      (method ∉ r.methods ∧
        (r.trees.insert method path chain).1.map (·.method) = r.methods ++ [method]) := by
    rw [Forest.methods_insert]
    split
    · exact .inl rfl
    · next hnew => exact .inr ⟨hnew, rfl⟩
  have hadded := added r method path chain group
  generalize r.add method path chain group = done at hadded ⊢
  cases hadded with
  | refused => exact .inl rfl
  | rejected => exact hinsert
  | placed => exact hinsert

theorem add_nodup (h : r.methods.Nodup) (method path : String) (chain : List H)
    (group : Option String) : (r.add method path chain group).router.methods.Nodup := by
  rcases methods_add r method path chain group with hsame | ⟨hnew, hmore⟩
  · rw [hsame]
    exact h
  · rw [hmore, List.nodup_append]
    refine ⟨h, List.nodup_singleton method, fun m hm m' hm' heq => hnew ?_⟩
    rwa [← List.mem_singleton.1 hm', ← heq]

theorem Reachable.methods_nodup (h : Reachable r) : r.methods.Nodup := by
  induction h with
  | new => exact List.nodup_nil
  | configure _ _ ih => exact ih
  | use _ _ ih => exact ih
  | add _ method path chain group ih => exact add_nodup ih method path chain group

/-- Some record of a method matches a path. -/
def Serves (r : Router H) (method path : String) : Prop :=
  ∃ info ∈ r.routes, info.method = method ∧ Matches (ofRoute info.path) (utf8 path)

instance (r : Router H) (method path : String) : Decidable (r.Serves method path) :=
  inferInstanceAs (Decidable (∃ info ∈ r.routes, _))

theorem serves_iff : r.Serves method path ↔
    ∃ route ∈ r.routesOf method, Matches (ofRoute route) (utf8 path) := by
  constructor
  · rintro ⟨info, hinfo, hmethod, hmatches⟩
    refine ⟨info.path, List.mem_map_of_mem ?_, hmatches⟩
    rw [List.mem_filter]
    exact ⟨hinfo, by simpa using hmethod⟩
  · rintro ⟨route, hroute, hmatches⟩
    obtain ⟨info, hinfo, rfl⟩ := List.mem_map.1 hroute
    rw [List.mem_filter] at hinfo
    exact ⟨info, hinfo.1, by simpa using hinfo.2, hmatches⟩

theorem Reachable.routesOf_nil (h : Reachable r) (hnone : r.trees.root? method = none) :
    r.routesOf method = [] := by
  obtain ⟨routes, hbuilt, hroutes⟩ := h.tree method
  rw [hnone, Option.getD_none] at hbuilt
  have hlength : 0 = routes.length := hbuilt.tracks.priority
  rw [List.eq_nil_of_length_eq_zero hlength.symm, List.map_nil] at hroutes
  exact List.reverse_eq_nil_iff.1 hroutes.symm

theorem Reachable.serves_root (h : Reachable r) {root : Node (List H)}
    (hroot : r.trees.root? method = some root) :
    ∃ routes, Node.Tracks root routes ∧
      (r.Serves method path ↔ ∃ route ∈ routes, Matches (ofRoute route.1) (utf8 path)) := by
  obtain ⟨routes, hbuilt, hroutes⟩ := h.root hroot
  refine ⟨routes, hbuilt.tracks, ?_⟩
  rw [serves_iff]
  constructor
  · rintro ⟨route, hroute, hmatches⟩
    obtain ⟨chain, hchain⟩ := (hroutes route).2 hroute
    exact ⟨_, hchain, hmatches⟩
  · rintro ⟨route, hroute, hmatches⟩
    exact ⟨route.1, (hroutes route.1).1 ⟨route.2, hroute⟩, hmatches⟩

theorem Reachable.root_of_serves (h : Reachable r) (hserves : r.Serves method path) :
    ∃ root, r.trees.root? method = some root := by
  refine Option.ne_none_iff_exists'.1 fun hnone => ?_
  obtain ⟨route, hroute, -⟩ := serves_iff.1 hserves
  rw [h.routesOf_nil hnone] at hroute
  cases hroute

theorem Reachable.mem_methodsFor (h : Reachable r) :
    method ∈ r.methodsFor path ↔ r.Serves method path := by
  rw [methodsFor, Forest.mem_serving h.methods_nodup]
  constructor
  · rintro ⟨root, hroot, hhits⟩
    obtain ⟨routes, htracks, hserves⟩ := h.serves_root hroot
    exact hserves.2 (htracks.hits hhits)
  · intro hserves
    obtain ⟨root, hroot⟩ := h.root_of_serves hserves
    obtain ⟨routes, htracks, hiff⟩ := h.serves_root hroot
    obtain ⟨route, hr, hmatches⟩ := hiff.1 hserves
    exact ⟨root, hroot, htracks.hits_of_matches hr hmatches⟩

theorem Reachable.methodsFor_nodup (h : Reachable r) : (r.methodsFor path).Nodup :=
  h.methods_nodup.sublist (Forest.serving_sublist r.trees path)

end Router

end HttpRouting

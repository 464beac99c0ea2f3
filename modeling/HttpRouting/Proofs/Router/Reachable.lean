import HttpRouting.Proofs.Tree.Built
import HttpRouting.Router.Register

namespace HttpRouting

namespace Forest

variable {H : Type}

theorem root?_cons (t : Tree H) (f : Forest H) (m : String) :
    root? (t :: f) m = if t.method = m then some t.root else f.root? m := by
  by_cases h : t.method = m <;> simp [root?, h]

theorem root?_append (f : Forest H) (t : Tree H) (m : String) :
    root? (f ++ [t]) m = (f.root? m).or (if t.method = m then some t.root else none) := by
  induction f with
  | nil =>
      rw [List.nil_append, root?_cons]
      rfl
  | cons u f ih =>
      rw [List.cons_append, root?_cons, root?_cons, ih]
      split <;> rfl

theorem root?_touch (f : Forest H) (method m : String) :
    (f.touch method).root? m =
      if m = method then some ((f.root? method).getD .emptyRoot) else f.root? m := by
  by_cases hsome : (f.root? method).isSome = true
  · rw [touch, if_pos hsome]
    obtain ⟨root, hroot⟩ := Option.isSome_iff_exists.1 hsome
    split
    · next hm => rw [hm, hroot, Option.getD_some]
    · rfl
  · have hnone : f.root? method = none := by simpa using hsome
    rw [touch, if_neg hsome, root?_append]
    by_cases hm : m = method
    · rw [hm, hnone, if_pos rfl, if_pos rfl]
      rfl
    · rw [if_neg (Ne.symm hm), if_neg hm, Option.or_none]

theorem root?_setRoot (f : Forest H) (method m : String) (root : Node (List H)) :
    (f.setRoot method root).root? m =
      if m = method then (f.root? method).map fun _ => root else f.root? m := by
  induction f with
  | nil => simp [setRoot, root?]
  | cons t ts ih =>
      by_cases ht : t.method = method
      · subst ht
        rw [setRoot, if_pos rfl, root?_cons, root?_cons, root?_cons, if_pos rfl]
        by_cases hm : m = t.method
        · rw [if_pos hm.symm, if_pos hm]
          rfl
        · rw [if_neg (Ne.symm hm), if_neg hm, if_neg (Ne.symm hm)]
      · rw [setRoot, if_neg ht, root?_cons, root?_cons, root?_cons, ih, if_neg ht]
        by_cases hm : m = method
        · rw [if_pos hm, if_pos hm, if_neg (hm ▸ ht)]
        · rw [if_neg hm, if_neg hm]

theorem root?_insert (f : Forest H) (method route m : String) (chain : List H) :
    (f.insert method route chain).1.root? m =
      if m = method then
        some (((f.root? method).getD .emptyRoot).insert route chain).node
      else f.root? m := by
  rw [insert]
  dsimp only
  rw [root?_setRoot, root?_touch, root?_touch, if_pos rfl]
  split <;> rfl

end Forest

namespace Router

variable {H : Type}

/-- The tree of a method, which is empty where the method has none. -/
def treeOf (r : Router H) (method : String) : Node (List H) :=
  (r.trees.root? method).getD .emptyRoot

/-- What becomes of a registration: it is refused before the tree is asked, rejected by the tree, or
placed and recorded. -/
inductive Added (r : Router H) (method path : String) (chain : List H) (group : Option String) :
    Registration H → Prop
  | refused {e : RegisterError} (h : refusal? method path chain = some e) :
      Added r method path chain group ⟨r, .error e⟩
  | rejected {cause : RouteError} (hwell : refusal? method path chain = none)
      (h : ((r.treeOf method).insert path chain).outcome = .error cause) :
      Added r method path chain group
        ⟨{ r with trees := (r.trees.insert method path chain).1 },
          .error (.rejected method path cause)⟩
  | placed (hwell : refusal? method path chain = none)
      (h : ((r.treeOf method).insert path chain).outcome = .ok ()) :
      Added r method path chain group
        ⟨{ r with
            trees := (r.trees.insert method path chain).1
            maxParams := max r.maxParams (Pattern.paramCount path)
            maxSections := max r.maxSections (Pattern.sectionCount path)
            routes := r.routes ++ [⟨method, path, group, chain.length⟩] }, .ok ()⟩

theorem added (r : Router H) (method path : String) (chain : List H) (group : Option String) :
    Added r method path chain group (r.add method path chain group) := by
  rw [add]
  split
  · next hrefusal => exact .refused hrefusal
  next hrefusal =>
    split
    · next trees e hinsert =>
        have htrees := congrArg Prod.fst hinsert
        have herror := congrArg Prod.snd hinsert
        dsimp only at htrees
        rw [← htrees]
        exact .rejected hrefusal herror
    · next trees hinsert =>
        have htrees := congrArg Prod.fst hinsert
        have hok := congrArg Prod.snd hinsert
        dsimp only at htrees
        rw [← htrees]
        exact .placed hrefusal hok

/-- The routers that come about by registrations, whatever becomes of these. The switches may be set
at any time. -/
inductive Reachable : Router H → Prop
  | new (config : Config) : Reachable { config }
  | configure {r : Router H} (h : Reachable r) (config : Config) : Reachable { r with config }
  | use {r : Router H} (h : Reachable r) (handler : H) : Reachable (r.use handler)
  | add {r : Router H} (h : Reachable r) (method path : String) (chain : List H)
      (group : Option String) : Reachable (r.add method path chain group).router

theorem Reachable.addAll {r : Router H} (h : Reachable r) (path : String) (chain : List H)
    (group : Option String) (methods : List String) :
    Reachable (addAll path chain group methods r).router := by
  induction methods generalizing r with
  | nil => exact h
  | cons m ms ih =>
      rw [Router.addAll]
      split
      · exact ih (h.add m path chain group)
      · exact h.add m path chain group

theorem Reachable.register {r : Router H} (h : Reachable r) (method path : String)
    (handlers : List H) : Reachable (r.register method path handlers).router := h.add ..

theorem Reachable.registerFor {r : Router H} (h : Reachable r) (methods : MethodSet)
    (path : String) (handlers : List H) :
    Reachable (r.registerFor methods path handlers).router := by
  unfold Router.registerFor
  split
  · exact h
  · exact h.addAll ..

theorem Reachable.scope_register {r : Router H} (h : Reachable r) (s : Scope H)
    (method relative : String) (handlers : List H) :
    Reachable (s.register r method relative handlers).router := h.add ..

theorem Reachable.scope_registerFor {r : Router H} (h : Reachable r) (s : Scope H)
    (methods : MethodSet) (relative : String) (handlers : List H) :
    Reachable (s.registerFor r methods relative handlers).router := by
  unfold Scope.registerFor
  split
  · exact h
  · exact h.addAll ..

def routesOf (r : Router H) (method : String) : List String :=
  (r.routes.filter (·.method == method)).map (·.path)

def recordsOf (r : Router H) (method : String) : List (String × Nat) :=
  (r.routes.filter (·.method == method)).map fun info => (info.path, info.handlers)

/-- The tree of each method has grown by the routes that are recorded for the method. -/
theorem Reachable.records {r : Router H} (h : Reachable r) (method : String) :
    ∃ routes, Node.Built (r.treeOf method) routes ∧
      routes.map (fun route => (route.1, route.2.length)) = (r.recordsOf method).reverse := by
  induction h with
  | new config => exact ⟨[], .root, rfl⟩
  | configure _ _ ih => exact ih
  | use _ _ ih => exact ih
  | @add r _ m path chain group ih =>
      obtain ⟨routes, hbuilt, hroutes⟩ := ih
      have hroot := Forest.root?_insert r.trees m path method chain
      have hadded := added r m path chain group
      generalize r.add m path chain group = done at hadded ⊢
      cases hadded with
      | refused => exact ⟨routes, hbuilt, hroutes⟩
      | rejected _ herror =>
          refine ⟨routes, ?_, hroutes⟩
          rw [treeOf, hroot]
          split
          · next hm =>
              subst hm
              exact .refused hbuilt herror
          · exact hbuilt
      | placed _ hok =>
          rw [treeOf, hroot]
          by_cases hm : method = m
          · subst hm
            refine ⟨(path, chain) :: routes, ?_, ?_⟩
            · rw [if_pos rfl]
              exact .accepted hbuilt hok
            · simp [recordsOf, hroutes]
          · rw [if_neg hm]
            refine ⟨routes, hbuilt, ?_⟩
            simp [recordsOf, hroutes, Ne.symm hm]

theorem Reachable.tree {r : Router H} (h : Reachable r) (method : String) :
    ∃ routes, Node.Built ((r.trees.root? method).getD .emptyRoot) routes ∧
      routes.map Prod.fst = (r.routesOf method).reverse := by
  obtain ⟨routes, hbuilt, hroutes⟩ := h.records method
  have hpaths := congrArg (List.map Prod.fst) hroutes
  rw [List.map_map, recordsOf, ← List.map_reverse, List.map_map, List.map_reverse] at hpaths
  exact ⟨routes, hbuilt, hpaths⟩

theorem Reachable.root {r : Router H} (h : Reachable r) {method : String} {root : Node (List H)}
    (hroot : r.trees.root? method = some root) :
    ∃ routes, Node.Built root routes ∧ ∀ path, (∃ v, (path, v) ∈ routes) ↔ path ∈ r.routesOf method := by
  obtain ⟨routes, hbuilt, hroutes⟩ := h.tree method
  rw [hroot] at hbuilt
  refine ⟨routes, hbuilt, fun path => ?_⟩
  rw [← List.mem_reverse, ← hroutes]
  simp

end Router

end HttpRouting

import HttpRouting.Proofs.Pattern.Size
import HttpRouting.Proofs.Router.Methods
import HttpRouting.Proofs.Tree.Acceptance
import HttpRouting.Proofs.Tree.Representation
import Mathlib.Algebra.Ring.Nat

namespace HttpRouting

open Pattern

namespace Forest

variable {H : Type} {f : Forest H} {method : String}

def count (f : Forest H) : Nat := (f.map (·.root.priority)).sum

theorem count_cons (t : Tree H) (f : Forest H) : count (t :: f) = t.root.priority + count f := by
  rw [count, List.map_cons, List.sum_cons, count]

theorem count_touch (f : Forest H) (method : String) : (f.touch method).count = f.count := by
  rw [touch]
  split
  · rfl
  · rw [count, List.map_append, List.sum_append]
    rfl

theorem count_setRoot {old : Node (List H)} (h : f.root? method = some old) (new : Node (List H)) :
    (f.setRoot method new).count + old.priority = f.count + new.priority := by
  induction f with
  | nil => cases h
  | cons t ts ih =>
      rw [root?_cons] at h
      rw [setRoot]
      split at h
      · next hm =>
          cases h
          rw [if_pos hm, count_cons, count_cons]
          dsimp only
          omega
      · next hm =>
          have ih := ih h
          rw [if_neg hm, count_cons, count_cons]
          omega

theorem count_insert (f : Forest H) (method route : String) (chain : List H) :
    (f.insert method route chain).1.count + ((f.root? method).getD .emptyRoot).priority =
      f.count + (((f.root? method).getD .emptyRoot).insert route chain).node.priority := by
  have hroot : (f.touch method).root? method = some ((f.root? method).getD .emptyRoot) := by
    rw [root?_touch, if_pos rfl]
  rw [← count_touch f method]
  exact count_setRoot hroot _

theorem setRoot_append (h : method ∉ f.map (·.method)) (old new : Node (List H)) :
    setRoot method new (f ++ [⟨method, old⟩]) = f ++ [⟨method, new⟩] := by
  induction f with
  | nil => exact if_pos rfl
  | cons t ts ih =>
      rw [List.map_cons, List.mem_cons, not_or] at h
      rw [List.cons_append, setRoot, if_neg (Ne.symm h.1), ih h.2, List.cons_append]

theorem insert_new (h : method ∉ f.map (·.method)) (route : String) (chain : List H) :
    (f.insert method route chain).1 =
      f ++ [⟨method, (Node.emptyRoot.insert route chain).node⟩] := by
  have hnone := root?_eq_none.2 h
  rw [insert, touch, hnone]
  exact setRoot_append h ..

end Forest

namespace Router

variable {H : Type} {r : Router H}

/-- The trees, the list of routes and the counts of a router tell the same. -/
structure Consistent (r : Router H) : Prop where
  trees : r.methods.Nodup
  unique : (r.routes.map fun info => (info.method, info.path)).Nodup
  stored : ∀ method, ((r.treeOf method).stored.map fun s => (s.2.route, s.2.value.length)).Perm
    (r.recordsOf method)
  priorities : r.trees.count = r.routes.length
  maxParams : r.maxParams = (r.routes.map fun info => paramCount info.path).max?.getD 0
  maxSections : r.maxSections = (r.routes.map fun info => sectionCount info.path).max?.getD 0
  params : (∀ info ∈ r.routes, markers info.path ≤ countLimit) →
    ∀ method path unescape buffer,
      ((r.treeOf method).lookup path unescape buffer).hit?.isSome = true →
        ((r.treeOf method).lookup path unescape buffer).params.length ≤ r.maxParams

theorem Reachable.stored (h : Reachable r) (method : String) :
    ((r.treeOf method).stored.map fun s => (s.2.route, s.2.value.length)).Perm
      (r.recordsOf method) := by
  obtain ⟨routes, hbuilt, hroutes⟩ := h.records method
  have hperm := hbuilt.tracks.stored.map fun s => (s.2.route, s.2.value.length)
  rw [List.map_map] at hperm
  exact (hperm.trans (.of_eq hroutes)).trans (List.reverse_perm _)

theorem mem_recordsOf {method path : String} {length : Nat} :
    (path, length) ∈ r.recordsOf method ↔
      ∃ info ∈ r.routes, info.method = method ∧ info.path = path ∧ info.handlers = length := by
  rw [recordsOf, List.mem_map]
  constructor
  · rintro ⟨info, hinfo, heq⟩
    obtain ⟨hmem, hmethod⟩ := List.mem_filter.1 hinfo
    cases heq
    exact ⟨info, hmem, eq_of_beq hmethod, rfl, rfl⟩
  · rintro ⟨info, hmem, rfl, rfl, rfl⟩
    exact ⟨info, List.mem_filter.2 ⟨hmem, beq_self_eq_true _⟩, rfl⟩

theorem Reachable.fresh (h : Reachable r) {method path : String} {chain : List H}
    (hok : ((r.treeOf method).insert path chain).outcome = .ok ()) :
    ∀ info ∈ r.routes, info.method = method → info.path ≠ path := by
  rintro info hinfo hmethod rfl
  obtain ⟨routes, hbuilt, hroutes⟩ := h.records method
  have hrecord : (info.path, info.handlers) ∈ routes.map fun route => (route.1, route.2.length) := by
    rw [hroutes, List.mem_reverse]
    exact mem_recordsOf.2 ⟨info, hinfo, hmethod, rfl, rfl⟩
  obtain ⟨route, hroute, heq⟩ := List.mem_map.1 hrecord
  have hcheck := (Node.insert_ok hok).1
  exact (hbuilt.tracks.ok_iff hcheck chain).1 hok route hroute (.inl (congrArg Prod.fst heq))

theorem Reachable.unique (h : Reachable r) :
    (r.routes.map fun info => (info.method, info.path)).Nodup := by
  induction h with
  | new => exact List.nodup_nil
  | configure _ _ ih => exact ih
  | use _ _ ih => exact ih
  | @add r h method path chain group ih =>
      have hadded := added r method path chain group
      generalize r.add method path chain group = done at hadded ⊢
      cases hadded with
      | refused => exact ih
      | rejected => exact ih
      | placed _ hok =>
          dsimp only
          rw [List.map_append, List.nodup_append]
          refine ⟨ih, List.nodup_singleton _, fun key hkey key' hkey' heq => ?_⟩
          obtain ⟨info, hinfo, rfl⟩ := List.mem_map.1 hkey
          obtain ⟨hmethod, hpath⟩ := Prod.mk.inj (heq.trans (List.mem_singleton.1 hkey'))
          exact h.fresh hok info hinfo hmethod hpath

theorem Reachable.priorities (h : Reachable r) : r.trees.count = r.routes.length := by
  induction h with
  | new => rfl
  | configure _ _ ih => exact ih
  | use _ _ ih => exact ih
  | @add r h method path chain group ih =>
      obtain ⟨routes, hbuilt, -⟩ := h.records method
      have hbefore := hbuilt.tracks.priority
      have hcount : (r.trees.insert method path chain).1.count + (r.treeOf method).priority =
          r.trees.count + ((r.treeOf method).insert path chain).node.priority :=
        Forest.count_insert ..
      have hadded := added r method path chain group
      generalize r.add method path chain group = done at hadded ⊢
      cases hadded with
      | refused => exact ih
      | rejected _ herror =>
          have hafter := (hbuilt.tracks.refused herror).priority
          dsimp only
          omega
      | placed _ hok =>
          have hafter := (hbuilt.tracks.accepted hok).priority
          rw [List.length_cons] at hafter
          dsimp only
          rw [List.length_append, List.length_singleton]
          omega

theorem max?_concat (xs : List Nat) (x : Nat) :
    (xs ++ [x]).max?.getD 0 = max (xs.max?.getD 0) x := by
  have hfold (ys : List Nat) : ys.max?.getD 0 = ys.foldl max 0 := by
    rw [List.foldl_max, Nat.zero_max]
  rw [hfold, hfold, List.foldl_append]
  rfl

theorem Reachable.maxima (h : Reachable r) :
    r.maxParams = (r.routes.map fun info => paramCount info.path).max?.getD 0 ∧
      r.maxSections = (r.routes.map fun info => sectionCount info.path).max?.getD 0 := by
  induction h with
  | new => exact ⟨rfl, rfl⟩
  | configure _ _ ih => exact ih
  | use _ _ ih => exact ih
  | @add r h method path chain group ih =>
      have hadded := added r method path chain group
      generalize r.add method path chain group = done at hadded ⊢
      cases hadded with
      | refused => exact ih
      | rejected => exact ih
      | placed =>
          dsimp only
          rw [List.map_append, List.map_append, List.map_singleton, List.map_singleton, max?_concat,
            max?_concat, ih.1, ih.2]
          exact ⟨rfl, rfl⟩

theorem Reachable.params_length (h : Reachable r) {method path : String} {unescape : Bool}
    {buffer : Params} {hit : Node.Hit (List H)}
    (hhit : ((r.treeOf method).lookup path unescape buffer).hit? = some hit) :
    (∃ info ∈ r.routes, info.path = hit.route) ∧
      ((r.treeOf method).lookup path unescape buffer).params.length ≤ markers hit.route := by
  obtain ⟨routes, hbuilt, hroutes⟩ := h.records method
  obtain ⟨caps, hwins, hparams⟩ := hbuilt.tracks.hit hhit
  have hroute := (Node.mem_entries_of_routes.1 hwins.mem).1
  constructor
  · have hrecord : (hit.route, hit.value.length) ∈ r.recordsOf method := by
      rw [← List.mem_reverse, ← hroutes]
      exact List.mem_map_of_mem hroute
    obtain ⟨info, hinfo, -, hpath, -⟩ := mem_recordsOf.1 hrecord
    exact ⟨info, hinfo, hpath⟩
  · rw [hparams, List.length_map]
    calc caps.length = (caps.map (·.name)).length := (List.length_map _).symm
      _ = (wildcardNames (ofRoute hit.route)).length := by rw [captures_names hwins.captures]
      _ ≤ markers hit.route := wildcards_le_markers (hbuilt.tracks.checked _ hroute)

theorem Reachable.params (h : Reachable r)
    (hlimit : ∀ info ∈ r.routes, markers info.path ≤ countLimit) {method path : String}
    {unescape : Bool} {buffer : Params}
    (hsome : ((r.treeOf method).lookup path unescape buffer).hit?.isSome = true) :
    ((r.treeOf method).lookup path unescape buffer).params.length ≤ r.maxParams := by
  obtain ⟨hit, hhit⟩ := Option.isSome_iff_exists.1 hsome
  obtain ⟨⟨info, hinfo, hpath⟩, hlength⟩ := h.params_length hhit
  have hcount : paramCount info.path = markers info.path := by
    rw [paramCount_eq, Nat.min_eq_left (hlimit info hinfo)]
  rw [hpath] at hcount
  rw [h.maxima.1]
  refine Nat.le_trans hlength (List.le_max?_getD_of_mem ?_)
  rw [← hcount, ← hpath]
  exact List.mem_map_of_mem hinfo

theorem Reachable.consistent (h : Reachable r) : Consistent r where
  trees := h.methods_nodup
  unique := h.unique
  stored := h.stored
  priorities := h.priorities
  maxParams := h.maxima.1
  maxSections := h.maxima.2
  params hlimit _ _ _ _ hsome := h.params hlimit hsome

/-- What a refused registration for a method leaves alone. A new method may get an empty tree. -/
structure Spared (r s : Router H) (method : String) : Prop where
  routes : s.routes = r.routes
  maxParams : s.maxParams = r.maxParams
  maxSections : s.maxSections = r.maxSections
  others : ∀ m, m ≠ method → s.treeOf m = r.treeOf m
  stored : (s.treeOf method).stored.Perm (r.treeOf method).stored
  priority : (s.treeOf method).priority = (r.treeOf method).priority
  methods : s.methods = r.methods ∨
    (method ∉ r.methods ∧ s.trees = r.trees ++ [⟨method, .emptyRoot⟩])

theorem Reachable.spared (h : Reachable r) {method path : String} {chain : List H}
    {group : Option String} {e : RegisterError}
    (herror : (r.add method path chain group).outcome = .error e) :
    Spared r (r.add method path chain group).router method := by
  have hadded := added r method path chain group
  generalize r.add method path chain group = done at hadded herror ⊢
  cases hadded with
  | refused => exact ⟨rfl, rfl, rfl, fun _ _ => rfl, .rfl, rfl, .inl rfl⟩
  | placed => cases herror
  | @rejected cause _ hrejected =>
      obtain ⟨routes, hbuilt, -⟩ := h.records method
      have hbefore := hbuilt.tracks
      have hafter := hbefore.refused hrejected
      have htree (m : String) : Option.getD ((r.trees.insert method path chain).1.root? m) .emptyRoot =
          if m = method then ((r.treeOf method).insert path chain).node else r.treeOf m := by
        rw [Forest.root?_insert]
        split <;> rfl
      refine ⟨rfl, rfl, rfl, fun m hm => ?_, ?_, ?_, ?_⟩
      · exact (htree m).trans (if_neg hm)
      · rw [treeOf, htree, if_pos rfl]
        exact hafter.stored.trans hbefore.stored.symm
      · rw [treeOf, htree, if_pos rfl]
        exact hafter.priority.trans hbefore.priority.symm
      · by_cases hold : method ∈ r.methods
        · exact .inl ((Forest.methods_insert ..).trans (if_pos hold))
        · refine .inr ⟨hold, ?_⟩
          have hempty : r.treeOf method = .emptyRoot := by
            rw [treeOf, Forest.root?_eq_none.2 hold, Option.getD_none]
          rw [hempty] at hrejected
          dsimp only
          rw [Forest.insert_new hold, Node.insert_emptyRoot hrejected]

section Several

variable {s : Router H} {path : String} {chain : List H} {group : Option String}
  {methods : List String} {e : RegisterError}

theorem addAll_stops (herror : (addAll path chain group methods r).outcome = .error e) :
    ∃ before method after s, methods = before ++ method :: after ∧
      addAll path chain group before r = ⟨s, .ok ()⟩ ∧
      s.add method path chain group = addAll path chain group methods r := by
  induction methods generalizing r with
  | nil => cases herror
  | cons m ms ih =>
      rw [addAll] at herror ⊢
      split at herror
      · next hok =>
          obtain ⟨before, method, after, s, rfl, hbefore, hdone⟩ := ih herror
          refine ⟨m :: before, method, after, s, rfl, ?_, ?_⟩
          · rw [addAll, hok]
            exact hbefore
          · exact hdone
      · exact ⟨[], m, ms, r, rfl, rfl, rfl⟩

theorem add_routes {method : String} (hok : (r.add method path chain group).outcome = .ok ()) :
    (r.add method path chain group).router.routes =
      r.routes ++ [⟨method, path, group, chain.length⟩] := by
  have hadded := added r method path chain group
  generalize r.add method path chain group = done at hadded hok ⊢
  cases hadded with
  | refused => cases hok
  | rejected => cases hok
  | placed => rfl

theorem addAll_routes (hok : addAll path chain group methods r = ⟨s, .ok ()⟩) :
    s.routes = r.routes ++ methods.map fun m => ⟨m, path, group, chain.length⟩ := by
  induction methods generalizing r with
  | nil =>
      cases hok
      exact (List.append_nil _).symm
  | cons m ms ih =>
      rw [addAll] at hok
      split at hok
      · next hadd =>
          rw [ih hok, add_routes hadd, List.append_assoc]
          rfl
      · next hrefused =>
          rw [hok] at hrefused
          cases hrefused

theorem add_named {method : String} (hmethod : method.isEmpty = false)
    (herror : (r.add method path chain group).outcome = .error e) :
    ∃ cause, e = .rejected method path cause := by
  have hadded := added r method path chain group
  generalize r.add method path chain group = done at hadded herror
  cases hadded with
  | refused hrefusal =>
      cases herror
      rw [refusal?, if_neg (by rw [hmethod]; exact Bool.false_ne_true)] at hrefusal
      repeat' split at hrefusal
      all_goals cases hrefusal
      all_goals exact ⟨_, rfl⟩
  | rejected =>
      cases herror
      exact ⟨_, rfl⟩
  | placed => cases herror

end Several

/-- A registration of `r` for several methods that stops at `method`: those `before` it are registered,
which leads to `s`, and nothing else is. -/
structure StopsAt (r s : Router H) (path : String) (chain : List H) (group : Option String)
    (methods before : List String) (method : String) (done : Registration H) : Prop where
  split : ∃ after, methods = before ++ method :: after
  registered : addAll path chain group before r = ⟨s, .ok ()⟩
  routes : done.router.routes =
    r.routes ++ before.map fun m => ⟨m, path, group, chain.length⟩
  spared : Spared s done.router method
  named : ∃ cause, done.outcome = .error (.rejected method path cause)

/-- A registration for several methods that fails: there are none, or it stops at one of them. -/
def Fails (r : Router H) (path : String) (chain : List H) (group : Option String)
    (methods : MethodSet) (done : Registration H) : Prop :=
  (methods.isEmpty = true ∧ done.router = r) ∨
    ∃ s before method, StopsAt r s path chain group methods.names before method done

theorem names_nonempty {methods : MethodSet} {method : String} (h : method ∈ methods.names) :
    method.isEmpty = false := by
  obtain ⟨m, -, rfl⟩ := List.mem_map.1 h
  cases m <;> decide

theorem Reachable.stops (h : Reachable r) {path : String} {chain : List H} {group : Option String}
    {methods : MethodSet} {e : RegisterError}
    (herror : (Router.addAll path chain group methods.names r).outcome = .error e) :
    Fails r path chain group methods (Router.addAll path chain group methods.names r) := by
  obtain ⟨before, method, after, s, hsplit, hbefore, hdone⟩ := addAll_stops herror
  rw [← hdone] at herror ⊢
  have hs : Reachable s := by
    have hreach := h.addAll path chain group before
    rwa [hbefore] at hreach
  have hspared := hs.spared herror
  have hmethod : method ∈ methods.names := by
    rw [hsplit]
    exact List.mem_append_right _ List.mem_cons_self
  obtain ⟨cause, rfl⟩ := add_named (names_nonempty hmethod) herror
  refine .inr ⟨s, before, method, ⟨after, hsplit⟩, hbefore, ?_, hspared, cause, herror⟩
  rw [hspared.routes, addAll_routes hbefore]

theorem Reachable.fails (h : Reachable r) {path : String} {chain : List H} {group : Option String}
    {methods : MethodSet} {done : Registration H} {e e' : RegisterError}
    (hdone : done = if methods.isEmpty then ⟨r, .error e'⟩ else
      Router.addAll path chain group methods.names r)
    (herror : done.outcome = .error e) : Fails r path chain group methods done := by
  split at hdone
  · next hnone =>
      rw [hdone]
      exact .inl ⟨hnone, rfl⟩
  · rw [hdone] at herror ⊢
    exact h.stops herror

/-- After any registrations, on the router or through scopes, the records of the router agree. A single
registration adds its record, or it fails and leaves the records alone. One for several methods that
fails leaves exactly the records of the methods before the one that is refused, which its error names. -/
theorem Reachable.records_agree (h : Reachable r) :
    Consistent r ∧
    (∀ method path chain group, (r.add method path chain group).outcome = .ok () →
      (r.add method path chain group).router.routes =
        r.routes ++ [⟨method, path, group, chain.length⟩]) ∧
    (∀ method path chain group e, (r.add method path chain group).outcome = .error e →
      Spared r (r.add method path chain group).router method) ∧
    (∀ methods path handlers e, (r.registerFor methods path handlers).outcome = .error e →
      Fails r path (r.handlers ++ handlers) none methods (r.registerFor methods path handlers)) ∧
    ∀ (scope : Scope H) methods relative handlers e,
      (scope.registerFor r methods relative handlers).outcome = .error e →
        Fails r (Path.join scope.base relative) (scope.handlers ++ handlers) (some scope.base) methods
          (scope.registerFor r methods relative handlers) := by
  refine ⟨h.consistent, fun method path chain group => add_routes,
    fun method path chain group e => h.spared, ?_, ?_⟩
  · intro methods path handlers e herror
    exact h.fails (Router.registerFor.eq_1 ..) herror
  · intro scope methods relative handlers e herror
    exact h.fails (Scope.registerFor.eq_1 ..) herror

def oneNamed : Router Nat :=
  ((({} : Router Nat).register "POST" "/a/:id" [1]).router.register "GET" "/b" [2]).router

theorem reachable_oneNamed : Reachable oneNamed :=
  ((Reachable.new {}).register "POST" "/a/:id" [1]).register "GET" "/b" [2]

theorem records_agree_renamed :
    Consistent oneNamed ∧
      Fails oneNamed "/a/:key" (oneNamed.handlers ++ [3]) none (.ofList [.get, .post])
        (oneNamed.registerFor (.ofList [.get, .post]) "/a/:key" [3]) := by
  have herror : (oneNamed.registerFor (.ofList [.get, .post]) "/a/:key" [3]).outcome =
      .error (.rejected "POST" "/a/:key" (.wildcardConflict ":key" "/a/:key" ":id" "/a/:id")) := by
    decide +kernel
  obtain ⟨hconsistent, -, -, hseveral, -⟩ := reachable_oneNamed.records_agree
  exact ⟨hconsistent, hseveral (.ofList [.get, .post]) "/a/:key" [3] _ herror⟩

end Router

end HttpRouting

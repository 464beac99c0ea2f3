import HttpRouting.Proofs.Router.Methods
import HttpRouting.Proofs.Tree.Acceptance

namespace HttpRouting

open Pattern

namespace Router

variable {H : Type}

structure Item (H : Type) where
  method : String
  path : String
  chain : List H

inductive Adds : Router H → List (Item H) → Router H → Prop
  | nil (r : Router H) : Adds r [] r
  | cons {r s : Router H} {i : Item H} {items : List (Item H)}
      (hok : (r.add i.method i.path i.chain none).outcome = .ok ())
      (h : Adds (r.add i.method i.path i.chain none).router items s) : Adds r (i :: items) s

theorem adds_append {r t : Router H} {items more : List (Item H)} :
    Adds r (items ++ more) t ↔ ∃ s, Adds r items s ∧ Adds s more t := by
  induction items generalizing r with
  | nil =>
      constructor
      · intro h
        exact ⟨r, .nil r, h⟩
      · rintro ⟨s, hs, ht⟩
        cases hs
        exact ht
  | cons i items ih =>
      constructor
      · intro h
        cases h with
        | cons hok h =>
            obtain ⟨s, hs, ht⟩ := ih.1 h
            exact ⟨s, .cons hok hs, ht⟩
      · rintro ⟨s, hs, ht⟩
        cases hs with
        | cons hok hs => exact .cons hok (ih.2 ⟨s, hs, ht⟩)

section Add

variable {r : Router H} {method path : String} {chain : List H} {group : Option String}

theorem add_ok (h : (r.add method path chain group).outcome = .ok ()) :
    refusal? method path chain = none ∧
      (((r.trees.root? method).getD .emptyRoot).insert path chain).outcome = .ok () ∧
      (r.add method path chain group).router.trees = (r.trees.insert method path chain).1 := by
  have hadded := added r method path chain group
  generalize r.add method path chain group = done at hadded h ⊢
  cases hadded with
  | refused => cases h
  | rejected => cases h
  | placed hwell hinsert => exact ⟨hwell, hinsert, rfl⟩

theorem add_of_ok (hrefusal : refusal? method path chain = none)
    (hinsert : (((r.trees.root? method).getD .emptyRoot).insert path chain).outcome = .ok ()) :
    (r.add method path chain group).outcome = .ok () := by
  have hforest : (r.trees.insert method path chain).2 = .ok () := hinsert
  rw [add, hrefusal]
  dsimp only
  split
  · next heq =>
      rw [heq] at hforest
      cases hforest
  · rfl

theorem add_handlers (r : Router H) (method path : String) (chain : List H) (group : Option String) :
    (r.add method path chain group).router.handlers = r.handlers := by
  have hadded := added r method path chain group
  generalize r.add method path chain group = done at hadded ⊢
  cases hadded <;> rfl

end Add

theorem Adds.handlers {r s : Router H} {items : List (Item H)} (h : Adds r items s) :
    s.handlers = r.handlers := by
  induction h with
  | nil => rfl
  | cons _ _ ih => rw [ih, add_handlers]

theorem addAll_iff {r s : Router H} {path : String} {chain : List H} {methods : List String} :
    addAll path chain none methods r = ⟨s, .ok ()⟩ ↔
      Adds r (methods.map fun m => ⟨m, path, chain⟩) s := by
  induction methods generalizing r with
  | nil =>
      rw [addAll, List.map_nil]
      constructor
      · intro h
        cases h
        exact .nil s
      · intro h
        cases h
        rfl
  | cons m ms ih =>
      rw [addAll, List.map_cons]
      constructor
      · intro h
        split at h
        · next hok => exact .cons hok (ih.1 h)
        · next e herror =>
            rw [h] at herror
            cases herror
      · intro h
        cases h with
        | cons hok h =>
            rw [hok]
            exact ih.2 h

def routesFor (method : String) (items : List (Item H)) : List (String × List H) :=
  (items.filter (·.method == method)).map fun i => (i.path, i.chain)

/-- The trees of a router have grown by the items, the latest first, and by nothing else. -/
structure Holds (r : Router H) (items : List (Item H)) : Prop where
  tree : ∀ method,
    Node.Built ((r.trees.root? method).getD .emptyRoot) (routesFor method items)
  present : ∀ method, method ∈ r.methods ↔ ∃ i ∈ items, i.method = method
  nodup : r.methods.Nodup

/-- What a registration needs apart from the routes that are there. -/
def Item.WellFormed (i : Item H) : Prop :=
  refusal? i.method i.path i.chain = none ∧ check i.path = .ok ()

def Item.Apart (i j : Item H) : Prop :=
  i.method = j.method → ¬ Node.RoutesConflict i.path j.path

theorem Item.Apart.symm {i j : Item H} (h : i.Apart j) : j.Apart i :=
  fun hmethod hconflict => h hmethod.symm (Node.routesConflict_comm.1 hconflict)

theorem mem_routesFor {items : List (Item H)} {method path : String} {chain : List H} :
    (path, chain) ∈ routesFor method items ↔ ⟨method, path, chain⟩ ∈ items := by
  rw [routesFor, List.mem_map]
  constructor
  · rintro ⟨⟨m, p, c⟩, hi, heq⟩
    obtain ⟨hmem, hmethod⟩ := List.mem_filter.1 hi
    cases heq
    cases eq_of_beq hmethod
    exact hmem
  · intro hi
    exact ⟨_, List.mem_filter.2 ⟨hi, beq_self_eq_true method⟩, rfl⟩

theorem holds_new (config : Config) : Holds ({ config } : Router H) [] :=
  ⟨fun _ => .root, fun _ => by simp [methods], List.nodup_nil⟩

section Holds

variable {r : Router H} {items : List (Item H)}

theorem Holds.add_iff (h : Holds r items) (i : Item H) :
    (r.add i.method i.path i.chain none).outcome = .ok () ↔
      i.WellFormed ∧ ∀ j ∈ items, i.Apart j := by
  have htracks := (h.tree i.method).tracks
  have hapart : (∀ route ∈ routesFor i.method items, ¬ Node.RoutesConflict route.1 i.path) ↔
      ∀ j ∈ items, i.Apart j := by
    constructor
    · rintro hall ⟨m, p, c⟩ hj rfl hconflict
      exact hall (p, c) (mem_routesFor.2 hj) (Node.routesConflict_comm.1 hconflict)
    · rintro hall ⟨p, c⟩ hroute hconflict
      exact hall _ (mem_routesFor.1 hroute) rfl (Node.routesConflict_comm.1 hconflict)
  constructor
  · intro hok
    obtain ⟨hrefusal, hinsert, -⟩ := add_ok hok
    have hcheck := (Node.insert_ok hinsert).1
    exact ⟨⟨hrefusal, hcheck⟩, hapart.1 ((htracks.ok_iff hcheck i.chain).1 hinsert)⟩
  · rintro ⟨⟨hrefusal, hcheck⟩, hall⟩
    exact add_of_ok hrefusal ((htracks.ok_iff hcheck i.chain).2 (hapart.2 hall))

theorem Holds.add (h : Holds r items) {i : Item H}
    (hok : (r.add i.method i.path i.chain none).outcome = .ok ()) :
    Holds (r.add i.method i.path i.chain none).router (i :: items) := by
  obtain ⟨-, hinsert, htrees⟩ := add_ok hok
  have hmethods := Forest.methods_insert r.trees i.method i.path i.chain
  rw [← htrees] at hmethods
  refine ⟨fun method => ?_, fun method => ?_, ?_⟩
  · rw [htrees, Forest.root?_insert]
    by_cases hm : method = i.method
    · subst hm
      rw [if_pos rfl, routesFor, List.filter_cons_of_pos (by simp)]
      exact .accepted (h.tree i.method) hinsert
    · rw [if_neg hm, routesFor, List.filter_cons_of_neg (by simpa using Ne.symm hm)]
      exact h.tree method
  · rw [methods, hmethods, List.exists_mem_cons_iff, ← h.present method, methods]
    split
    · next hold =>
        rw [or_iff_right_of_imp]
        rintro rfl
        exact hold
    · rw [List.mem_append, List.mem_singleton, or_comm, eq_comm]
  · exact add_nodup h.nodup ..

theorem Holds.adds {s : Router H} {more : List (Item H)} (h : Holds r items) (hadds : Adds r more s) :
    Holds s (more.reverse ++ items) := by
  induction hadds generalizing items with
  | nil => exact h
  | cons hok _ ih =>
      rw [List.reverse_cons, List.append_assoc]
      exact ih (h.add hok)

/-- Whether a run of registrations succeeds is a matter of the single items and of pairs of them. -/
theorem Holds.adds_iff (h : Holds r items) (more : List (Item H)) :
    (∃ s, Adds r more s) ↔
      (∀ i ∈ more, i.WellFormed ∧ ∀ j ∈ items, i.Apart j) ∧ more.Pairwise Item.Apart := by
  induction more generalizing r items with
  | nil => exact ⟨fun _ => ⟨nofun, .nil⟩, fun _ => ⟨r, .nil r⟩⟩
  | cons i more ih =>
      rw [List.forall_mem_cons, List.pairwise_cons, ← h.add_iff]
      constructor
      · rintro ⟨s, hadds⟩
        cases hadds with
        | cons hok hadds =>
            obtain ⟨hall, hpairwise⟩ := (ih (h.add hok)).1 ⟨s, hadds⟩
            refine ⟨⟨hok, fun j hj => ⟨(hall j hj).1, fun k hk => ?_⟩⟩, fun j hj => ?_, hpairwise⟩
            · exact (hall j hj).2 k (List.mem_cons_of_mem i hk)
            · exact ((hall j hj).2 i List.mem_cons_self).symm
      · rintro ⟨⟨hok, hall⟩, hfirst, hpairwise⟩
        obtain ⟨s, hadds⟩ := (ih (h.add hok)).2
          ⟨fun j hj => ⟨(hall j hj).1, List.forall_mem_cons.2 ⟨(hfirst j hj).symm, (hall j hj).2⟩⟩,
            hpairwise⟩
        exact ⟨s, .cons hok hadds⟩

section Same

variable {r' : Router H} {items' : List (Item H)}

theorem Holds.root_same (h : Holds r items) (h' : Holds r' items') (hperm : items.Perm items')
    (method : String) :
    (r.trees.root? method = none ∧ r'.trees.root? method = none) ∨
      ∃ root root' routes routes', r.trees.root? method = some root ∧
        r'.trees.root? method = some root' ∧ Node.Tracks root routes ∧ Node.Tracks root' routes' ∧
        ∀ route, route ∈ routes ↔ route ∈ routes' := by
  have hpresent : method ∈ r.methods ↔ method ∈ r'.methods := by
    rw [h.present, h'.present]
    exact exists_congr fun i => and_congr_left fun _ => hperm.mem_iff
  have htree := (h.tree method).tracks
  have htree' := (h'.tree method).tracks
  cases hroot : r.trees.root? method with
  | none =>
      rw [Forest.root?_eq_none] at hroot
      exact .inl ⟨rfl, Forest.root?_eq_none.2 (mt hpresent.2 hroot)⟩
  | some root =>
      have hmem := hpresent.1 (Forest.root?_isSome.1 (by rw [hroot]; rfl))
      obtain ⟨root', hroot'⟩ := Option.isSome_iff_exists.1 (Forest.root?_isSome.2 hmem)
      rw [hroot] at htree
      rw [hroot'] at htree'
      refine .inr ⟨root, root', _, _, rfl, hroot', htree, htree', fun route => ?_⟩
      exact mem_routesFor.trans (hperm.mem_iff.trans mem_routesFor.symm)

theorem Holds.lookup_same (h : Holds r items) (h' : Holds r' items') (hperm : items.Perm items')
    (method path : String) (unescape : Bool) :
    r.lookup method path unescape = r'.lookup method path unescape := by
  rw [lookup, lookup]
  rcases h.root_same h' hperm method with ⟨hroot, hroot'⟩ |
    ⟨root, root', routes, routes', hroot, hroot', htracks, htracks', hsame⟩
  · rw [hroot, hroot']
  · rw [hroot, hroot']
    exact Node.lookup_same htracks htracks' hsame path unescape [] []

theorem Holds.methodsFor_perm (h : Holds r items) (h' : Holds r' items') (hperm : items.Perm items')
    (path : String) : (r.methodsFor path).Perm (r'.methodsFor path) := by
  have hserving {s s' : Router H} {is is' : List (Item H)} (h : Holds s is) (h' : Holds s' is')
      (hperm : is.Perm is') (method : String) (hm : method ∈ s.methodsFor path) :
      method ∈ s'.methodsFor path := by
    rw [methodsFor, Forest.mem_serving h.nodup] at hm
    rw [methodsFor, Forest.mem_serving h'.nodup]
    obtain ⟨root, hroot, hhits⟩ := hm
    rcases h.root_same h' hperm method with ⟨hnone, -⟩ |
      ⟨root₁, root', routes, routes', hroot₁, hroot', htracks, htracks', hsame⟩
    · rw [hroot] at hnone
      cases hnone
    · cases hroot.symm.trans hroot₁
      obtain ⟨route, hroute, hmatches⟩ := htracks.hits hhits
      exact ⟨root', hroot', htracks'.hits_of_matches ((hsame route).1 hroute) hmatches⟩
  have hnodup := h.nodup.sublist (Forest.serving_sublist r.trees path)
  have hnodup' := h'.nodup.sublist (Forest.serving_sublist r'.trees path)
  exact (List.perm_ext_iff_of_nodup hnodup hnodup').2 fun method =>
    ⟨hserving h h' hperm method, hserving h' h hperm.symm method⟩

end Same

end Holds

end Router

end HttpRouting

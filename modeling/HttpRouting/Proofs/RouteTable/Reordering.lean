import HttpRouting.Proofs.RouteTable.MethodNames
import HttpRouting.Proofs.Router.Batch

namespace HttpRouting

open Router (Adds Item)

namespace RouteEntry

/-- The registrations that a route of a table stands for, one for each of its methods. -/
def items (entry : RouteEntry) : List (Item Json) :=
  match entry.methodSet with
  | .ok methods => methods.names.map fun m => ⟨m, entry.path, [entry.metadata]⟩
  | .error _ => []

def Known (entry : RouteEntry) : Prop :=
  ∃ methods, entry.methodSet = .ok methods ∧ methods.isEmpty = false

/-- The same route, with the names of its methods in any order and any ASCII case. -/
structure Same (entry entry' : RouteEntry) : Prop where
  path : entry.path = entry'.path
  metadata : entry.metadata = entry'.metadata
  methods : SameNames entry.methods entry'.methods

section Same

variable {entry entry' : RouteEntry}

theorem Same.known (h : entry.Same entry') (hknown : entry.Known) : entry'.Known := by
  obtain ⟨methods, hmethods, hempty⟩ := hknown
  exact ⟨methods, methodSet_same h.methods hmethods, hempty⟩

theorem Same.items (h : entry.Same entry') (hknown : entry.Known) : entry.items = entry'.items := by
  obtain ⟨methods, hmethods, -⟩ := hknown
  rw [RouteEntry.items, RouteEntry.items, hmethods, methodSet_same h.methods hmethods, h.path,
    h.metadata]

end Same

end RouteEntry

namespace RouteTable

def SameRoutes (routes routes' : List RouteEntry) : Prop :=
  ∃ between, routes.Perm between ∧ List.Forall₂ RouteEntry.Same between routes'

theorem buildFrom_iff {r s : Router Json} (hr : r.handlers = []) {index : Nat}
    {entries : List RouteEntry} :
    buildFrom r index entries = .ok s ↔
      (∀ entry ∈ entries, entry.Known) ∧ Adds r (entries.flatMap RouteEntry.items) s := by
  induction entries generalizing r index with
  | nil =>
      rw [buildFrom]
      constructor
      · intro h
        cases h
        exact ⟨nofun, .nil s⟩
      · rintro ⟨-, h⟩
        cases h
        rfl
  | cons entry entries ih =>
      rw [buildFrom, List.forall_mem_cons, List.flatMap_cons, Router.adds_append, RouteEntry.Known,
        RouteEntry.items]
      cases hmethods : entry.methodSet with
      | error name => simp
      | ok methods =>
          dsimp only
          rw [Router.registerFor, hr, List.nil_append]
          cases hempty : methods.isEmpty with
          | true => simp [hempty]
          | false =>
              constructor
              · intro h
                split at h
                · next t ht =>
                    have hadds := Router.addAll_iff.1 ht
                    obtain ⟨hknown, hrest⟩ := (ih (hadds.handlers.trans hr)).1 h
                    exact ⟨⟨⟨methods, rfl, hempty⟩, hknown⟩, t, hadds, hrest⟩
                · cases h
              · rintro ⟨⟨-, hknown⟩, t, hadds, hrest⟩
                rw [if_neg Bool.false_ne_true, Router.addAll_iff.2 hadds]
                exact (ih (hadds.handlers.trans hr)).2 ⟨hknown, hrest⟩

def items (t : RouteTable) : List (Item Json) := t.routes.flatMap RouteEntry.items

theorem build_iff {t : RouteTable} {r : Router Json} :
    t.build = .ok r ↔
      (∀ entry ∈ t.routes, entry.Known) ∧ Adds { config := t.config } t.items r :=
  buildFrom_iff rfl

theorem forall₂_same {entries entries' : List RouteEntry}
    (h : List.Forall₂ RouteEntry.Same entries entries') (hknown : ∀ entry ∈ entries, entry.Known) :
    (∀ entry ∈ entries', entry.Known) ∧
      entries.flatMap RouteEntry.items = entries'.flatMap RouteEntry.items := by
  induction h with
  | nil => exact ⟨nofun, rfl⟩
  | cons h _ ih =>
      rw [List.forall_mem_cons] at hknown
      obtain ⟨hrest, hitems⟩ := ih hknown.2
      rw [List.forall_mem_cons, List.flatMap_cons, List.flatMap_cons, h.items hknown.1, hitems]
      exact ⟨⟨h.known hknown.1, hrest⟩, rfl⟩

theorem SameRoutes.items_perm {routes routes' : List RouteEntry} (h : SameRoutes routes routes')
    (hknown : ∀ entry ∈ routes, entry.Known) :
    (∀ entry ∈ routes', entry.Known) ∧
      (routes.flatMap RouteEntry.items).Perm (routes'.flatMap RouteEntry.items) := by
  obtain ⟨between, hperm, hsame⟩ := h
  obtain ⟨hknown', hitems⟩ := forall₂_same hsame fun entry hentry =>
    hknown entry (hperm.mem_iff.2 hentry)
  rw [← hitems]
  exact ⟨hknown', hperm.flatMap_right _⟩

/-- The order of the routes of a table, and how their methods are named, does not matter. -/
theorem build_reordered {t t' : RouteTable} (h : SameRoutes t.routes t'.routes) {r : Router Json}
    (hbuild : t.build = .ok r) :
    ∃ r', t'.build = .ok r' ∧ ∀ path,
      (∀ method unescape, r.lookup method path unescape = r'.lookup method path unescape) ∧
        (r.methodsFor path).Perm (r'.methodsFor path) := by
  obtain ⟨hknown, hadds⟩ := build_iff.1 hbuild
  obtain ⟨hknown', hperm⟩ : _ ∧ t.items.Perm t'.items := h.items_perm hknown
  have hnew (config : Config) := Router.holds_new (H := Json) config
  have hrun' : ∃ r', Adds { config := t'.config } t'.items r' := by
    obtain ⟨hformed, hapart⟩ := ((hnew t.config).adds_iff t.items).1 ⟨r, hadds⟩
    refine ((hnew t'.config).adds_iff t'.items).2 ⟨fun i hi => ?_, ?_⟩
    · exact hformed i (hperm.mem_iff.2 hi)
    · exact (hperm.pairwise_iff Item.Apart.symm).1 hapart
  obtain ⟨r', hadds'⟩ := hrun'
  have hholds := (hnew t.config).adds hadds
  have hholds' := (hnew t'.config).adds hadds'
  have hitems : (t.items.reverse ++ []).Perm (t'.items.reverse ++ []) := by
    rw [List.append_nil, List.append_nil]
    exact (t.items.reverse_perm.trans hperm).trans t'.items.reverse_perm.symm
  refine ⟨r', build_iff.2 ⟨hknown', hadds'⟩, fun path => ⟨fun method unescape => ?_, ?_⟩⟩
  · exact hholds.lookup_same hholds' hitems method path unescape
  · exact hholds.methodsFor_perm hholds' hitems path

def pets : RouteTable where
  routes :=
    [{ methods := ["GET", "put"], path := "/pets/:id", metadata := .bool true },
      { methods := ["Get"], path := "/pets/:id/*rest" },
      { path := "/pets" }]

def petsReordered : RouteTable where
  routes :=
    [{ path := "/pets" },
      { methods := ["PUT", "get", "Put"], path := "/pets/:id", metadata := .bool true },
      { methods := ["GET", "GET"], path := "/pets/:id/*rest" }]

theorem sameNames_getPut : SameNames ["GET", "put"] ["PUT", "get", "Put"] := by
  have hnames : ["GET", "put"].map String.toUpper = ["GET", "PUT"] := by decide +kernel
  have hnames' : ["PUT", "get", "Put"].map String.toUpper = ["PUT", "GET", "PUT"] := by decide +kernel
  intro name
  rw [hnames, hnames']
  simp only [List.mem_cons, List.not_mem_nil, or_false]
  tauto

theorem sameNames_get : SameNames ["Get"] ["GET", "GET"] := by
  have hnames : ["Get"].map String.toUpper = ["GET"] := by decide +kernel
  have hnames' : ["GET", "GET"].map String.toUpper = ["GET", "GET"] := by decide +kernel
  intro name
  rw [hnames, hnames']
  simp

theorem sameRoutes_pets : SameRoutes pets.routes petsReordered.routes := by
  refine ⟨_, @List.perm_append_comm _ (pets.routes.take 2) (pets.routes.drop 2), ?_⟩
  exact .cons ⟨rfl, rfl, fun _ => Iff.rfl⟩
    (.cons ⟨rfl, rfl, sameNames_getPut⟩ (.cons ⟨rfl, rfl, sameNames_get⟩ .nil))

theorem build_reordered_pets :
    SameRoutes pets.routes petsReordered.routes ∧ ∃ r, pets.build = .ok r ∧
      ∃ r', petsReordered.build = .ok r' ∧ ∀ path,
        (∀ method unescape, r.lookup method path unescape = r'.lookup method path unescape) ∧
          (r.methodsFor path).Perm (r'.methodsFor path) := by
  have hbuilds : pets.build.toOption.isSome = true := by decide +kernel
  refine ⟨sameRoutes_pets, ?_⟩
  cases hbuild : pets.build with
  | error e =>
      rw [hbuild] at hbuilds
      cases hbuilds
  | ok r => exact ⟨r, rfl, build_reordered sameRoutes_pets hbuild⟩

end RouteTable

end HttpRouting

import HttpRouting.Proofs.Router.Methods
import HttpRouting.Proofs.Router.Redirect

namespace HttpRouting

open Pattern

namespace Router

variable {H : Type} {r : Router H} {method path : String} {allowed : List String}

def Finds (r : Router H) (method path : String) : Prop :=
  ∃ handlers params route, r.answer method path = .found handlers params route

theorem answerOthers_cases (r : Router H) (method path : String) :
    (r.answerOthers method path = .options (r.methodsFor path) ∧ method = "OPTIONS" ∧
        r.methodsFor path ≠ []) ∨
      (r.answerOthers method path =
          .methodNotAllowed ((r.methodsFor path).filter (· ≠ method)) ∧ method ≠ "OPTIONS" ∧
        (r.methodsFor path).filter (· ≠ method) ≠ []) ∨
      (r.answerOthers method path = .notFound ∧ (r.config.handleMethodNotAllowed = true →
        ∀ m ∈ r.methodsFor path, m = method)) := by
  rw [answerOthers]
  split
  · next hoff => exact .inr (.inr ⟨rfl, fun hon => by simp [hon] at hoff⟩)
  dsimp only
  split
  · next hoptions => exact .inl ⟨rfl, hoptions⟩
  next hoptions =>
    split
    · next hothers =>
        refine .inr (.inl ⟨rfl, fun hmethod => hothers ?_, hothers⟩)
        have hnone : r.methodsFor path = [] := by simpa [hmethod] using hoptions
        rw [hnone, List.filter_nil]
    · next hothers =>
        refine .inr (.inr ⟨rfl, fun _ m hm => ?_⟩)
        rw [Decidable.not_not, List.filter_eq_nil_iff] at hothers
        simpa using hothers m hm

theorem Finds.not_others (h : r.Finds method path) :
    r.answer method path ≠ r.answerOthers method path := by
  obtain ⟨handlers, params, route, hfound⟩ := h
  intro hothers
  rw [hfound] at hothers
  rcases answerOthers_cases r method path with ⟨h, -⟩ | ⟨h, -⟩ | ⟨h, -⟩ <;>
  · rw [h] at hothers
    cases hothers

theorem answer_cases (r : Router H) (method path : String) :
    (∃ root hit, r.trees.root? method = some root ∧
        (root.lookup path r.config.unescapePathValues).hit? = some hit ∧ r.Finds method path) ∨
      (∃ location, r.answer method path = .redirect location) ∨
      r.answer method path = r.answerOthers method path := by
  rw [Finds, answer]
  split
  · exact .inr (.inr rfl)
  next root hroot =>
    dsimp only
    split
    · next hit hhit => exact .inl ⟨root, hit, hroot, hhit, _, _, _, rfl⟩
    · split
      · exact .inr (.inl ⟨_, rfl⟩)
      · exact .inr (.inr rfl)

theorem Reachable.finds_iff (h : Reachable r) : r.Finds method path ↔ r.Serves method path := by
  constructor
  · intro hfinds
    rcases answer_cases r method path with ⟨root, hit, hroot, hhit, -⟩ | ⟨location, hredirect⟩ | hothers
    · obtain ⟨routes, hbuilt, hroutes⟩ := h.root hroot
      obtain ⟨caps, hwins, -⟩ := hbuilt.tracks.hit hhit
      have hmem := (Node.mem_entries_of_routes.1 hwins.mem).1
      have hroute := (hroutes _).1 ⟨_, hmem⟩
      exact serves_iff.2 ⟨_, hroute, Node.matches_of_captures hwins.captures⟩
    · obtain ⟨handlers, params, route, hfound⟩ := hfinds
      rw [hfound] at hredirect
      cases hredirect
    · exact absurd hothers hfinds.not_others
  · intro hserves
    obtain ⟨root, hroot⟩ := h.root_of_serves hserves
    obtain ⟨routes, htracks, hiff⟩ := h.serves_root hroot
    exact answer_found hroot htracks (hiff.1 hserves)

theorem Reachable.not_serves (h : Reachable r)
    (hothers : r.answer method path = r.answerOthers method path) : ¬ r.Serves method path :=
  fun hserves => (h.finds_iff.2 hserves).not_others hothers

/-- The methods that an answer names. -/
structure Names (r : Router H) (method path : String) (allowed : List String) : Prop where
  nonempty : allowed ≠ []
  nodup : allowed.Nodup
  ordered : allowed.Sublist r.methods
  mem_iff : ∀ m, m ∈ allowed ↔ m ≠ method ∧ r.Serves m path
  found : ∀ m ∈ allowed, r.Finds m path

theorem Reachable.names (h : Reachable r) (hne : allowed ≠ [])
    (hsub : allowed.Sublist (r.methodsFor path))
    (hmem : ∀ m, m ∈ allowed ↔ m ≠ method ∧ r.Serves m path) : Names r method path allowed where
  nonempty := hne
  nodup := h.methodsFor_nodup.sublist hsub
  ordered := hsub.trans (Forest.serving_sublist r.trees path)
  mem_iff := hmem
  found m hm := h.finds_iff.2 ((hmem m).1 hm).2

/-- A path is found exactly where a record of the method matches it. The methods that an answer names
are the others with such a record, in the order in which their trees came, and none is left where nothing
is found. -/
theorem Reachable.answer_agrees (h : Reachable r) (method path : String) :
    (r.Finds method path ↔ r.Serves method path) ∧
    (∀ allowed, r.answer method path = .methodNotAllowed allowed →
      method ≠ "OPTIONS" ∧ Names r method path allowed) ∧
    (∀ allowed, r.answer method path = .options allowed →
      method = "OPTIONS" ∧ Names r method path allowed) ∧
    (r.config.handleMethodNotAllowed = true → r.answer method path = .notFound →
      ∀ m, ¬ r.Serves m path) ∧
    ∀ m route chain group, (r.add m route chain group).router.methods = r.methods ∨
      (m ∉ r.methods ∧ (r.add m route chain group).router.methods = r.methods ++ [m]) := by
  have hothers {a : Answer H} (ha : r.answer method path = a) (hfound : ∀ hs ps q, a ≠ .found hs ps q)
      (hredirect : ∀ location, a ≠ .redirect location) :
      r.answerOthers method path = a ∧ ¬ r.Serves method path := by
    rcases answer_cases r method path with ⟨-, -, -, -, hs, ps, q, hfinds⟩ | ⟨location, hloc⟩ | heq
    · exact absurd (ha.symm.trans hfinds) (hfound hs ps q)
    · exact absurd (ha.symm.trans hloc) (hredirect location)
    · exact ⟨heq.symm.trans ha, h.not_serves heq⟩
  refine ⟨h.finds_iff, fun allowed ha => ?_, fun allowed ha => ?_, fun hon ha m hserves => ?_,
    fun m route chain group => methods_add r m route chain group⟩
  · obtain ⟨hanswer, -⟩ := hothers ha nofun nofun
    rcases answerOthers_cases r method path with ⟨heq, -⟩ | ⟨heq, hmethod, hne⟩ | ⟨heq, -⟩
    · cases heq.symm.trans hanswer
    · cases heq.symm.trans hanswer
      refine ⟨hmethod, h.names hne List.filter_sublist fun m => ?_⟩
      rw [List.mem_filter, h.mem_methodsFor, and_comm, decide_eq_true_eq]
    · cases heq.symm.trans hanswer
  · obtain ⟨hanswer, hmiss⟩ := hothers ha nofun nofun
    rcases answerOthers_cases r method path with ⟨heq, hmethod, hne⟩ | ⟨heq, -⟩ | ⟨heq, -⟩
    · cases heq.symm.trans hanswer
      refine ⟨hmethod, h.names hne (List.Sublist.refl _) fun m => ?_⟩
      rw [h.mem_methodsFor, iff_and_self]
      rintro hserves rfl
      exact hmiss hserves
    · cases heq.symm.trans hanswer
    · cases heq.symm.trans hanswer
  · obtain ⟨hanswer, hmiss⟩ := hothers ha nofun nofun
    rcases answerOthers_cases r method path with ⟨heq, -⟩ | ⟨heq, -⟩ | ⟨-, hnone⟩
    · cases heq.symm.trans hanswer
    · cases heq.symm.trans hanswer
    · rw [hnone hon m (h.mem_methodsFor.2 hserves)] at hserves
      exact hmiss hserves

def twoMethods : Router Nat :=
  let r := (({} : Router Nat).register "POST" "/a/:id" [1]).router
  ((r.register "PUT" "/a/*" [2]).router.register "GET" "/:x/7" [3]).router

theorem reachable_twoMethods : Reachable twoMethods :=
  (((Reachable.new {}).register "POST" "/a/:id" [1]).register "PUT" "/a/*" [2]).register
    "GET" "/:x/7" [3]

theorem answer_agrees_delete :
    twoMethods.answer "DELETE" "/a/7" = .methodNotAllowed ["POST", "GET"] ∧
      "DELETE" ≠ "OPTIONS" ∧ Names twoMethods "DELETE" "/a/7" ["POST", "GET"] := by
  have hanswer : twoMethods.answer "DELETE" "/a/7" = .methodNotAllowed ["POST", "GET"] := by
    decide +kernel
  exact ⟨hanswer, (reachable_twoMethods.answer_agrees "DELETE" "/a/7").2.1 _ hanswer⟩

end Router

end HttpRouting

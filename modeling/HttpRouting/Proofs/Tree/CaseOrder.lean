import HttpRouting.Proofs.Tree.PatternSearch

namespace HttpRouting.Node

open Bytes Pattern Utf8

variable {α β : Type} {fix : Bool} {n : Node α} {m : Node β} {routes : List (String × α)}
  {routes' : List (String × β)} {path : Bytes}

/-- The trees grown from an empty one by insertions of routes that begin with a slash, with the routes
accepted on the way. -/
inductive Rooted : Node α → List (String × α) → Prop
  | empty : Rooted Node.empty []
  | root : Rooted Node.emptyRoot []
  | accepted {n : Node α} {routes : List (String × α)} (h : Rooted n routes) {route : String} {v : α}
      (hslash : (utf8 route).head? = some slash) (hok : (n.insert route v).outcome = .ok ()) :
      Rooted (n.insert route v).node ((route, v) :: routes)
  | refused {n : Node α} {routes : List (String × α)} (h : Rooted n routes) {route : String} {v : α}
      {e : RouteError} (hslash : (utf8 route).head? = some slash)
      (herror : (n.insert route v).outcome = .error e) : Rooted (n.insert route v).node routes

section Rooted

theorem Rooted.built (h : Rooted n routes) : Built n routes := by
  induction h with
  | empty => exact .empty
  | root => exact .root
  | accepted _ _ hok ih => exact ih.accepted hok
  | refused _ _ herror ih => exact ih.refused herror

theorem Rooted.begins (h : Rooted n routes) : ∀ r ∈ routes, (utf8 r.1).head? = some slash := by
  induction h with
  | empty | root => exact nofun
  | accepted _ hslash _ ih => exact List.forall_mem_cons.2 ⟨hslash, ih⟩
  | refused _ _ _ ih => exact ih

theorem Rooted.opens (h : Rooted n routes) : n.OpensWith slash := by
  intro e he
  obtain ⟨r, hr, rfl⟩ := List.mem_map.1 (h.built.tracks.entries.mem_iff.1 he)
  exact elements_slash (h.begins r hr)

theorem insertChecked_marked (h : Rooted n routes) {route : String}
    (hslash : (utf8 route).head? = some slash) (hcheck : Pattern.check route = .ok ()) (v : α)
    (hmarked : n.Sound → n.Marked) : (n.insertChecked route v).node.Marked := by
  obtain ⟨es, hes⟩ := elements_slash hslash
  have htracks := h.built.tracks
  rcases htracks.shape with hbare | hsound
  · obtain ⟨m, hinsert, hgrafts⟩ := hbare.insertChecked hcheck v
    have hgrown := hgrafts.grown hbare.raised
    rw [hinsert]
    intro hlabel
    rw [setRoot_entries (hgrown.kind ▸ hbare.kind)]
    exact hgrafts.marked hbare.raised hes hlabel
  · have hgrammar := grammar_of_check hcheck
    have henters := enters_of_kind htracks.kind (utf8 route)
    rw [hsound.insertChecked]
    exact (place_walks route v hsound hgrammar henters).marked
      (place_grows route v hsound hgrammar henters) hsound h.opens (by rw [hes]; rfl) (hmarked hsound)

theorem Rooted.marked (h : Rooted n routes) (hn : n.Sound) : n.Marked := by
  have hbare {n : Node α} (hbare : n.Bare) (hn : n.Sound) : n.Marked :=
    absurd hbare.entries hn.entries_ne_nil
  induction h with
  | empty => exact hbare ⟨.inl rfl, rfl, rfl, rfl, rfl, rfl⟩ hn
  | root => exact hbare ⟨.inr rfl, rfl, rfl, rfl, rfl, rfl⟩ hn
  | accepted h hslash hok ih =>
      obtain ⟨hcheck, hinsert⟩ := insert_ok hok
      rw [hinsert]
      exact insertChecked_marked h hslash hcheck _ ih
  | refused h hslash herror ih =>
      rcases insert_error herror with hsame | ⟨hcheck, -, hnode⟩
      · rw [hsame] at hn ⊢
        exact ih hn
      · rw [hnode, Marked, recount_label, recount_entries]
        exact insertChecked_marked h hslash hcheck _ ih

end Rooted

section Search

theorem Rooted.searchable (h : Rooted n routes) (hn : n.Sound) : n.Searchable :=
  ⟨hn, .inl h.built.tracks.kind, h.built.neat_counted.1, h.built.shared⟩

theorem IsBranch.recase_unlabelled {slots : List (UInt8 × Node α)} {wild : Option (Node α)}
    (h : n.IsBranch slots wild) (hn : n.Searchable) (hlabel : n.label = [])
    (hplain : Plain n.patternSet path) (hsteady : fix = true → Steady n.patternSet path) :
    recase fix n path [] false = .ok (Pattern.recase fix n.patternSet path) := by
  have hset : n.patternSet = n.heldSet := by rw [h.patternSet, hlabel, under_nil]
  rw [hset] at hplain hsteady ⊢
  rw [h.recase_held hn (fun c _ hc => recase_agrees hc) (by simp [fits, hlabel])
    (by simp [hlabel]) hplain hsteady fun b tail _ => .nothing (by simp)]
  simp [hlabel]

theorem recase_root (hn : n.Searchable) (hopens : n.OpensWith slash) {tail : Bytes}
    (hplain : Plain n.patternSet (slash :: tail))
    (hsteady : fix = true → Steady n.patternSet (slash :: tail)) :
    recase fix n (slash :: tail) [] false = .ok (Pattern.recase fix n.patternSet (slash :: tail)) := by
  have hfollows : Follows fix n (slash :: tail) [] false :=
    recase_agrees hn hopens sameCase_slash (.inl rfl) hplain hsteady
  rwa [Follows, if_neg fun hall => absurd hall.2.2.1 Bool.false_ne_true] at hfollows

theorem search_eq {answer : Option Bytes} {path : String}
    (h : recase fix n (utf8 path) [] false = .ok answer) :
    findCase.search n path fix = answer.bind text? := by
  rw [findCase.search, h]
  cases answer <;> rfl

theorem Rooted.patternSet (h : Rooted n routes) : n.patternSet = (registered routes).toFinset :=
  List.toFinset_eq_of_perm _ _ (patterns_perm h.built.tracks.entries)

theorem Bare.findCase (h : n.Bare) (path : String) (fix : Bool) : n.findCase path fix = none :=
  Option.eq_none_iff_forall_ne_some.2 fun _ hq => h.not_recased (findCase_some hq).1

theorem Rooted.findCase_unlabelled (h : Rooted n routes) (hn : n.Sound) (hlabel : n.label = [])
    {path : String} (hplain : Plain n.patternSet (utf8 path))
    (hsteady : fix = true → Steady n.patternSet (utf8 path)) :
    Catches (past slash n.patternSet) ∧
      n.findCase path fix = (Pattern.recase fix n.patternSet (utf8 path)).bind text? := by
  obtain ⟨slots, wild, hbranch⟩ := hn.branch h.built.tracks.kind
  constructor
  · obtain ⟨name, hit, hentries⟩ := h.marked hn hlabel
    refine catches_iff.2 ⟨name, [], mem_past.2 (mem_patternSet.2 ⟨hit, ?_⟩)⟩
    rw [hentries]
    exact List.mem_singleton_self _
  · rw [← search_eq (hbranch.recase_unlabelled (h.searchable hn) hlabel hplain hsteady)]
    exact findCase_search fun p l _ hl => by simp [hlabel] at hl

theorem Rooted.findCase_empty (h : Rooted n routes) (fix : Bool) (hn : n.Sound) {label : Bytes}
    (hlabel : n.label = slash :: label) {path : String} (hpath : utf8 path = []) :
    ¬ Catches (past slash n.patternSet) ∧ n.findCase path fix = none := by
  obtain ⟨slots, wild, hbranch⟩ := hn.branch h.built.tracks.kind
  constructor
  · rw [hbranch.patternSet, hlabel, under_cons, past_under]
    exact not_catches_under (hbranch.not_catches hn) label
  · have hrecase : recase fix n (utf8 path) [] false = .ok none := by
      rw [hpath, recase, if_neg (by simp [fits, hlabel]), closeBefore]
      simp
    rw [findCase_search fun p l hp => by simp [hpath] at hp, search_eq hrecase]
    rfl

theorem Rooted.findCase_text (h : Rooted n routes) (hn : n.Sound) {label : Bytes}
    (hlabel : n.label = slash :: label) {path : String} {p : UInt8} {tail : Bytes}
    (hpath : utf8 path = p :: tail) (hplain : Plain n.patternSet (p :: tail))
    (hsteady : fix = true → Steady n.patternSet (p :: tail)) :
    n.findCase path fix = (Pattern.recase fix n.patternSet (p :: tail)).bind text? := by
  by_cases hp : p = slash
  · subst hp
    have hrecase := recase_root (h.searchable hn) h.opens hplain hsteady
    rw [← hpath] at hrecase ⊢
    rw [← search_eq hrecase, Node.findCase, hpath, hlabel]
    exact if_pos rfl
  · have hother (hcase : SameCase p slash) : False := hp (hcase.eq_slash_iff.2 rfl)
    rw [recase_other h.opens.patternSet slash_low hother, Node.findCase, hpath, hlabel]
    exact if_neg hp

/-- The case-blind search of a tree is that of its routes. An empty path is found only where a catch-all
takes it. -/
theorem findCase_patterns (h : Rooted n routes) {path : String}
    (hplain : Plain (registered routes).toFinset (utf8 path))
    (hsteady : fix = true → Steady (registered routes).toFinset (utf8 path)) :
    n.findCase path fix =
      (if utf8 path = [] ∧ ¬ Catches (past slash (registered routes).toFinset) then none
        else Pattern.recase fix (registered routes).toFinset (utf8 path)).bind text? := by
  rw [← h.patternSet] at hplain hsteady ⊢
  have htracks := h.built.tracks
  rcases htracks.shape with hbare | hsound
  · have hempty : n.patternSet = ∅ := by rw [Node.patternSet, hbare.entries]; rfl
    rw [hbare.findCase, hempty, recase_empty, ite_self]
    rfl
  cases hlabel : n.label with
  | nil =>
      obtain ⟨hcatches, hfind⟩ := h.findCase_unlabelled hsound hlabel hplain hsteady
      rw [if_neg fun hall => hall.2 hcatches, hfind]
  | cons b label =>
      have hhead := h.opens.head hsound htracks.kind (by simp [hlabel])
      rw [hlabel] at hhead
      cases hhead
      cases hpath : utf8 path with
      | nil =>
          obtain ⟨hcatches, hfind⟩ := h.findCase_empty fix hsound hlabel hpath
          rw [if_pos ⟨rfl, hcatches⟩, hfind]
          rfl
      | cons p tail =>
          rw [hpath] at hplain hsteady
          rw [if_neg fun hall => List.cons_ne_nil p tail hall.1]
          exact h.findCase_text hsound hlabel hpath hplain hsteady

/-- Two trees with the same routes find the same paths up to case. -/
theorem findCase_same_routes (h : Rooted n routes) (h' : Rooted m routes')
    (hroutes : ∀ route, route ∈ routes.map Prod.fst ↔ route ∈ routes'.map Prod.fst) {path : String}
    (hpath : ∀ front c more, path.toList = front ++ c :: more →
      c.toNat < 128 ∨ Foreign (registered routes).toFinset front c)
    (hsteady : fix = true → Steady (registered routes).toFinset (utf8 path)) :
    n.findCase path fix = m.findCase path fix := by
  have hsame : (registered routes).toFinset = (registered routes').toFinset := by
    ext p
    have hmem {γ : Type} (rs : List (String × γ)) :
        p ∈ registered rs ↔ ∃ route ∈ rs.map Prod.fst, ofRoute route = p := by
      simp [registered]
    simp only [List.mem_toFinset, hmem, hroutes]
  have hplain : Plain (registered routes).toFinset (utf8 path) := ⟨path.toList, rfl, hpath⟩
  rw [findCase_patterns h hplain hsteady, hsame]
  rw [hsame] at hplain hsteady
  exact (findCase_patterns h' hplain hsteady).symm

def catchAllFirst : Node Nat := ((Node.emptyRoot.insert "/b/*x" 1).node.insert "/bc" 0).node

theorem rooted_besideCatchAll : Rooted besideCatchAll [("/b/*x", 1), ("/bc", 0)] :=
  .accepted (.accepted .root rfl (by decide +kernel)) rfl (by decide +kernel)

theorem rooted_catchAllFirst : Rooted catchAllFirst [("/bc", 0), ("/b/*x", 1)] :=
  .accepted (.accepted .root rfl (by decide +kernel)) rfl (by decide +kernel)

def andUmlaut (n : Node Nat) : Node Nat := (n.insert "/ä" 2).node

theorem registered_andUmlaut : registered [("/ä", 2), ("/b/*x", 1), ("/bc", 0)] =
    [literals [slash, 195, 164], literals [slash, 98] ++ [.literal slash, .catchAll [120]],
      literals [slash, 98, 99]] := by
  decide +kernel

theorem foreign_andUmlaut (front : List Char) (c : Char) (more : List Char)
    (hsplit : "/B/Ü/".toList = front ++ c :: more) :
    c.toNat < 128 ∨ Foreign (registered [("/ä", 2), ("/b/*x", 1), ("/bc", 0)]).toFinset front c := by
  have hpath : "/B/Ü/".toList = ['/', 'B', '/', 'Ü', '/'] := by decide +kernel
  rw [hpath] at hsplit
  match front with
  | [] | [_] | [_, _] | [_, _, _, _] =>
      cases hsplit
      exact .inl (by decide)
  | _ :: _ :: _ :: _ :: _ :: front =>
      have hlength := congrArg List.length hsplit
      simp at hlength
  | [_, _, _] =>
      cases hsplit
      refine .inr ⟨by decide +kernel, by decide +kernel, fun p b q hmem hmeets => ?_⟩
      rw [registered_andUmlaut, List.mem_toFinset] at hmem
      simp only [List.mem_cons, List.not_mem_nil, or_false] at hmem
      have hb : .literal b ∈ p ++ .literal b :: q := by simp
      rcases hmem with hmem | hmem | hmem
      · have hliteral : ∀ e ∈ p, e.isParam = false := by
          intro e he
          have he : e ∈ literals [slash, 195, 164] := hmem ▸ List.mem_append_left _ he
          obtain ⟨a, -, rfl⟩ := List.mem_map.1 he
          rfl
        have hshort := hmeets.length_le hliteral
        have hlength := congrArg List.length hmem
        simp [literals] at hshort hlength
        omega
      · rw [hmem] at hb
        simp [literals] at hb
        rcases hb with rfl | rfl | rfl <;> decide
      · rw [hmem] at hb
        simp [literals] at hb
        rcases hb with rfl | rfl | rfl <;> decide

theorem steady_andUmlaut :
    Steady (registered [("/ä", 2), ("/b/*x", 1), ("/bc", 0)]).toFinset (utf8 "/B/Ü/") := by
  have hpath : utf8 "/B/Ü/" = [slash, 66, slash, 195, 156, slash] := by decide +kernel
  refine steady_of_apart (by decide +kernel) (by decide +kernel) fun front name hmem hfold => ?_
  rw [registered_andUmlaut, List.mem_toFinset] at hmem
  simp only [List.mem_cons, List.not_mem_nil, or_false] at hmem
  have hlast {text : Bytes} (heq : front ++ [.literal slash, .catchAll name] = literals text) : False := by
    have hmem : Element.catchAll name ∈ literals text := by simp [← heq]
    simp [literals] at hmem
  rcases hmem with hmem | hmem | hmem
  · exact hlast hmem
  · obtain ⟨rfl, -⟩ := List.append_inj' hmem rfl
    rw [hpath] at hfold
    exact List.cons_ne_nil _ _ hfold.2.2
  · exact hlast hmem

theorem findCase_same_routes_umlaut :
    (andUmlaut besideCatchAll).findCase "/B/Ü/" true = (andUmlaut catchAllFirst).findCase "/B/Ü/" true ∧
      (andUmlaut catchAllFirst).findCase "/B/Ü/" true = some "/b/Ü/" := by
  have hrooted : Rooted (andUmlaut besideCatchAll) [("/ä", 2), ("/b/*x", 1), ("/bc", 0)] :=
    rooted_besideCatchAll.accepted rfl (by decide +kernel)
  have hrooted' : Rooted (andUmlaut catchAllFirst) [("/ä", 2), ("/bc", 0), ("/b/*x", 1)] :=
    rooted_catchAllFirst.accepted rfl (by decide +kernel)
  refine ⟨findCase_same_routes hrooted hrooted' (fun route => ?_) foreign_andUmlaut
    fun _ => steady_andUmlaut, by decide +kernel⟩
  simp [or_comm]

/-- The slash in front of a catch-all is added at a node that came with the catch-all, and not at one that
an edge was split for. -/
theorem findCase_order_matters :
    Rooted besideCatchAll [("/b/*x", 1), ("/bc", 0)] ∧ Rooted catchAllFirst [("/bc", 0), ("/b/*x", 1)] ∧
      besideCatchAll.findCase "/b" true = none ∧ catchAllFirst.findCase "/b" true = some "/b/" :=
  ⟨rooted_besideCatchAll, rooted_catchAllFirst, by decide +kernel, by decide +kernel⟩

end Search

end HttpRouting.Node

import HttpRouting.Proofs.Pattern.Strays
import HttpRouting.Proofs.Tree.Extend

namespace HttpRouting.Node

open Bytes Pattern

variable {α : Type}

def paramOf (unescape : Bool) (c : Capture) : Param := ⟨asText c.name, capture unescape c.text⟩

/-- An entry that matches a path and goes first among all entries which do. -/
structure Wins (es : List (Entry α)) (path : Bytes) (e : Entry α) (caps : List Capture) : Prop where
  mem : e ∈ es
  captures : captures? e.pattern path = some caps
  best : ∀ e' ∈ es, Matches e'.pattern path → e' = e ∨ Beats e.pattern e'.pattern

/-- A hit is the entry that wins. A miss leaves what the last branch has captured. -/
inductive Answers (unescape : Bool) (es : List (Entry α)) (path : Bytes) (params : Params) :
    Outcome α → Prop
  | hit {e : Entry α} {caps : List Capture} (h : Wins es path e caps) :
      Answers unescape es path params ⟨some e.hit, params ++ caps.map (paramOf unescape)⟩
  | miss {caps : List Capture} (hnone : ∀ e ∈ es, ¬ Matches e.pattern path)
      (hstrays : Strays (· ∈ patterns es) path caps) :
      Answers unescape es path params ⟨none, params ++ caps.map (paramOf unescape)⟩

theorem matches_of_captures {es : List Element} {path : Bytes} {caps : List Capture}
    (h : captures? es path = some caps) : Matches es path := by
  rw [Matches, h]
  rfl

theorem Wins.unique {es : List (Entry α)} {path : Bytes} {e e' : Entry α} {caps caps' : List Capture}
    (h : Wins es path e caps) (h' : Wins es path e' caps') : e' = e ∧ caps' = caps := by
  have hsame : e' = e := by
    rcases h.best e' h'.mem (matches_of_captures h'.captures) with heq | hbeats
    · exact heq
    rcases h'.best e h.mem (matches_of_captures h.captures) with heq | hbeats'
    · exact heq.symm
    · exact absurd hbeats' (beats_asymm hbeats)
  subst hsame
  cases h.captures.symm.trans h'.captures
  exact ⟨rfl, rfl⟩

theorem patterns_behind (front : List Element) (es : List (Entry α)) :
    (· ∈ patterns (es.map (Entry.behind front))) = fronted front (· ∈ patterns es) := by
  funext q
  simp [patterns, fronted, Entry.behind, eq_comm]

theorem patterns_some {es : List (Entry α)} (hne : es ≠ []) : ∃ q, q ∈ patterns es := by
  obtain ⟨e, he⟩ := List.exists_mem_of_ne_nil _ hne
  exact ⟨e.pattern, mem_patterns.2 ⟨e, he, rfl⟩⟩

/-- Entries that are left out change nothing behind an element with which none of them starts. -/
theorem behind_subset {es es' : List (Entry α)} (hsub : es ⊆ es') {x : Element}
    (hback : ∀ e ∈ es', ∀ q, e.pattern = x :: q → e ∈ es) :
    behind x (· ∈ patterns es) = behind x (· ∈ patterns es') := by
  funext q
  simp only [behind, mem_patterns, eq_iff_iff]
  constructor
  · rintro ⟨e, he, hpattern⟩
    exact ⟨e, hsub he, hpattern⟩
  · rintro ⟨e, he, hpattern⟩
    exact ⟨e, hback e he q hpattern, hpattern⟩

theorem child_subset {n c : Node α} (hc : c ∈ n.children) : c.entries ⊆ n.held :=
  fun _ he => mem_held.2 (.inr ⟨c, hc, he⟩)

theorem Keyed.opens_key {c : Node α} {b : UInt8} (h : c.Keyed b) (hc : c.Sound) :
    Opens (· ∈ patterns c.entries) (.literal b) := by
  obtain ⟨e, he⟩ := List.exists_mem_of_ne_nil _ hc.entries_ne_nil
  obtain ⟨es, hes⟩ := h.opens e he
  exact ⟨es, mem_patterns.2 ⟨e, he, hes⟩⟩

theorem Keyed.opens_no_param {c : Node α} {b : UInt8} (h : c.Keyed b) (name : Bytes) :
    ¬ Opens (· ∈ patterns c.entries) (.param name) := by
  rintro ⟨es, hes⟩
  obtain ⟨e, he, hpattern⟩ := mem_patterns.1 hes
  obtain ⟨es', hes'⟩ := h.opens e he
  rw [hpattern] at hes'
  cases hes'

theorem strip?_some {label path rest : Bytes} (h : strip? label path = some rest) :
    path = label ++ rest := by
  fun_induction strip? label path with
  | case1 => cases h; rfl
  | case2 => cases h
  | case3 b label path ih => rw [ih h, List.cons_append]
  | case4 => cases h

theorem not_matches_off {label path : Bytes} (h : strip? label path = none) (es : List Element) :
    ¬ Matches (literals label ++ es) path := by
  fun_induction strip? label path with
  | case1 => cases h
  | case2 => exact Bool.false_ne_true
  | case3 b label path ih =>
      rw [Matches, literals, List.map_cons, List.cons_append, captures?, if_pos rfl]
      exact ih h
  | case4 a label b path hne =>
      rw [Matches, literals, List.map_cons, List.cons_append, captures?, if_neg hne]
      exact Bool.false_ne_true

theorem answers_miss (unescape : Bool) {es : List (Entry α)} {path : Bytes} (params : Params)
    (hnone : ∀ e ∈ es, ¬ Matches e.pattern path) (hstrays : Strays (· ∈ patterns es) path []) :
    Answers unescape es path params ⟨none, params⟩ := by
  have hmiss : Answers unescape es path params
      ⟨none, params ++ ([] : List Capture).map (paramOf unescape)⟩ := .miss hnone hstrays
  rwa [List.map_nil, List.append_nil] at hmiss

section Lifts

variable {unescape : Bool} {es : List (Entry α)} {params : Params} {o : Outcome α}

theorem Answers.behind_literals {rest : Bytes} (h : Answers unescape es rest params o)
    (hne : es ≠ []) (label : Bytes) :
    Answers unescape (es.map (Entry.behind (literals label))) (label ++ rest) params o := by
  cases h with
  | @hit e caps hwins =>
      obtain ⟨he, hcaps, hbest⟩ := hwins
      have hcaps' : captures? (e.behind (literals label)).pattern (label ++ rest) = some caps :=
        (captures?_literals ..).trans hcaps
      refine .hit (e := e.behind (literals label)) ⟨List.mem_map_of_mem he, hcaps', ?_⟩
      intro e' he' hmatches
      obtain ⟨e', hmem, rfl⟩ := List.mem_map.1 he'
      rw [Matches, Entry.behind, captures?_literals] at hmatches
      rcases hbest e' hmem hmatches with rfl | hbeats
      · exact .inl rfl
      · exact .inr (beats_append _ hbeats)
  | miss hnone hstrays =>
      apply Answers.miss
      · intro e he hmatches
        obtain ⟨e, hmem, rfl⟩ := List.mem_map.1 he
        rw [Matches, Entry.behind, captures?_literals] at hmatches
        exact hnone e hmem hmatches
      · rw [patterns_behind]
        exact strays_literals (patterns_some hne) label hstrays

theorem answers_off {label path : Bytes} (h : strip? label path = none) (hne : es ≠ []) :
    Answers unescape (es.map (Entry.behind (literals label))) path params ⟨none, params⟩ := by
  apply answers_miss unescape params
  · intro e he
    obtain ⟨e, hmem, rfl⟩ := List.mem_map.1 he
    exact not_matches_off h e.pattern
  · rw [patterns_behind]
    exact strays_off (patterns_some hne) h

theorem Answers.behind_param {name : Bytes} {b : UInt8} {rest : Bytes}
    (h : Answers unescape es ((b :: rest).dropWhile (· ≠ slash))
      (params ++ [paramOf unescape ⟨name, firstSegment (b :: rest)⟩]) o) (hne : es ≠ []) :
    Answers unescape (es.map (Entry.behind [.param name])) (b :: rest) params o := by
  have hmatches {e : Entry α} (h : Matches (.param name :: e.pattern) (b :: rest)) :
      Matches e.pattern ((b :: rest).dropWhile (· ≠ slash)) := by
    rwa [Matches, captures?, Option.isSome_map] at h
  cases h with
  | @hit e caps hwins =>
      obtain ⟨he, hcaps, hbest⟩ := hwins
      rw [List.append_assoc]
      have hcaps' : captures? (e.behind [.param name]).pattern (b :: rest) =
          some (⟨name, firstSegment (b :: rest)⟩ :: caps) := by
        rw [Entry.behind, List.singleton_append, captures?, hcaps]
        rfl
      refine .hit (e := e.behind [.param name]) ⟨List.mem_map_of_mem he, hcaps', ?_⟩
      intro e' he' h
      obtain ⟨e', hmem, rfl⟩ := List.mem_map.1 he'
      rcases hbest e' hmem (hmatches h) with rfl | hbeats
      · exact .inl rfl
      · exact .inr (beats_cons _ hbeats)
  | @miss caps hnone hstrays =>
      rw [List.append_assoc]
      have hstrays' := hstrays.behind_param (patterns_some hne) name
      rw [← patterns_behind] at hstrays'
      refine .miss ?_ hstrays'
      intro e he h
      obtain ⟨e, hmem, rfl⟩ := List.mem_map.1 he
      exact hnone e hmem (hmatches h)

end Lifts

theorem answers_end (unescape : Bool) (params : Params) {n : Node α}
    (h : ∀ e ∈ n.held, (∃ hit, n.hit? = some hit ∧ e = ⟨[], hit⟩) ∨ ¬ Matches e.pattern []) :
    Answers unescape n.held [] params ⟨n.hit?, params⟩ := by
  cases hhit : n.hit? with
  | some hit =>
      have he : ⟨[], hit⟩ ∈ n.held := mem_held.2 (.inl ⟨hit, hhit, rfl⟩)
      have hend : Answers unescape n.held [] params
          ⟨some hit, params ++ ([] : List Capture).map (paramOf unescape)⟩ := by
        refine .hit ⟨he, rfl, fun e he hmatches => ?_⟩
        rcases h e he with ⟨hit', hhit', rfl⟩ | hoff
        · cases hhit.symm.trans hhit'
          exact .inl rfl
        · exact absurd hmatches hoff
      rwa [List.map_nil, List.append_nil] at hend
  | none =>
      refine answers_miss unescape params (fun e he hmatches => ?_) (.stop nofun)
      rcases h e he with ⟨hit, hhit', -⟩ | hoff
      · rw [hhit] at hhit'
        cases hhit'
      · exact absurd hmatches hoff

section Branch

variable {n : Node α} {slots : List (UInt8 × Node α)} {wild : Option (Node α)} {unescape : Bool}
  {params : Params} {o : Outcome α} {b : UInt8} {rest : Bytes}

theorem IsBranch.ends (h : n.IsBranch slots wild) (hn : n.Sound) :
    ∀ e ∈ n.held, (∃ hit, n.hit? = some hit ∧ e = ⟨[], hit⟩) ∨ ¬ Matches e.pattern [] := by
  intro e he
  cases h.source hn he with
  | here hit hhit => exact .inl ⟨hit, hhit, rfl⟩
  | slot => exact .inr Bool.false_ne_true
  | wild => exact .inr Bool.false_ne_true

theorem IsBranch.opens_literal (h : n.IsBranch slots wild) (hn : n.Sound)
    (hopens : Opens (· ∈ patterns n.held) (.literal b)) : ∃ c, (b, c) ∈ slots := by
  obtain ⟨es, hes⟩ := hopens
  obtain ⟨e, he, hpattern⟩ := mem_patterns.1 hes
  cases h.source hn he with
  | here => cases hpattern
  | slot s hs =>
      cases hpattern
      exact ⟨s.2, hs⟩
  | wild => cases hpattern

theorem IsBranch.opens_param (h : n.IsBranch slots wild) (hn : n.Sound) {name : Bytes}
    (hopens : Opens (· ∈ patterns n.held) (.param name)) :
    ∃ w next, wild = some w ∧ w.IsParam name next := by
  obtain ⟨es, hes⟩ := hopens
  obtain ⟨e, he, hpattern⟩ := mem_patterns.1 hes
  cases h.source hn he with
  | here => cases hpattern
  | slot => cases hpattern
  | wild w hw name next hparam =>
      cases hpattern
      exact ⟨w, next, hw, hparam⟩

theorem IsBranch.matches_cons (h : n.IsBranch slots wild) (hn : n.Sound) {e : Entry α}
    (he : e ∈ n.held) (hmatches : Matches e.pattern (b :: rest)) :
    (∃ c, (b, c) ∈ slots ∧ e ∈ c.entries ∧ ∃ es, e.pattern = .literal b :: es) ∨
      ∃ w, wild = some w ∧ e ∈ w.entries ∧ ∃ name es, e.pattern = .param name :: es := by
  cases h.source hn he with
  | here => cases hmatches
  | slot s hs es hit he' =>
      by_cases hkey : s.1 = b
      · subst hkey
        exact .inl ⟨s.2, hs, he', es, rfl⟩
      · rw [Matches, captures?, if_neg hkey] at hmatches
        cases hmatches
  | wild w hw name next hparam es hit he' => exact .inr ⟨w, hw, he', name, es, rfl⟩

theorem IsBranch.answers_stop (h : n.IsBranch slots none) (hn : n.Sound)
    (hb : ∀ c, (b, c) ∉ slots) : Answers unescape n.held (b :: rest) params ⟨none, params⟩ := by
  refine answers_miss unescape params (fun e he hmatches => ?_) (.stop fun b' rest' heq => ?_)
  · rcases h.matches_cons hn he hmatches with ⟨c, hs, -⟩ | ⟨w, hw, -⟩
    · exact hb c hs
    · cases hw
  · cases heq
    refine ⟨fun hopens => ?_, fun name hopens => ?_⟩
    · obtain ⟨c, hs⟩ := h.opens_literal hn hopens
      exact hb c hs
    · obtain ⟨w, next, hw, -⟩ := h.opens_param hn hopens
      cases hw

theorem IsBranch.answers_slot (h : n.IsBranch slots wild) (hn : n.Sound) {c : Node α}
    (hs : (b, c) ∈ slots) (ho : Answers unescape c.entries (b :: rest) params o)
    (hlast : o.hit?.isSome = true ∨ wild = none) : Answers unescape n.held (b :: rest) params o := by
  have hkeyed : c.Keyed b := h.keyed _ hs
  have hc : c ∈ n.children := by
    rw [h.children]
    exact List.mem_append_left _ (List.mem_map_of_mem hs)
  cases ho with
  | @hit e caps hwins =>
      obtain ⟨he, hcaps, hbest⟩ := hwins
      refine .hit ⟨mem_held.2 (.inr ⟨c, hc, he⟩), hcaps, fun e' he' hmatches => ?_⟩
      rcases h.matches_cons hn he' hmatches with ⟨c', hs', he', -⟩ | ⟨w, -, -, name, es', hparam⟩
      · cases h.slot_unique hs hs'
        exact hbest e' he' hmatches
      · obtain ⟨es, hes⟩ := hkeyed.opens e he
        rw [hparam, hes]
        exact .inr (beats_cons_cons.2 (.inr ⟨b, name, rfl, rfl⟩))
  | @miss caps hnone hstrays =>
      rcases hlast with hsome | rfl
      · cases hsome
      have hback : behind (.literal b) (· ∈ patterns c.entries) =
          behind (.literal b) (· ∈ patterns n.held) :=
        behind_subset (child_subset hc) fun e he q hpattern => h.mem_slot hn hs he hpattern
      refine .miss (fun e he hmatches => ?_) (hstrays.widen_literal (hkeyed.opens_key (hn.child hc))
        hkeyed.opens_no_param (fun name hopens => ?_) hback)
      · rcases h.matches_cons hn he hmatches with ⟨c', hs', he', -⟩ | ⟨w, hw, -⟩
        · cases h.slot_unique hs hs'
          exact hnone e he' hmatches
        · cases hw
      · obtain ⟨w, next, hw, -⟩ := h.opens_param hn hopens
        cases hw

theorem IsBranch.answers_wild {w : Node α} (h : n.IsBranch slots (some w)) (hn : n.Sound)
    (hstatic : ∀ c, (b, c) ∈ slots → ∀ e ∈ c.entries, ¬ Matches e.pattern (b :: rest))
    (ho : Answers unescape w.entries (b :: rest) params o) :
    Answers unescape n.held (b :: rest) params o := by
  have hw : w ∈ n.children := by simp [h.children]
  obtain ⟨name, next, hparam⟩ := Sound.param (hn.child hw) (h.param w rfl)
  cases ho with
  | @hit e caps hwins =>
      obtain ⟨he, hcaps, hbest⟩ := hwins
      refine .hit ⟨mem_held.2 (.inr ⟨w, hw, he⟩), hcaps, fun e' he' hmatches => ?_⟩
      rcases h.matches_cons hn he' hmatches with ⟨c, hs, he', -⟩ | ⟨w', hw', he', -⟩
      · exact absurd hmatches (hstatic c hs e' he')
      · cases hw'
        exact hbest e' he' hmatches
  | @miss caps hnone hstrays =>
      have hopens : Opens (· ∈ patterns w.entries) (.param name) := by
        obtain ⟨e, he⟩ := List.exists_mem_of_ne_nil _ (Sound.entries_ne_nil (hn.child hw))
        obtain ⟨e', -, rfl⟩ := hparam.mem_entries.1 he
        exact ⟨e'.pattern, mem_patterns.2 ⟨_, he, rfl⟩⟩
      refine .miss (fun e he hmatches => ?_) (hstrays.widen_param hopens ?_ ?_)
      · rcases h.matches_cons hn he hmatches with ⟨c, hs, he', -⟩ | ⟨w', hw', he', -⟩
        · exact hstatic c hs e he' hmatches
        · cases hw'
          exact hnone e he' hmatches
      · rintro name' ⟨es, hes⟩
        obtain ⟨e, he, hpattern⟩ := mem_patterns.1 hes
        obtain ⟨e', -, rfl⟩ := hparam.mem_entries.1 he
        cases hpattern
        rfl
      · exact behind_subset (child_subset hw) fun e he q hpattern => h.mem_wild hn he hpattern

end Branch

section Param

variable {n : Node α} {name : Bytes} {next : Option (Node α)} {unescape : Bool} {params : Params}
  {o : Outcome α}

theorem IsParam.ends (h : n.IsParam name next) :
    ∀ e ∈ n.held, (∃ hit, n.hit? = some hit ∧ e = ⟨[], hit⟩) ∨ ¬ Matches e.pattern [] := by
  intro e he
  rcases h.source he with hhit | ⟨c, rfl, he⟩
  · exact .inl hhit
  · obtain ⟨es, hes⟩ := h.opens he
    rw [hes]
    exact .inr Bool.false_ne_true

theorem IsParam.answers_stop (h : n.IsParam name none) {path : Bytes} (hpath : path ≠ []) :
    Answers unescape n.held path params ⟨none, params⟩ := by
  have hempty : ∀ e ∈ n.held, e.pattern = [] := by
    intro e he
    rcases h.source he with ⟨hit, -, rfl⟩ | ⟨c, hc, -⟩
    · rfl
    · cases hc
  have hopens (e : Element) : ¬ Opens (· ∈ patterns n.held) e := by
    rintro ⟨es, hes⟩
    obtain ⟨e', he', hpattern⟩ := mem_patterns.1 hes
    rw [hempty e' he'] at hpattern
    cases hpattern
  refine answers_miss unescape params (fun e he hmatches => ?_)
    (.stop fun b rest _ => ⟨hopens _, fun name => hopens _⟩)
  rw [hempty e he] at hmatches
  cases path with
  | nil => exact hpath rfl
  | cons b rest => cases hmatches

theorem IsParam.answers_next {c : Node α} (h : n.IsParam name (some c)) (hn : n.Sound) {b : UInt8}
    {rest : Bytes} (hb : b = slash) (ho : Answers unescape c.entries (b :: rest) params o) :
    Answers unescape n.held (b :: rest) params o := by
  have hc : c ∈ n.children := by simp [h.children]
  have hsource {e : Entry α} (he : e ∈ n.held) (hne : e.pattern ≠ []) : e ∈ c.entries := by
    rcases h.source he with ⟨hit, -, rfl⟩ | ⟨c', hc', he⟩
    · exact absurd rfl hne
    · cases hc'
      exact he
  have hmatches {e : Entry α} (hmatches : Matches e.pattern (b :: rest)) : e.pattern ≠ [] := by
    intro hnil
    rw [hnil] at hmatches
    cases hmatches
  cases ho with
  | @hit e caps hwins =>
      obtain ⟨he, hcaps, hbest⟩ := hwins
      refine .hit ⟨mem_held.2 (.inr ⟨c, hc, he⟩), hcaps, fun e' he' h => ?_⟩
      exact hbest e' (hsource he' (hmatches h)) h
  | @miss caps hnone hstrays =>
      subst hb
      have hkeyed : c.Keyed slash := h.keyed c rfl
      refine .miss (fun e he h => hnone e (hsource he (hmatches h)) h)
        (hstrays.widen_literal (hkeyed.opens_key (hn.child hc)) hkeyed.opens_no_param ?_ ?_)
      · rintro name ⟨es, hes⟩
        obtain ⟨e, he, hpattern⟩ := mem_patterns.1 hes
        have he := hsource he (hpattern ▸ List.cons_ne_nil _ _)
        exact hkeyed.opens_no_param name ⟨es, mem_patterns.2 ⟨e, he, hpattern⟩⟩
      · exact behind_subset (child_subset hc) fun e he q hpattern =>
          hsource he (hpattern ▸ List.cons_ne_nil _ _)

end Param

end HttpRouting.Node

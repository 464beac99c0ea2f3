import HttpRouting.Proofs.Pattern.Spelling
import HttpRouting.Proofs.Tree.CaseOrder

namespace HttpRouting.Node

open Bytes Pattern Utf8

variable {α : Type} {n : Node α} {routes : List (String × α)}

theorem Rooted.spaced (h : Rooted n routes) : ∀ p ∈ (registered routes).toFinset, Spaced p := by
  intro p hp
  obtain ⟨r, hr, rfl⟩ := List.mem_map.1 (List.mem_toFinset.1 hp)
  exact h.built.tracks.spaced hr

theorem Rooted.recase_end (h : Rooted n routes) :
    Pattern.recase false (registered routes).toFinset [] = none := by
  rw [Pattern.recase_end, if_neg]
  rintro (hnil | hcatches)
  · obtain ⟨r, hr, hnil⟩ := List.mem_map.1 (List.mem_toFinset.1 hnil)
    obtain ⟨es, hes⟩ := elements_slash (h.begins r hr)
    cases hnil.symm.trans hes
  · obtain ⟨name, p, hp⟩ := catches_iff.1 hcatches
    obtain ⟨r, hr, hp⟩ := List.mem_map.1 (List.mem_toFinset.1 hp)
    obtain ⟨es, hes⟩ := elements_slash (h.begins r hr)
    cases hp.symm.trans hes

theorem Rooted.findCase_eq (h : Rooted n routes) {path : String}
    (hpath : ∀ c ∈ path.toList, c.toNat < 128) :
    n.findCase path false =
      (Pattern.recase false (registered routes).toFinset (utf8 path)).bind text? := by
  have hplain : Plain (registered routes).toFinset (utf8 path) :=
    ⟨path.toList, rfl, fun front c more hsplit => .inl (hpath c (by simp [hsplit]))⟩
  rw [findCase_patterns h hplain fun hfix => absurd hfix Bool.false_ne_true]
  split
  · next hnil => rw [hnil.1, h.recase_end]
  · rfl

theorem Rooted.findCase_some_iff (h : Rooted n routes) {path q : String}
    (hpath : ∀ c ∈ path.toList, c.toNat < 128) :
    n.findCase path false = some q ↔
      Pattern.recase false (registered routes).toFinset (utf8 path) = some (utf8 q) := by
  rw [h.findCase_eq hpath, Option.bind_eq_some_iff]
  constructor
  · rintro ⟨bytes, hbytes, htext⟩
    rwa [utf8_text.1 htext]
  · intro hrecase
    exact ⟨utf8 q, hrecase, utf8_text.2 rfl⟩

/-- The case-blind search for a path of ASCII characters answers exactly where a route gives the path a
spelling. The answer is the spelling that such a route gives and that it matches, a lookup finds it, and
the search finds it again. -/
theorem findCase_exact (h : Rooted n routes) {path : String}
    (hpath : ∀ c ∈ path.toList, c.toNat < 128) :
    ((n.findCase path false).isSome = true ↔
      ∃ r ∈ routes, (respell? (ofRoute r.1) (utf8 path)).isSome = true) ∧
    ∀ q, n.findCase path false = some q →
      (∃ r ∈ routes, respell? (ofRoute r.1) (utf8 path) = some (utf8 q) ∧
        Matches (ofRoute r.1) (utf8 q)) ∧
      (∀ unescape buffer, (n.lookup q unescape buffer).hit?.isSome = true) ∧
      n.findCase q false = some q := by
  have hroutes {P : List Element → Prop} :
      (∃ p ∈ (registered routes).toFinset, P p) ↔ ∃ r ∈ routes, P (ofRoute r.1) := by
    simp [registered]
  have hlow := bytes_of_low hpath
  constructor
  · rw [← hroutes (P := fun p => (respell? p (utf8 path)).isSome = true), ← recase_isSome_iff h.spaced]
    constructor
    · intro hsome
      obtain ⟨q, hq⟩ := Option.isSome_iff_exists.1 hsome
      rw [(h.findCase_some_iff hpath).1 hq]
      rfl
    · intro hsome
      obtain ⟨bytes, hbytes⟩ := Option.isSome_iff_exists.1 hsome
      obtain ⟨q, hq⟩ := (isText_low ((recase_letters hbytes).low hlow)).text?
      rw [← utf8_text.1 hq] at hbytes
      rw [(h.findCase_some_iff hpath).2 hbytes]
      rfl
  · intro q hq
    have hrecase := (h.findCase_some_iff hpath).1 hq
    obtain ⟨r, hr, hspell⟩ := hroutes.1 (recase_spells hrecase)
    have hmatches := matches_respelled (h.built.tracks.spaced hr) hspell
    refine ⟨⟨r, hr, hspell, hmatches⟩, fun unescape buffer => ?_, ?_⟩
    · obtain ⟨hit, hhit⟩ := h.built.tracks.hit_of_matches q unescape buffer hr hmatches
      rw [hhit]
      rfl
    · have hq' : ∀ c ∈ q.toList, c.toNat < 128 := low_of_bytes ((recase_letters hrecase).low hlow)
      exact (h.findCase_some_iff hq').2 (recase_recase h.spaced hrecase)

def twoCases : Node Nat := ((Node.emptyRoot.insert "/Api/:user/Log" 1).node.insert "/api/all" 2).node

theorem rooted_twoCases : Rooted twoCases [("/api/all", 2), ("/Api/:user/Log", 1)] :=
  .accepted (.accepted .root rfl (by decide +kernel)) rfl (by decide +kernel)

theorem findCase_exact_twoCases :
    (∃ r ∈ [("/api/all", 2), ("/Api/:user/Log", 1)],
      respell? (ofRoute r.1) (utf8 "/API/Bob/LOG") = some (utf8 "/Api/Bob/Log") ∧
        Matches (ofRoute r.1) (utf8 "/Api/Bob/Log")) ∧
    (∀ unescape buffer, (twoCases.lookup "/Api/Bob/Log" unescape buffer).hit?.isSome = true) ∧
    twoCases.findCase "/Api/Bob/Log" false = some "/Api/Bob/Log" := by
  have hpath : ∀ c ∈ "/API/Bob/LOG".toList, c.toNat < 128 := by simp
  exact (findCase_exact rooted_twoCases hpath).2 _ (by decide +kernel)

end HttpRouting.Node

import HttpRouting.Proofs.Tree.Exploration
import HttpRouting.Tree.CaseSearch

namespace HttpRouting.Node

open Bytes Pattern

variable {α : Type} {fix above : Bool} {n : Node α} {path pending q : Bytes}

/-- How the byte that leads to a child is spelled: by the bytes still expected of a character, or by
a case mapping of the character across byte `k` of the path. -/
inductive Spells (path : Bytes) (k : Nat) (awaited : Bytes) : Bytes → Prop
  | awaited (h : awaited.headD 0 ≠ 0) : Spells path k awaited awaited
  | lower (h : awaited.headD 0 = 0) :
      Spells path k awaited
        ((String.utf8EncodeChar (lowerChar (charAcross path k).1)).drop (charAcross path k).2)
  | upper (h : awaited.headD 0 = 0) :
      Spells path k awaited
        ((String.utf8EncodeChar (upperChar (charAcross path k).1)).drop (charAcross path k).2)

/-- The children from which a slash is added: one with that slash and a value, and the holder of a
catch-all. -/
def Closes (c : Node α) : Prop :=
  (c.label.length = 1 ∧ c.value.isSome = true) ∨
    (c.kind = .catchAll ∧ c.children.head?.any (·.value.isSome) = true)

/-- The search for a path answers `q` below a node. -/
inductive Recased (fix : Bool) : Node α → Bytes → Bytes → Bool → Bytes → Prop
  | ended {n : Node α} {path pending : Bytes} {above : Bool} (hfits : n.fits path = true)
      (hrest : path.drop n.label.length = []) (hvalue : n.value.isSome = true) :
      Recased fix n path pending above n.label
  | addSlash {n : Node α} {path pending : Bytes} {above : Bool} {c : { c // c ∈ n.children }}
      (hfix : fix = true) (hfits : n.fits path = true) (hrest : path.drop n.label.length = [])
      (hkeyed : n.keyed slash = .ok (some c)) (hc : Closes c.1) :
      Recased fix n path pending above (n.label ++ [slash])
  | static {n : Node α} {path pending spelling q : Bytes} {above : Bool}
      {c : { c // c ∈ n.children }} (hfits : n.fits path = true)
      (hrest : path.drop n.label.length ≠ [])
      (hspelling : Spells path n.label.length (pending.drop n.label.length) spelling)
      (hkeyed : n.keyed (spelling.headD 0) = .ok (some c))
      (hc : Recased fix c.1 (path.drop n.label.length) spelling n.value.isSome q) :
      Recased fix n path pending above (n.label ++ q)
  | dropSlash {n : Node α} {path pending : Bytes} {above : Bool} (hfix : fix = true)
      (hfits : n.fits path = true) (hrest : path.drop n.label.length = [slash])
      (hvalue : n.value.isSome = true) : Recased fix n path pending above n.label
  | catchAll {n : Node α} {path pending : Bytes} {above : Bool} {w : { c // c ∈ n.children }}
      (hfits : n.fits path = true) (hrest : path.drop n.label.length ≠ [])
      (hwild : n.hasWild = true) (hlast : n.lastChild = .ok w) (hkind : w.1.kind = .catchAll) :
      Recased fix n path pending above (n.label ++ path.drop n.label.length)
  | paramEnd {n : Node α} {path pending close : Bytes} {above : Bool} {w : { c // c ∈ n.children }}
      (hfits : n.fits path = true) (hrest : path.drop n.label.length ≠ [])
      (hwild : n.hasWild = true) (hlast : n.lastChild = .ok w) (hkind : w.1.kind = .param)
      (hafter : (path.drop n.label.length).dropWhile (· ≠ slash) = [])
      (hclose : closeParam fix w.1 = some close) :
      Recased fix n path pending above
        (n.label ++ (firstSegment (path.drop n.label.length) ++ close))
  | paramDrop {n : Node α} {path pending : Bytes} {above : Bool} {w : { c // c ∈ n.children }}
      (hfix : fix = true) (hfits : n.fits path = true) (hwild : n.hasWild = true)
      (hlast : n.lastChild = .ok w) (hkind : w.1.kind = .param)
      (hafter : (path.drop n.label.length).dropWhile (· ≠ slash) = [slash])
      (hvalue : w.1.value.isSome = true) :
      Recased fix n path pending above (n.label ++ firstSegment (path.drop n.label.length))
  | paramNext {n c : Node α} {path pending q : Bytes} {above : Bool} {w : { c // c ∈ n.children }}
      (hfits : n.fits path = true) (hwild : n.hasWild = true) (hlast : n.lastChild = .ok w)
      (hkind : w.1.kind = .param)
      (hafter : (path.drop n.label.length).dropWhile (· ≠ slash) ≠ [])
      (hchild : w.1.children.head? = some c)
      (hc : Recased fix c ((path.drop n.label.length).dropWhile (· ≠ slash)) [] w.1.value.isSome q) :
      Recased fix n path pending above
        (n.label ++ (firstSegment (path.drop n.label.length) ++ q))
  | above {n : Node α} {pending : Bytes} (hfix : fix = true) (hoff : n.fits [slash] = false) :
      Recased fix n [slash] pending true []
  | complete {n : Node α} {path pending : Bytes} {above : Bool} (hfix : fix = true)
      (hpath : path ≠ []) (hlength : path.length + 1 = n.label.length)
      (hslash : n.label[path.length]? = some slash)
      (hfold : foldEq (path.drop 1) ((n.label.take path.length).drop 1) = true)
      (hvalue : n.value.isSome = true) : Recased fix n path pending above n.label

section Inversion

variable {rest awaited spelling : Bytes} {answer : Option Bytes}

theorem closeAt_some (h : n.closeAt fix = .ok (some q)) :
    (n.value.isSome = true ∧ q = []) ∨
      (fix = true ∧ q = [slash] ∧ ∃ c, n.keyed slash = .ok (some c) ∧ Closes c.1) := by
  unfold closeAt at h
  split at h
  · next hvalue =>
      cases h
      exact .inl ⟨hvalue, rfl⟩
  split at h
  · next hfix =>
      split at h
      · cases h
      · cases h
      · next c hmem hkeyed =>
          split at h
          · next hc =>
              cases h
              exact .inr ⟨hfix, rfl, _, hkeyed, hc⟩
          · cases h
  · cases h

theorem closeBefore_some (hoff : n.fits path = false) (h : n.closeBefore fix path above = some q) :
    Recased fix n path pending above q := by
  unfold closeBefore at h
  split at h
  · cases h
  next hfix =>
    have hfix : fix = true := by simpa using hfix
    split at h
    · next hpath =>
        subst hpath
        split at h
        · next habove =>
            cases h
            subst habove
            exact .above hfix hoff
        · cases h
    · split at h
      · next hall =>
          obtain ⟨hne, hlength, hslash, hfold, hvalue⟩ := hall
          cases h
          exact .complete hfix hne hlength hslash hfold hvalue
      · cases h

theorem viaKey_some {go : { c : Node α // c ∈ n.children } → Bytes → Except Defect (Option Bytes)}
    (h : n.viaKey spelling go = .ok (some answer)) :
    ∃ c, n.keyed (spelling.headD 0) = .ok (some c) ∧ go c spelling = .ok answer := by
  unfold viaKey at h
  split at h
  · cases h
  · cases h
  · next c hkeyed =>
      refine ⟨c, hkeyed, ?_⟩
      cases hgo : go c spelling with
      | error e =>
          rw [hgo] at h
          cases h
      | ok answer' =>
          rw [hgo] at h
          cases h
          rfl

theorem verdict_some {via : Option (Option Bytes)}
    (h : n.verdict fix rest via = some (some q)) :
    via = some (some q) ∨
      (via = none ∧ q = [] ∧ fix = true ∧ rest = [slash] ∧ n.value.isSome = true) := by
  cases via with
  | some answer =>
      rw [verdict] at h
      split at h
      · cases h
      · exact .inl h
  | none =>
      rw [verdict] at h
      split at h
      · cases h
      · have h := Option.some.inj h
        split at h
        · next hall =>
            simp only [Bool.and_eq_true, beq_iff_eq] at hall
            cases h
            exact .inr ⟨rfl, rfl, hall.1.1, hall.1.2, hall.2⟩
        · cases h

theorem viaStatic_some {go : { c : Node α // c ∈ n.children } → Bytes → Except Defect (Option Bytes)}
    (h : n.viaStatic fix path rest awaited go = .ok (some (some q))) :
    (∃ spelling c, Spells path n.label.length awaited spelling ∧
        n.keyed (spelling.headD 0) = .ok (some c) ∧ go c spelling = .ok (some q)) ∨
      (q = [] ∧ fix = true ∧ rest = [slash] ∧ n.value.isSome = true) := by
  have hkey {spelling : Bytes} (hspelling : Spells path n.label.length awaited spelling)
      (h : (n.viaKey spelling go).map (n.verdict fix rest) = .ok (some (some q))) :
      (∃ spelling c, Spells path n.label.length awaited spelling ∧
          n.keyed (spelling.headD 0) = .ok (some c) ∧ go c spelling = .ok (some q)) ∨
        (q = [] ∧ fix = true ∧ rest = [slash] ∧ n.value.isSome = true) := by
    cases hvia : n.viaKey spelling go with
    | error e =>
        rw [hvia] at h
        cases h
    | ok via =>
        rw [hvia] at h
        rcases verdict_some (Except.ok.inj h) with rfl | ⟨-, hdrop⟩
        · obtain ⟨c, hkeyed, hgo⟩ := viaKey_some hvia
          exact .inl ⟨spelling, c, hspelling, hkeyed, hgo⟩
        · exact .inr hdrop
  unfold viaStatic at h
  dsimp only at h
  split at h
  · cases h
  split at h
  · next hawaited => exact hkey (.awaited hawaited) h
  next hnone =>
    have hnone : awaited.headD 0 = 0 := Decidable.not_not.1 hnone
    split at h
    · cases h
    · next answer hvia =>
        cases h
        obtain ⟨c, hkeyed, hgo⟩ := viaKey_some hvia
        exact .inl ⟨_, c, .lower hnone, hkeyed, hgo⟩
    · split at h
      · rcases verdict_some (Except.ok.inj h) with hfalse | ⟨-, hdrop⟩
        · cases hfalse
        · exact .inr hdrop
      · exact hkey (.upper hnone) h

theorem verdict_none {via : Option (Option Bytes)} (h : n.verdict fix rest via = none) :
    n.hasWild = true := by
  cases via with
  | some answer =>
      rw [verdict] at h
      split at h
      · next hall =>
          simp only [Bool.and_eq_true] at hall
          exact hall.2
      · cases h
  | none =>
      rw [verdict] at h
      split at h
      · assumption
      · cases h

theorem viaStatic_none {go : { c : Node α // c ∈ n.children } → Bytes → Except Defect (Option Bytes)}
    (h : n.viaStatic fix path rest awaited go = .ok none) : n.hasWild = true := by
  have hkey {spelling : Bytes} (h : (n.viaKey spelling go).map (n.verdict fix rest) = .ok none) :
      n.hasWild = true := by
    cases hvia : n.viaKey spelling go with
    | error e =>
        rw [hvia] at h
        cases h
    | ok via =>
        rw [hvia] at h
        exact verdict_none (Except.ok.inj h)
  unfold viaStatic at h
  dsimp only at h
  split at h
  · next hempty =>
      simp only [Bool.and_eq_true] at hempty
      exact hempty.2
  split at h
  · exact hkey h
  split at h
  · cases h
  · cases h
  · split at h
    · exact verdict_none (Except.ok.inj h)
    · exact hkey h

theorem dropWhile_eq_slash {bs : Bytes} (h : (bs.dropWhile (· ≠ slash)).length = 1) :
    bs.dropWhile (· ≠ slash) = [slash] := by
  obtain ⟨b, hb⟩ := List.length_eq_one_iff.1 h
  have hstop := firstSegment_dropWhile bs
  rw [hb, firstSegment_eq_nil] at hstop
  rw [hb]
  simpa using hstop

theorem viaWild_some {w : Node α}
    {go : { c : Node α // c ∈ w.children } → Bytes → Except Defect (Option Bytes)}
    (h : w.viaWild fix rest go = .ok (some q)) :
    (w.kind = .catchAll ∧ q = rest) ∨ w.kind = .param ∧
      ((rest.dropWhile (· ≠ slash) = [] ∧
          ∃ close, closeParam fix w = some close ∧ q = firstSegment rest ++ close) ∨
        (rest.dropWhile (· ≠ slash) = [slash] ∧ fix = true ∧ w.value.isSome = true ∧
          q = firstSegment rest) ∨
        ∃ c q', rest.dropWhile (· ≠ slash) ≠ [] ∧ w.children.head? = some c.1 ∧
          go c (rest.dropWhile (· ≠ slash)) = .ok (some q') ∧ q = firstSegment rest ++ q') := by
  unfold viaWild at h
  split at h
  · cases h
  · cases h
  · next hkind =>
      cases h
      exact .inl ⟨hkind, rfl⟩
  next hkind =>
    refine .inr ⟨hkind, ?_⟩
    dsimp only at h
    split at h
    · next hafter =>
        obtain ⟨close, hclose, rfl⟩ := Option.map_eq_some_iff.1 (Except.ok.inj h)
        exact .inl ⟨hafter, close, hclose, rfl⟩
    · have h := Except.ok.inj h
      split at h
      · next hall =>
          simp only [Bool.and_eq_true, beq_iff_eq] at hall
          cases h
          exact .inr (.inl ⟨dropWhile_eq_slash hall.1.2, hall.1.1, hall.2, rfl⟩)
      · cases h
    · next c cs hchildren hafter =>
        have hhead : w.children.head? = some c := by rw [hchildren]; rfl
        cases hgo : go ⟨c, hchildren ▸ List.mem_cons_self⟩ (rest.dropWhile (· ≠ slash)) with
        | error e =>
            rw [hgo] at h
            cases h
        | ok answer =>
            rw [hgo] at h
            obtain ⟨q', rfl, rfl⟩ := Option.map_eq_some_iff.1 (Except.ok.inj h)
            exact .inr (.inr ⟨_, q', hafter, hhead, hgo, rfl⟩)

end Inversion

theorem recase_recased (h : recase fix n path pending above = .ok (some q)) :
    Recased fix n path pending above q := by
  induction n using size_induction generalizing path pending above q with
  | h n ih =>
      rw [recase] at h
      split at h
      next hfits =>
        dsimp only at h
        split at h
        next hrest =>
          cases hclose : n.closeAt fix with
          | error e =>
              rw [hclose] at h
              cases h
          | ok answer =>
              rw [hclose] at h
              obtain ⟨q', rfl, rfl⟩ := Option.map_eq_some_iff.1 (Except.ok.inj h)
              rcases closeAt_some hclose with ⟨hvalue, rfl⟩ | ⟨hfix, rfl, c, hkeyed, hc⟩
              · rw [List.append_nil]
                exact .ended hfits hrest hvalue
              · exact .addSlash hfix hfits hrest hkeyed hc
        next hrest =>
          split at h
          · cases h
          · next answer hstatic =>
              obtain ⟨q', rfl, rfl⟩ := Option.map_eq_some_iff.1 (Except.ok.inj h)
              rcases viaStatic_some hstatic with
                ⟨spelling, c, hspelling, hkeyed, hgo⟩ | ⟨rfl, hfix, hslash, hvalue⟩
              · exact .static hfits hrest hspelling hkeyed (ih c.1 (size_lt_of_mem c.2) hgo)
              · rw [List.append_nil]
                exact .dropSlash hfix hfits hslash hvalue
          · next hstatic =>
            have hwild := viaStatic_none hstatic
            split at h
            · cases h
            · next w hlast =>
                cases hvia : viaWild fix w.1 (path.drop n.label.length) fun c after =>
                    recase fix c.1 after [] w.1.value.isSome with
                | error e =>
                    rw [hvia] at h
                    cases h
                | ok answer =>
                    rw [hvia] at h
                    obtain ⟨q', rfl, rfl⟩ := Option.map_eq_some_iff.1 (Except.ok.inj h)
                    rcases viaWild_some hvia with ⟨hkind, rfl⟩ | ⟨hkind, hparam⟩
                    · exact .catchAll hfits hrest hwild hlast hkind
                    · rcases hparam with ⟨hafter, close, hclose, rfl⟩ |
                        ⟨hafter, hfix, hvalue, rfl⟩ | ⟨c, q, hafter, hchild, hgo, rfl⟩
                      · exact .paramEnd hfits hrest hwild hlast hkind hafter hclose
                      · exact .paramDrop hfix hfits hwild hlast hkind hafter hvalue
                      · have hsize := Nat.lt_trans (size_lt_of_mem c.2) (size_lt_of_mem w.2)
                        exact .paramNext hfits hwild hlast hkind hafter hchild (ih c.1 hsize hgo)
      next hoff => exact closeBefore_some (by simpa using hoff) (Except.ok.inj h)

end HttpRouting.Node

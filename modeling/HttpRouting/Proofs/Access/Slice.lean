import HttpRouting.Path.FormValue
import HttpRouting.Proofs.Pattern.Grammar
import Mathlib.Data.List.InsertIdx

namespace HttpRouting.Strict

open Bytes

section Slices

variable {β : Type}

/-- The elements from place `k` on. Like every access of this namespace it gives `none` where it is out of
bounds, and so does everything that is written with such accesses. -/
def since (xs : List β) (k : Nat) : Option (List β) := if k ≤ xs.length then some (xs.drop k) else none

def upTo (xs : List β) (k : Nat) : Option (List β) := if k ≤ xs.length then some (xs.take k) else none

def between (xs : List β) (i j : Nat) : Option (List β) :=
  if i ≤ j ∧ j ≤ xs.length then some ((xs.take j).drop i) else none

def lastIndex (xs : List β) : Option Nat := if xs.length = 0 then none else some (xs.length - 1)

/-- A text before byte `k`, which must stand between two characters. -/
def textUpTo : List Char → Nat → Option (List Char)
  | _, 0 => some []
  | [], _ + 1 => none
  | c :: cs, k + 1 =>
      if c.utf8Size ≤ k + 1 then (textUpTo cs (k + 1 - c.utf8Size)).map (c :: ·) else none

variable {xs : List β} {i j k : Nat}

theorem since_eq (h : k ≤ xs.length) : since xs k = some (xs.drop k) := if_pos h

theorem upTo_eq (h : k ≤ xs.length) : upTo xs k = some (xs.take k) := if_pos h

theorem between_eq (hi : i ≤ j) (hj : j ≤ xs.length) : between xs i j = some ((xs.take j).drop i) :=
  if_pos ⟨hi, hj⟩

theorem lastIndex_getElem? (xs : List β) : (lastIndex xs).bind (xs[·]?) = xs.getLast? := by
  rw [lastIndex, List.getLast?_eq_getElem?]
  split
  · next h =>
      rw [List.length_eq_zero_iff.1 h]
      rfl
  · rfl

theorem textUpTo_encode (cs more : List Char) :
    textUpTo (cs ++ more) (Utf8.encode cs).length = some cs := by
  induction cs with
  | nil => cases more <;> rfl
  | cons c cs ih =>
      have hpos := Char.utf8Size_pos c
      have hlength : (Utf8.encode (c :: cs)).length = c.utf8Size + (Utf8.encode cs).length := by
        rw [Utf8.encode, List.flatMap_cons, List.length_append, String.length_utf8EncodeChar]
        rfl
      obtain ⟨k, hk⟩ : ∃ k, c.utf8Size + (Utf8.encode cs).length = k + 1 :=
        Nat.exists_eq_succ_of_ne_zero (by omega)
      have hrest : k + 1 - c.utf8Size = (Utf8.encode cs).length := by omega
      rw [hlength, hk, List.cons_append, textUpTo, if_pos (by omega), hrest, ih]
      rfl

end Slices

section Patterns

def find (pattern : Bytes) : Option (Except BadEscape (Option Wildcard)) :=
  match Wildcard.find? pattern with
  | .ok (some w) => do
      let after ← since pattern (w.start + 1)
      let token ← between pattern w.start (w.start + 1 + (firstSegment after).length)
      some (.ok (some { w with token }))
  | found => some found

theorem find_some {pattern : Bytes} {w : Wildcard} (h : Wildcard.find? pattern = .ok (some w)) :
    ∃ text marker rest, pattern = text ++ marker :: rest ∧
      w = Wildcard.opened text.length marker rest := by
  obtain ⟨text, marker, rest, heq, -, hw, -⟩ := (Pattern.findFrom_grammar 0 pattern).2 w h
  rw [Nat.zero_add] at hw
  exact ⟨text, marker, rest, heq, hw⟩

theorem length_firstSegment_le (bs : Bytes) : (firstSegment bs).length ≤ bs.length :=
  (List.takeWhile_sublist _).length_le

theorem stop_le {pattern : Bytes} {w : Wildcard} (h : Wildcard.find? pattern = .ok (some w)) :
    w.stop ≤ pattern.length := by
  obtain ⟨text, marker, rest, rfl, rfl⟩ := find_some h
  have := length_firstSegment_le rest
  simp only [Wildcard.stop, Wildcard.opened, List.length_append, List.length_cons]
  omega

theorem take_token {pattern : Bytes} {w : Wildcard} (h : Wildcard.find? pattern = .ok (some w)) :
    (pattern.drop w.start).take w.token.length = w.token := by
  obtain ⟨text, marker, rest, rfl, rfl⟩ := find_some h
  have hrest := (segment_append_rest rest).symm
  simp only [Wildcard.opened, List.drop_left, List.length_cons, List.take_succ_cons]
  conv => lhs; rw [hrest, List.take_left' (by rw [← hrest])]

theorem between_token {pattern : Bytes} {w : Wildcard} (h : Wildcard.find? pattern = .ok (some w)) :
    between pattern w.start w.stop = some w.token := by
  have hstart : w.start ≤ w.stop := Nat.le_add_right ..
  rw [between_eq hstart (stop_le h), List.drop_take, Wildcard.stop, Nat.add_sub_cancel_left,
    take_token h]

theorem find_eq (pattern : Bytes) : find pattern = some (Wildcard.find? pattern) := by
  rw [find]
  split
  · next w h =>
      have htoken := between_token h
      obtain ⟨text, marker, rest, rfl, rfl⟩ := find_some h
      have hafter : since (text ++ marker :: rest) (text.length + 1) = some rest := by
        rw [since_eq (by simp)]
        simp
      have hstop : text.length + 1 + (firstSegment rest).length =
          (Wildcard.opened text.length marker rest).stop := by
        simp only [Wildcard.stop, Wildcard.opened, List.length_cons]
        omega
      have hstart : (Wildcard.opened text.length marker rest).start = text.length := rfl
      rw [hstart] at htoken ⊢
      rw [hafter, h]
      dsimp only [Option.bind_eq_bind, Option.bind_some]
      rw [hstop, htoken]
      rfl
  · rfl

def checkWildcard (route : String) (rest : Bytes) (w : Wildcard) : Option (Except RouteError Unit) :=
  if !w.valid then some (.error (.multipleWildcards (asText w.token) route))
  else if w.token.length < 2 then some (.error (.unnamedWildcard route))
  else if !w.isCatchAll then some (.ok ())
  else if w.stop ≠ rest.length then some (.error (.catchAllNotLast route))
  else if w.start = 0 then some (.error (.missingSlashBeforeCatchAll route))
  else do
    let before ← rest[w.start - 1]?
    some (if before = slash then .ok () else .error (.missingSlashBeforeCatchAll route))

theorem checkWildcard_eq (route : String) {rest : Bytes} {w : Wildcard}
    (h : Wildcard.find? rest = .ok (some w)) :
    checkWildcard route rest w = some (Pattern.checkWildcard route rest w) := by
  have hle := stop_le h
  rw [checkWildcard, Pattern.checkWildcard]
  by_cases hvalid : w.valid = true
  · by_cases htoken : w.token.length < 2
    · simp [htoken, hvalid]
    by_cases hstar : w.isCatchAll = true
    · by_cases hstop : w.stop = rest.length
      · by_cases hstart : w.start = 0
        · simp [htoken, hvalid, hstar, hstop, hstart]
        have hlt : w.start - 1 < rest.length := by
          rw [Wildcard.stop] at hstop
          omega
        rw [List.getElem?_eq_getElem hlt]
        by_cases hslash : rest[w.start - 1] = slash <;>
          simp [htoken, hvalid, hstar, hstop, hstart, hslash]
      · simp [htoken, hvalid, hstar, hstop]
    · simp [htoken, hvalid, hstar]
  · simp [hvalid]

theorem two_le_of_checkWildcard {route : String} {rest : Bytes} {w : Wildcard}
    (h : checkWildcard route rest w = some (.ok ())) : 2 ≤ w.token.length := by
  unfold checkWildcard at h
  split at h
  · simp at h
  · split at h
    · simp at h
    · omega

def checkFrom (route : String) (rest : Bytes) : Option (Except RouteError Unit) :=
  if rest = [] then some (.ok ())
  else
    match find rest with
    | none => none
    | some (.error _) => some (.error (.invalidEscape route))
    | some (.ok none) => some (.ok ())
    | some (.ok (some w)) =>
        match _ : checkWildcard route rest w with
        | none => none
        | some (.error e) => some (.error e)
        | some (.ok ()) =>
            match _ : since rest w.stop with
            | none => none
            | some after => checkFrom route after
termination_by rest.length
decreasing_by
  rename_i hw hafter
  have := two_le_of_checkWildcard hw
  unfold since at hafter
  split at hafter
  · next hle =>
      cases hafter
      rw [Wildcard.stop] at hle
      simp only [List.length_drop, Wildcard.stop]
      omega
  · cases hafter

theorem checkFrom_eq (route : String) (rest : Bytes) :
    checkFrom route rest = some (Pattern.checkFrom route rest) := by
  fun_induction Pattern.checkFrom route rest with
  | case1 =>
      rw [checkFrom]
      rfl
  | case2 rest hne e hfind =>
      rw [checkFrom, if_neg hne, find_eq, hfind]
  | case3 rest hne hfind =>
      rw [checkFrom, if_neg hne, find_eq, hfind]
  | case4 rest hne w hfind e hcheck =>
      rw [checkFrom, if_neg hne, find_eq, hfind]
      dsimp only
      rw [checkWildcard_eq route hfind, hcheck]
  | case5 rest hne w hfind hcheck ih =>
      rw [checkFrom, if_neg hne, find_eq, hfind]
      dsimp only
      rw [checkWildcard_eq route hfind, hcheck]
      dsimp only
      rw [since_eq (stop_le hfind)]
      exact ih

def check (route : String) : Option (Except RouteError Unit) := checkFrom route (utf8 route)

theorem check_eq (route : String) : check route = some (Pattern.check route) := checkFrom_eq ..

/-- How far a pattern from byte `i` on agrees with a literal text from byte `j` on. -/
def overlap (pattern stored : Bytes) (i j : Nat) : Option (Nat × Nat) :=
  if i < pattern.length ∧ j < stored.length then do
    let rest ← since pattern i
    match Pattern.nextLiteral? rest with
    | none => some (i, j)
    | some (b, _) =>
        let first ← pattern[i]?
        let s ← stored[j]?
        let width := if b = colon ∧ first = backslash then 2 else 1
        if b = s then overlap pattern stored (i + width) (j + 1) else some (i, j)
  else some (i, j)
termination_by stored.length - j

theorem nextLiteral?_width {a b : UInt8} {rest : Bytes} {width : Nat}
    (h : Pattern.nextLiteral? (a :: rest) = some (b, width)) :
    (if b = colon ∧ a = backslash then 2 else 1) = width ∧ width ≤ (a :: rest).length := by
  rw [Pattern.nextLiteral?] at h
  split at h
  · next hescape =>
      cases h
      cases rest with
      | nil => cases hescape.2
      | cons c rest => exact ⟨if_pos ⟨rfl, hescape.1⟩, by simp⟩
  · split at h
    · cases h
    · next hmarker =>
        cases h
        refine ⟨if_neg fun hcolon => ?_, by simp⟩
        rw [hcolon.1] at hmarker
        exact hmarker rfl

theorem overlap_eq {pattern stored : Bytes} {i j : Nat} (hi : i ≤ pattern.length)
    (hj : j ≤ stored.length) {used common : Nat}
    (h : Pattern.overlap (pattern.drop i) (stored.drop j) = (used, common)) :
    overlap pattern stored i j = some (i + used, j + common) ∧ i + used ≤ pattern.length := by
  induction hlength : stored.length - j generalizing i j used common with
  | zero =>
      have hnil : stored.drop j = [] := List.drop_eq_nil_of_le (by omega)
      rw [hnil, Pattern.overlap] at h
      cases h
      rw [overlap, if_neg (by omega)]
      exact ⟨rfl, hi⟩
  | succ m ih =>
      have hj : j < stored.length := by omega
      rw [List.drop_eq_getElem_cons hj, Pattern.overlap] at h
      by_cases hi' : i < pattern.length
      · have hcons := List.drop_eq_getElem_cons hi'
        rw [overlap, if_pos ⟨hi', hj⟩, since_eq hi, List.getElem?_eq_getElem hi',
          List.getElem?_eq_getElem hj]
        dsimp only [Option.bind_eq_bind, Option.bind_some]
        cases hb : Pattern.nextLiteral? (pattern.drop i) with
        | none =>
            rw [hb] at h
            cases h
            exact ⟨rfl, hi⟩
        | some next =>
            obtain ⟨b, width⟩ := next
            have hwidth := hb
            rw [hcons] at hwidth
            obtain ⟨hwidth, hle⟩ := nextLiteral?_width hwidth
            rw [← hcons, List.length_drop] at hle
            rw [hb] at h
            dsimp only at h ⊢
            rw [hwidth]
            split at h
            · next hsame =>
                rw [List.drop_drop] at h
                obtain ⟨hrest, hused⟩ := ih (i := i + width) (j := j + 1) (by omega) (by omega) rfl
                  (by omega)
                cases h
                rw [if_pos hsame, hrest]
                exact ⟨by congr 2 <;> omega, by omega⟩
            · next hdiffers =>
                cases h
                rw [if_neg hdiffers]
                exact ⟨rfl, hi⟩
      · rw [List.drop_eq_nil_of_le (by omega)] at h
        cases h
        rw [overlap, if_neg (by omega)]
        exact ⟨rfl, hi⟩

def unescape (pattern : Bytes) (i : Nat) : Option Bytes :=
  if i < pattern.length then do
    let b ← pattern[i]?
    if b = backslash ∧ pattern[i + 1]? = some colon then
      return colon :: (← unescape pattern (i + 2))
    else return b :: (← unescape pattern (i + 1))
  else some []
termination_by pattern.length - i

theorem unescape_eq (pattern : Bytes) (i : Nat) :
    unescape pattern i = some (Pattern.unescape (pattern.drop i)) := by
  induction hlength : pattern.length - i using Nat.strongRecOn generalizing i with
  | ind length ih =>
      rw [unescape]
      by_cases hi : i < pattern.length
      · have hcons := List.drop_eq_getElem_cons hi
        have hone := ih _ (by omega) (i + 1) rfl
        rw [if_pos hi, List.getElem?_eq_getElem hi, hcons, Pattern.unescape.eq_def]
        dsimp only [Option.bind_eq_bind, Option.bind_some]
        by_cases hb : pattern[i] = backslash
        · cases hnext : pattern[i + 1]? with
          | none =>
              rw [List.getElem?_eq_none_iff] at hnext
              rw [hone, List.drop_eq_nil_of_le hnext, if_pos hb, if_neg (by simp)]
              rfl
          | some c =>
              obtain ⟨hlt, rfl⟩ := List.getElem?_eq_some_iff.1 hnext
              have hcons' := List.drop_eq_getElem_cons hlt
              rw [hone, hcons', if_pos hb]
              by_cases hc : pattern[i + 1] = colon
              · rw [ih _ (by omega) (i + 2) rfl, if_pos ⟨hb, congrArg some hc⟩]
                dsimp only
                rw [if_pos hc]
                rfl
              · rw [if_neg (fun h => hc (Option.some.inj h.2))]
                dsimp only
                rw [if_neg hc]
                rfl
        · rw [hone, if_neg (fun h => hb h.1), if_neg hb]
          rfl
      · rw [if_neg hi, List.drop_eq_nil_of_le (by omega)]
        rfl

end Patterns

section FormValues

open FormValue

def escapes (bytes : Bytes) (i : Nat) : Option Bool :=
  if i < bytes.length then do
    let b ← bytes[i]?
    if b = percent then
      match (bytes.drop (i + 1)).take 2 with
      | [high, low] =>
          if (hexDigit? high).isSome && (hexDigit? low).isSome then escapes bytes (i + 3)
          else return false
      | _ => return false
    else escapes bytes (i + 1)
  else some true
termination_by bytes.length - i

theorem escapes_eq (bytes : Bytes) (i : Nat) : escapes bytes i = some (wellEscaped (bytes.drop i)) := by
  induction hlength : bytes.length - i using Nat.strongRecOn generalizing i with
  | ind length ih =>
      rw [escapes]
      by_cases hi : i < bytes.length
      · have hcons := List.drop_eq_getElem_cons hi
        rw [if_pos hi, List.getElem?_eq_getElem hi, hcons, wellEscaped.eq_def]
        dsimp only [Option.bind_eq_bind, Option.bind_some]
        by_cases hpercent : bytes[i] = percent
        · rw [if_pos hpercent, if_pos hpercent]
          have hthree := ih _ (by omega) (i + 3) rfl
          have hdrop : bytes.drop (i + 3) = (bytes.drop (i + 1)).drop 2 := by rw [List.drop_drop]
          obtain ⟨after, hafter⟩ : ∃ after, bytes.drop (i + 1) = after := ⟨_, rfl⟩
          rw [hdrop, hafter] at hthree
          rw [hafter]
          rcases after with _ | ⟨high, _ | ⟨low, rest⟩⟩
          · rfl
          · rfl
          · dsimp only [List.take, List.drop] at hthree ⊢
            rw [hthree]
            cases hexDigit? high <;> cases hexDigit? low <;> rfl
        · rw [if_neg hpercent, if_neg hpercent, ih _ (by omega) (i + 1) rfl]
      · rw [if_neg hi, List.drop_eq_nil_of_le (by omega)]
        rfl

def decode (raw : String) : Option String := do
  if ← escapes (utf8 raw) 0 then return FormValue.decode raw else return raw

theorem decode_eq (raw : String) : decode raw = some (FormValue.decode raw) := by
  rw [decode, escapes_eq, List.drop_zero, FormValue.decode, decodeBy]
  cases wellEscaped (utf8 raw) with
  | true => rfl
  | false => simp

end FormValues

end HttpRouting.Strict

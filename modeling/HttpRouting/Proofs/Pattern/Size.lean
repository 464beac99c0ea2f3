import HttpRouting.Proofs.Pattern.Grammar

namespace HttpRouting.Pattern

open Bytes Utf8

/-- The markers in the text of a route, those in front of no wildcard among them. -/
def markers (route : String) : Nat := route.toList.countP fun c => c == ':' || c == '*'

theorem paramCount_eq (route : String) : paramCount route = min (markers route) countLimit := rfl

theorem ofNat_beq {c d : Char} (hc : c.val.toNat ≤ 0x7F) (hd : d.val.toNat ≤ 0x7F) :
    (UInt8.ofNat c.val.toNat == UInt8.ofNat d.val.toNat) = (c == d) := by
  rw [Bool.eq_iff_iff, beq_iff_eq, beq_iff_eq]
  constructor
  · intro h
    have hval := congrArg UInt8.toNat h
    rw [toNat_ofNat (by omega), toNat_ofNat (by omega)] at hval
    exact Char.ext (UInt32.toNat_inj.1 hval)
  · rintro rfl
    rfl

theorem marker_low {b : UInt8} (h : Wildcard.isMarker b = true) : b < 0x80 := by
  rw [Wildcard.isMarker, Bool.or_eq_true, beq_iff_eq, beq_iff_eq] at h
  rcases h with rfl | rfl <;> decide

theorem countP_encode (cs : List Char) :
    (encode cs).countP Wildcard.isMarker = cs.countP fun c => c == ':' || c == '*' := by
  induction cs with
  | nil => rfl
  | cons c cs ih =>
      rw [encode_cons, List.countP_append, ih, List.countP_cons, Nat.add_comm]
      congr 1
      by_cases hc : c.val.toNat ≤ 0x7F
      · have hmarker : Wildcard.isMarker (UInt8.ofNat c.val.toNat) = (c == ':' || c == '*') := by
          have hcolon := ofNat_beq (d := ':') hc (by decide)
          have hstar := ofNat_beq (d := '*') hc (by decide)
          rw [← hcolon, ← hstar]
          rfl
        rw [encodeChar_low hc, List.countP_singleton, hmarker]
      · have hchar : (c == ':' || c == '*') = false := by
          rw [Bool.or_eq_false_iff, beq_eq_false_iff_ne, beq_eq_false_iff_ne]
          constructor <;>
            · rintro rfl
              exact hc (by decide)
        rw [hchar, if_neg Bool.false_ne_true, List.countP_eq_zero]
        intro b hb hmarker
        exact encodeChar_high hc b hb (marker_low hmarker)

theorem wildcards_le {slashed : Bool} {path : Bytes} (h : Grammar slashed path) :
    (wildcardNames (elements path)).length ≤ path.countP Wildcard.isMarker := by
  induction h with
  | done => rw [elements_nil]; exact Nat.zero_le _
  | lone => rw [elements_byte (by simp) (by decide) (by decide), elements_nil]; exact Nat.zero_le _
  | escaped _ ih =>
      rw [elements_escape, wildcardNames]
      exact Nat.le_trans ih (List.sublist_append_right [backslash, colon] _).countP_le
  | byte hb hmarker _ ih =>
      obtain ⟨hcolon, hstar⟩ := not_marker hmarker
      rw [elements_byte (fun h => hb h.1) hcolon hstar, wildcardNames]
      exact Nat.le_trans ih (List.sublist_cons_self _ _).countP_le
  | param hname hstop _ ih =>
      rw [elements_param hname hstop, wildcardNames, List.length_cons,
        List.countP_cons_of_pos rfl, List.countP_append]
      omega
  | catchAll hname =>
      rw [elements_catchAll hname, List.countP_cons_of_pos rfl]
      exact Nat.succ_le_succ (Nat.zero_le _)

theorem wildcards_le_markers {route : String} (h : check route = .ok ()) :
    (wildcardNames (ofRoute route)).length ≤ markers route := by
  rw [markers, ← countP_encode]
  exact wildcards_le (grammar_of_check h)

end HttpRouting.Pattern

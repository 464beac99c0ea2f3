import HttpRouting.Bytes

namespace HttpRouting

namespace Utf8

def replacement : Char := '\uFFFD'

def encode (cs : List Char) : Bytes := cs.flatMap String.utf8EncodeChar

structure Lead where
  owed : Nat
  low : UInt8 := 0x80
  high : UInt8 := 0xBF
  payload : Nat

def lead? (b : UInt8) : Option Lead :=
  if b < 0x80 then some { owed := 0, payload := b.toNat }
  else if b < 0xC2 then none
  else if b < 0xE0 then some { owed := 1, payload := b.toNat % 32 }
  else if b = 0xE0 then some { owed := 2, low := 0xA0, payload := 0 }
  else if b = 0xED then some { owed := 2, high := 0x9F, payload := 13 }
  else if b < 0xF0 then some { owed := 2, payload := b.toNat % 16 }
  else if b = 0xF0 then some { owed := 3, low := 0x90, payload := 0 }
  else if b < 0xF4 then some { owed := 3, payload := b.toNat % 8 }
  else if b = 0xF4 then some { owed := 3, high := 0x8F, payload := 4 }
  else none

/-- Reads the bytes still owed. The bytes after the character are returned, or, where an owed byte
is missing, the bytes after the ill-formed part. -/
def finish : (owed : Nat) → (low high : UInt8) → (payload : Nat) → Bytes → Option Char × Bytes
  | 0, _, _, payload, bs => (some (Char.ofNat payload), bs)
  | _ + 1, _, _, _, [] => (none, [])
  | owed + 1, low, high, payload, b :: bs =>
      if low ≤ b ∧ b ≤ high then finish owed 0x80 0xBF (payload * 64 + b.toNat % 64) bs
      else (none, b :: bs)

/-- The character that starts with `b`, or `none` for a maximal ill-formed part, and the rest. -/
def front (b : UInt8) (bs : Bytes) : Option Char × Bytes :=
  match lead? b with
  | some l => finish l.owed l.low l.high l.payload bs
  | none => (none, bs)

theorem finish_length_le (owed : Nat) (low high : UInt8) (payload : Nat) (bs : Bytes) :
    (finish owed low high payload bs).2.length ≤ bs.length := by
  fun_induction finish owed low high payload bs with
  | case1 | case2 | case4 => simp
  | case3 owed low high payload b bs _ ih => exact Nat.le_succ_of_le ih

theorem front_length_le (b : UInt8) (bs : Bytes) : (front b bs).2.length ≤ bs.length := by
  unfold front
  split
  · exact finish_length_le ..
  · exact Nat.le_refl _

def decode? : Bytes → Option (List Char)
  | [] => some []
  | b :: bs =>
      match (front b bs).1 with
      | some c => (decode? (front b bs).2).map (c :: ·)
      | none => none
termination_by bs => bs.length
decreasing_by exact Nat.lt_succ_of_le (front_length_le b bs)

def decodeLossy : Bytes → List Char
  | [] => []
  | b :: bs => (front b bs).1.getD replacement :: decodeLossy (front b bs).2
termination_by bs => bs.length
decreasing_by exact Nat.lt_succ_of_le (front_length_le b bs)

def first? : Bytes → Option Char
  | [] => none
  | b :: bs => (front b bs).1

end Utf8

def utf8 (s : String) : Bytes := Utf8.encode s.toList

/-- The text of some bytes, with U+FFFD for each maximal ill-formed part. -/
def asText (bs : Bytes) : String := String.ofList (Utf8.decodeLossy bs)

def text? (bs : Bytes) : Option String := (Utf8.decode? bs).map String.ofList

end HttpRouting

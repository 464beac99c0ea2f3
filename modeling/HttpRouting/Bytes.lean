namespace HttpRouting

abbrev Bytes := List UInt8

namespace Bytes

def slash : UInt8 := 47

def colon : UInt8 := 58

def star : UInt8 := 42

def backslash : UInt8 := 92

def commonLength : Bytes → Bytes → Nat
  | a :: as, b :: bs => if a = b then commonLength as bs + 1 else 0
  | _, _ => 0

def firstSegment (bs : Bytes) : Bytes := bs.takeWhile (· ≠ slash)

theorem segment_append_rest (bs : Bytes) : firstSegment bs ++ bs.dropWhile (· ≠ slash) = bs :=
  List.takeWhile_append_dropWhile

/-- What follows a leading part. -/
def strip? : (label bs : Bytes) → Option Bytes
  | [], bs => some bs
  | _ :: _, [] => none
  | a :: label, b :: bs => if a = b then strip? label bs else none

end Bytes

end HttpRouting

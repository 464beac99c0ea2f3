import HttpRouting.Text.CaseMap

namespace HttpRouting

inductive Method
  | get
  | post
  | put
  | delete
  | patch
  | head
  | options
  | connect
  | trace
  | purge
  deriving DecidableEq, Repr

namespace Method

def name : Method → String
  | get => "GET"
  | post => "POST"
  | put => "PUT"
  | delete => "DELETE"
  | patch => "PATCH"
  | head => "HEAD"
  | options => "OPTIONS"
  | connect => "CONNECT"
  | trace => "TRACE"
  | purge => "PURGE"

def all : List Method :=
  [get, post, put, delete, patch, head, options, connect, trace, purge]

def ofName? (name : String) : Option Method := all.find? (·.name == upperText name)

def bit (m : Method) : Nat := all.idxOf m

end Method

/-- A set of methods, one bit each. -/
structure MethodSet where
  bits : BitVec 10
  deriving DecidableEq

namespace MethodSet

def empty : MethodSet := ⟨0⟩

def single (m : Method) : MethodSet := ⟨BitVec.twoPow 10 m.bit⟩

def union (s t : MethodSet) : MethodSet := ⟨s.bits ||| t.bits⟩

def ofList (ms : List Method) : MethodSet := ms.foldl (fun s m => s.union (single m)) empty

def ofBits (n : Nat) : MethodSet := ⟨BitVec.ofNat 10 n⟩

def ofNames (names : List String) : MethodSet := ofList (names.filterMap Method.ofName?)

def any : MethodSet := ofList [.get, .post, .put, .delete, .patch, .head, .options]

def contains (s : MethodSet) (m : Method) : Bool := s.bits.getLsbD m.bit

def isEmpty (s : MethodSet) : Bool := s.bits == 0

def isSubset (s t : MethodSet) : Bool := s.bits &&& t.bits == s.bits

def members (s : MethodSet) : List Method := Method.all.filter s.contains

def names (s : MethodSet) : List String := s.members.map (·.name)

def soleName? (s : MethodSet) : Option String :=
  match s.names with
  | [name] => some name
  | _ => none

end MethodSet

end HttpRouting

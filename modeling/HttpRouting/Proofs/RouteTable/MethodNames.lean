import HttpRouting.RouteTable.Basic
import Mathlib.Data.List.Forall2

namespace HttpRouting

namespace Method

theorem bit_lt (m : Method) : m.bit < 10 := by cases m <;> decide

theorem exists_bit : ∀ i < 10, ∃ m ∈ all, m.bit = i := by decide

theorem bit_injective {m m' : Method} (h : m.bit = m'.bit) : m = m' := by
  have hall : ∀ a ∈ all, ∀ b ∈ all, a.bit = b.bit → a = b := by decide
  have hmem (a : Method) : a ∈ all := by cases a <;> decide
  exact hall m (hmem m) m' (hmem m') h

theorem upperChars_toUpper (c : Char) : upperChars c.toUpper = upperChars c := by
  have hletters : ∀ k < 26, upperChars (Char.ofNat (97 + k)).toUpper =
      upperChars (Char.ofNat (97 + k)) := by decide +kernel
  by_cases h : 'a'.val ≤ c.val ∧ c.val ≤ 'z'.val
  · have hlow : 97 ≤ c.toNat := UInt32.le_iff_toNat_le.1 h.1
    have hhigh : c.toNat ≤ 122 := UInt32.le_iff_toNat_le.1 h.2
    have hletter := hletters (c.toNat - 97) (by omega)
    rwa [Nat.add_sub_cancel' hlow, Char.ofNat_toNat] at hletter
  · exact congrArg upperChars (dif_neg h)

theorem upperText_toUpper (s : String) : upperText s.toUpper = upperText s := by
  rw [upperText, upperText, String.toUpper, String.toList_map, List.flatMap_map]
  simp only [upperChars_toUpper]

theorem ofName?_toUpper (name : String) : ofName? name.toUpper = ofName? name := by
  rw [ofName?, ofName?, upperText_toUpper]

end Method

namespace MethodSet

theorem contains_empty (m : Method) : empty.contains m = false := BitVec.getLsbD_zero

theorem contains_union (s t : MethodSet) (m : Method) :
    (s.union t).contains m = (s.contains m || t.contains m) := BitVec.getLsbD_or

theorem contains_single (m m' : Method) : (single m).contains m' = decide (m = m') := by
  rw [contains, single, BitVec.getLsbD_twoPow, decide_eq_true m.bit_lt, Bool.true_and]
  exact decide_eq_decide.2 ⟨Method.bit_injective, congrArg Method.bit⟩

theorem contains_ofList {ms : List Method} {m : Method} :
    (ofList ms).contains m = true ↔ m ∈ ms := by
  have hfold (s : MethodSet) : (ms.foldl (fun s m => s.union (single m)) s).contains m = true ↔
      s.contains m = true ∨ m ∈ ms := by
    induction ms generalizing s with
    | nil => simp
    | cons m' ms ih =>
        rw [List.foldl_cons, ih, contains_union, contains_single, Bool.or_eq_true, decide_eq_true_eq,
          List.mem_cons, or_assoc, eq_comm (a := m')]
  rw [ofList, hfold, contains_empty]
  simp

theorem ext_contains {s t : MethodSet} (h : ∀ m, s.contains m = true ↔ t.contains m = true) :
    s = t := by
  obtain ⟨bits⟩ := s
  obtain ⟨bits'⟩ := t
  congr 1
  apply BitVec.eq_of_getLsbD_eq
  intro i hi
  obtain ⟨m, -, rfl⟩ := Method.exists_bit i hi
  exact Bool.eq_iff_iff.2 (h m)

end MethodSet

/-- The same names in any order and any ASCII case, repeated or not. -/
def SameNames (names names' : List String) : Prop :=
  ∀ name, name ∈ names.map String.toUpper ↔ name ∈ names'.map String.toUpper

theorem SameNames.symm {names names' : List String} (h : SameNames names names') :
    SameNames names' names := fun name => (h name).symm

namespace RouteEntry

def Named (names : List String) (ms : List Method) : Prop :=
  List.Forall₂ (fun name m => Method.ofName? name = some m) names ms

theorem Named.parse {names : List String} {ms : List Method} (h : Named names ms) :
    methodSet.parse names = .ok ms := by
  induction h with
  | nil => rfl
  | cons hname _ ih =>
      rw [methodSet.parse, hname, ih]
      rfl

theorem named_of_parse {names : List String} {ms : List Method}
    (h : methodSet.parse names = .ok ms) : Named names ms := by
  induction names generalizing ms with
  | nil =>
      cases h
      exact .nil
  | cons name names ih =>
      rw [methodSet.parse] at h
      split at h
      · next m hname =>
          cases hparse : methodSet.parse names with
          | error e =>
              rw [hparse] at h
              cases h
          | ok ms' =>
              rw [hparse] at h
              cases h
              exact .cons hname (ih hparse)
      · cases h

theorem Named.mem_iff {names : List String} {ms : List Method} (h : Named names ms) (m : Method) :
    m ∈ ms ↔ ∃ name ∈ names, Method.ofName? name = some m := by
  induction h with
  | nil => simp
  | cons hname _ ih => simp [ih, hname, eq_comm]

theorem named_of_known {names : List String} (h : ∀ name ∈ names, (Method.ofName? name).isSome = true) :
    ∃ ms, Named names ms := by
  induction names with
  | nil => exact ⟨[], .nil⟩
  | cons name names ih =>
      obtain ⟨m, hm⟩ := Option.isSome_iff_exists.1 (h name List.mem_cons_self)
      obtain ⟨ms, hms⟩ := ih fun name hname => h name (List.mem_cons_of_mem _ hname)
      exact ⟨m :: ms, .cons hm hms⟩

theorem Named.known {names : List String} {ms : List Method} (h : Named names ms) :
    ∀ name ∈ names, (Method.ofName? name).isSome = true := by
  induction h with
  | nil => exact nofun
  | cons hname _ ih =>
      intro name hmem
      rcases List.mem_cons.1 hmem with rfl | hmem
      · rw [hname]
        rfl
      · exact ih name hmem

end RouteEntry

theorem SameNames.exists_name {names names' : List String} (h : SameNames names names') {name : String}
    (hname : name ∈ names) : ∃ name' ∈ names', Method.ofName? name' = Method.ofName? name := by
  obtain ⟨name', hname', hsame⟩ := List.mem_map.1 ((h _).1 (List.mem_map_of_mem hname))
  refine ⟨name', hname', ?_⟩
  rw [← Method.ofName?_toUpper name', hsame, Method.ofName?_toUpper]

theorem SameNames.isEmpty {names names' : List String} (h : SameNames names names')
    (hnil : names.isEmpty = true) : names'.isEmpty = true := by
  rw [List.isEmpty_iff] at hnil ⊢
  rw [List.eq_nil_iff_forall_not_mem]
  intro name' hname'
  obtain ⟨name, hname, -⟩ := h.symm.exists_name hname'
  rw [hnil] at hname
  cases hname

theorem SameNames.named {names names' : List String} (h : SameNames names names') {ms : List Method}
    (hms : RouteEntry.Named names ms) : ∃ ms', RouteEntry.Named names' ms' ∧ ∀ m, m ∈ ms' ↔ m ∈ ms := by
  obtain ⟨ms', hms'⟩ := @RouteEntry.named_of_known names' fun name' hname' => by
    obtain ⟨name, hname, hsame⟩ := h.symm.exists_name hname'
    rw [← hsame]
    exact hms.known name hname
  refine ⟨ms', hms', fun m => ?_⟩
  rw [hms.mem_iff, hms'.mem_iff]
  constructor
  · rintro ⟨name', hname', hm⟩
    obtain ⟨name, hname, hsame⟩ := h.symm.exists_name hname'
    exact ⟨name, hname, hsame.trans hm⟩
  · rintro ⟨name, hname, hm⟩
    obtain ⟨name', hname', hsame⟩ := h.exists_name hname
    exact ⟨name', hname', hsame.trans hm⟩

namespace RouteEntry

/-- Routes with the same names of methods are registered for the same methods. -/
theorem methodSet_same {entry entry' : RouteEntry} (h : SameNames entry.methods entry'.methods)
    {ms : MethodSet} (hms : entry.methodSet = .ok ms) : entry'.methodSet = .ok ms := by
  rw [methodSet] at hms ⊢
  split at hms
  · next hempty => rw [if_pos (h.isEmpty hempty), hms]
  · next hempty =>
      rw [if_neg (mt h.symm.isEmpty hempty)]
      cases hparse : methodSet.parse entry.methods with
      | error e =>
          rw [hparse] at hms
          cases hms
      | ok parsed =>
          rw [hparse] at hms
          cases hms
          obtain ⟨parsed', hnamed', hsame⟩ := h.named (named_of_parse hparse)
          rw [hnamed'.parse]
          refine congrArg Except.ok (MethodSet.ext_contains fun m => ?_)
          rw [MethodSet.contains_ofList, MethodSet.contains_ofList, hsame]

end RouteEntry

end HttpRouting

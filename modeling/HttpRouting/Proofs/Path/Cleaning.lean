import HttpRouting.Path.Clean

namespace HttpRouting.Path

/-- What `..` leaves of the names kept before it, the latest first. Above all names a relative path keeps
it. -/
def back (rooted : Bool) : List (List Char) → List (List Char)
  | [] => if rooted then [] else [['.', '.']]
  | last :: kept => if last = ['.', '.'] then ['.', '.'] :: last :: kept else kept

def keep (rooted : Bool) (kept : List (List Char)) (name : List Char) : List (List Char) :=
  if name = [] ∨ name = ['.'] then kept
  else if name = ['.', '.'] then back rooted kept
  else name :: kept

/-- The names that are kept of a path behind those kept before it. -/
def stack (rooted : Bool) (kept : List (List Char)) (cs : List Char) : List (List Char) :=
  (cs.splitOn '/').foldl (keep rooted) kept

def written : List (List Char) → List Char
  | [] => []
  | name :: kept => if kept = [] then name else written kept ++ '/' :: name

structure Proper (name : List Char) : Prop where
  nonempty : name ≠ []
  whole : '/' ∉ name
  not_dot : name ≠ ['.']
  not_dots : name ≠ ['.', '.']

theorem Proper.room_pos {name : List Char} (h : Proper name) (room joint : Nat) :
    0 < room + name.length + joint := by
  have := List.length_pos_iff.2 h.nonempty
  omega

section Stack

variable {rooted : Bool} {kept : List (List Char)} {name cs ds : List Char}

theorem keep_skip (h : name = [] ∨ name = ['.']) : keep rooted kept name = kept := if_pos h

theorem keep_dots (rooted : Bool) (kept : List (List Char)) :
    keep rooted kept ['.', '.'] = back rooted kept := rfl

theorem keep_proper (h : Proper name) (rooted : Bool) (kept : List (List Char)) :
    keep rooted kept name = name :: kept := by
  rw [keep, if_neg (not_or_intro h.nonempty h.not_dot), if_neg h.not_dots]

theorem stack_name (h : '/' ∉ name) (rooted : Bool) (kept : List (List Char)) :
    stack rooted kept name = keep rooted kept name := by
  rw [stack, List.splitOn_eq_singleton h]
  rfl

theorem stack_nil (rooted : Bool) (kept : List (List Char)) : stack rooted kept [] = kept := by
  rw [stack_name List.not_mem_nil, keep_skip (.inl rfl)]

theorem stack_append (rooted : Bool) (kept : List (List Char)) (cs ds : List Char) :
    stack rooted kept (cs ++ '/' :: ds) = stack rooted (stack rooted kept cs) ds := by
  rw [stack, List.splitOn_append_cons_self, List.foldl_append]
  rfl

theorem stack_slash (rooted : Bool) (kept : List (List Char)) (cs : List Char) :
    stack rooted kept ('/' :: cs) = stack rooted kept cs := by
  have h := stack_append rooted kept [] cs
  rwa [stack_nil] at h

theorem whole_takeWhile {c : Char} (hc : c ≠ '/') (cs : List Char) :
    '/' ∉ c :: cs.takeWhile (· ≠ '/') := by
  rw [List.mem_cons, not_or]
  exact ⟨Ne.symm hc, fun hmem => by simpa using List.all_eq_true.1 List.all_takeWhile _ hmem⟩

theorem stack_cons {c : Char} (hc : c ≠ '/') (rooted : Bool) (kept : List (List Char)) (cs : List Char) :
    stack rooted kept (c :: cs) =
      stack rooted (keep rooted kept (c :: cs.takeWhile (· ≠ '/'))) (cs.dropWhile (· ≠ '/')) := by
  have hwhole := whole_takeWhile hc cs
  have hsplit : c :: cs = (c :: cs.takeWhile (· ≠ '/')) ++ cs.dropWhile (· ≠ '/') := by simp
  rw [hsplit]
  cases hrest : cs.dropWhile (· ≠ '/') with
  | nil => rw [List.append_nil, stack_name hwhole, stack_nil]
  | cons d ds =>
      obtain rfl : d = '/' := by
        have hd := List.head?_dropWhile_not (· ≠ '/') cs
        rw [hrest] at hd
        simpa using hd
      rw [stack_append, stack_name hwhole, stack_slash]

theorem stack_written_cons {name : List Char} (hwhole : '/' ∉ name)
    (h : stack rooted [] (written kept) = kept) :
    stack rooted [] (written (name :: kept)) = keep rooted kept name := by
  rw [written]
  split
  · next hnil => rw [stack_name hwhole, hnil]
  · rw [stack_append, h, stack_name hwhole]

theorem stack_written (h : ∀ name ∈ kept, Proper name) (rooted : Bool) :
    stack rooted [] (written kept) = kept := by
  induction kept with
  | nil => exact stack_nil rooted []
  | cons name kept ih =>
      obtain ⟨hname, hkept⟩ := List.forall_mem_cons.1 h
      rw [stack_written_cons hname.whole (ih hkept), keep_proper hname]

end Stack

/-- A reversed path that a scan has read, with the names kept in it and the room above what `..` may not
take back. -/
inductive Scanned (rooted : Bool) : List (List Char) → Nat → List Char → Prop
  | start : Scanned rooted [] 0 (if rooted then ['/'] else [])
  | above {kept : List (List Char)} {out : List Char} (h : Scanned rooted kept 0 out)
      (hrooted : rooted = false) : Scanned rooted (['.', '.'] :: kept) 0 (append out ['.', '.'])
  | name {kept : List (List Char)} {room : Nat} {out name : List Char} (h : Scanned rooted kept room out)
      (hname : Proper name) :
      Scanned rooted (name :: kept) (room + name.length + (joint out).length) (append out name)

section Scanned

variable {rooted : Bool} {kept : List (List Char)} {room : Nat} {name out : List Char}

theorem joint_append (hne : name ≠ []) (hwhole : '/' ∉ name) (out : List Char) :
    joint (append out name) = ['/'] := by
  obtain ⟨c, cs, hcs⟩ := List.exists_cons_of_ne_nil (List.reverse_ne_nil_iff.2 hne)
  have hc : c ≠ '/' := by
    rintro rfl
    exact hwhole (List.mem_reverse.1 (hcs ▸ List.mem_cons_self))
  rw [append, hcs, List.cons_append, joint]
  · exact List.cons_ne_nil _ _
  · intro heq
    exact hc (List.cons.inj heq).1

theorem Scanned.joint (h : Scanned rooted kept room out) :
    Path.joint out = if kept = [] then [] else ['/'] := by
  cases h with
  | start => cases rooted <;> rfl
  | above => exact joint_append (by decide) (by decide) _
  | name _ hname => exact joint_append hname.nonempty hname.whole _

theorem Scanned.text (h : Scanned rooted kept room out) :
    out.reverse = (if rooted then ['/'] else []) ++ written kept := by
  have hnext {kept : List (List Char)} {room : Nat} {out name : List Char}
      (h : Scanned rooted kept room out)
      (ih : out.reverse = (if rooted then ['/'] else []) ++ written kept) :
      (append out name).reverse = (if rooted then ['/'] else []) ++ written (name :: kept) := by
    rw [append, h.joint, List.reverse_append, List.reverse_append, List.reverse_reverse, ih, written]
    by_cases hkept : kept = []
    · simp [hkept, written]
    · simp [hkept]
  induction h with
  | start => cases rooted <;> rfl
  | above h _ ih => exact hnext h ih
  | name h _ ih => exact hnext h ih

theorem Scanned.proper (h : Scanned rooted kept room out) (hrooted : rooted = true) :
    ∀ name ∈ kept, Proper name := by
  induction h with
  | start => exact nofun
  | above _ hfalse => cases hrooted.symm.trans hfalse
  | name _ hname ih => exact List.forall_mem_cons.2 ⟨hname, ih⟩

theorem climb_whole (hwhole : '/' ∉ name) (room : Nat) (out : List Char) :
    climb (room + name.length) (name ++ out) = climb room out := by
  induction name with
  | nil => rfl
  | cons c name ih =>
      obtain ⟨hc, hwhole⟩ := not_or.1 (mt List.mem_cons.2 hwhole)
      rw [List.length_cons, ← Nat.add_assoc, List.cons_append, climb, if_neg (Ne.symm hc), ih hwhole]

theorem Scanned.climb (h : Scanned rooted kept room out) (hwhole : '/' ∉ name) :
    Path.climb (room + name.length + (Path.joint out).length) (append out name) = (room, out) := by
  have hwhole : '/' ∉ name.reverse := mt List.mem_reverse.1 hwhole
  have hover := climb_whole hwhole (room + (Path.joint out).length) (Path.joint out ++ out)
  rw [List.length_reverse, Nat.add_right_comm] at hover
  rw [append, List.append_assoc, hover, h.joint]
  cases h with
  | start => cases rooted <;> rfl
  | above => rfl
  | name => rfl

theorem scan_scanned (h : Scanned rooted kept room out) (cs : List Char) :
    ∃ room', Scanned rooted (stack rooted kept cs) room' (scan rooted room out cs) := by
  fun_induction scan rooted room out cs generalizing kept
  case case1 room out =>
    rw [stack_nil]
    exact ⟨room, h⟩
  case case2 room out cs ih =>
    rw [stack_slash]
    exact ih h
  case case3 room out c cs name rest hc hdot ih =>
    rw [stack_cons hc, keep_skip (.inr hdot)]
    exact ih h
  case case4 room out c cs name rest hc hdot hdots hroom ih =>
    rw [stack_cons hc, show c :: cs.takeWhile (· ≠ '/') = ['.', '.'] from hdots, keep_dots]
    cases h with
    | start => cases hroom
    | above => cases hroom
    | name h hname =>
        rw [h.climb hname.whole] at ih ⊢
        rw [back, if_neg hname.not_dots]
        exact ih h
  case case5 room out c cs name rest hc hdot hdots hroom hrooted ih =>
    rw [stack_cons hc, show c :: cs.takeWhile (· ≠ '/') = ['.', '.'] from hdots, keep_dots]
    cases h with
    | start =>
        rw [back, if_pos hrooted]
        exact ih .start
    | above _ habove => cases hrooted.symm.trans habove
    | name _ hname => exact absurd (hname.room_pos ..) hroom
  case case6 room out c cs name rest hc hdot hdots hroom hrooted ih =>
    have hrooted : rooted = false := Bool.eq_false_iff.2 hrooted
    rw [stack_cons hc, show c :: cs.takeWhile (· ≠ '/') = ['.', '.'] from hdots, keep_dots]
    rw [show name = ['.', '.'] from hdots] at ih ⊢
    cases h with
    | start =>
        rw [back, if_neg (hrooted ▸ Bool.false_ne_true)]
        exact ih (.above .start hrooted)
    | above h _ =>
        rw [back, if_pos rfl]
        exact ih (.above (.above h hrooted) hrooted)
    | name _ hname => exact absurd (hname.room_pos ..) hroom
  case case7 room out c cs name rest hc hdot hdots ih =>
    have hname : Proper (c :: cs.takeWhile (· ≠ '/')) :=
      ⟨List.cons_ne_nil _ _, whole_takeWhile hc cs, hdot, hdots⟩
    rw [stack_cons hc, keep_proper hname]
    exact ih (.name h hname)

end Scanned

theorem stack_rooted (cs : List Char) : ∀ name ∈ stack true [] cs, Proper name := by
  obtain ⟨room, h⟩ := scan_scanned (Scanned.start) cs
  exact h.proper rfl

/-- The cleaned form of a rooted path is made of the names kept of it. -/
theorem clean_rooted (cs : List Char) :
    clean (String.ofList ('/' :: cs)) = String.ofList ('/' :: written (stack true [] cs)) := by
  obtain ⟨room, h⟩ := scan_scanned (Scanned.start) cs
  have htext : (scan true 0 ['/'] cs).reverse = '/' :: written (stack true [] cs) := h.text
  have hclean : clean (String.ofList ('/' :: cs)) =
      if (scan true 0 ['/'] cs).isEmpty then "."
      else String.ofList (scan true 0 ['/'] cs).reverse := by
    rw [clean, String.toList_ofList]
    rfl
  rw [hclean, if_neg, htext]
  intro hnil
  rw [List.isEmpty_iff.1 hnil] at htext
  cases htext

theorem clean_relative {cs : List Char} (h : cs.head? ≠ some '/') :
    clean (String.ofList cs) =
      if stack false [] cs = [] then "." else String.ofList (written (stack false [] cs)) := by
  obtain ⟨room, hscan⟩ := scan_scanned (Scanned.start) cs
  have htext : (scan false 0 [] cs).reverse = written (stack false [] cs) := hscan.text
  have hempty : (scan false 0 [] cs).isEmpty = true ↔ stack false [] cs = [] := by
    rw [List.isEmpty_iff]
    have hjoint : joint (scan false 0 [] cs) = _ := hscan.joint
    constructor
    · intro hnil
      rw [hnil] at hjoint
      by_cases hkept : stack false [] cs = []
      · exact hkept
      · rw [if_neg hkept] at hjoint
        cases hjoint
    · intro hnil
      rw [hnil, written] at htext
      exact List.reverse_eq_nil_iff.1 htext
  have hclean : clean (String.ofList cs) =
      if (scan false 0 [] cs).isEmpty then "." else String.ofList (scan false 0 [] cs).reverse := by
    rw [clean, String.toList_ofList]
    split
    · exact absurd rfl h
    · rfl
  rw [hclean, htext]
  simp only [hempty]

end HttpRouting.Path

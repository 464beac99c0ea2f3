import HttpRouting.Proofs.Path.Cleaning

namespace HttpRouting.Path

def closed (parts : List String) : Bool :=
  ((parts.filter (· ≠ "")).getLast?.map fun part => endsWithSlash part.toList).getD false

def close (slash : Bool) (cleaned : String) : String :=
  if slash && cleaned ≠ "/" then cleaned ++ "/" else cleaned

/-- The path that `parts` lead to from the root, cleaned once. The last part that is not empty decides
on the slash at the end. -/
def flatten (parts : List String) : String :=
  close (closed parts) (clean ("/" ++ "/".intercalate parts))

def descend (parts : List String) : List (List Char) :=
  parts.foldl (fun kept part => stack true kept part.toList) []

variable {relative : String}

theorem closed_append (h : relative ≠ "") (parts : List String) :
    closed (parts ++ [relative]) = endsWithSlash relative.toList := by
  have hpart : [relative].filter (· ≠ "") = [relative] := by simpa using h
  rw [closed, List.filter_append, hpart, List.getLast?_concat]
  rfl

theorem descend_append (parts : List String) (relative : String) :
    descend (parts ++ [relative]) = stack true (descend parts) relative.toList := by
  rw [descend, List.foldl_append]
  rfl

theorem stack_intercalate (kept : List (List Char)) (parts : List String) :
    stack true kept ("/".intercalate parts).toList =
      parts.foldl (fun kept part => stack true kept part.toList) kept := by
  induction parts generalizing kept with
  | nil => exact stack_nil true kept
  | cons part parts ih =>
      cases parts with
      | nil => rfl
      | cons next parts =>
          have htext : ("/".intercalate (part :: next :: parts)).toList =
              part.toList ++ '/' :: ("/".intercalate (next :: parts)).toList := by
            rw [String.intercalate_cons_cons, String.toList_append, String.toList_append,
              List.append_assoc]
            rfl
          rw [htext, stack_append, ih]
          rfl

theorem proper_descend (parts : List String) : ∀ name ∈ descend parts, Proper name := by
  rw [descend, ← stack_intercalate]
  exact stack_rooted _

theorem cleaned_eq (parts : List String) :
    clean ("/" ++ "/".intercalate parts) = String.ofList ('/' :: written (descend parts)) := by
  have htext : "/" ++ "/".intercalate parts =
      String.ofList ('/' :: ("/".intercalate parts).toList) := by
    simp [← String.toList_inj]
  rw [htext, clean_rooted, stack_intercalate, descend]

theorem flatten_text (parts : List String) :
    ∃ ending, (ending = [] ∨ ending = ['/']) ∧
      (flatten parts).toList = '/' :: (written (descend parts) ++ ending) := by
  rw [flatten, cleaned_eq, close]
  split
  · exact ⟨['/'], .inr rfl, by rw [String.toList_append, String.toList_ofList]; rfl⟩
  · exact ⟨[], .inl rfl, by rw [String.toList_ofList, List.append_nil]⟩

/-- What follows a base path is read after the names of the base path, on whichever side the slash
between the two is. -/
theorem stack_joined {base : List Char} (hbase : base ≠ []) (relative : List Char) :
    stack true [] (base ++ (if endsWithSlash base then [] else ['/']) ++ dropLeadingSlash relative) =
      stack true (stack true [] base) relative := by
  have hdrop (kept : List (List Char)) :
      stack true kept (dropLeadingSlash relative) = stack true kept relative := by
    unfold dropLeadingSlash
    split
    · exact (stack_slash ..).symm
    · rfl
  split
  · next hslash =>
      obtain ⟨front, rfl⟩ := List.getLast?_eq_some_iff.1 (beq_iff_eq.1 hslash)
      rw [List.append_nil, List.append_assoc, List.singleton_append, stack_append, hdrop, stack_append,
        stack_nil]
  · rw [List.append_assoc, List.singleton_append, stack_append, hdrop]

theorem flatten_nil : flatten [] = "/" := by
  rw [flatten, cleaned_eq]
  rfl

theorem flatten_append (h : relative ≠ "") (parts : List String) :
    flatten (parts ++ [relative]) =
      close (endsWithSlash relative.toList) (clean ("/" ++ "/".intercalate (parts ++ [relative]))) := by
  rw [flatten, closed_append h]

theorem flatten_append_empty (parts : List String) : flatten (parts ++ [""]) = flatten parts := by
  have hclosed : closed (parts ++ [""]) = closed parts := by
    rw [closed, List.filter_append, List.filter_cons_of_neg (by decide), List.filter_nil,
      List.append_nil, closed]
  have hnames : descend (parts ++ [""]) = descend parts := by
    rw [descend_append]
    exact stack_nil true _
  rw [flatten, flatten, hclosed, cleaned_eq, cleaned_eq, hnames]

theorem stack_flatten (parts : List String) : stack true [] (flatten parts).toList = descend parts := by
  have hnames := stack_written (proper_descend parts) true
  obtain ⟨ending, rfl | rfl, htext⟩ := flatten_text parts
  · rw [htext, stack_slash, List.append_nil, hnames]
  · rw [htext, stack_slash, stack_append, hnames, stack_nil]

theorem join_flatten (parts : List String) (relative : String) :
    join (flatten parts) relative = flatten (parts ++ [relative]) := by
  by_cases hempty : relative = ""
  · rw [hempty, flatten_append_empty]
    rfl
  obtain ⟨ending, -, htext⟩ := flatten_text parts
  have hnames : clean (String.ofList ((flatten parts).toList ++
      (if endsWithSlash (flatten parts).toList then [] else ['/']) ++
        dropLeadingSlash relative.toList)) = clean ("/" ++ "/".intercalate (parts ++ [relative])) := by
    have hjoined := stack_joined (htext ▸ List.cons_ne_nil _ _) relative.toList
    rw [stack_flatten, ← descend_append] at hjoined
    rw [cleaned_eq, ← hjoined, htext, List.cons_append, List.cons_append, clean_rooted, stack_slash]
  have hbase : ¬(flatten parts).isEmpty = true := by
    intro hnone
    rw [String.isEmpty_iff.1 hnone] at htext
    cases htext
  rw [join, if_neg (mt String.isEmpty_iff.1 hempty), if_neg hbase, flatten_append hempty, ← hnames]
  rfl

end HttpRouting.Path

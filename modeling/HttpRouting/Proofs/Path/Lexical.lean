import HttpRouting.Proofs.Path.Cleaning

namespace HttpRouting.Path

/-- The names that are kept of a path, joined by slashes, behind one more slash where the path is rooted.
`.` stands for what would be empty. -/
def lexical (path : String) : String :=
  let rooted := path.toList.head? == some '/'
  let names := ((path.toList.splitOn '/').foldl (keep rooted) []).reverse
  let text := (if rooted then ['/'] else []) ++ ['/'].intercalate names
  if text = [] then "." else String.ofList text

section Written

variable {rooted : Bool} {kept : List (List Char)} {room : Nat} {out : List Char}

theorem intercalate_concat {sep name : List Char} {names : List (List Char)} (h : names ≠ []) :
    sep.intercalate (names ++ [name]) = sep.intercalate names ++ sep ++ name := by
  induction names with
  | nil => exact absurd rfl h
  | cons first names ih =>
      cases names with
      | nil => simp [List.intercalate_cons_cons]
      | cons second names =>
          have ih := ih (List.cons_ne_nil second names)
          simp only [List.cons_append, List.intercalate_cons_cons] at ih ⊢
          rw [ih]
          simp only [List.append_assoc]

theorem intercalate_reverse (kept : List (List Char)) :
    ['/'].intercalate kept.reverse = written kept := by
  induction kept with
  | nil => rfl
  | cons name kept ih =>
      rw [List.reverse_cons, written]
      split
      · next hnil => rw [hnil, List.reverse_nil, List.nil_append, List.intercalate_singleton]
      · next hne =>
          rw [intercalate_concat (mt List.reverse_eq_nil_iff.1 hne), ih, List.append_assoc,
            List.singleton_append]

theorem Scanned.back_dots (h : Scanned rooted kept room out) (hroom : room = 0)
    (hrooted : rooted = false) : back rooted kept = ['.', '.'] :: kept := by
  cases h with
  | start => rw [back, if_neg (hrooted ▸ Bool.false_ne_true)]
  | above => rw [back, if_pos rfl]
  | name _ hname => exact absurd hroom (Nat.ne_of_gt (hname.room_pos ..))

theorem Scanned.stack_written (h : Scanned rooted kept room out) :
    stack rooted [] (written kept) = kept := by
  induction h with
  | start => exact stack_nil rooted []
  | above h hrooted ih =>
      rw [stack_written_cons (by decide) ih, keep_dots, h.back_dots rfl hrooted]
  | name _ hname ih => rw [stack_written_cons hname.whole ih, keep_proper hname]

theorem head_written {name : List Char} (hne : name ≠ []) (hwhole : '/' ∉ name)
    (h : kept ≠ [] → ∃ c, (written kept).head? = some c ∧ c ≠ '/') :
    ∃ c, (written (name :: kept)).head? = some c ∧ c ≠ '/' := by
  rw [written]
  split
  · obtain ⟨c, name, rfl⟩ := List.exists_cons_of_ne_nil hne
    exact ⟨c, rfl, fun hc => hwhole (hc ▸ List.mem_cons_self)⟩
  · next hkept =>
      obtain ⟨c, hhead, hc⟩ := h hkept
      exact ⟨c, by rw [List.head?_append, hhead, Option.some_or], hc⟩

theorem Scanned.head_written (h : Scanned rooted kept room out) (hne : kept ≠ []) :
    ∃ c, (written kept).head? = some c ∧ c ≠ '/' := by
  induction h with
  | start => exact absurd rfl hne
  | above _ _ ih => exact Path.head_written (by decide) (by decide) ih
  | name _ hname ih => exact Path.head_written hname.nonempty hname.whole ih

end Written

theorem lexical_rooted (cs : List Char) :
    lexical (String.ofList ('/' :: cs)) = String.ofList ('/' :: written (stack true [] cs)) := by
  have hnames : (('/' :: cs).splitOn '/').foldl (keep true) [] = stack true [] cs :=
    stack_slash true [] cs
  rw [lexical, String.toList_ofList]
  simp [hnames, intercalate_reverse]

theorem lexical_relative {cs : List Char} (h : cs.head? ≠ some '/') :
    lexical (String.ofList cs) =
      if written (stack false [] cs) = [] then "." else String.ofList (written (stack false [] cs)) := by
  have hrooted : (cs.head? == some '/') = false := by simpa using h
  have hnames : (cs.splitOn '/').foldl (keep false) [] = stack false [] cs := rfl
  rw [lexical, String.toList_ofList]
  simp [hrooted, hnames, intercalate_reverse]

theorem clean_eq_lexical (path : String) : clean path = lexical path := by
  obtain ⟨cs, rfl⟩ : ∃ cs, path = String.ofList cs := ⟨path.toList, String.ofList_toList.symm⟩
  by_cases hrooted : cs.head? = some '/'
  · obtain ⟨cs, rfl⟩ := List.head?_eq_some_iff.1 hrooted
    rw [clean_rooted, lexical_rooted]
  · obtain ⟨room, h⟩ := scan_scanned (@Scanned.start false) cs
    have hnil : written (stack false [] cs) = [] ↔ stack false [] cs = [] := by
      refine ⟨fun hnil => Decidable.byContradiction fun hne => ?_, fun hnil => by rw [hnil, written]⟩
      obtain ⟨c, hhead, -⟩ := h.head_written hne
      rw [hnil] at hhead
      cases hhead
    rw [clean_relative hrooted, lexical_relative hrooted]
    simp only [hnil]

theorem clean_clean (path : String) : clean (clean path) = clean path := by
  obtain ⟨cs, rfl⟩ : ∃ cs, path = String.ofList cs := ⟨path.toList, String.ofList_toList.symm⟩
  by_cases hrooted : cs.head? = some '/'
  · obtain ⟨cs, rfl⟩ := List.head?_eq_some_iff.1 hrooted
    obtain ⟨room, h⟩ := scan_scanned (@Scanned.start true) cs
    rw [clean_rooted, clean_rooted, h.stack_written]
  · obtain ⟨room, h⟩ := scan_scanned (@Scanned.start false) cs
    rw [clean_relative hrooted]
    split
    · decide +kernel
    · next hkept =>
        obtain ⟨c, hhead, hc⟩ := h.head_written hkept
        have hrelative : (written (stack false [] cs)).head? ≠ some '/' := by
          rw [hhead]
          exact fun heq => hc (Option.some.inj heq)
        rw [clean_relative hrelative, h.stack_written, if_neg hkept]

theorem clean_behind (cs : List Char) (y : String) :
    clean (String.ofList ('/' :: cs) ++ "/" ++ y) =
      clean (clean (String.ofList ('/' :: cs)) ++ "/" ++ y) := by
  have hjoined (cs : List Char) :
      clean (String.ofList ('/' :: cs) ++ "/" ++ y) =
        String.ofList ('/' :: written (stack true (stack true [] cs) y.toList)) := by
    have htext : String.ofList ('/' :: cs) ++ "/" ++ y =
        String.ofList ('/' :: (cs ++ '/' :: y.toList)) := by
      simp [← String.toList_inj]
    rw [htext, clean_rooted, stack_append]
  obtain ⟨room, h⟩ := scan_scanned (@Scanned.start true) cs
  rw [clean_rooted, hjoined, hjoined, h.stack_written]

/-- Cleaning is lexical: the names of the path are kept, dropped or taken back one after another. So it
does nothing to a clean path, and the path in front of another one may be cleaned before. -/
theorem clean_lexical (path : String) :
    clean path = lexical path ∧ clean (clean path) = clean path ∧
      ∀ x y : String, x.toList.head? = some '/' →
        clean (x ++ "/" ++ y) = clean (clean x ++ "/" ++ y) := by
  refine ⟨clean_eq_lexical path, clean_clean path, fun x y hx => ?_⟩
  obtain ⟨cs, hcs⟩ := List.head?_eq_some_iff.1 hx
  rw [← String.ofList_toList (s := x), hcs]
  exact clean_behind cs y

theorem clean_lexical_climbs :
    clean "a/./../../b//..c/.." = lexical "a/./../../b//..c/.." ∧
      clean ("/a//../../b" ++ "/" ++ "../../c/.") =
        clean (clean "/a//../../b" ++ "/" ++ "../../c/.") := by
  obtain ⟨hclean, -, hbehind⟩ := clean_lexical "a/./../../b//..c/.."
  exact ⟨hclean, hbehind "/a//../../b" "../../c/." (by decide)⟩

end HttpRouting.Path

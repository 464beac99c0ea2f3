import HttpRouting.Proofs.Pattern.Captured

namespace HttpRouting.Pattern

open Bytes

/-- No other pattern goes on from `p` with a parameter that something follows, or with a slash where
`p` ends in a parameter. -/
structure Open (es : List (List Element)) (p : List Element) : Prop where
  param : ∀ name e more, p ++ .param name :: e :: more ∉ es
  slash : ∀ front name more, p = front ++ [.param name] → p ++ .literal slash :: more ∉ es

/-- A pattern that matches a path, or does so once the path gains or loses a last slash. A pattern
that gains one spells that slash out, as its last byte or in front of a catch-all that it is left to
alone, and one that loses it is open for it among `es`. -/
inductive InReach (fix : Bool) (es : List (List Element)) (path : Bytes) : List Element → Prop
  | exact {p : List Element} (h : Matches p path) : InReach fix es path p
  | added {front : List Element} (hfix : fix = true) (h : Matches front path) (hne : path ≠ [])
      (hlast : path.getLast? ≠ some slash) : InReach fix es path (front ++ [.literal slash])
  | caught {front : List Element} {name : Bytes} (hfix : fix = true) (h : Matches front path)
      (hne : path ≠ []) (hend : ∀ param, front.getLast? ≠ some (.param param))
      (halone : ∀ q ∈ es, front <+: q → q = front ++ [.literal slash, .catchAll name]) :
      InReach fix es path (front ++ [.literal slash, .catchAll name])
  | dropped {p : List Element} {front : Bytes} (hfix : fix = true) (hpath : path = front ++ [slash])
      (h : Matches p front) (hopen : Open es p) : InReach fix es path p

variable {fix : Bool} {es es' : List (List Element)} {p : List Element} {text path rest : Bytes}

theorem Open.behind {front : List Element} (h : Open es (front ++ p))
    (hes : ∀ q ∈ es', front ++ q ∈ es) : Open es' p := by
  refine ⟨fun name e more hmem => ?_, fun init name more hp hmem => ?_⟩
  · have hmem := hes _ hmem
    rw [← List.append_assoc] at hmem
    exact h.param name e more hmem
  · have hmem := hes _ hmem
    rw [← List.append_assoc] at hmem
    refine h.slash (front ++ init) name more ?_ hmem
    rw [hp, List.append_assoc]

theorem InReach.mono (h : InReach fix es path p) (hes : es' ⊆ es) : InReach fix es' path p := by
  cases h with
  | exact h => exact .exact h
  | added hfix h hne hlast => exact .added hfix h hne hlast
  | caught hfix h hne hend halone => exact .caught hfix h hne hend fun q hq => halone q (hes hq)
  | dropped hfix hpath h hopen =>
      have hopen : Open es ([] ++ p) := hopen
      exact .dropped hfix hpath h (hopen.behind fun q hq => hes hq)

/-- A pattern that starts with no catch-all. Only such patterns stand below an edge. -/
def Headed (p : List Element) : Prop := ∀ name es, p ≠ .catchAll name :: es

theorem headed_nil : Headed [] := nofun

theorem headed_literal (b : UInt8) (p : List Element) : Headed (.literal b :: p) := nofun

theorem headed_param (name : Bytes) (p : List Element) : Headed (.param name :: p) := nofun

theorem Headed.of_matches_nil (hp : Headed p) (h : Matches p []) : p = [] := by
  cases p with
  | nil => rfl
  | cons e p =>
      cases e with
      | literal | param => cases h
      | catchAll name => exact absurd rfl (hp name p)

theorem Headed.front {front : List Element} {e : Element} (h : Headed (front ++ [e])) :
    Headed front := by
  rintro name es rfl
  exact h name (es ++ [e]) rfl

theorem matches_label (h : Matches (literals text ++ p) path) :
    ∃ rest, path = text ++ rest ∧ Matches p rest := by
  induction text generalizing path with
  | nil => exact ⟨path, rfl, h⟩
  | cons b text ih =>
      obtain ⟨caps, hcaps⟩ := Option.isSome_iff_exists.1 h
      obtain ⟨tail, rfl, htail⟩ := captures?_literal hcaps
      have hmatches : Matches (literals text ++ p) tail := Option.isSome_iff_exists.2 ⟨caps, htail⟩
      obtain ⟨rest, rfl, hrest⟩ := ih hmatches
      exact ⟨rest, rfl, hrest⟩

theorem nonempty_of_matches (h : Matches p path) (hne : path ≠ []) : p ≠ [] := by
  rintro rfl
  cases path with
  | nil => exact hne rfl
  | cons b path => cases h

theorem matches_behind_param {name : Bytes} (h : Matches (.param name :: p) path) :
    path ≠ [] ∧ Matches p (path.dropWhile (· ≠ slash)) := by
  cases path with
  | nil => cases h
  | cons b path =>
      rw [Matches, captures?, Option.isSome_map] at h
      exact ⟨List.cons_ne_nil b path, h⟩

theorem Headed.catch_front {front : List Element} {name : Bytes}
    (h : Headed (front ++ [.literal slash, .catchAll name])) : Headed front := by
  rintro name' es rfl
  exact h name' _ rfl

theorem catch_behind {front : List Element} {name : Bytes} (hp : Headed p)
    (h : literals text ++ p = front ++ [.literal slash, .catchAll name]) :
    ∃ front', p = front' ++ [.literal slash, .catchAll name] ∧ front = literals text ++ front' := by
  rcases List.append_eq_append_iff.1 h with ⟨front', rfl, hp⟩ | ⟨more, hmore, hp'⟩
  · exact ⟨front', hp, rfl⟩
  · cases more with
    | nil => exact ⟨[], by simpa using hp'.symm, by simpa using hmore.symm⟩
    | cons e more =>
        exfalso
        obtain ⟨rfl, htail⟩ := List.cons.inj hp'
        cases more with
        | nil => exact hp name [] htail.symm
        | cons e more =>
            obtain ⟨rfl, -⟩ := List.cons.inj htail
            have hmem : Element.catchAll name ∈ literals text := by simp [hmore]
            simp [literals] at hmem

theorem matches_front {front more : List Element} {b : UInt8} (h : Matches front path)
    (hne : path ≠ []) (hq : .literal b :: p = front ++ more) : path.head? = some b := by
  cases front with
  | nil =>
      cases path with
      | nil => exact absurd rfl hne
      | cons a path => cases h
  | cons e front =>
      cases hq
      exact matches_opens h

theorem InReach.head {b : UInt8} (h : InReach fix es path (.literal b :: p)) :
    path.head? = some b := by
  generalize hq : Element.literal b :: p = q at h
  cases h with
  | exact h =>
      subst hq
      exact matches_opens h
  | added _ h hne => exact matches_front h hne hq
  | caught _ h hne => exact matches_front h hne hq
  | @dropped _ front _ hpath h =>
      subst hq hpath
      have hhead := matches_opens h
      cases front with
      | nil => cases hhead
      | cons a front => exact hhead

inductive AtLabel (fix : Bool) (es : List (List Element)) (label path : Bytes) (p : List Element) :
    Prop
  | through {rest : Bytes} (hpath : path = label ++ rest) (hrest : rest ≠ []) (hp : p ≠ [])
      (h : InReach fix es rest p)
  | ended (hpath : path = label) (hp : p = [])
  | addSlash (hfix : fix = true) (hpath : path = label) (hp : p = [.literal slash])
  | addCatch {name : Bytes} (hfix : fix = true) (hpath : path = label)
      (hp : p = [.literal slash, .catchAll name]) (halone : ∀ q ∈ es, q = p)
  | complete (hfix : fix = true) (hne : path ≠ []) (hlast : path.getLast? ≠ some slash)
      (hlabel : label = path ++ [slash]) (hp : p = [])
  | dropSlash (hfix : fix = true) (hpath : path = label ++ [slash]) (hp : p = [])
      (hopen : ∀ name e more, .param name :: e :: more ∉ es)

theorem atLabel_exact (h : Matches (literals text ++ p) path) (hp : Headed p) :
    AtLabel fix es text path p := by
  obtain ⟨rest, rfl, hmatches⟩ := matches_label h
  by_cases hrest : rest = []
  · subst hrest
    exact .ended (List.append_nil text) (hp.of_matches_nil hmatches)
  · exact .through rfl hrest (nonempty_of_matches hmatches hrest) (.exact hmatches)

theorem atLabel_added {front : List Element} (hfix : fix = true) (h : Matches front path)
    (hne : path ≠ []) (hlast : path.getLast? ≠ some slash) (hp : Headed p)
    (hq : literals text ++ p = front ++ [.literal slash]) : AtLabel fix es text path p := by
  rcases List.eq_nil_or_concat' p with rfl | ⟨p, e, rfl⟩
  · rcases List.eq_nil_or_concat' text with rfl | ⟨text, b, rfl⟩
    · simp [literals] at hq
    · simp only [literals, List.map_append, List.map_cons, List.map_nil, List.append_nil] at hq
      obtain ⟨rfl, hb⟩ := List.append_inj' hq rfl
      cases hb
      have htext : Matches (literals text ++ []) path := by rwa [List.append_nil]
      obtain ⟨rest, rfl, hrest⟩ := matches_label htext
      cases rest with
      | nil => exact .complete hfix hne hlast (by rw [List.append_nil]) rfl
      | cons b rest => cases hrest
  · rw [← List.append_assoc] at hq
    obtain ⟨rfl, he⟩ := List.append_inj' hq rfl
    cases he
    obtain ⟨rest, rfl, hmatches⟩ := matches_label h
    by_cases hrest : rest = []
    · subst hrest
      have hnil := hp.front.of_matches_nil hmatches
      subst hnil
      exact .addSlash hfix (List.append_nil text) rfl
    · refine .through rfl hrest (by simp) (.added hfix hmatches hrest ?_)
      rwa [List.getLast?_append_of_ne_nil _ hrest] at hlast

theorem atLabel_caught {front : List Element} {name : Bytes} (hfix : fix = true)
    (h : Matches (literals text ++ front) path) (hp : Headed (front ++ [.literal slash, .catchAll name]))
    (hend : ∀ param, (literals text ++ front).getLast? ≠ some (.param param))
    (halone : ∀ q ∈ es, front <+: q → q = front ++ [.literal slash, .catchAll name]) :
    AtLabel fix es text path (front ++ [.literal slash, .catchAll name]) := by
  obtain ⟨rest, rfl, hmatches⟩ := matches_label h
  by_cases hrest : rest = []
  · subst hrest
    cases hp.catch_front.of_matches_nil hmatches
    exact .addCatch hfix (List.append_nil text) rfl fun q hmem => halone q hmem List.nil_prefix
  · refine .through rfl hrest (by simp) (.caught hfix hmatches hrest (fun param hlast => ?_) halone)
    exact hend param (by rw [List.getLast?_append, hlast]; rfl)

theorem atLabel_dropped (hfix : fix = true) {front : Bytes} (hpath : path = front ++ [slash])
    (h : Matches (literals text ++ p) front) (hopen : Open es p) : AtLabel fix es text path p := by
  obtain ⟨rest, rfl, hmatches⟩ := matches_label h
  rw [List.append_assoc] at hpath
  by_cases hnil : p = []
  · subst hnil
    cases rest with
    | nil => exact .dropSlash hfix hpath rfl fun name e more => hopen.param name e more
    | cons b rest => cases hmatches
  · exact .through hpath (by simp) hnil (.dropped hfix rfl hmatches hopen)

theorem InReach.label (h : InReach fix es path (literals text ++ p)) (hp : Headed p)
    (hes : ∀ q ∈ es', literals text ++ q ∈ es) : AtLabel fix es' text path p := by
  generalize hq : literals text ++ p = q at h
  cases h with
  | exact h =>
      subst hq
      exact atLabel_exact h hp
  | added hfix h hne hlast => exact atLabel_added hfix h hne hlast hp hq
  | @caught _ name hfix h _ hend halone =>
      obtain ⟨front, rfl, rfl⟩ := catch_behind hp hq
      refine atLabel_caught hfix h hp hend fun q hmem hfront => ?_
      have hsame := halone _ (hes q hmem) ((List.prefix_append_right_inj _).2 hfront)
      rw [List.append_assoc] at hsame
      exact List.append_cancel_left hsame
  | dropped hfix hpath h hopen =>
      subst hq
      exact atLabel_dropped hfix hpath h (hopen.behind hes)

inductive AtParam (fix : Bool) (es : List (List Element)) (rest : Bytes) (p : List Element) : Prop
  | through (hafter : rest.dropWhile (· ≠ slash) ≠ []) (hp : p ≠ [])
      (h : InReach fix es (rest.dropWhile (· ≠ slash)) p)
  | ended (hafter : rest.dropWhile (· ≠ slash) = []) (hp : p = [])
  | addSlash (hfix : fix = true) (hafter : rest.dropWhile (· ≠ slash) = [])
      (hp : p = [.literal slash])
  | dropSlash (hfix : fix = true) (hafter : rest.dropWhile (· ≠ slash) = [slash]) (hp : p = [])
      (hopen : ∀ more, .literal slash :: more ∉ es)

theorem dropWhile_append_slash (front more : Bytes) :
    (front ++ slash :: more).dropWhile (· ≠ slash) = front.dropWhile (· ≠ slash) ++ slash :: more := by
  induction front with
  | nil => rfl
  | cons b front ih =>
      by_cases hb : b = slash
      · simp [hb]
      · simp only [List.cons_append, List.dropWhile_cons, ne_eq, hb, not_false_eq_true, decide_true,
          if_true]
        exact ih

theorem atParam_exact {name : Bytes} (h : Matches (.param name :: p) rest) (hp : Headed p) :
    AtParam fix es rest p := by
  obtain ⟨-, hmatches⟩ := matches_behind_param h
  by_cases hafter : rest.dropWhile (· ≠ slash) = []
  · rw [hafter] at hmatches
    exact .ended hafter (hp.of_matches_nil hmatches)
  · exact .through hafter (nonempty_of_matches hmatches hafter) (.exact hmatches)

theorem atParam_added {name : Bytes} {front : List Element} (hfix : fix = true)
    (h : Matches (.param name :: front) rest) (hlast : rest.getLast? ≠ some slash)
    (hp : Headed (front ++ [.literal slash])) : AtParam fix es rest (front ++ [.literal slash]) := by
  obtain ⟨-, hmatches⟩ := matches_behind_param h
  by_cases hafter : rest.dropWhile (· ≠ slash) = []
  · rw [hafter] at hmatches
    have hnil := hp.front.of_matches_nil hmatches
    subst hnil
    exact .addSlash hfix hafter rfl
  · refine .through hafter (by simp) (.added hfix hmatches hafter ?_)
    rwa [getLast?_dropWhile hafter]

theorem atParam_caught {name name' : Bytes} {front : List Element} (hfix : fix = true)
    (h : Matches (.param name :: front) rest) (hp : Headed (front ++ [.literal slash, .catchAll name']))
    (hend : ∀ param, (.param name :: front).getLast? ≠ some (Element.param param))
    (halone : ∀ q ∈ es, front <+: q → q = front ++ [.literal slash, .catchAll name']) :
    AtParam fix es rest (front ++ [.literal slash, .catchAll name']) := by
  obtain ⟨-, hmatches⟩ := matches_behind_param h
  by_cases hafter : rest.dropWhile (· ≠ slash) = []
  · rw [hafter] at hmatches
    cases hp.catch_front.of_matches_nil hmatches
    exact absurd rfl (hend name)
  · refine .through hafter (by simp) (.caught hfix hmatches hafter (fun param hlast => ?_) halone)
    exact hend param (by rw [List.getLast?_cons, hlast]; rfl)

theorem atParam_dropped {name : Bytes} {front : Bytes} (hfix : fix = true)
    (hpath : rest = front ++ [slash]) (h : Matches (.param name :: p) front) (hopen : Open es p)
    (hslash : p = [] → ∀ more, .literal slash :: more ∉ es) : AtParam fix es rest p := by
  obtain ⟨-, hmatches⟩ := matches_behind_param h
  have hafter : rest.dropWhile (· ≠ slash) = front.dropWhile (· ≠ slash) ++ [slash] := by
    rw [hpath, dropWhile_append_slash]
  by_cases hnil : p = []
  · subst hnil
    cases htail : front.dropWhile (· ≠ slash) with
    | nil =>
        rw [htail] at hafter
        exact .dropSlash hfix hafter rfl (hslash rfl)
    | cons b tail =>
        rw [htail] at hmatches
        cases hmatches
  · refine .through ?_ hnil (.dropped hfix hafter hmatches hopen)
    rw [hafter]
    exact List.append_ne_nil_of_right_ne_nil _ (List.cons_ne_nil _ _)

theorem InReach.param {name : Bytes} (h : InReach fix es rest (.param name :: p)) (hp : Headed p)
    (hes : ∀ q ∈ es', .param name :: q ∈ es) : AtParam fix es' rest p := by
  generalize hq : Element.param name :: p = q at h
  cases h with
  | exact h =>
      subst hq
      exact atParam_exact h hp
  | @added front hfix h _ hlast =>
      cases front with
      | nil => cases hq
      | cons e front =>
          cases hq
          exact atParam_added hfix h hlast hp
  | @caught front _ hfix h _ hend halone =>
      cases front with
      | nil => cases hq
      | cons e front =>
          cases hq
          refine atParam_caught hfix h hp hend fun q hmem hfront => ?_
          exact (List.cons.inj (halone _ (hes q hmem) (List.cons_prefix_cons.2 ⟨rfl, hfront⟩))).2
  | dropped hfix hpath h hopen =>
      subst hq
      have hopen' : Open es ([.param name] ++ p) := hopen
      refine atParam_dropped hfix hpath h (hopen'.behind hes) fun hnil more hmem => ?_
      exact hopen.slash [] name more (by rw [hnil]; rfl) (by rw [hnil]; exact hes _ hmem)

end HttpRouting.Pattern

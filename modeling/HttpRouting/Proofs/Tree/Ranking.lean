import HttpRouting.Proofs.Tree.Built
import HttpRouting.Proofs.Tree.Growth
import Mathlib.Data.List.DropRight

namespace HttpRouting

section Move

variable {β : Type}

theorem move_front (xs ys zs : List β) (x : β) :
    move (xs ++ (ys ++ x :: zs)) (xs.length + ys.length) xs.length = xs ++ x :: (ys ++ zs) := by
  have hx : (xs ++ (ys ++ x :: zs))[xs.length + ys.length]? = some x := by simp
  have herase : (xs ++ (ys ++ x :: zs)).eraseIdx (xs.length + ys.length) = xs ++ (ys ++ zs) := by
    rw [List.eraseIdx_append_of_length_le (Nat.le_add_right ..), Nat.add_sub_cancel_left,
      List.eraseIdx_append_of_length_le (Nat.le_refl _), Nat.sub_self]
    rfl
  rw [move, hx]
  dsimp only
  rw [herase, insertIdx_append (Nat.le_refl _), List.insertIdx_length_self, List.append_assoc]
  rfl

theorem exists_rear (p : β → Bool) (xs : List β) :
    ∃ ys zs, xs = ys ++ zs ∧ (∀ z ∈ zs, p z = true) ∧ (∀ y ∈ ys.getLast?, p y = false) ∧
      (xs.reverse.takeWhile p).length = zs.length := by
  refine ⟨xs.rdropWhile p, xs.rtakeWhile p, List.rdropWhile_append_rtakeWhile.symm,
    fun z hz => List.mem_rtakeWhile_imp hz, fun y hy => ?_, by simp [List.rtakeWhile]⟩
  obtain ⟨hne, rfl⟩ := List.mem_getLast?_eq_getLast hy
  simpa using List.rdropWhile_last_not p xs hne

theorem exists_around {xs : List β} {i : Nat} {x : β} (h : xs[i]? = some x) :
    ∃ front back, xs = front ++ x :: back ∧ front.length = i := by
  obtain ⟨hi, rfl⟩ := List.getElem?_eq_some_iff.1 h
  refine ⟨xs.take i, xs.drop (i + 1), ?_, List.length_take_of_le (Nat.le_of_lt hi)⟩
  rw [← List.drop_eq_getElem_cons hi, List.take_append_drop]

end Move

namespace Node

open Bytes Pattern

variable {α : Type}

def Counted (n : Node α) : Prop := n.priority = n.entries.length

/-- The children before the wildcard, those with the most values first. -/
def Ordered (n : Node α) : Prop := n.statics.Pairwise fun a b => b.entries.length ≤ a.entries.length

/-- A node without a text on its edge keeps nothing but a catch-all. -/
def Marked (n : Node α) : Prop :=
  n.label = [] → ∃ name hit, n.entries = [⟨[.literal slash, .catchAll name], hit⟩]

structure Neat (n : Node α) : Prop where
  ordered : n.Ordered
  marked : ∀ c ∈ n.children, c.Marked

theorem Sound.split_statics {n : Node α} (hn : n.Sound) :
    ∃ wild : Option (Node α), n.children = n.statics ++ wild.toList ∧ n.hasWild = wild.isSome := by
  cases hn.here with
  | branch slots wild h => exact ⟨wild, by rw [h.statics, h.children], h.hasWild⟩
  | param name next h => exact ⟨none, by simp [h.statics, h.children], h.hasWild⟩
  | holder leaf h =>
      have hstatics : n.statics = [] :=
        statics_eq [] (some leaf) h.children h.hasWild
      exact ⟨some leaf, by rw [hstatics, h.children]; rfl, h.hasWild⟩
  | leaf name h =>
      have hstatics : n.statics = [] := statics_eq [] none h.children h.hasWild
      exact ⟨none, by rw [hstatics, h.children]; rfl, h.hasWild⟩

theorem promote_statics {n : Node α} {front back : List (Node α)} {c : Node α}
    {wild : Option (Node α)} (hchildren : n.children = front ++ c :: back ++ wild.toList)
    (hwild : n.hasWild = wild.isSome) :
    ∃ high low, front = high ++ low ∧ (∀ d ∈ low, d.priority < c.priority) ∧
      (∀ d ∈ high.getLast?, c.priority ≤ d.priority) ∧
        (n.promote front.length).statics = high ++ c :: (low ++ back) := by
  obtain ⟨high, low, hfront, hlow, hhigh, hpassed⟩ := exists_rear (·.priority < c.priority) front
  refine ⟨high, low, hfront, fun d hd => by simpa using hlow d hd,
    fun d hd => by simpa using hhigh d hd, ?_⟩
  have hc : n.children[front.length]? = some c := by simp [hchildren]
  have htake : n.children.take front.length = front := by simp [hchildren]
  have hmove : move n.children front.length (front.length - low.length) =
      high ++ c :: (low ++ back) ++ wild.toList := by
    have h := move_front high low (back ++ wild.toList) c
    have hlength : front.length = high.length + low.length := by rw [hfront, List.length_append]
    have hsame : n.children = high ++ (low ++ c :: (back ++ wild.toList)) := by
      simp [hchildren, hfront]
    rw [hsame, hlength, Nat.add_sub_cancel, h]
    simp
  have hpromote : (n.promote front.length).children =
      move n.children front.length (front.length - low.length) := by
    rw [promote, hc]
    simp only [htake, hpassed]
  exact statics_eq _ _ (hpromote.trans hmove) ((promote_hasWild ..).trans hwild)

/-- A child joins siblings that are in order. It passes those that have fewer values than its
priority tells, which may be raised by one too much. -/
theorem promote_ordered {n : Node α} {front back : List (Node α)} {c : Node α}
    {wild : Option (Node α)} (hchildren : n.children = front ++ c :: back ++ wild.toList)
    (hwild : n.hasWild = wild.isSome)
    (hordered : (front ++ back).Pairwise fun a b => b.entries.length ≤ a.entries.length)
    (hcounted : ∀ d ∈ front, d.Counted) (hlow : c.entries.length ≤ c.priority)
    (hhigh : c.priority ≤ c.entries.length + 1)
    (hback : ∀ d ∈ back, d.entries.length ≤ c.entries.length) :
    (n.promote front.length).Ordered := by
  obtain ⟨high, low, rfl, hlower, hlast, hstatics⟩ := promote_statics hchildren hwild
  rw [List.append_assoc, List.pairwise_append] at hordered
  obtain ⟨hordered, hrest, hacross⟩ := hordered
  have hpassed : ∀ d ∈ low ++ back, d.entries.length ≤ c.entries.length := by
    intro d hd
    rcases List.mem_append.1 hd with hd | hd
    · have hcount : d.priority = d.entries.length := hcounted d (List.mem_append_right _ hd)
      have := hlower d hd
      omega
    · exact hback d hd
  have hahead : ∀ d ∈ high, c.entries.length ≤ d.entries.length := by
    intro d hd
    have hne := List.ne_nil_of_mem hd
    have hle := hlast _ (List.getLast?_eq_some_getLast hne)
    have hcount : (high.getLast hne).priority = (high.getLast hne).entries.length :=
      hcounted _ (List.mem_append_left _ (List.getLast_mem hne))
    have := hordered.rel_getLast hd
    omega
  rw [Ordered, hstatics, List.pairwise_append, List.pairwise_cons]
  refine ⟨hordered, ⟨hpassed, hrest⟩, fun a ha b hb => ?_⟩
  rcases List.mem_cons.1 hb with rfl | hb
  · exact hahead a ha
  · exact hacross a ha b hb

theorem settle_label (n c : Node α) (i : Nat) : (n.settle i c).label = n.label := promote_label ..

theorem settle_ordered {n c c' : Node α} {i : Nat} (hn : n.Sound) (hordered : n.Ordered)
    (hcounted : ∀ d ∈ n.children, d.Counted) (hi : i < n.statics.length)
    (hc : n.children[i]? = some c) (hpriority : c'.priority = c.priority + 1)
    (hlow : c.entries.length ≤ c'.entries.length)
    (hhigh : c'.entries.length ≤ c.entries.length + 1) : (n.settle i c').Ordered := by
  obtain ⟨wild, hchildren, hwild⟩ := hn.split_statics
  have hcount : c.priority = c.entries.length := hcounted c (List.mem_of_getElem? hc)
  have hstatic : n.statics[i]? = some c := by
    rw [← hc, hchildren, List.getElem?_append_left hi]
  obtain ⟨front, back, hstatics, rfl⟩ := exists_around hstatic
  have hset : n.children.set front.length c' = front ++ c' :: back ++ wild.toList := by
    simp [hchildren, hstatics]
  rw [Ordered, hstatics, List.pairwise_append, List.pairwise_cons] at hordered
  obtain ⟨hfront, ⟨hbehind, hback⟩, hacross⟩ := hordered
  refine promote_ordered hset hwild ?_ ?_ ?_ ?_ fun d hd => ?_
  · refine List.pairwise_append.2 ⟨hfront, hback, fun a ha b hb => ?_⟩
    exact hacross a ha b (List.mem_cons_of_mem c hb)
  · intro d hd
    exact hcounted d (by simp [hchildren, hstatics, hd])
  · omega
  · omega
  · exact (hbehind d hd).trans hlow

theorem addStatic_ordered {n c : Node α} (key : UInt8) (hn : n.Sound) (hordered : n.Ordered)
    (hcounted : ∀ d ∈ n.children, d.Counted) (hkeys : n.keys.length = n.statics.length)
    (hpriority : c.priority = 1) (hentries : c.entries.length = 1) :
    (n.addStatic key c).Ordered := by
  obtain ⟨wild, hchildren, hwild⟩ := hn.split_statics
  have hinsert : n.children.insertIdx n.statics.length c = n.statics ++ c :: [] ++ wild.toList := by
    conv_lhs => rw [hchildren]
    rw [insertIdx_append (Nat.le_refl _), List.insertIdx_length_self]
  rw [addStatic, hkeys]
  refine promote_ordered hinsert hwild ?_ ?_ ?_ ?_ (List.forall_mem_nil _)
  · rw [List.append_nil]
    exact hordered
  · intro d hd
    exact hcounted d (by rw [hchildren]; exact List.mem_append_left _ hd)
  · omega
  · omega

theorem neat_raised {n : Node α} (h : n.Every Neat) : n.raised.Every Neat :=
  .node ⟨h.here.ordered, h.here.marked⟩ fun _ hc => h.child hc

section Grafts

variable {route : String} {v : α} {path : Bytes} {n m : Node α}

theorem statics_of_wild {n w : Node α} (hn : n.children = []) : (n.addWild w).statics = [] :=
  statics_eq [] (some w) (by rw [addWild, hn]; rfl) rfl

theorem labelled_children (n : Node α) (text : Bytes) : (n.labelled text).children = n.children := by
  unfold labelled
  split <;> rfl

theorem Grafts.marked (h : Grafts route v path n m) (hn : n.Bare) {b : UInt8} {es : List Element}
    (hpath : elements path = .literal b :: es) : m.Marked := by
  intro hlabel
  have hgrown := h.grown hn
  cases h with
  | text helements =>
      dsimp only at hlabel
      rw [hlabel, hpath] at helements
      cases helements
  | @param text name rest _ next hname hstop helements hnext hc =>
      rw [labelled_label hn] at hlabel
      have hnil : Pattern.unescape text = [] := hlabel
      rw [hnil, hpath] at helements
      cases helements
  | @catchAll front name _ hname helements =>
      have hnil : Pattern.unescape front = [] := hlabel
      rw [hnil] at helements
      exact ⟨name, ⟨v, route⟩, by rw [hgrown.entries, helements]; rfl⟩

theorem holderNode_neat (route : String) (v : α) (name : Bytes) :
    (holderNode route v name).Every Neat := by
  have hleaf : (leafNode route v name).Every Neat := .node ⟨.nil, nofun⟩ nofun
  refine .node ⟨.nil, fun c hc => ?_⟩ fun c hc => ?_
  · rw [List.mem_singleton.1 hc]
    exact nofun
  · rw [List.mem_singleton.1 hc]
    exact hleaf

theorem holderNode_entries (route : String) (v : α) {name : Bytes} (hname : IsName name) :
    (holderNode route v name).entries = [⟨[.literal slash, .catchAll name], ⟨v, route⟩⟩] :=
  (holderNode_isHolder route v name).entries.trans ((leafNode_isLeaf route v hname).entries rfl)

theorem stalk_neat {name rest : Bytes} {next : Option (Node α)} (hstop : firstSegment rest = [])
    (hnext : next = none ↔ rest = [])
    (hc : ∀ c, next = some c → Grafts route v rest { priority := 1, route } c)
    (hneat : ∀ c, next = some c → c.Every Neat) : (stalk route v name next).Every Neat := by
  cases next with
  | none => exact .node ⟨.nil, nofun⟩ nofun
  | some c =>
      obtain ⟨es, hes⟩ := elements_of_firstSegment hstop (mt hnext.2 nofun)
      refine .node ⟨List.pairwise_singleton .., fun d hd => ?_⟩ fun d hd => ?_
      · rw [List.mem_singleton.1 hd]
        exact (hc c rfl).marked (bare_fresh route) hes
      · rw [List.mem_singleton.1 hd]
        exact hneat c rfl

theorem Grafts.neat (h : Grafts route v path n m) (hn : n.Bare) : m.Every Neat := by
  induction h with
  | @text path n helements =>
      have hstatics : n.statics = [] :=
        statics_eq [] none hn.children hn.hasWild
      refine .node ⟨?_, ?_⟩ ?_
      · have hsame : Ordered { n with label := Pattern.unescape path, value := some v, route } =
            n.Ordered := rfl
        rw [hsame, Ordered, hstatics]
        exact .nil
      · simp [hn.children]
      · simp [hn.children]
  | @param text name rest n next hname hstop helements hnext hc ih =>
      have hlabelled : (n.labelled text).children = [] := (labelled_children n text).trans hn.children
      have hchildren : ((n.labelled text).addWild (stalk route v name next)).children =
          [stalk route v name next] := by
        rw [addWild, hlabelled]
        rfl
      have hstalk : (stalk route v name next).Every Neat :=
        stalk_neat hstop hnext hc fun c hsome => ih c hsome (bare_fresh route)
      refine .node ⟨?_, fun c hc => ?_⟩ fun c hc => ?_
      · rw [Ordered, statics_of_wild hlabelled]
        exact .nil
      · rw [hchildren, List.mem_singleton] at hc
        rw [hc]
        exact fun hlabel => by cases hlabel
      · rw [hchildren, List.mem_singleton] at hc
        rw [hc]
        exact hstalk
  | @catchAll front name n hname helements =>
      refine .node ⟨?_, fun c hc => ?_⟩ fun c hc => ?_
      · have hstatics := statics_eq (n := { n with
            label := Pattern.unescape front
            keys := [slash]
            children := [holderNode route v name] })
          [holderNode route v name] none rfl hn.hasWild
        rw [Ordered, hstatics]
        exact List.pairwise_singleton ..
      · rw [List.mem_singleton.1 hc]
        exact fun _ => ⟨name, _, holderNode_entries route v hname⟩
      · rw [List.mem_singleton.1 hc]
        exact holderNode_neat route v name

theorem holderNode_counted (route : String) (v : α) {name : Bytes} (hname : IsName name) :
    (holderNode route v name).Every Counted := by
  have hleaf : (leafNode route v name).Every Counted := by
    refine .node ?_ nofun
    rw [Counted, (leafNode_isLeaf route v hname).entries rfl]
    rfl
  refine .node ?_ fun c hc => ?_
  · rw [Counted, holderNode_entries route v hname]
    rfl
  · rw [List.mem_singleton.1 hc]
    exact hleaf

theorem stalk_counted {name rest : Bytes} {next : Option (Node α)} (hname : IsName name)
    (hstop : firstSegment rest = []) (hnext : next = none ↔ rest = [])
    (hc : ∀ c, next = some c → Grafts route v rest { priority := 1, route } c)
    (hcounted : ∀ c, next = some c → ∀ d ∈ c.children, d.Every Counted) :
    (stalk route v name next).Every Counted := by
  have hgrown := fun c h => (hc c h).grown (bare_fresh route)
  refine .node ?_ fun c hmem => ?_
  · rw [Counted, (stalk_stem hname hstop hnext hgrown).entries]
    rfl
  · have hsome : next = some c := Option.mem_toList.1 hmem
    refine .node ?_ (hcounted c hsome)
    rw [Counted, (hc c hsome).priority, (hgrown c hsome).entries]
    rfl

theorem Grafts.counted (h : Grafts route v path n m) (hn : n.Bare) :
    ∀ c ∈ m.children, c.Every Counted := by
  induction h with
  | text => simp [hn.children]
  | @param text name rest n next hname hstop helements hnext hc ih =>
      intro w hw
      rw [addWild, labelled_children, hn.children, List.nil_append, List.mem_singleton] at hw
      subst hw
      exact stalk_counted hname hstop hnext hc fun c hsome => ih c hsome (bare_fresh route)
  | catchAll hname =>
      intro c hc
      rw [List.mem_singleton.1 hc]
      exact holderNode_counted route v hname

end Grafts

section Extends

variable {route : String} {v : α} {rest : Bytes} {n : Node α} {p : Placement α}

theorem Extends.label (h : Extends route v n rest p) : p.node.label = n.label := by
  cases h with
  | static => exact promote_label ..
  | _ => rfl

theorem Extends.priority (h : Extends route v n rest p) : p.node.priority = n.priority := by
  cases h with
  | static => exact promote_priority ..
  | _ => rfl

theorem mem_addStatic {c d : Node α} {key : UInt8} (hlength : n.keys.length ≤ n.children.length)
    (hd : d ∈ (n.addStatic key c).children) : d = c ∨ d ∈ n.children :=
  (List.mem_insertIdx hlength).1 ((promote_children _ _).mem_iff.1 hd)

theorem addWild_statics {w : Node α} (hwild : n.hasWild = false) :
    (n.addWild w).statics = n.statics := by
  have hstatics : n.statics = n.children := if_neg (by simp [hwild])
  rw [hstatics]
  exact statics_eq _ (some w) rfl rfl

theorem replaceLast_statics {w : Node α} (hwild : n.hasWild = true) :
    (n.replaceLast w).statics = n.statics := by
  have hstatics : n.statics = n.children.dropLast := if_pos hwild
  rw [hstatics]
  exact statics_eq _ (some w) rfl hwild

theorem Extends.neat (h : Extends route v n rest p) (hn : n.Sound) (hneat : n.Every Neat)
    (hcounted : ∀ c ∈ n.children, c.Every Counted) : p.node.Every Neat := by
  cases h with
  | refused => exact hneat
  | value => exact .node ⟨hneat.here.ordered, hneat.here.marked⟩ fun c hc => hneat.child hc
  | @static _ b es c helements hkeys hc =>
      have hgrown := hc.grown (bare_fresh route)
      have hlength : n.keys.length ≤ n.children.length := hkeys ▸ length_statics_le n
      refine addStatic_every hneat (hc.neat (bare_fresh route)) hlength ⟨?_, fun d hd => ?_⟩
      · refine addStatic_ordered b hn hneat.here.ordered (fun d hd => (hcounted d hd).here) hkeys
          hc.priority ?_
        rw [hgrown.entries]
        rfl
      · rcases mem_addStatic hlength hd with rfl | hd
        · exact hc.marked (bare_fresh route) helements
        · exact hneat.here.marked d hd
  | @wild name rest next hwild hname hstop hnext hc =>
      have hneat' : ∀ c, next = some c → c.Every Neat := fun c h => (hc c h).neat (bare_fresh route)
      refine addWild_every (fun d hd => hneat.child hd) (stalk_neat hstop hnext hc hneat')
        ⟨?_, fun d hd => ?_⟩
      · rw [Ordered, addWild_statics hwild]
        exact hneat.here.ordered
      · rcases List.mem_append.1 hd with hd | hd
        · exact hneat.here.marked d hd
        · rw [List.mem_singleton.1 hd]
          exact nofun

theorem Extends.counted (h : Extends route v n rest p) (hcounted : ∀ c ∈ n.children, c.Every Counted) :
    ∀ c ∈ p.node.children, c.Every Counted := by
  cases h with
  | refused => exact hcounted
  | value => exact hcounted
  | @static _ b es c helements hkeys hc =>
      intro d hd
      rcases mem_addStatic (hkeys ▸ length_statics_le n) hd with rfl | hd
      · refine .node ?_ (hc.counted (bare_fresh route))
        rw [Counted, hc.priority, (hc.grown (bare_fresh route)).entries]
        rfl
      · exact hcounted d hd
  | @wild name rest next hwild hname hstop hnext hc =>
      intro d hd
      rcases List.mem_append.1 hd with hd | hd
      · exact hcounted d hd
      · rw [List.mem_singleton.1 hd]
        exact stalk_counted hname hstop hnext hc fun c h => (hc c h).counted (bare_fresh route)

end Extends

section Walks

variable {route : String} {v : α} {path : Bytes} {n : Node α} {p : Placement α}

theorem Walks.priority (h : Walks route v path n p) : p.node.priority = n.priority + 1 := by
  cases h with
  | split _ _ _ _ hp => exact hp.priority
  | stop _ _ _ hp => exact hp.priority
  | descend => exact settle_priority ..
  | wild => rfl
  | refused => rfl

theorem length_entries (n : Node α) : n.entries.length = n.held.length := by
  rw [entries_eq, List.length_map]

theorem Grows.length {es : List Element} (h : Grows route v es n p) :
    n.entries.length ≤ p.node.entries.length ∧ p.node.entries.length ≤ n.entries.length + 1 ∧
      (p.outcome = .ok () → p.node.entries.length = n.entries.length + 1) := by
  have hlength := h.entries.length_eq
  rw [List.length_append] at hlength
  cases houtcome : p.outcome with
  | ok _ =>
      have hgain : (gain ⟨es, ⟨v, route⟩⟩ p.outcome).length = 1 := by rw [houtcome]; rfl
      omega
  | error e =>
      have hgain : (gain ⟨es, ⟨v, route⟩⟩ p.outcome).length = 0 := by rw [houtcome]; rfl
      exact ⟨by omega, by omega, nofun⟩

theorem Walks.counted_here (h : Walks route v path n p) {es : List Element}
    (hgrows : Grows route v es n p) (hok : p.outcome = .ok ()) (hcounted : n.Counted) :
    p.node.Counted := by
  have hcount : n.priority = n.entries.length := hcounted
  rw [Counted, h.priority, hgrows.length.2.2 hok, hcount]

theorem split_counted (hcounted : n.Every Counted) (k : Nat) :
    ∀ c ∈ (n.split k).raised.children, c.Every Counted := by
  intro c hc
  rw [List.mem_singleton.1 hc]
  refine .node ?_ fun d hd => hcounted.child hd
  have hcount : n.priority = n.entries.length := hcounted.here
  rw [Counted, length_entries]
  exact hcount.trans (length_entries n)

theorem Walks.label_nil (h : Walks route v path n p) (hn : n.Sound) {b : UInt8}
    (hopens : n.OpensWith b) (hhead : (elements path).head? = some (.literal b))
    (hlabel : p.node.label = []) : n.label = [] := by
  by_cases hempty : n.label = []
  · exact hempty
  cases h with
  | @split _ rest _ k _ hk hkind hfront hsplit hp =>
      rw [hp.label] at hlabel
      have hzero : k = 0 := by
        rcases List.take_eq_nil_iff.1 hlabel with h | h
        · exact h
        · exact absurd h hempty
      subst hzero
      have hb := hopens.head hn hkind hempty
      rw [List.head?_eq_getElem?] at hb
      rw [hfront] at hhead
      exact absurd hhead (hsplit b hb)
  | stop _ _ _ hp => exact hp.label.symm.trans hlabel
  | descend => exact (settle_label n.raised _ _).symm.trans hlabel
  | wild => exact hlabel
  | refused => exact hlabel

/-- A node that only a catch-all keeps takes in no other pattern. -/
theorem Walks.marked (h : Walks route v path n p) (hgrows : Grows route v (elements path) n p)
    (hn : n.Sound) {b : UInt8} (hopens : n.OpensWith b)
    (hhead : (elements path).head? = some (.literal b)) (hmarked : n.Marked) : p.node.Marked := by
  intro hlabel
  obtain ⟨name, hit, hentries⟩ := hmarked (h.label_nil hn hopens hhead hlabel)
  obtain ⟨es, hes⟩ := hopens ⟨[.literal slash, .catchAll name], hit⟩ (by simp [hentries])
  cases hes
  obtain ⟨tail, htail⟩ := List.head?_eq_some_iff.1 hhead
  have hcovers : Covers [.literal slash, .catchAll name] (elements path) := ⟨[], name, tail, rfl, htail⟩
  have hverdict := hgrows.verdict
  have hgain := hgrows.entries
  cases houtcome : p.outcome with
  | ok _ =>
      have hall := hverdict.ok_iff.1 houtcome
      exact absurd (.inr (.inr (.inl hcovers))) (hall _ (by simp [hentries, patterns]))
  | error e =>
      rw [houtcome, gain, List.nil_append, hentries, List.perm_singleton] at hgain
      exact ⟨name, hit, hgain⟩

theorem Walks.neat (h : Walks route v path n p) (hn : n.Sound) (hneat : n.Every Neat)
    (hcounted : n.Every Counted) : p.node.Every Neat := by
  induction h with
  | @split path rest n k p hk hkind hfront hhead hp =>
      obtain ⟨slots, wild, hbranch⟩ := hn.branch hkind
      have hsplit := raised_sound (split_sound hbranch hn hk)
      have hbelow : { n with kind := .static, label := n.label.drop k }.Every Neat :=
        .node ⟨hneat.here.ordered, hneat.here.marked⟩ fun c hc => hneat.child hc
      refine hp.neat hsplit (.node ⟨?_, fun c hc => ?_⟩ fun c hc => ?_) (split_counted hcounted k)
      · exact List.pairwise_singleton ..
      · rw [List.mem_singleton.1 hc]
        intro hlabel
        have := List.drop_eq_nil_iff.1 hlabel
        omega
      · rw [List.mem_singleton.1 hc]
        exact hbelow
  | stop hkind hfront hkeys hp =>
      exact hp.neat (raised_sound hn) (neat_raised hneat) fun c hc => hcounted.child hc
  | @descend path rest n c i b p hfront hi hc hkeyed hhead hgrows hp ih =>
      have hmem := List.mem_of_getElem? hc
      have hsound := hn.child hmem
      obtain ⟨hlow, hhigh, -⟩ := hgrows.length
      refine settle_every (neat_raised hneat)
        (ih hsound (hneat.child hmem) (hcounted.child hmem)) ⟨?_, fun d hd => ?_⟩
      · exact settle_ordered (n := n.raised) (raised_sound hn) hneat.here.ordered
          (fun d hd => (hcounted.child hd).here) hi hc hp.priority hlow hhigh
      · rcases List.mem_or_eq_of_mem_set ((promote_children _ i).mem_iff.1 hd) with hd | rfl
        · exact hneat.here.marked d hd
        · exact hp.marked hgrows hsound hkeyed.opens hhead (hneat.here.marked c hmem)
  | @wild path rest n c front p hfront hwild hc hkind hgrows hp ih =>
      have hmem : c ∈ n.children := by simp [hc]
      refine replaceLast_every (neat_raised hneat)
        (ih (hn.child hmem) (hneat.child hmem) (hcounted.child hmem)) ⟨?_, fun d hd => ?_⟩
      · have hstatics : (n.raised.replaceLast p.node).statics = n.raised.statics :=
          replaceLast_statics hwild
        have hordered : (n.raised.replaceLast p.node).Ordered := by
          rw [Ordered, hstatics]
          exact hneat.here.ordered
        exact hordered
      · rcases List.mem_append.1 hd with hd | hd
        · exact hneat.here.marked d (List.dropLast_subset _ hd)
        · rw [List.mem_singleton.1 hd]
          obtain ⟨name, next, hparam⟩ := hgrows.sound.param (hgrows.kind.trans hkind)
          intro hlabel
          rw [hparam.label] at hlabel
          cases hlabel
  | refused => exact neat_raised hneat

theorem Walks.counted (h : Walks route v path n p) (hcounted : n.Every Counted)
    (hok : p.outcome = .ok ()) : ∀ c ∈ p.node.children, c.Every Counted := by
  induction h with
  | @split path rest n k p hk hkind hfront hhead hp => exact hp.counted (split_counted hcounted k)
  | stop hkind hfront hkeys hp => exact hp.counted fun c hc => hcounted.child hc
  | @descend path rest n c i b p hfront hi hc hkeyed hhead hgrows hp ih =>
      have hmem := List.mem_of_getElem? hc
      intro d hd
      rcases List.mem_or_eq_of_mem_set ((promote_children _ i).mem_iff.1 hd) with hd | rfl
      · exact hcounted.child hd
      · have hcount := (hcounted.child hmem).here
        exact .node (hp.counted_here hgrows hok hcount) (ih (hcounted.child hmem) hok)
  | @wild path rest n c front p hfront hwild hc hkind hgrows hp ih =>
      have hmem : c ∈ n.children := by simp [hc]
      intro d hd
      rcases List.mem_append.1 hd with hd | hd
      · exact hcounted.child (List.dropLast_subset _ hd)
      · rw [List.mem_singleton.1 hd]
        have hcount := (hcounted.child hmem).here
        exact .node (hp.counted_here hgrows hok hcount) (ih (hcounted.child hmem) hok)
  | refused => cases hok

end Walks

section Built

variable {n : Node α} {routes : List (String × α)}

theorem recount_statics (n : Node α) : n.recount.statics = n.statics.map recount := by
  rw [statics, statics, recount_hasWild, recount_children]
  split
  · exact List.map_dropLast.symm
  · rfl

theorem recount_neat (h : n.Every Neat) : n.recount.Every Neat := by
  induction h with
  | @node n here _ ih =>
      refine .node ⟨?_, fun c hc => ?_⟩ fun c hc => ?_
      · rw [Ordered, recount_statics, List.pairwise_map]
        simpa only [recount_entries, Ordered] using here.ordered
      · rw [recount_children] at hc
        obtain ⟨c, hmem, rfl⟩ := List.mem_map.1 hc
        rw [Marked, recount_label, recount_entries]
        exact here.marked c hmem
      · rw [recount_children] at hc
        obtain ⟨c, hmem, rfl⟩ := List.mem_map.1 hc
        exact ih c hmem

theorem recount_counted (n : Node α) : n.recount.Every Counted := by
  induction n using below_induction with
  | h n ih =>
      refine .node ?_ fun c hc => ?_
      · rw [Counted, recount_priority, recount_entries]
      · rw [recount_children] at hc
        obtain ⟨c, hmem, rfl⟩ := List.mem_map.1 hc
        exact ih c hmem

theorem insertChecked_neat (h : Tracks n routes) {route : String}
    (hcheck : Pattern.check route = .ok ()) (v : α) (hneat : n.Every Neat)
    (hcounted : n.Every Counted) :
    (n.insertChecked route v).node.Every Neat ∧
      ((n.insertChecked route v).outcome = .ok () →
        (n.insertChecked route v).node.Every Counted) := by
  have hinserted := insertChecked_inserted h hcheck v
  have hcount : n.priority = n.entries.length := hcounted.here
  have hhere (hok : (n.insertChecked route v).outcome = .ok ()) :
      (n.insertChecked route v).node.Counted := by
    have hentries := hinserted.entries
    rw [hok] at hentries
    rw [Counted, hinserted.priority, hentries.length_eq, hcount]
    rfl
  rcases h.shape with hbare | hsound
  · obtain ⟨m, hinsert, hgrafts⟩ := hbare.insertChecked hcheck v
    rw [hinsert] at hhere ⊢
    have hm := hgrafts.neat hbare.raised
    refine ⟨.node ⟨hm.here.ordered, hm.here.marked⟩ fun c hc => hm.child hc, fun hok => ?_⟩
    exact .node (hhere hok) (hgrafts.counted hbare.raised)
  · have hwalks := place_walks route v hsound (grammar_of_check hcheck) (enters_of_kind h.kind _)
    rw [hsound.insertChecked] at hhere ⊢
    exact ⟨hwalks.neat hsound hneat hcounted,
      fun hok => .node (hhere hok) (hwalks.counted hcounted hok)⟩

theorem Built.neat_counted (h : Built n routes) : n.Every Neat ∧ n.Every Counted := by
  induction h with
  | empty => exact ⟨.node ⟨.nil, nofun⟩ nofun, .node rfl nofun⟩
  | root => exact ⟨.node ⟨.nil, nofun⟩ nofun, .node rfl nofun⟩
  | @accepted n routes hn route v hok ih =>
      obtain ⟨hcheck, hinsert⟩ := insert_ok hok
      obtain ⟨hneat, hcounted⟩ := insertChecked_neat hn.tracks hcheck v ih.1 ih.2
      rw [hinsert] at hok ⊢
      exact ⟨hneat, hcounted hok⟩
  | refused hn herror ih =>
      rcases insert_error herror with hsame | ⟨hcheck, hinner, hnode⟩
      · rw [hsame]
        exact ih
      · rw [hnode]
        exact ⟨recount_neat (insertChecked_neat hn.tracks hcheck _ ih.1 ih.2).1, recount_counted _⟩

end Built

end Node

end HttpRouting

import HttpRouting.Proofs.Pattern.Captured
import HttpRouting.Proofs.Text.Decoding
import HttpRouting.Proofs.Tree.Representation

namespace HttpRouting.Node

open Bytes Pattern Utf8

variable {α : Type} {route : String} {v : α} {n c m : Node α} {path rest : Bytes}
  {shared : List Element} {e : RouteError}

structure LeadsTo (n : Node α) (shared : List Element) (m : Node α) : Prop where
  sound : m.Sound
  patterns : ∀ q ∈ patterns m.entries, shared ++ q ∈ patterns n.entries

theorem LeadsTo.refl (hn : n.Sound) : n.LeadsTo [] n := ⟨hn, fun _ hq => hq⟩

theorem LeadsTo.child (hc : c ∈ n.children) (h : c.LeadsTo shared m) :
    n.LeadsTo (edge n.kind n.label ++ shared) m := by
  refine ⟨h.sound, fun q hq => ?_⟩
  obtain ⟨e, he, hpattern⟩ := mem_patterns.1 (h.patterns q hq)
  refine mem_patterns.2 ⟨_, mem_entries.2 ⟨e, mem_held.2 (.inr ⟨c, hc, he⟩), rfl⟩, ?_⟩
  rw [Entry.behind, hpattern, List.append_assoc]

inductive Refusal (route : String) (n : Node α) (path : Bytes) : RouteError → Prop
  | value : Refusal route n path (.duplicateRoute route)
  | wildcard {slashed : Bool} {shared : List Element} {rest : Bytes} {c : Node α}
      (hleads : n.LeadsTo shared c) (hc : c.IsNamed) (hrest : Grammar slashed rest)
      (hpath : elements path = shared ++ elements rest) :
      Refusal route n path (c.wildcardConflict route rest)
  | slash {shared : List Element} {m : Node α} {name : Bytes} (hleads : n.LeadsTo shared m)
      (hlast : m.label.getLast? = some Bytes.slash) (hname : IsName name)
      (hpath : elements path = shared ++ (edge m.kind m.label ++ elements (star :: name)))
      (hshared : shared = [] ∨ n.label <+: plain shared) :
      Refusal route n path (m.catchAllConflict route (star :: name))

theorem Refusal.child (hn : n.Sound) (hc : c ∈ n.children)
    (hfront : elements path = edge n.kind n.label ++ elements rest) (h : Refusal route c rest e) :
    Refusal route n path e := by
  cases h with
  | value => exact .value
  | wildcard hleads hnamed hrest hpath =>
      refine .wildcard (hleads.child hc) hnamed hrest ?_
      rw [hfront, hpath, List.append_assoc]
  | slash hleads hlast hname hpath =>
      refine .slash (hleads.child hc) hlast hname ?_ (.inr ?_)
      · rw [hfront, hpath, List.append_assoc]
      · rw [hn.here.plain_edge]
        exact List.prefix_append ..

theorem Sound.isNamed_last (hn : n.Sound) (hwild : n.hasWild = true) {front : List (Node α)}
    (hchildren : n.children = front ++ [c]) : c.IsNamed := by
  have hlast : n.children.getLast? = some c := by rw [hchildren, List.getLast?_concat]
  cases hn.here with
  | branch slots wild h _ =>
      cases wild with
      | none => simp [h.hasWild] at hwild
      | some w =>
          rw [h.children, Option.toList_some, List.getLast?_concat] at hlast
          cases hlast
          exact .inl (h.param _ rfl)
  | param name next h _ => simp [h.hasWild] at hwild
  | holder leaf h =>
      rw [h.children] at hlast
      cases hlast
      obtain ⟨name, hleaf⟩ := Sound.leaf (hn.child (by simp [h.children])) h.leafKind h.leafWild
      exact .inr ⟨h.leafKind, by simp [hleaf.label]⟩
  | leaf name h => simp [h.hasWild] at hwild

theorem Extends.refusal {p : Placement α} (h : Extends route v m rest p)
    (herror : p.outcome = .error e) (hleads : n.LeadsTo [] m)
    (hfront : elements path = edge m.kind m.label ++ elements rest) : Refusal route n path e := by
  cases h with
  | refused hocc =>
      cases herror
      cases hocc with
      | value => exact .value
      | slash hname hlast => exact .slash hleads hlast hname hfront (.inl rfl)
  | value | static | wild => cases herror

/-- A refused walk tells what it met: each step passes the refusal of its child on, behind the edge of
the node. -/
theorem Walks.refusal {p : Placement α} (h : Walks route v path n p) (hn : n.Sound)
    (herror : p.outcome = .error e) : Refusal route n path e := by
  induction h with
  | @split path rest n k p hk hkind hfront hhead hp =>
      obtain ⟨slots, wild, hbranch⟩ := hn.branch hkind
      have hentries := (raised_entries _).trans (split_entries (k := k) hbranch)
      have hleads : n.LeadsTo [] (n.split k).raised :=
        ⟨raised_sound (split_sound hbranch hn hk), fun q hq => hentries ▸ hq⟩
      refine hp.refusal herror hleads ?_
      rw [(split_branch hbranch (List.getElem?_eq_getElem hk)).raised.edge]
      exact hfront
  | @stop path rest n p hkind hfront hkeys hp =>
      have hleads : n.LeadsTo [] n.raised :=
        ⟨raised_sound hn, fun q hq => raised_entries n ▸ hq⟩
      exact hp.refusal herror hleads hfront
  | @descend path rest n c i b p hfront hi hc hkeyed hhead hgrows hp ih =>
      have hmem := List.mem_of_getElem? hc
      exact (ih (hn.child hmem) herror).child hn hmem hfront
  | @wild path rest n c front p hfront hwild hc hkind hgrows hp ih =>
      have hmem : c ∈ n.children := by simp [hc]
      exact (ih (hn.child hmem) herror).child hn hmem hfront
  | @refused slashed path rest n c front hfront hrest hwild hc =>
      cases herror
      have hmem : c ∈ n.children := by simp [hc]
      have hleads := (LeadsTo.refl (hn.child hmem)).child hmem
      rw [List.append_nil] at hleads
      exact .wildcard hleads (hn.isNamed_last hwild hc) hrest hfront

theorem Sound.exists_pattern (hn : n.Sound) :
    ∃ es, edge n.kind n.label ++ es ∈ patterns n.entries := by
  obtain ⟨e, he⟩ := List.exists_mem_of_ne_nil _ hn.entries_ne_nil
  obtain ⟨e', -, rfl⟩ := mem_entries.1 he
  exact ⟨e'.pattern, mem_patterns.2 ⟨_, he, rfl⟩⟩

/-- What a conflict with a catch-all shows of the tree below a node. -/
def blocking (m : Node α) : Bytes := firstSegment ((m.children.head?.map (·.label)).getD [])

theorem Sound.blocking_front (hm : m.Sound) :
    ∃ q ∈ patterns m.entries, m.label ++ m.blocking <+: plain q := by
  cases hhead : m.children.head? with
  | none =>
      obtain ⟨es, hes⟩ := hm.exists_pattern
      have hblocking : m.blocking = [] := by rw [blocking, hhead]; rfl
      refine ⟨_, hes, ?_⟩
      rw [hblocking, List.append_nil, hm.here.plain_edge]
      exact List.prefix_append ..
  | some c =>
      have hmem := List.mem_of_head? hhead
      have hc : c.Sound := hm.child hmem
      obtain ⟨es, hes⟩ := hc.exists_pattern
      have hblocking : m.blocking = firstSegment c.label := by rw [blocking, hhead]; rfl
      refine ⟨_, ((LeadsTo.refl hc).child hmem).patterns _ hes, ?_⟩
      rw [List.append_nil, hm.here.plain_edge, hc.here.plain_edge, hblocking]
      exact (List.prefix_append_right_inj _).2 ((List.takeWhile_prefix _).trans (List.prefix_append ..))

theorem IsNamed.texts (h : c.IsNamed) (hc : c.Sound) {front : Bytes} {es : List Element}
    (hes : es ∈ patterns c.entries) (htext : IsText (front ++ spell es)) :
    ∃ tail, es = edge c.kind c.label ++ tail ∧ spell (edge c.kind c.label) = c.label ∧
      IsText front ∧ IsText c.label ∧ IsText (spell tail) := by
  obtain ⟨e, he, rfl⟩ := mem_patterns.1 hes
  obtain ⟨e', he', rfl⟩ := mem_entries.1 he
  refine ⟨e'.pattern, rfl, ?_⟩
  rw [Entry.behind, spell_append] at htext
  cases hc.here with
  | branch slots wild hbranch _ =>
      obtain ⟨hparam, hcatchAll⟩ := hbranch.not_wildcard
      rcases h with hkind | ⟨hkind, -⟩
      · exact absurd hkind hparam
      · exact absurd hkind hcatchAll
  | param name next hparam _ =>
      have hspell : spell (edge c.kind c.label) = colon :: name := by
        rw [hparam.edge]
        exact congrArg (colon :: ·) (List.append_nil name)
      have hstop : firstSegment (spell e'.pattern) = [] := by
        rcases hparam.source he' with ⟨hit, -, rfl⟩ | ⟨d, rfl, hd⟩
        · rfl
        · obtain ⟨fs, hfs⟩ := hparam.opens hd
          rw [hfs, spell, if_neg (by decide), firstSegment_eq_nil]
          exact .inr rfl
      have hslash : ∀ b ∈ name, b ≠ slash := fun b hb => (hparam.isName.2 b hb).1
      rw [hspell, List.cons_append] at htext
      obtain ⟨hfront, hrest⟩ := htext.cut (show colon < 0x80 by decide)
      obtain ⟨hname, htail⟩ := isText_segment hrest
      rw [firstSegment_append hslash hstop] at hname
      rw [dropWhile_append hslash hstop] at htail
      have hcolon : IsText [colon] := ⟨[':'], rfl⟩
      rw [hspell, hparam.label]
      exact ⟨rfl, hfront, hcolon.append hname, htail⟩
  | holder leaf hholder =>
      rcases h with hkind | ⟨-, hlabel⟩
      · simp [hholder.kind] at hkind
      · exact absurd hholder.label hlabel
  | leaf name hleaf =>
      have hspell : spell (edge c.kind c.label) = slash :: star :: name := by
        rw [hleaf.edge, spell, if_neg (by decide), spell, spell, List.append_nil]
      have hend : e'.pattern = [] := by
        rcases mem_held.1 he' with ⟨hit, -, rfl⟩ | ⟨d, hd, -⟩
        · rfl
        · simp [hleaf.children] at hd
      rw [hspell, hend] at htext
      have hfront := (htext.cut slash_low).1
      have hlabel := htext.cancel hfront
      rw [spell, List.append_nil] at hlabel
      rw [hspell, hleaf.label, hend]
      exact ⟨rfl, hfront, hlabel, .nil⟩

def Leads (text route : String) : Prop :=
  Pattern.unescape (utf8 text) <+: Pattern.unescape (utf8 route)

instance (text route : String) : Decidable (Leads text route) :=
  inferInstanceAs (Decidable (Pattern.unescape (utf8 text) <+: Pattern.unescape (utf8 route)))

/-- Behind `before` the new route goes on with the segment, and a registered one with the wildcard. -/
structure Meets (routes : List (String × α)) (route segment wildcard before : String) : Prop where
  new : ∃ after, route = before ++ segment ++ after
  registered : ∃ r ∈ routes,
    (∃ tail, r.1 = before ++ wildcard ++ tail) ∧ Leads (before ++ wildcard) r.1

def IsFirst (segment route before : String) : Prop :=
  ∀ front rest, route = front ++ segment ++ rest → before.length ≤ front.length

theorem before?_isFirst {segment route before after : String}
    (hroute : route = before ++ segment ++ after) :
    before? segment.toList route.toList = some before.toList ↔ IsFirst segment route before := by
  have hchars : route.toList = before.toList ++ segment.toList ++ after.toList := by
    rw [hroute, String.toList_append, String.toList_append]
  rw [before?_iff hchars]
  constructor
  · intro h front rest heq
    have hfront := h front.toList rest.toList (by rw [heq, String.toList_append, String.toList_append])
    rwa [String.length_toList, String.length_toList] at hfront
  · intro h sooner more heq
    have hfront := h (String.ofList sooner) (String.ofList more) <| String.toList_inj.1 <| by
      rw [heq, String.toList_append, String.toList_append, String.toList_ofList, String.toList_ofList]
    rwa [String.length_ofList, ← String.length_toList] at hfront

/-- The text in front of the first occurrence of the segment is the one in front of the wildcard only
if the segment does not stand earlier. -/
theorem first_before {segment route before after : String} (hroute : route = before ++ segment ++ after)
    (wildcard : String) :
    String.ofList ((before? segment.toList route.toList).getD []) ++ wildcard = before ++ wildcard ↔
      IsFirst segment route before := by
  rw [← before?_isFirst hroute]
  obtain ⟨first, hfirst⟩ := before?_isSome segment.toList after.toList before.toList
  rw [← String.toList_append, ← String.toList_append, ← hroute] at hfirst
  rw [hfirst, Option.getD_some, Option.some.injEq, ← String.toList_inj, String.toList_append,
    String.toList_append, String.toList_ofList]
  exact List.append_left_inj _

theorem skipped_nil {label : Bytes} (hlast : label.getLast? = some slash)
    (hshared : shared = [] ∨ n.label <+: plain shared) (hroot : plain shared ++ label <+: n.label) :
    plain shared = [] := by
  rcases hshared with rfl | hlabel
  · rfl
  · have hlength := (hroot.trans hlabel).length_le
    rw [List.length_append] at hlength
    have hnil : label = [] := List.length_eq_zero_iff.1 (by omega)
    simp [hnil] at hlast

section Tracks

variable {routes : List (String × α)} (h : Tracks n routes)

include h

theorem Tracks.refusal (hcheck : check route = .ok ()) (herror : (n.insert route v).outcome = .error e) :
    Refusal route n (utf8 route) e := by
  rw [insert_outcome hcheck] at herror
  rcases h.shape with hbare | hsound
  · obtain ⟨m, hinsert, -⟩ := hbare.insertChecked hcheck v
    rw [hinsert] at herror
    cases herror
  · rw [hsound.insertChecked] at herror
    have hwalks := place_walks route v hsound (grammar_of_check hcheck) (enters_of_kind h.kind _)
    exact hwalks.refusal hsound herror

theorem Tracks.route_of_pattern {es : List Element} (hes : es ∈ patterns n.entries) :
    ∃ r ∈ routes, ofRoute r.1 = es ∧ Grammar false (utf8 r.1) := by
  rw [(patterns_perm h.entries).mem_iff, registered, List.mem_map] at hes
  obtain ⟨r, hr, rfl⟩ := hes
  exact ⟨r, hr, rfl, grammar_of_check (h.checked r hr)⟩

theorem Tracks.meets (hcheck : check route = .ok ()) (hleads : n.LeadsTo shared c) (hc : c.IsNamed)
    {slashed : Bool} (hrest : Grammar slashed rest) (hpath : ofRoute route = shared ++ elements rest) :
    ∃ before, Meets routes route (asText (if c.kind = .catchAll then rest else firstSegment rest))
      (asText c.label) before := by
  obtain ⟨es, hes⟩ := hleads.sound.exists_pattern
  obtain ⟨r, hr, hold, hgrammar⟩ := h.route_of_pattern (hleads.patterns _ hes)
  have hold' : utf8 r.1 = spell shared ++ spell (edge c.kind c.label ++ es) := by
    rw [← spell_append, ← hold, ofRoute, spell_elements hgrammar]
  have hnew : utf8 route = spell shared ++ rest := by
    rw [← spell_elements hrest, ← spell_append, ← hpath, ofRoute,
      spell_elements (grammar_of_check hcheck)]
  obtain ⟨tail, htail, hedge, hfront, hlabel, htailText⟩ :=
    hc.texts hleads.sound hes (hold' ▸ isText_utf8 r.1)
  obtain rfl := List.append_cancel_left htail
  have hrestText : IsText rest := (hnew ▸ isText_utf8 route : IsText (_ ++ rest)).cancel hfront
  obtain ⟨after, hafter, hpart, hafterText⟩ : ∃ after,
      rest = (if c.kind = .catchAll then rest else firstSegment rest) ++ after ∧
        IsText (if c.kind = .catchAll then rest else firstSegment rest) ∧ IsText after := by
    split
    · exact ⟨[], (List.append_nil rest).symm, hrestText, .nil⟩
    · exact ⟨_, (segment_append_rest rest).symm, isText_segment hrestText⟩
  refine ⟨asText (spell shared), ⟨asText after, utf8_injective ?_⟩, r, hr,
    ⟨asText (spell es), utf8_injective ?_⟩, ?_⟩
  · rw [utf8_append, utf8_append, utf8_asText hfront, utf8_asText hpart, utf8_asText hafterText, hnew,
      List.append_assoc, ← hafter]
  · rw [utf8_append, utf8_append, utf8_asText hfront, utf8_asText hlabel, utf8_asText htailText, hold',
      spell_append, hedge, List.append_assoc]
  · have hsplit : elements (utf8 r.1) = (shared ++ edge c.kind c.label) ++ es := by
      rw [List.append_assoc]
      exact hold
    rw [Leads, utf8_append, utf8_asText hfront, utf8_asText hlabel, ← hedge, ← spell_append,
      unescape_spell hgrammar hsplit, ← plain_elements hgrammar, hsplit, plain_append _ es]
    exact List.prefix_append ..

theorem Tracks.shows (hcheck : check route = .ok ()) (hleads : n.LeadsTo shared m) {name : Bytes}
    (hname : IsName name)
    (hpath : ofRoute route = shared ++ (edge m.kind m.label ++ elements (star :: name))) :
    ∃ before, route = before ++ asText (star :: name) ∧
      Pattern.unescape (utf8 before) = plain shared ++ m.label ∧
      (replacement ∉ (asText m.label ++ asText m.blocking).toList →
        ∃ r ∈ routes, plain shared ++ utf8 (asText m.label ++ asText m.blocking) <+:
            Pattern.unescape (utf8 r.1) ∧
          (plain shared = [] → Leads (asText m.label ++ asText m.blocking) r.1)) := by
  have hgrammar := grammar_of_check hcheck
  have hedge : plain (edge m.kind m.label) = m.label := by
    simpa [plain] using hleads.sound.here.plain_edge []
  have hsplit : elements (utf8 route) = (shared ++ edge m.kind m.label) ++ [.catchAll name] := by
    rw [List.append_assoc, ← elements_catchAll hname]
    exact hpath
  have hroute : utf8 route = spell (shared ++ edge m.kind m.label) ++ star :: name := by
    rw [← spell_elements hgrammar, hsplit, spell_append, spell, spell, List.append_nil]
  have htext : IsText (spell (shared ++ edge m.kind m.label) ++ star :: name) :=
    hroute ▸ isText_utf8 route
  have hfront := (htext.cut (show star < 0x80 by decide)).1
  refine ⟨asText (spell (shared ++ edge m.kind m.label)), utf8_injective ?_, ?_, fun hread => ?_⟩
  · rw [utf8_append, utf8_asText hfront, utf8_asText (htext.cancel hfront), hroute]
  · rw [utf8_asText hfront, unescape_spell hgrammar hsplit, plain_append, hedge]
  · rw [String.toList_append, asText, asText, String.toList_ofList, String.toList_ofList,
      List.mem_append, not_or] at hread
    have hshown : utf8 (asText m.label ++ asText m.blocking) = m.label ++ m.blocking := by
      rw [utf8_append, utf8_asText ⟨_, encode_decodeLossy hread.1⟩,
        utf8_asText ⟨_, encode_decodeLossy hread.2⟩]
    obtain ⟨es, hes, hprefix⟩ := hleads.sound.blocking_front
    obtain ⟨r, hr, hold, hgrammar'⟩ := h.route_of_pattern (hleads.patterns _ hes)
    have hplain : Pattern.unescape (utf8 r.1) = plain shared ++ plain es := by
      rw [← plain_append, ← hold, ofRoute, plain_elements hgrammar']
    refine ⟨r, hr, ?_, fun hnil => ?_⟩
    · rw [hshown, hplain]
      exact (List.prefix_append_right_inj _).2 hprefix
    · rw [hnil, List.nil_append] at hplain
      rw [← hplain] at hprefix
      rw [Leads, hshown, unescape_front (unescape_unescape hgrammar') hprefix]
      exact hprefix

end Tracks

/-- A wildcard conflict names the wildcard of a registered route that is the same up to there, and the
prefix that it shows leads up to that wildcard if and only if the segment stands there for the first
time in the new route. A conflict of a catch-all shows the text in front of it from the last edge on,
followed by a segment of a registered route. It shows all of that text where the label of the root
begins with it. -/
theorem conflict_texts {routes : List (String × α)} (h : Built n routes) (route : String) (v : α) :
    (∀ segment path wildcard existing,
      (n.insert route v).outcome = .error (.wildcardConflict segment path wildcard existing) →
      path = route ∧ ∃ before, Meets routes route segment wildcard before ∧
        (existing = before ++ wildcard ↔ IsFirst segment route before)) ∧
    ∀ wildcard path segment existing,
      (n.insert route v).outcome = .error (.catchAllConflict wildcard path segment existing) →
      path = route ∧ ∃ before skipped shown, route = before ++ wildcard ∧
        Pattern.unescape (utf8 before) = skipped ++ shown ∧ existing = asText shown ++ segment ∧
        (Pattern.unescape (utf8 before) <+: n.label → skipped = []) ∧
        (replacement ∉ existing.toList →
          ∃ r ∈ routes, skipped ++ utf8 existing <+: Pattern.unescape (utf8 r.1) ∧
            (skipped = [] → Leads existing r.1)) := by
  have htracks := h.tracks
  cases hcheck : check route with
  | error e =>
      have hmalformed := checkFrom_malformed hcheck
      rw [insert_malformed hcheck]
      constructor
      · rintro segment path wildcard existing herror
        cases herror
        cases hmalformed
      · rintro wildcard path segment existing herror
        cases herror
        cases hmalformed
  | ok _ =>
      constructor
      · intro segment path wildcard existing herror
        generalize he : RouteError.wildcardConflict segment path wildcard existing = e at herror
        cases htracks.refusal hcheck herror with
        | value => cases he
        | slash => cases he
        | wildcard hleads hc hrest hpath =>
            obtain ⟨before, hmeets⟩ := htracks.meets hcheck hleads hc hrest hpath
            obtain ⟨after, hroute⟩ := hmeets.new
            cases he
            exact ⟨rfl, before, hmeets, first_before hroute _⟩
      · intro wildcard path segment existing herror
        generalize he : RouteError.catchAllConflict wildcard path segment existing = e at herror
        cases htracks.refusal hcheck herror with
        | value => cases he
        | wildcard => cases he
        | @slash shared m name hleads hlast hname hpath hshared =>
            obtain ⟨before, hroute, hbefore, hshows⟩ := htracks.shows hcheck hleads hname hpath
            cases he
            refine ⟨rfl, before, plain shared, m.label, hroute, hbefore, rfl, fun hroot => ?_, hshows⟩
            rw [hbefore] at hroot
            exact skipped_nil hlast hshared hroot

def oneLib : Node Nat := (Node.emptyRoot.insert "/src/lib/:x" 1).node

theorem conflict_texts_lib :
    (∃ before, Meets [("/src/lib/:x", 1)] "/src/lib/:y" ":y" ":x" before ∧
      ("/src/lib/:x" = before ++ ":x" ↔ IsFirst ":y" "/src/lib/:y" before)) ∧
    (oneLib.insert "/src/*path" 2).outcome =
        .error (.catchAllConflict "*path" "/src/*path" "lib" "/src/lib") ∧
      Leads "/src/lib" "/src/lib/:x" := by
  have hbuilt : Built oneLib [("/src/lib/:x", 1)] := .accepted .root (by decide +kernel)
  have hparam : (oneLib.insert "/src/lib/:y" 2).outcome =
      .error (.wildcardConflict ":y" "/src/lib/:y" ":x" "/src/lib/:x") := by decide +kernel
  have hstar : (oneLib.insert "/src/*path" 2).outcome =
      .error (.catchAllConflict "*path" "/src/*path" "lib" "/src/lib") := by decide +kernel
  refine ⟨((conflict_texts hbuilt "/src/lib/:y" 2).1 _ _ _ _ hparam).2, hstar, ?_⟩
  obtain ⟨-, before, skipped, shown, hroute, -, -, hroot, hleads⟩ :=
    (conflict_texts hbuilt "/src/*path" 2).2 _ _ _ _ hstar
  have hbefore : before = "/src/" := by
    have hchars := congrArg String.toList hroute
    rw [String.toList_append] at hchars
    have hsplit : "/src/*path".toList = "/src/".toList ++ "*path".toList := by decide +kernel
    exact String.toList_inj.1 (List.append_cancel_right (hchars.symm.trans hsplit))
  subst hbefore
  obtain ⟨r, hr, -, hr'⟩ := hleads (by decide)
  cases List.mem_singleton.1 hr
  exact hr' (hroot (by decide +kernel))

def oneCatchAll : Node Nat := (Node.emptyRoot.insert "/src/*path" 1).node

def branched : Node Nat :=
  (((Node.emptyRoot.insert "/a/x" 1).node.insert "/a/y" 2).node.insert "/b" 3).node

def halved : Node Nat := ((Node.emptyRoot.insert "/ä" 1).node.insert "/ö" 2).node

/-- What a conflict shows can be no part of a registered route: where the offending slash is found at the
start of the new route, where an edge ends in front of the catch-all, and where a letter is cut. -/
theorem conflict_astray :
    (Built oneCatchAll [("/src/*path", 1)] ∧
      (oneCatchAll.insert "/src/" 2).outcome =
        .error (.wildcardConflict "/" "/src/" "/*path" "/*path") ∧
      ¬ Leads "/*path" "/src/*path") ∧
    (Built branched [("/b", 3), ("/a/y", 2), ("/a/x", 1)] ∧
      (branched.insert "/a/*z" 4).outcome = .error (.catchAllConflict "*z" "/a/*z" "x" "a/x") ∧
      ∀ r ∈ ["/b", "/a/y", "/a/x"], ¬ Leads "a/x" r) ∧
    Built halved [("/ö", 2), ("/ä", 1)] ∧
      (halved.insert "/*x" 3).outcome = .error (.catchAllConflict "*x" "/*x" "\uFFFD" "/\uFFFD") ∧
      ∀ r ∈ ["/ö", "/ä"], ¬ Leads "/\uFFFD" r := by
  have hcatchAll : Built oneCatchAll [("/src/*path", 1)] := .accepted .root (by decide +kernel)
  have hbranched : Built branched [("/b", 3), ("/a/y", 2), ("/a/x", 1)] :=
    .accepted (.accepted (.accepted .root (by decide +kernel)) (by decide +kernel)) (by decide +kernel)
  have hhalved : Built halved [("/ö", 2), ("/ä", 1)] :=
    .accepted (.accepted .root (by decide +kernel)) (by decide +kernel)
  exact ⟨⟨hcatchAll, by decide +kernel, by decide +kernel⟩,
    ⟨hbranched, by decide +kernel, by decide +kernel⟩,
    hhalved, by decide +kernel, by decide +kernel⟩

end HttpRouting.Node

import HttpRouting.Proofs.Pattern.Element
import HttpRouting.Tree.Search

namespace HttpRouting.Node

open Bytes Pattern

variable {α : Type}

structure Entry (α : Type) where
  pattern : List Element
  hit : Hit α

def Entry.behind (front : List Element) (e : Entry α) : Entry α := { e with pattern := front ++ e.pattern }

/-- The elements on the edge that leads to a node. The nameless node above a catch-all has none. -/
def edge : Kind → Bytes → List Element
  | .param, label => [.param (label.drop 1)]
  | .catchAll, [] => []
  | .catchAll, label => [.literal slash, .catchAll (label.drop 2)]
  | _, label => literals label

def entries : Node α → List (Entry α)
  | ⟨kind, label, _, _, _, children, value, route⟩ =>
      ((value.map fun v => Entry.mk [] ⟨v, route⟩).toList ++ entriesOf children).map
        (Entry.behind (edge kind label))
where
  entriesOf : List (Node α) → List (Entry α)
    | [] => []
    | c :: cs => entries c ++ entriesOf cs

/-- The entries at and below a node, without the label that leads to it. -/
def held (n : Node α) : List (Entry α) :=
  (n.hit?.map fun hit => ⟨[], hit⟩).toList ++ n.children.flatMap entries

theorem size_induction {p : Node α → Prop} (h : ∀ n, (∀ m : Node α, m.size < n.size → p m) → p n)
    (n : Node α) : p n := by
  induction hsize : n.size using Nat.strongRecOn generalizing n with
  | ind size ih => exact h n fun m hm => ih m.size (hsize ▸ hm) m rfl

theorem below_induction {p : Node α → Prop} (h : ∀ n, (∀ c ∈ n.children, p c) → p n) (n : Node α) :
    p n :=
  size_induction (fun n ih => h n fun c hc => ih c (size_lt_of_mem hc)) n

theorem entriesOf_eq (cs : List (Node α)) : entries.entriesOf cs = cs.flatMap entries := by
  induction cs with
  | nil => rfl
  | cons c cs ih => rw [entries.entriesOf, ih, List.flatMap_cons]

theorem entries_eq (n : Node α) : n.entries = n.held.map (Entry.behind (edge n.kind n.label)) := by
  obtain ⟨kind, label, keys, hasWild, priority, children, value, route⟩ := n
  rw [entries, entriesOf_eq, held, hit?, Option.map_map]
  rfl

theorem mem_entries {n : Node α} {e : Entry α} :
    e ∈ n.entries ↔ ∃ e' ∈ n.held, e = e'.behind (edge n.kind n.label) := by
  rw [entries_eq, List.mem_map]
  exact exists_congr fun _ => and_congr_right fun _ => eq_comm

theorem mem_held {n : Node α} {e : Entry α} :
    e ∈ n.held ↔ (∃ hit, n.hit? = some hit ∧ e = ⟨[], hit⟩) ∨ ∃ c ∈ n.children, e ∈ c.entries := by
  simp only [held, List.mem_append, Option.mem_toList, Option.map_eq_some_iff,
    List.mem_flatMap]
  simp only [eq_comm (a := e)]

theorem held_gain {n m : Node α} {gain : List (Entry α)} (hhit : m.hit? = n.hit?)
    (h : (m.children.flatMap entries).Perm (gain ++ n.children.flatMap entries)) :
    m.held.Perm (gain ++ n.held) := by
  rw [held, held, hhit]
  exact (h.append_left _).trans (List.perm_append_comm_assoc ..)

theorem entries_gain {n m : Node α} {gain : List (Entry α)} (hkind : m.kind = n.kind)
    (hlabel : m.label = n.label) (h : m.held.Perm (gain ++ n.held)) :
    m.entries.Perm (gain.map (Entry.behind (edge n.kind n.label)) ++ n.entries) := by
  rw [entries_eq, entries_eq, hkind, hlabel, ← List.map_append]
  exact h.map _

end HttpRouting.Node

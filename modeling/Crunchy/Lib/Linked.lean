/-
Module: Crunchy.Lib.Linked
Purpose: Singly linked lists in a heap of nodes: which nodes following the links
  visits, and what popping, appending and foreign writes do to that.
Trusted boundary: none
Main exports: Linked, Linked.unique, Linked.nodup, Linked.congr, Linked.append
-/
import Mathlib.Data.List.Nodup

namespace Crunchy.Lib

open List

/-- Following `next` from `head` visits `nodes` in this order and then ends. -/
def Linked {Node : Type*} (next : Node → Option Node) : Option Node → List Node → Prop
  | head, [] => head = none
  | head, node :: rest => head = some node ∧ Linked next (next node) rest

namespace Linked

variable {Node : Type*} {next next' : Node → Option Node} {head : Option Node}
  {nodes : List Node} {node : Node}

@[simp] theorem nil_iff : Linked next head [] ↔ head = none := Iff.rfl

@[simp] theorem cons_iff : Linked next head (node :: nodes) ↔
    head = some node ∧ Linked next (next node) nodes := Iff.rfl

instance decidable [DecidableEq Node] (next : Node → Option Node) :
    (head : Option Node) → (nodes : List Node) → Decidable (Linked next head nodes)
  | head, [] => inferInstanceAs (Decidable (head = none))
  | head, node :: rest =>
    have := decidable next (next node) rest
    inferInstanceAs (Decidable (head = some node ∧ Linked next (next node) rest))

/-- The links determine the nodes. -/
theorem unique {others : List Node} (one : Linked next head nodes)
    (two : Linked next head others) : nodes = others := by
  induction nodes generalizing head others with
  | nil =>
    cases others with
    | nil => rfl
    | cons other others =>
      rw [nil_iff.mp one] at two
      cases two.1
  | cons node nodes ih =>
    cases others with
    | nil =>
      rw [nil_iff.mp two] at one
      cases one.1
    | cons other others =>
      obtain rfl : node = other := Option.some.inj (one.1.symm.trans two.1)
      rw [ih one.2 two.2]

/-- Nothing is visited from `NULL`. -/
theorem eq_nil (linked : Linked next none nodes) : nodes = [] :=
  unique linked (nil_iff.mpr rfl)

/-- The links after a visited node visit what comes after it. -/
theorem after {front back : List Node} (linked : Linked next head (front ++ node :: back)) :
    Linked next (next node) back := by
  induction front generalizing head with
  | nil => exact linked.2
  | cons first front ih => exact ih linked.2

/-- A list that ends visits no node twice: from a second visit on it would have
to be as long as from the first. -/
theorem nodup (linked : Linked next head nodes) : nodes.Nodup := by
  induction nodes generalizing head with
  | nil => exact nodup_nil
  | cons node nodes ih =>
    refine nodup_cons.mpr ⟨fun again => ?_, ih linked.2⟩
    obtain ⟨front, back, rfl⟩ := append_of_mem again
    have same := congrArg List.length (unique linked.2 linked.2.after)
    simp at same
    omega

/-- A list that comes back to its head never ends. -/
theorem next_ne_self (linked : Linked next (some node) nodes) : next node ≠ some node := by
  intro loop
  cases nodes with
  | nil => cases linked
  | cons first nodes =>
    obtain rfl : node = first := Option.some.inj linked.1
    have again := linked.2
    rw [loop] at again
    have same := congrArg List.length (unique linked again)
    simp at same

/-- The link of a visited node leads to a visited node, or the list ends there. -/
theorem next_mem {other : Node} (linked : Linked next head nodes) (member : node ∈ nodes)
    (link : next node = some other) : other ∈ nodes := by
  obtain ⟨front, back, rfl⟩ := append_of_mem member
  have tail := linked.after
  cases back with
  | nil =>
    rw [link] at tail
    cases tail
  | cons first back =>
    obtain rfl : other = first := Option.some.inj (link.symm.trans tail.1)
    simp

/-- The head is visited. -/
theorem head_mem (linked : Linked next (some node) nodes) : node ∈ nodes := by
  cases nodes with
  | nil => cases linked
  | cons first nodes =>
    obtain rfl : node = first := Option.some.inj linked.1
    exact mem_cons_self

/-- Writes to other nodes' links leave the list alone. -/
theorem congr (linked : Linked next head nodes)
    (same : ∀ node ∈ nodes, next' node = next node) : Linked next' head nodes := by
  induction nodes generalizing head with
  | nil => exact linked
  | cons node nodes ih =>
    refine ⟨linked.1, ?_⟩
    rw [same node mem_cons_self]
    exact ih linked.2 fun other member =>
      same other (mem_cons_of_mem _ member)

/-- Linking the last node to a new one, which ends the list, appends it. -/
theorem append {new : Node} (linked : Linked next head nodes) (member : node ∈ nodes)
    (last : next node = none) (link : next' node = some new) (ends : next' new = none)
    (same : ∀ other ∈ nodes, other ≠ node → next' other = next other) :
    Linked next' head (nodes ++ [new]) := by
  obtain ⟨front, back, rfl⟩ := append_of_mem member
  obtain rfl : back = [] := unique linked.after last
  clear member
  induction front generalizing head with
  | nil => exact ⟨linked.1, link, ends⟩
  | cons first front ih =>
    have distinct := linked.nodup
    have notLast : first ≠ node := by
      rintro rfl
      simp at distinct
    refine ⟨linked.1, ?_⟩
    rw [same first (by simp) notLast]
    exact ih linked.2 fun other member =>
      same other (mem_cons_of_mem _ member)

end Linked

end Crunchy.Lib

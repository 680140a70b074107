/-
Module: Crunchy.User.Lquad
Purpose: The linked list of `lquad.c`: nodes with links in both directions, whose head also knows
  the last one, and what pushing nodes makes of them.
Trusted boundary: human-reviewed spec for `QuadNode` to `listSize`; `data` and the links are all
  that a node has, and `malloc` gives every node memory of its own.
Main exports: QuadNode, newNode, push, listSize, quadStart, pushes, QuadList, pushes_doubly_linked
-/
import Crunchy.Lib.Linked
import Crunchy.Types

namespace Crunchy

open Lib Function

/-- `struct node`, with `none` for `NULL`. -/
structure QuadNode where
  data : Option U32
  prev : Option U32
  next : Option U32
  last : Option U32
  head : Option U32

/-- The nodes by their addresses. -/
abbrev QuadNodes := U32 → QuadNode

/-- `new_node()`, where `malloc` returns `p`. -/
def newNode (p : U32) (m : QuadNodes) : QuadNodes := update m p ⟨none, none, none, none, none⟩

/-- `push(head, n)`, where `first` is `*head`; `none` where it follows a `NULL`. -/
def push (head first n : U32) (m : QuadNodes) : Option QuadNodes := do
  let m := update m n { m n with prev := (m first).last }
  let last ← (m first).last
  let m := update m last { m last with next := some n }
  let m := update m first { m first with last := some n }
  some (update m n { m n with head := some head })

/-- The loop of `list_size`, from the node at `h` on; `none` when the fuel does not suffice. -/
def listSizeLoop (m : QuadNodes) : (fuel : Nat) → (h : Option U32) → (i : Nat) → Option Nat
  | _, none, i => some i
  | 0, some _, _ => none
  | fuel + 1, some h, i => listSizeLoop m fuel (m h).next (i + 1)

/-- `list_size(head)`, where `first` is `*head`. -/
def listSize (m : QuadNodes) (fuel : Nat) (first : U32) : Option Nat :=
  listSizeLoop m fuel (some first) 0

/-- What `main` makes of the first node. -/
def quadStart (head first : U32) (m : QuadNodes) : QuadNodes :=
  let m := newNode first m
  let m := update m first { m first with last := some first }
  update m first { m first with head := some head }

/-- `push(&head, new_node())` for each of these nodes. -/
def pushes (head first : U32) (nodes : List U32) (m : QuadNodes) : Option QuadNodes :=
  nodes.foldlM (fun m n => push head first n (newNode n m)) m

/-! ### The list -/

/-- The nodes `front` and then `last` are linked in both directions, and the first knows the
last. -/
structure QuadList (m : QuadNodes) (first : U32) (front : List U32) (last : U32) : Prop where
  next : Linked (fun p => (m p).next) (some first) (front ++ [last])
  prev : Linked (fun p => (m p).prev) (some last) (last :: front.reverse)
  knows : (m first).last = some last

variable {m : QuadNodes} {first last n : U32} {front : List U32}

theorem quadList_start (head first : U32) (m : QuadNodes) :
    QuadList (quadStart head first m) first [] first := by
  constructor <;> simp [quadStart, newNode]

/-- What a push does to the links: the old last node gets the new one behind it. -/
theorem push_links (head : U32) (knows : (m first).last = some last) (notFirst : first ≠ n)
    (notLast : last ≠ n) :
    ∃ m', push head first n (newNode n m) = some m' ∧ (m' first).last = some n ∧
      (∀ p, (m' p).next = if p = last then some n else if p = n then none else (m p).next) ∧
      ∀ p, (m' p).prev = if p = n then some last else (m p).prev := by
  refine ⟨_, by simp only [push, newNode, update_of_ne notFirst, knows]; rfl, ?_, ?_, ?_⟩
  · simp [update_of_ne notFirst]
  all_goals
    intro p
    by_cases isNew : p = n
    · subst isNew
      simp [update_apply, notFirst.symm, notLast.symm]
    · by_cases isFirst : p = first <;> by_cases isLast : p = last <;>
        simp_all [update_apply]

/-- One push. -/
theorem QuadList.push (head : U32) (list : QuadList m first front last)
    (fresh : n ∉ front ++ [last]) :
    ∃ m', push head first n (newNode n m) = some m' ∧ QuadList m' first (front ++ [last]) n := by
  have other : ∀ p ∈ front ++ [last], p ≠ n := fun p member same => fresh (same ▸ member)
  have notLast := other last (by simp)
  obtain ⟨m', pushed, knows, next, prev⟩ :=
    push_links head list.knows (other first list.next.head_mem) notLast
  refine ⟨m', pushed, ?_, ?_, knows⟩
  · refine list.next.append (show last ∈ front ++ [last] by simp) list.next.after ?_ ?_ ?_
    · rw [next, if_pos rfl]
    · rw [next, if_neg notLast.symm, if_pos rfl]
    · intro p member notLast
      rw [next, if_neg notLast, if_neg (other p member)]
  · rw [List.reverse_append, List.reverse_singleton, List.singleton_append]
    refine ⟨rfl, ?_⟩
    show Linked _ (m' n).prev _
    rw [prev, if_pos rfl]
    refine list.prev.congr fun p member => ?_
    rw [prev, if_neg (other p (by simpa [or_comm] using member))]

/-- Any number of pushes. -/
theorem QuadList.pushes (head : U32) {nodes : List U32} (list : QuadList m first front last)
    (fresh : (front ++ last :: nodes).Nodup) :
    ∃ m' front' last', pushes head first nodes m = some m' ∧ QuadList m' first front' last' ∧
      front' ++ [last'] = front ++ last :: nodes := by
  induction nodes generalizing m front last with
  | nil => exact ⟨m, front, last, rfl, list, rfl⟩
  | cons n nodes ih =>
    rw [List.append_cons] at fresh ⊢
    have new : n ∉ front ++ [last] := fun member =>
      List.disjoint_of_nodup_append fresh member (List.mem_cons_self ..)
    obtain ⟨middle, pushed, list⟩ := list.push head new
    obtain ⟨m', front', last', rest, list, same⟩ := ih list fresh
    refine ⟨m', front', last', ?_, list, same⟩
    rw [Crunchy.pushes, List.foldlM_cons, pushed]
    exact rest

theorem listSizeLoop_eq {h : Option U32} {nodes : List U32} {fuel : Nat}
    (linked : Linked (fun p => (m p).next) h nodes) (enough : nodes.length ≤ fuel) (i : Nat) :
    listSizeLoop m fuel h i = some (i + nodes.length) := by
  induction nodes generalizing h fuel i with
  | nil =>
    rw [Linked.nil_iff.mp linked]
    cases fuel <;> rfl
  | cons node nodes ih =>
    obtain ⟨rfl, linked⟩ := linked
    rw [List.length_cons] at enough ⊢
    obtain ⟨fuel, rfl⟩ : ∃ k, fuel = k + 1 := ⟨fuel - 1, by omega⟩
    rw [listSizeLoop, ih linked (by omega)]
    congr 1
    omega

/-- **The pushed nodes are a doubly linked list.** From the node of `main` on, after any number of
pushes of new nodes: forwards, backwards, its last node and its size. -/
theorem pushes_doubly_linked (head first : U32) (nodes : List U32) (m : QuadNodes)
    (fresh : (first :: nodes).Nodup) :
    ∃ m', pushes head first nodes (quadStart head first m) = some m' ∧
      Linked (fun p => (m' p).next) (some first) (first :: nodes) ∧
      Linked (fun p => (m' p).prev) (first :: nodes).getLast? (first :: nodes).reverse ∧
      (m' first).last = (first :: nodes).getLast? ∧
      ∀ fuel, nodes.length + 1 ≤ fuel → listSize m' fuel first = some (nodes.length + 1) := by
  obtain ⟨m', front, last, pushed, list, same⟩ :=
    (quadList_start head first m).pushes head fresh
  rw [List.nil_append] at same
  refine ⟨m', pushed, same ▸ list.next, ?_, ?_, fun fuel enough => ?_⟩
  · simpa [← same] using list.prev
  · rw [← same, List.getLast?_concat, list.knows]
  · rw [listSize, listSizeLoop_eq (same ▸ list.next) enough]
    simp [Nat.add_comm]

theorem pushes_doubly_linked_two :
    ∃ m', pushes 0x100#32 0x200#32 [0x300#32, 0x400#32] (quadStart 0x100#32 0x200#32
        fun _ => ⟨none, none, none, none, none⟩) = some m' ∧ listSize m' 3 0x200#32 = some 3 := by
  obtain ⟨m', pushed, _, _, _, size⟩ :=
    pushes_doubly_linked 0x100#32 0x200#32 [0x300#32, 0x400#32]
      (fun _ => ⟨none, none, none, none, none⟩) (by decide)
  exact ⟨m', pushed, size 3 (by decide)⟩

end Crunchy

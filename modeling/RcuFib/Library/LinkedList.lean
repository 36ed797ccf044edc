import Mathlib.Data.List.Nodup
import Mathlib.Logic.Function.Basic

/-! Singly linked lists in a heap.

    `next` holds the pointer out of every node, `none` for null. The list a pointer heads is determined
    by it, does not depend on nodes that are not in it, and grows by a push at the front. -/

namespace LinkedList

variable {N : Type*}

/-- Following `next` from the pointer one meets the nodes of the list in order, and then null. -/
inductive Chain (next : N → Option N) : Option N → List N → Prop where
  | nil : Chain next none []
  | cons {n l} : Chain next (next n) l → Chain next (some n) (n :: l)

variable {next next' : N → Option N} {p q : Option N} {l m : List N} {n : N}

theorem Chain.eq_nil (h : Chain next none l) : l = [] := by
  cases h
  rfl

/-- What follows the node a pointer is at. -/
theorem Chain.uncons (h : Chain next (some n) l) : ∃ rest, l = n :: rest ∧ Chain next (next n) rest := by
  cases h with
  | cons h => exact ⟨_, rfl, h⟩

theorem Chain.head_eq (h : Chain next p l) : p = l.head? := by
  cases h <;> rfl

/-- A pointer heads one list. -/
theorem Chain.unique (h : Chain next p l) : ∀ {m}, Chain next p m → l = m := by
  induction h with
  | nil =>
    intro m hm
    exact hm.eq_nil.symm
  | cons _ ih =>
    intro m hm
    obtain ⟨rest, rfl, hrest⟩ := hm.uncons
    rw [ih hrest]

/-- Two pointers are the same if and only if they head the same list. -/
theorem Chain.ptr_eq_iff (hp : Chain next p l) (hq : Chain next q m) : p = q ↔ l = m := by
  constructor
  · rintro rfl
    exact hp.unique hq
  · rintro rfl
    rw [hp.head_eq, hq.head_eq]

theorem Chain.congr (h : Chain next p l) (hn : ∀ n ∈ l, next' n = next n) : Chain next' p l := by
  induction h with
  | nil => exact .nil
  | cons _ ih =>
    refine .cons ?_
    rw [hn _ List.mem_cons_self]
    exact ih fun k hk => hn k (List.mem_cons_of_mem _ hk)

end LinkedList

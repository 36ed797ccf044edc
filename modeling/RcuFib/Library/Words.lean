import Mathlib.Data.List.Basic
import Mathlib.Data.Nat.Basic

/-! Bits in words.

    Unsigned arithmetic whose result is missing where a machine's would wrap or be undefined, access to
    an array that is missing out of its bounds, and lists made of blocks of one length, which is what
    the bits of an array of words are. -/

namespace Words

/-- `a - b` without wrapping around. -/
def checkedSub (a b : Nat) : Option Nat := if b ≤ a then some (a - b) else none

/-- `x << k` by less than the width. -/
def checkedShiftLeft {n : Nat} (x : BitVec n) (k : Nat) : Option (BitVec n) :=
  if k < n then some (x <<< k) else none

/-- `x >> k` by less than the width. -/
def checkedShiftRight {n : Nat} (x : BitVec n) (k : Nat) : Option (BitVec n) :=
  if k < n then some (x >>> k) else none

/-- `a[i]` for a signed `i`. -/
def checkedGet {α : Type*} {n : Nat} (a : Vector α n) (i : Int) : Option α :=
  if 0 ≤ i then a[i.toNat]? else none

/-- `a[i] = x` for a signed `i`. -/
def checkedSet {α : Type*} {n : Nat} (a : Vector α n) (i : Int) (x : α) : Option (Vector α n) :=
  if 0 ≤ i ∧ i < n then some (a.setIfInBounds i.toNat x) else none

variable {a b n k : Nat} {x : BitVec n}

theorem checkedSub_of_le (h : b ≤ a) : checkedSub a b = some (a - b) := if_pos h

theorem checkedShiftLeft_of_lt (h : k < n) : checkedShiftLeft x k = some (x <<< k) := if_pos h

theorem checkedShiftRight_of_lt (h : k < n) : checkedShiftRight x k = some (x >>> k) := if_pos h

section array
variable {α : Type*} {a : Vector α n} {i : Nat} {x : α}

theorem checkedGet_natCast (h : i < n) : checkedGet a (i : Int) = some a[i] := by
  simp [checkedGet, h]

theorem checkedSet_natCast (h : i < n) : checkedSet a (i : Int) x = some (a.setIfInBounds i x) := by
  simp [checkedSet, h]

end array

section blocks
variable {α β : Type*} {f : α → List β}

/-- Entry `j` of a list of blocks of length `k` is entry `j % k` of block `j / k`. -/
theorem getElem?_flatMap (hk : 0 < k) (l : List α) (hf : ∀ x ∈ l, (f x).length = k) (j : Nat) :
    (l.flatMap f)[j]? = (l[j / k]?).bind fun x => (f x)[j % k]? := by
  induction l generalizing j with
  | nil => simp
  | cons x l ih =>
    have hx : (f x).length = k := hf x List.mem_cons_self
    rw [List.flatMap_cons]
    rcases Nat.lt_or_ge j k with hj | hj
    · rw [List.getElem?_append_left (by omega), Nat.div_eq_of_lt hj, Nat.mod_eq_of_lt hj]
      rfl
    · rw [List.getElem?_append_right (by omega), hx, ih fun y hy => hf y (List.mem_cons_of_mem _ hy),
        Nat.div_eq_sub_div hk hj, List.getElem?_cons_succ, Nat.mod_eq_sub_mod hj]

theorem length_flatMap (l : List α) (hf : ∀ x ∈ l, (f x).length = k) :
    (l.flatMap f).length = l.length * k := by
  induction l with
  | nil => simp
  | cons x l ih =>
    rw [List.flatMap_cons, List.length_append, hf x List.mem_cons_self,
      ih fun y hy => hf y (List.mem_cons_of_mem _ hy), List.length_cons, Nat.succ_mul, Nat.add_comm]

theorem mapM_eq_some {g : α → Option β} {h : α → β} (l : List α) (hg : ∀ x ∈ l, g x = some (h x)) :
    l.mapM g = some (l.map h) := by
  induction l with
  | nil => rfl
  | cons x l ih =>
    rw [List.mapM_cons, hg x List.mem_cons_self, ih fun y hy => hg y (List.mem_cons_of_mem _ hy)]
    rfl

end blocks

end Words

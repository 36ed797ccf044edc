import Mathlib.Algebra.BigOperators.Group.Finset.Basic
import Mathlib.Algebra.GroupWithZero.Nat
import Mathlib.Algebra.Order.BigOperators.Group.List

/-! Histograms that grow as they are filled.

    A histogram `Counts` a list of numbers when place `d` holds how often `d` occurs in it, a place
    behind its end counting as zero. -/

namespace Histogram
variable {h l : List Nat} {d : Nat}

/-- One more at place `d`, with zeros up to it where the histogram is too short. -/
def bump (h : List Nat) (d : Nat) : List Nat :=
  let h := if h.length ≤ d then h ++ List.replicate (d + 1 - h.length) 0 else h
  h.modify d (· + 1)

def Counts (h l : List Nat) : Prop := ∀ d, h.getD d 0 = l.count d

theorem counts_nil : Counts [] [] := fun _ => rfl

theorem getD_bump (h : List Nat) (d e : Nat) :
    (bump h d).getD e 0 = h.getD e 0 + if d = e then 1 else 0 := by
  have hgrow : ∀ g : List Nat, d < g.length →
      (g.modify d (· + 1)).getD e 0 = g.getD e 0 + if d = e then 1 else 0 := by
    intro g hg
    rw [List.getD_eq_getElem?_getD, List.getD_eq_getElem?_getD, List.getElem?_modify]
    split
    · next he =>
      subst he
      simp [hg]
    · simp
  unfold bump
  split
  · next hle =>
    rw [hgrow _ (by simp; omega)]
    congr 1
    rw [List.getD_eq_getElem?_getD, List.getD_eq_getElem?_getD, List.getElem?_append]
    split
    · rfl
    · next he =>
      rw [List.getElem?_eq_none (Nat.not_lt.mp he), List.getElem?_replicate]
      split <;> rfl
  · next hlt => exact hgrow h (Nat.not_le.mp hlt)

theorem Counts.bump (hc : Counts h l) (d : Nat) : Counts (bump h d) (l ++ [d]) := by
  intro e
  rw [getD_bump, hc e, List.count_append, List.count_singleton]
  simp only [beq_iff_eq]

theorem Counts.lt_length (hc : Counts h l) (hd : d ∈ l) : d < h.length := by
  by_contra hlt
  have hzero := hc d
  rw [List.getD_eq_getElem?_getD, List.getElem?_eq_none (Nat.not_lt.mp hlt)] at hzero
  exact (List.count_pos_iff.mpr hd).ne hzero

/-- The weighted sum of the places is the sum of the numbers counted. -/
theorem Counts.sum_map (hc : Counts h l) (f : Nat → Nat) :
    ∑ d ∈ Finset.range h.length, h.getD d 0 * f d = (l.map f).sum := by
  have hsub : l.toFinset ⊆ Finset.range h.length := fun d hd =>
    Finset.mem_range.mpr (hc.lt_length (List.mem_toFinset.mp hd))
  rw [Finset.sum_list_map_count]
  refine (Finset.sum_subset hsub fun d _ hd => ?_).symm.trans ?_
  · rw [hc d, List.count_eq_zero_of_not_mem fun hm => hd (List.mem_toFinset.mpr hm), Nat.zero_mul]
  · exact Finset.sum_congr rfl fun d _ => by rw [hc d]; rfl

theorem sum_getD (h : List Nat) : ∑ d ∈ Finset.range h.length, h.getD d 0 = h.sum := by
  induction h with
  | nil => rfl
  | cons x h ih =>
    rw [List.length_cons, Finset.sum_range_succ', List.sum_cons, Nat.add_comm]
    simp only [List.getD_cons_succ, List.getD_cons_zero, ih]

theorem Counts.sum_eq (hc : Counts h l) : h.sum = l.length := by
  have hsum := hc.sum_map fun _ => 1
  simp only [Nat.mul_one, sum_getD] at hsum
  rw [hsum]
  simp

end Histogram

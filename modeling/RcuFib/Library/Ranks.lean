import Mathlib.Data.List.Sort
import Mathlib.Data.Rat.Floor
import Mathlib.Order.Lattice

/-! Ranks in a list over a linear order.

    `atMost l v` elements of `l` are at most `v`, so the element of rank `m` is the least with `m` of
    them. In a sorted list it stands at place `m`; the nearest-rank quantile is the one of rank
    `⌈q * n⌉`. -/

namespace Ranks
variable {α : Type*} [LinearOrder α] {l l' : List α} {u v : α} {i m : Nat} {q : ℚ}

def atMost (l : List α) (v : α) : Nat := l.countP (· ≤ v)

/-- The least element with at least `m` elements up to it. -/
structure IsRank (l : List α) (m : Nat) (v : α) : Prop where
  mem : v ∈ l
  enough : m ≤ atMost l v
  least : ∀ u ∈ l, m ≤ atMost l u → v ≤ u

/-- The least element with at least the fraction `q` of all elements up to it. -/
structure IsQuantile (l : List α) (q : ℚ) (v : α) : Prop where
  mem : v ∈ l
  enough : q * l.length ≤ atMost l v
  least : ∀ u ∈ l, q * l.length ≤ atMost l u → v ≤ u

theorem atMost_perm (h : l.Perm l') (v : α) : atMost l v = atMost l' v := h.countP_eq _

theorem IsQuantile.perm (h : IsQuantile l q v) (hp : l.Perm l') : IsQuantile l' q v where
  mem := hp.mem_iff.mp h.mem
  enough := by rw [← hp.length_eq, ← atMost_perm hp]; exact h.enough
  least u hu hq := by
    rw [← hp.length_eq, ← atMost_perm hp] at hq
    exact h.least u (hp.mem_iff.mpr hu) hq

theorem isQuantile_iff_isRank : IsQuantile l q v ↔ IsRank l ⌈q * l.length⌉₊ v := by
  constructor
  · intro h
    exact ⟨h.mem, Nat.ceil_le.mpr h.enough, fun u hu hq => h.least u hu (Nat.ceil_le.mp hq)⟩
  · intro h
    exact ⟨h.mem, Nat.ceil_le.mp h.enough, fun u hu hq => h.least u hu (Nat.ceil_le.mpr hq)⟩

theorem IsRank.unique (hu : IsRank l m u) (hv : IsRank l m v) : u = v :=
  le_antisymm (hu.least v hv.mem hv.enough) (hv.least u hu.mem hu.enough)

/-! ### Sorted lists -/

/-- Place `i` of a sorted list is below the count of `v` exactly if its element is up to `v`. -/
theorem lt_atMost_iff (hl : l.Pairwise (· ≤ ·)) (hi : i < l.length) : i < atMost l v ↔ l[i] ≤ v := by
  induction l generalizing i with
  | nil => exact absurd hi (Nat.not_lt_zero i)
  | cons x l ih =>
    obtain ⟨hx, hl⟩ := List.pairwise_cons.mp hl
    by_cases hxv : x ≤ v
    · have hcount : atMost (x :: l) v = atMost l v + 1 := List.countP_cons_of_pos (by simpa using hxv)
      cases i with
      | zero => simpa [hcount] using hxv
      | succ i => rw [hcount, Nat.succ_lt_succ_iff, List.getElem_cons_succ, ih hl]
    · -- nothing after `x` is up to `v`
      have hcount : atMost (x :: l) v = 0 := by
        refine List.countP_eq_zero.mpr fun y hy => ?_
        rcases List.mem_cons.mp hy with rfl | hy
        · simpa using hxv
        · simpa using (not_le.mp hxv).trans_le (hx y hy)
      have hle : x ≤ (x :: l)[i] := by
        cases i with
        | zero => exact le_rfl
        | succ i => exact hx _ (List.getElem_mem _)
      rw [hcount]
      exact iff_of_false (Nat.not_lt_zero i) fun h => hxv (hle.trans h)

theorem isRank_getElem (hl : l.Pairwise (· ≤ ·)) (hm : m < l.length) : IsRank l (m + 1) l[m] where
  mem := List.getElem_mem hm
  enough := (lt_atMost_iff hl hm).mpr le_rfl
  least _ _ h := (lt_atMost_iff hl hm).mp h

/-- Two neighbours differ exactly if some element has as many up to it as there are up to the first. -/
theorem exists_atMost_iff (hl : l.Pairwise (· ≤ ·)) (hm : m + 1 < l.length) :
    (∃ v ∈ l, atMost l v = m + 1) ↔ l[m] ≠ l[m + 1] := by
  constructor
  · rintro ⟨v, -, hv⟩ heq
    have hle : l[m] ≤ v := (lt_atMost_iff hl (Nat.lt_of_succ_lt hm)).mp (by omega)
    have hlt : ¬l[m + 1] ≤ v := fun h => by
      have := (lt_atMost_iff hl hm).mpr h
      omega
    exact hlt (heq ▸ hle)
  · intro hne
    have hle : l[m] ≤ l[m + 1] := List.pairwise_iff_getElem.mp hl m (m + 1) _ hm (Nat.lt_succ_self m)
    refine ⟨l[m], List.getElem_mem _, le_antisymm ?_ ((isRank_getElem hl _).enough)⟩
    refine not_lt.mp fun hlt => hne (le_antisymm hle ?_)
    exact (lt_atMost_iff hl hm).mp hlt

end Ranks

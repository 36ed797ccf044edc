import Mathlib.Algebra.Order.BigOperators.Group.Finset
import Mathlib.Algebra.Order.Ring.Int
import Mathlib.Logic.Function.Basic

/-! Books kept jointly by a shared state and the threads at work on it.

    A thread that is busy carries a share, an idle one carries none. When each step moves worth only
    between the shared state and the share of the thread that takes it, the books stay balanced, and
    once all threads are idle the shared state balances alone. The number of threads is unbounded;
    only finitely many are ever busy. -/

namespace Tally

variable {T S L : Type*} {worth : S → ℤ} {share : L → ℤ} {s s' : S} {pc : T → Option L} {τ : T}

/-- The share of a thread at `pc`; an idle thread has none. -/
def shareOf (share : L → ℤ) : Option L → ℤ
  | none => 0
  | some l => share l

@[simp] theorem shareOf_none : shareOf share none = 0 := rfl

@[simp] theorem shareOf_some (l : L) : shareOf share (some l) = share l := rfl

def Balanced (worth : S → ℤ) (share : L → ℤ) (s : S) (pc : T → Option L) : Prop :=
  ∃ busy : Finset T, (∀ τ ∉ busy, pc τ = none) ∧
    worth s + ∑ τ ∈ busy, shareOf share (pc τ) = 0

theorem balanced_idle (h : worth s = 0) (hpc : ∀ τ, pc τ = none) : Balanced worth share s pc :=
  ⟨∅, fun τ _ => hpc τ, by simpa using h⟩

theorem Balanced.idle (h : Balanced worth share s pc) (hpc : ∀ τ, pc τ = none) : worth s = 0 := by
  obtain ⟨busy, -, h⟩ := h
  have hzero : ∑ τ ∈ busy, shareOf share (pc τ) = 0 :=
    Finset.sum_eq_zero fun τ _ => by rw [hpc τ, shareOf_none]
  rwa [hzero, add_zero] at h

/-- A surplus in the shared state is owed by some thread. -/
theorem Balanced.debtor (h : Balanced worth share s pc) (hs : 0 < worth s) :
    ∃ τ l, pc τ = some l ∧ share l < 0 := by
  obtain ⟨busy, -, h⟩ := h
  have hneg : ∑ τ ∈ busy, shareOf share (pc τ) < ∑ _τ ∈ busy, 0 := by
    rw [Finset.sum_const_zero]
    omega
  obtain ⟨τ, -, hτ⟩ := Finset.exists_lt_of_sum_lt hneg
  cases hpc : pc τ with
  | none =>
    rw [hpc] at hτ
    exact absurd hτ (lt_irrefl _)
  | some l =>
    rw [hpc] at hτ
    exact ⟨τ, l, hpc, hτ⟩

/-- A step of `τ` that keeps the worth of the state and of `τ` together. -/
theorem Balanced.step [DecidableEq T] (h : Balanced worth share s pc) {x : Option L}
    (hx : worth s' + shareOf share x = worth s + shareOf share (pc τ)) :
    Balanced worth share s' (Function.update pc τ x) := by
  obtain ⟨busy, hbusy, h⟩ := h
  refine ⟨insert τ busy, fun σ hσ => ?_, ?_⟩
  · obtain ⟨hne, hσ⟩ := not_or.mp (fun hm => hσ (Finset.mem_insert.mpr hm))
    rw [Function.update_of_ne hne]
    exact hbusy σ hσ
  · -- `τ` may have been idle, and then its old share is zero
    have hold : ∑ σ ∈ insert τ busy, shareOf share (pc σ) = ∑ σ ∈ busy, shareOf share (pc σ) :=
      (Finset.sum_subset (Finset.subset_insert ..) fun σ _ hσ => by
        rw [hbusy σ hσ, shareOf_none]).symm
    rw [← hold] at h
    rw [← Finset.add_sum_erase _ _ (Finset.mem_insert_self τ busy)] at h ⊢
    have hrest : ∑ σ ∈ (insert τ busy).erase τ, shareOf share (Function.update pc τ x σ) =
        ∑ σ ∈ (insert τ busy).erase τ, shareOf share (pc σ) :=
      Finset.sum_congr rfl fun σ hσ => by rw [Function.update_of_ne (Finset.ne_of_mem_erase hσ)]
    rw [hrest, Function.update_self]
    omega

end Tally

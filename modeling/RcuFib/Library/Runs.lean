import Mathlib.Data.List.Basic

/-! Runs of one value in a list.

    A run is a stretch of positions that all hold `x`. `Longest` is the leftmost of the longest runs,
    and `Trailing` the longest run at the end: the two a scan has to keep to find the former. -/

namespace Runs
variable {α : Type*} {x y : α} {l : List α} {s n : Nat}

/-- The `n` positions from `s` on hold `x`. -/
def IsRun (x : α) (l : List α) (s n : Nat) : Prop :=
  s + n ≤ l.length ∧ ∀ i, s ≤ i → i < s + n → l[i]? = some x

/-- The leftmost of the longest runs. -/
structure Longest (x : α) (l : List α) (s n : Nat) : Prop where
  run : IsRun x l s n
  longest : ∀ s' n', IsRun x l s' n' → n' ≤ n
  leftmost : ∀ s', IsRun x l s' n → s ≤ s'

/-- The longest run that reaches the end has `n` positions. -/
structure Trailing (x : α) (l : List α) (n : Nat) : Prop where
  le : n ≤ l.length
  run : IsRun x l (l.length - n) n
  longest : ∀ s' n', IsRun x l s' n' → s' + n' = l.length → n' ≤ n

theorem IsRun.snoc (h : IsRun x l s n) (y : α) : IsRun x (l ++ [y]) s n := by
  obtain ⟨hle, hrun⟩ := h
  refine ⟨by simp; omega, fun i hi hi' => ?_⟩
  rw [List.getElem?_append_left (by omega)]
  exact hrun i hi hi'

theorem IsRun.of_snoc (h : IsRun x (l ++ [y]) s n) (hle : s + n ≤ l.length) : IsRun x l s n := by
  refine ⟨hle, fun i hi hi' => ?_⟩
  have := h.2 i hi hi'
  rwa [List.getElem?_append_left (by omega)] at this

/-- A run at the end grows by an element exactly if that is `x`. -/
theorem isRun_snoc_end (h : s + n = l.length) : IsRun x (l ++ [y]) s (n + 1) ↔ y = x ∧ IsRun x l s n := by
  constructor
  · intro hrun
    have hy := hrun.2 l.length (by omega) (by omega)
    simp only [List.getElem?_append_right (Nat.le_refl _), Nat.sub_self, List.getElem?_cons_zero,
      Option.some.injEq] at hy
    refine ⟨hy, IsRun.of_snoc ⟨?_, fun i hi hi' => hrun.2 i hi (by omega)⟩ (Nat.le_of_eq h)⟩
    simp
    omega
  · rintro ⟨rfl, hrun⟩
    refine ⟨by simp; omega, fun i hi hi' => ?_⟩
    rcases Nat.lt_or_ge i l.length with hlt | hge
    · rw [List.getElem?_append_left hlt]
      exact hrun.2 i hi (by omega)
    · obtain rfl : i = l.length := by omega
      simp

/-- A run is cut out of its list. -/
theorem IsRun.split (h : IsRun x l s n) : l.take s ++ List.replicate n x ++ l.drop (s + n) = l := by
  obtain ⟨hle, hrun⟩ := h
  have hmid : (l.drop s).take n = List.replicate n x := by
    refine List.ext_getElem? fun i => ?_
    rcases Nat.lt_or_ge i n with hi | hi
    · rw [List.getElem?_take_of_lt hi, List.getElem?_drop, hrun _ (by omega) (by omega)]
      simp [hi]
    · rw [List.getElem?_eq_none (by simp; omega), List.getElem?_eq_none (by simpa using hi)]
  rw [← hmid, ← List.drop_drop, List.append_assoc, List.take_append_drop, List.take_append_drop]

/-! ### One element more -/

/-- A run of the longer list is a run of the list, or reaches the end and is one longer there. -/
theorem IsRun.snoc_cases (h : IsRun x (l ++ [y]) s n) :
    IsRun x l s n ∨ n = 0 ∨ ∃ k, n = k + 1 ∧ y = x ∧ IsRun x l s k ∧ s + k = l.length := by
  have hle : s + n ≤ l.length + 1 := by simpa using h.1
  rcases Nat.lt_or_ge l.length (s + n) with hend | hin
  · right
    cases n with
    | zero => exact .inl rfl
    | succ k =>
      have hk : s + k = l.length := by omega
      obtain ⟨hy, hrun⟩ := (isRun_snoc_end hk).mp h
      exact .inr ⟨k, rfl, hy, hrun, hk⟩
  · exact .inl (h.of_snoc hin)

theorem Trailing.snoc (h : Trailing x l n) : Trailing x (l ++ [x]) (n + 1) := by
  have hle := h.le
  refine ⟨by simpa using hle, ?_, fun s' n' hrun hend => ?_⟩
  · rw [show (l ++ [x]).length - (n + 1) = l.length - n by simp]
    exact (isRun_snoc_end (by omega)).mpr ⟨rfl, h.run⟩
  · rw [List.length_append, List.length_singleton] at hend
    rcases hrun.snoc_cases with hrun | rfl | ⟨k, rfl, -, hrun, hk⟩
    · have := hrun.1
      omega
    · omega
    · exact Nat.succ_le_succ (h.longest _ _ hrun hk)

theorem Trailing.snoc_ne (hy : y ≠ x) : Trailing x (l ++ [y]) 0 := by
  refine ⟨Nat.zero_le _, ⟨by simp, fun i hi hi' => by omega⟩, fun s' n' hrun hend => ?_⟩
  rw [List.length_append, List.length_singleton] at hend
  rcases hrun.snoc_cases with hrun | rfl | ⟨k, -, hyx, -⟩
  · have := hrun.1
    omega
  · exact Nat.le_refl 0
  · exact absurd hyx hy

/-- The run at the end overtakes every other run. -/
theorem Trailing.overtakes {m : Nat} (h : Trailing x l n) (hm : ∀ s' n', IsRun x l s' n' → n' ≤ m)
    (hlt : m < n + 1) : Longest x (l ++ [x]) (l.length - n) (n + 1) := by
  have hle := h.le
  refine ⟨(isRun_snoc_end (by omega)).mpr ⟨rfl, h.run⟩, fun s' n' hrun => ?_, fun s' hrun => ?_⟩
  · rcases hrun.snoc_cases with hrun | rfl | ⟨k, rfl, -, hrun, hk⟩
    · exact Nat.le_trans (hm _ _ hrun) (by omega)
    · exact Nat.zero_le _
    · exact Nat.succ_le_succ (h.longest _ _ hrun hk)
  · rcases hrun.snoc_cases with hrun | h0 | ⟨k, hk, -, -, hend⟩
    · have := hm _ _ hrun
      omega
    · cases h0
    · omega

theorem Longest.snoc {m : Nat} (h : Longest x l s n) (ht : Trailing x l m) (hle : m + 1 ≤ n) :
    Longest x (l ++ [x]) s n := by
  have hs := h.run.1
  refine ⟨h.run.snoc x, fun s' n' hrun => ?_, fun s' hrun => ?_⟩
  · rcases hrun.snoc_cases with hrun | rfl | ⟨k, rfl, -, hrun, hk⟩
    · exact h.longest _ _ hrun
    · exact Nat.zero_le _
    · have := ht.longest _ _ hrun hk
      omega
  · rcases hrun.snoc_cases with hrun | h0 | ⟨k, hk, -, -, hend⟩
    · exact h.leftmost _ hrun
    · omega
    · omega

theorem Longest.snoc_ne (h : Longest x l s n) (hn : 0 < n) (hy : y ≠ x) : Longest x (l ++ [y]) s n := by
  refine ⟨h.run.snoc y, fun s' n' hrun => ?_, fun s' hrun => ?_⟩
  · rcases hrun.snoc_cases with hrun | rfl | ⟨k, -, hyx, -⟩
    · exact h.longest _ _ hrun
    · exact Nat.zero_le _
    · exact absurd hyx hy
  · rcases hrun.snoc_cases with hrun | rfl | ⟨k, -, hyx, -⟩
    · exact h.leftmost _ hrun
    · omega
    · exact absurd hyx hy

end Runs

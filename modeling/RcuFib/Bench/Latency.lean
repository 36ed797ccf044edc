import RcuFib.Library.Ranks

/-! `summarise`: the latency quantiles of a benchmark run.

    A `double` that holds a whole number or a quantile is taken exactly. An access to the samples out of
    their bounds has no value. -/

namespace RcuFib
open Ranks

/-- `latency_summary`. Its fields are of type `double`, which has every sample up to 2^53 exactly. -/
structure LatencySummary where
  p50 : Nat := 0
  p90 : Nat := 0
  p99 : Nat := 0
  p999 : Nat := 0
  max : Nat := 0
  samples : Nat := 0
  deriving DecidableEq, Repr

/-- `quantile(q)` of the sorted samples: the product is truncated, and clamped to the last place. -/
def quantile (samples : List Nat) (q : ℚ) : Option Nat :=
  let count := samples.length
  let index := ⌊q * count⌋₊
  let index := if index ≥ count then count - 1 else index
  samples[index]?

/-- `summarise(samples)`, with the samples as it leaves them. -/
def summarise (samples : List Nat) : Option (LatencySummary × List Nat) :=
  let summary : LatencySummary := { samples := samples.length }
  if samples = [] then some (summary, samples)
  else do
    let sorted := samples.insertionSort (· ≤ ·)
    let p50 ← quantile sorted (1 / 2)
    let p90 ← quantile sorted (9 / 10)
    let p99 ← quantile sorted (99 / 100)
    let p999 ← quantile sorted (999 / 1000)
    let max ← sorted.getLast?
    return ({ summary with p50, p90, p99, p999, max }, sorted)

/-- The quantiles reported, each with its fraction. -/
def LatencySummary.quantiles (s : LatencySummary) : List (ℚ × Nat) :=
  [(1 / 2, s.p50), (9 / 10, s.p90), (99 / 100, s.p99), (999 / 1000, s.p999)]

section quantile
variable {l : List Nat} {q : ℚ}

theorem floor_lt_length (hl : l ≠ []) (hq : q < 1) : ⌊q * l.length⌋₊ < l.length := by
  have hpos : (0 : ℚ) < l.length := by exact_mod_cast List.length_pos_of_ne_nil hl
  exact (Nat.floor_lt' (List.length_pos_of_ne_nil hl).ne').mpr (mul_lt_of_lt_one_left hpos hq)

/-- Below 1 the clamp does nothing and the access is in bounds. -/
theorem quantile_eq (hl : l ≠ []) (hq : q < 1) : quantile l q = l[⌊q * l.length⌋₊]? := by
  have hlt := floor_lt_length hl hq
  simp only [quantile, ge_iff_le, if_neg (Nat.not_le.mpr hlt)]

theorem exists_quantile (hl : l ≠ []) (hq : q < 1) : ∃ v, quantile l q = some v := by
  rw [quantile_eq hl hq]
  exact ⟨_, List.getElem?_eq_getElem (floor_lt_length hl hq)⟩

/-- The element at the rank `m + 1`, one place too far, is right exactly if it repeats the one before. -/
theorem isRank_next_iff (hs : l.Pairwise (· ≤ ·)) {m : Nat} (hm : m + 1 < l.length) :
    IsRank l (m + 1) l[m + 1] ↔ ∀ u ∈ l, atMost l u ≠ m + 1 := by
  have hrank : IsRank l (m + 1) l[m] := isRank_getElem hs (Nat.lt_of_succ_lt hm)
  have heq : IsRank l (m + 1) l[m + 1] ↔ l[m] = l[m + 1] :=
    ⟨fun h => hrank.unique h, fun h => h ▸ hrank⟩
  have hne := exists_atMost_iff hs hm
  rw [heq, ← not_iff_not, ← ne_eq, ← hne]
  push Not
  rfl

/-- The element found is the nearest rank unless exactly the fraction `q` of the elements is up to one
    of them. -/
theorem isQuantile_quantile_iff (hl : l ≠ []) (hs : l.Pairwise (· ≤ ·)) (hq₀ : 0 < q) (hq : q < 1)
    {v : Nat} (hv : quantile l q = some v) :
    IsQuantile l q v ↔ ∀ u ∈ l, (atMost l u : ℚ) ≠ q * l.length := by
  have hpos : (0 : ℚ) < q * l.length :=
    mul_pos hq₀ (by exact_mod_cast List.length_pos_of_ne_nil hl)
  obtain ⟨hlt, rfl⟩ := List.getElem?_eq_some_iff.mp ((quantile_eq hl hq).symm.trans hv)
  rw [isQuantile_iff_isRank]
  generalize hi : ⌊q * l.length⌋₊ = i at hlt
  by_cases hint : (i : ℚ) = q * l.length
  · -- `q * n` is whole: the place found is one after the nearest rank
    obtain ⟨m, rfl⟩ : ∃ m, i = m + 1 := by
      refine Nat.exists_eq_succ_of_ne_zero fun h0 => ?_
      rw [h0, Nat.cast_zero] at hint
      exact hpos.ne hint
    rw [← hint, Nat.ceil_natCast, isRank_next_iff hs hlt]
    simp only [ne_eq, Nat.cast_inj]
  · -- otherwise truncating and counting from 0 make up for the ceiling
    have hceil : ⌈q * l.length⌉₊ = i + 1 := by
      refine (Nat.ceil_eq_iff (Nat.succ_ne_zero i)).mpr ⟨?_, ?_⟩
      · have hle : (i : ℚ) ≤ q * l.length := hi ▸ Nat.floor_le hpos.le
        simpa using lt_of_le_of_ne hle hint
      · have hlt' := Nat.lt_floor_add_one (q * l.length)
        rw [hi] at hlt'
        exact_mod_cast hlt'.le
    rw [hceil]
    refine iff_of_true (isRank_getElem hs hlt) fun u _ hu => hint ?_
    rw [← hi, ← hu, Nat.floor_natCast]

end quantile

/-- A summary of the samples holds what `quantile` finds in them sorted; every access is in bounds. -/
theorem summarise_spec {samples : List Nat} (h : samples ≠ []) :
    ∃ s, summarise samples = some (s, samples.insertionSort (· ≤ ·)) ∧
      ∀ p ∈ s.quantiles, 0 < p.1 ∧ p.1 < 1 ∧
        quantile (samples.insertionSort (· ≤ ·)) p.1 = some p.2 := by
  have hne : samples.insertionSort (· ≤ ·) ≠ [] := by
    rw [← List.length_pos_iff, List.length_insertionSort]
    exact List.length_pos_of_ne_nil h
  obtain ⟨p50, h50⟩ := exists_quantile hne (q := 1 / 2) (by norm_num)
  obtain ⟨p90, h90⟩ := exists_quantile hne (q := 9 / 10) (by norm_num)
  obtain ⟨p99, h99⟩ := exists_quantile hne (q := 99 / 100) (by norm_num)
  obtain ⟨p999, h999⟩ := exists_quantile hne (q := 999 / 1000) (by norm_num)
  obtain ⟨max, hmax⟩ : ∃ v, (samples.insertionSort (· ≤ ·)).getLast? = some v :=
    ⟨_, List.getLast?_eq_getLast_of_ne_nil hne⟩
  let s : LatencySummary := { p50, p90, p99, p999, max, samples := samples.length }
  have hs : summarise samples = some (s, samples.insertionSort (· ≤ ·)) := by
    simp only [summarise, if_neg h, h50, h90, h99, h999, hmax, bind, Option.bind, pure, s]
  refine ⟨s, hs, fun p hp => ?_⟩
  simp only [LatencySummary.quantiles, List.mem_cons, List.not_mem_nil, or_false] at hp
  obtain rfl | rfl | rfl | rfl := hp
  · exact ⟨by norm_num, by norm_num, h50⟩
  · exact ⟨by norm_num, by norm_num, h90⟩
  · exact ⟨by norm_num, by norm_num, h99⟩
  · exact ⟨by norm_num, by norm_num, h999⟩

/-- A reported quantile is the nearest rank exactly if no sample has exactly that fraction of the
    samples up to it. -/
theorem summarise_nearest_rank {samples : List Nat} (h : samples ≠ []) :
    ∃ s, summarise samples = some (s, samples.insertionSort (· ≤ ·)) ∧
      ∀ p ∈ s.quantiles, IsQuantile samples p.1 p.2 ↔
        ∀ u ∈ samples, (atMost samples u : ℚ) ≠ p.1 * samples.length := by
  obtain ⟨s, hs, hq⟩ := summarise_spec h
  refine ⟨s, hs, fun p hp => ?_⟩
  obtain ⟨hq₀, hq₁, hv⟩ := hq p hp
  have hperm : (samples.insertionSort (· ≤ ·)).Perm samples := List.perm_insertionSort _ _
  have hsorted : (samples.insertionSort (· ≤ ·)).Pairwise (· ≤ ·) := List.pairwise_insertionSort _ _
  have hne : samples.insertionSort (· ≤ ·) ≠ [] := fun h0 => h (by rw [h0] at hperm; exact hperm.nil_eq.symm)
  have hiff := isQuantile_quantile_iff hne hsorted hq₀ hq₁ hv
  simp only [hperm.length_eq, hperm.mem_iff, atMost_perm hperm] at hiff
  rw [← hiff]
  exact ⟨fun h => h.perm hperm.symm, fun h => h.perm hperm⟩

/-- Of three samples every quantile is right. -/
theorem summarise_nearest_rank_three :
    ∃ s, summarise [20, 10, 30] = some (s, [10, 20, 30]) ∧
      ∀ p ∈ s.quantiles, IsQuantile [20, 10, 30] p.1 p.2 ↔
        ∀ u ∈ [20, 10, 30], (atMost [20, 10, 30] u : ℚ) ≠ p.1 * 3 :=
  summarise_nearest_rank (by decide)

/-- Of two samples the median reported is the greater, though half of them are up to the smaller. -/
theorem summarise_biased :
    ¬∀ samples : List Nat, samples ≠ [] → ∃ s l, summarise samples = some (s, l) ∧
      ∀ p ∈ s.quantiles, IsQuantile samples p.1 p.2 := by
  intro h
  obtain ⟨s, l, hs, hq⟩ := h [1, 2] (by decide)
  have hv : summarise [1, 2] = some (⟨2, 2, 2, 2, 2, 2⟩, [1, 2]) := by decide +kernel
  obtain ⟨rfl, rfl⟩ := Prod.mk.inj (Option.some.inj (hs.symm.trans hv))
  have hp := hq (1 / 2, 2) (List.mem_cons_self)
  have hle : 2 ≤ 1 := hp.least 1 (by decide) (by
    have : atMost [1, 2] 1 = 1 := rfl
    rw [this]
    norm_num)
  omega

end RcuFib

import RcuFib.Library.Trace
import Mathlib.Order.Monotone.Basic
import Mathlib.Data.Nat.Find
import Mathlib.Tactic.Common

/-! A run of one system followed by a run of another.

    A step of the first system may be no step of the second, one, or several. What the second has gone
    through by then is tied to the first by `R` where both have finished a step, and by the weaker `V`
    in between, where the first is taken to have made its step already. -/

namespace Trace

variable {σ α σ' β : Type*} {act : σ → α → Option σ} {act' : σ' → β → Option σ'} {init : σ} {init' : σ'}
  {r : Nat → σ} {r' : Nat → σ'} {n k : Nat}

/-- A run goes on with another one. -/
def joined (r x : Nat → σ) (n : Nat) (i : Nat) : σ := if i ≤ n then r i else x (i - n)

theorem joined_le (x : Nat → σ) {i : Nat} (hi : i ≤ n) : joined r x n i = r i := if_pos hi

theorem joined_add {x : Nat → σ} (hx : x 0 = r n) (j : Nat) : joined r x n (n + j) = x j := by
  rcases Nat.eq_zero_or_pos j with rfl | hpos
  · rw [Nat.add_zero, joined_le x le_rfl, hx]
  · rw [joined, if_neg (by omega), Nat.add_sub_cancel_left]

theorem Run.append {x : Nat → σ} (h : Run act init r n) (hx : Run act (r n) x k) :
    Run act init (joined r x n) (n + k) := by
  refine ⟨(joined_le x (Nat.zero_le n)).trans h.start, fun i hi => ?_⟩
  rcases Nat.lt_or_ge i n with hlt | hge
  · rw [joined_le x hlt.le, joined_le x hlt]
    exact h.step i hlt
  · obtain ⟨j, rfl⟩ := Nat.exists_eq_add_of_le hge
    rw [joined_add hx.start, Nat.add_assoc, joined_add hx.start]
    exact hx.step j (by omega)

theorem Run.snoc {a : α} {s : σ} (h : Run act init r n) (ha : act (r n) a = some s) :
    Run act init (joined r (fun _ => s) n) (n + 1) := by
  refine ⟨(joined_le _ (Nat.zero_le n)).trans h.start, fun i hi => ?_⟩
  rcases Nat.lt_succ_iff_lt_or_eq.mp hi with hlt | rfl
  · rw [joined_le _ hlt.le, joined_le _ hlt]
    exact h.step i hlt
  · rw [joined_le _ le_rfl, joined, if_neg (Nat.not_succ_le_self i)]
    exact ⟨a, ha⟩

/-- Steps through states with `P` that end in one with `Q`. -/
inductive Passes (act : σ → α → Option σ) (P Q : σ → Prop) : σ → Prop
  | stay {s} : Q s → Passes act P Q s
  | step {s a s'} : act s a = some s' → P s' → Passes act P Q s' → Passes act P Q s

theorem Passes.run {P Q : σ → Prop} {s : σ} (h : Passes act P Q s) : ∃ x k, Run act s x k ∧ Q (x k) ∧
    ∀ i, 0 < i → i ≤ k → P (x i) := by
  induction h with
  | @stay s hQ =>
    refine ⟨fun _ => s, 0, ⟨rfl, fun i hi => absurd hi (Nat.not_lt_zero i)⟩, hQ, ?_⟩
    intro i hlt hle
    exact absurd hle (Nat.not_le_of_lt hlt)
  | @step s a s' ha hP _ ih =>
    obtain ⟨x, k, hx, hQ, hbetween⟩ := ih
    refine ⟨fun i => i.casesOn s x, k + 1, ⟨rfl, ?_⟩, hQ, ?_⟩
    · rintro (_ | i) hi
      · obtain rfl := hx.start
        exact ⟨a, ha⟩
      · exact hx.step i (Nat.lt_of_succ_lt_succ hi)
    · rintro (_ | _ | i) hlt hle
      · exact absurd hlt (Nat.lt_irrefl 0)
      · obtain rfl := hx.start
        exact hP
      · exact hbetween (i + 1) i.succ_pos (Nat.le_of_succ_le_succ hle)

/-- `r'` does what `r` does: when `r` has made `i` steps, `r'` has made `m i`. -/
structure Follows (R V : σ → σ' → Prop) (r : Nat → σ) (n : Nat) (r' : Nat → σ') (m : Nat → Nat) : Prop where
  mono : ∀ i j, i ≤ j → j ≤ n → m i ≤ m j
  related : ∀ i ≤ n, R (r i) (r' (m i))
  between : ∀ i < n, ∀ k, m i < k → k ≤ m (i + 1) → V (r (i + 1)) (r' k)

/-- The simulation rule. -/
theorem Run.follows {R V : σ → σ' → Prop} (h : Run act init r n) (hinit : R init init')
    (hstep : ∀ i < n, ∀ a y, act (r i) a = some (r (i + 1)) → R (r i) y →
      Passes act' (V (r (i + 1))) (R (r (i + 1))) y) :
    ∃ r' m, Run act' init' r' (m n) ∧ Follows R V r n r' m := by
  induction n with
  | zero =>
    refine ⟨fun _ => init', fun _ => 0, ⟨rfl, fun i hi => absurd hi (Nat.not_lt_zero i)⟩,
      fun _ _ _ _ => le_rfl, ?_, fun i hi => absurd hi (Nat.not_lt_zero i)⟩
    intro i hi
    obtain rfl := Nat.le_zero.mp hi
    exact h.start ▸ hinit
  | succ n ih =>
    obtain ⟨r', m, hrun, hm⟩ := ih (h.take n.le_succ) fun i hi => hstep i (Nat.lt_succ_of_lt hi)
    obtain ⟨a, ha⟩ := h.step n n.lt_succ_self
    obtain ⟨x, k, hx, hR, hV⟩ := (hstep n n.lt_succ_self a _ ha (hm.related n le_rfl)).run
    have hold : ∀ i ≤ n, joined m (fun _ => m n + k) n i = m i := fun i hi => joined_le _ hi
    have hnew : joined m (fun _ => m n + k) n (n + 1) = m n + k := if_neg (Nat.not_succ_le_self n)
    refine ⟨joined r' x (m n), joined m (fun _ => m n + k) n, ?_, ?_, ?_, ?_⟩
    · rw [hnew]
      exact hrun.append hx
    · intro i j hij hj
      rcases Nat.le_succ_iff.mp hj with hj | rfl
      · rw [hold i (hij.trans hj), hold j hj]
        exact hm.mono i j hij hj
      · rcases Nat.le_succ_iff.mp hij with hi | rfl
        · rw [hold i hi, hnew]
          exact (hm.mono i n hi le_rfl).trans (Nat.le_add_right _ _)
        · exact le_rfl
    · intro i hi
      rcases Nat.le_succ_iff.mp hi with hi | rfl
      · rw [hold i hi, joined_le _ (hm.mono i n hi le_rfl)]
        exact hm.related i hi
      · rw [hnew, joined_add hx.start]
        exact hR
    · intro i hi j hlt hle
      rcases Nat.lt_succ_iff_lt_or_eq.mp hi with hi | rfl
      · rw [hold i hi.le] at hlt
        rw [hold (i + 1) hi] at hle
        rw [joined_le _ (hle.trans (hm.mono (i + 1) n hi le_rfl))]
        exact hm.between i hi j hlt hle
      · rw [hold i le_rfl] at hlt
        rw [hnew] at hle
        obtain ⟨j, rfl⟩ := Nat.exists_eq_add_of_lt hlt
        rw [Nat.add_assoc, joined_add hx.start]
        exact hV (j + 1) j.succ_pos (by omega)

/-- A moment of the second run, seen in the first: the first has made its step by then. -/
theorem Follows.moment {R V : σ → σ' → Prop} {m : Nat → Nat} (h : Follows R V r n r' m)
    (hweak : ∀ s x, R s x → V s x) {i₀ : Nat} (h₀ : i₀ ≤ n) :
    ∃ f : Nat → Nat, Monotone f ∧ ∀ k, m i₀ ≤ k → k ≤ m n →
      i₀ ≤ f k ∧ f k ≤ n ∧ V (r (f k)) (r' k) := by
  classical
  have hex : ∀ k, ∃ i, i₀ ≤ i ∧ (k ≤ m i ∨ i = n) := fun _ => ⟨n, h₀, .inr rfl⟩
  refine ⟨fun k => Nat.find (hex k), ?_, ?_⟩
  · intro k l hkl
    obtain ⟨hle, hlater⟩ := Nat.find_spec (hex l)
    exact Nat.find_min' (hex k) ⟨hle, hlater.imp hkl.trans id⟩
  · intro k hk hkn
    obtain ⟨hle, hlater⟩ := Nat.find_spec (hex k)
    have hmin := fun i => Nat.find_min (hex k) (m := i)
    have hn : Nat.find (hex k) ≤ n := Nat.find_min' (hex k) ⟨h₀, .inr rfl⟩
    change i₀ ≤ Nat.find (hex k) ∧ Nat.find (hex k) ≤ n ∧ V (r (Nat.find (hex k))) (r' k)
    generalize Nat.find (hex k) = i at hle hlater hmin hn ⊢
    have hki : k ≤ m i := by
      rcases hlater with hki | rfl
      · exact hki
      · exact hkn
    refine ⟨hle, hn, ?_⟩
    rcases hle.eq_or_lt with rfl | hlt
    · obtain rfl := Nat.le_antisymm hk hki
      exact hweak _ _ (h.related _ h₀)
    · -- the step before the moment found does not reach it
      obtain ⟨j, rfl⟩ := Nat.exists_eq_succ_of_ne_zero (Nat.ne_zero_of_lt hlt)
      have hlow : m j < k := by
        by_contra hge
        exact hmin j j.lt_succ_self ⟨Nat.le_of_lt_succ hlt, .inl (Nat.not_lt.mp hge)⟩
      exact h.between j hn k hlow hki

end Trace

import Mathlib.Data.Nat.Digits.Defs
import Mathlib.Data.List.Induction
import Mathlib.Tactic.Ring

/-! Positional numerals as text, in a base up to 16.

    `value` reads a text of digits, letters in either case, as C's conversions do; `Nat.toDigits` is the
    text they print: lower case and without leading zeros. -/

namespace Numeral

/-- `0` to `9`, then the letters in either case. -/
def digitValue (c : Char) : Option Nat :=
  if '0' ≤ c ∧ c ≤ '9' then some (c.toNat - '0'.toNat)
  else if 'a' ≤ c ∧ c ≤ 'z' then some (c.toNat - 'a'.toNat + 10)
  else if 'A' ≤ c ∧ c ≤ 'Z' then some (c.toNat - 'A'.toNat + 10)
  else none

def isDigit (base : Nat) (c : Char) : Bool := (digitValue c).any fun d => decide (d < base)

/-- The number a text of digits denotes. -/
def value (base : Nat) (t : List Char) : Nat :=
  t.foldl (fun n c => n * base + (digitValue c).getD 0) 0

variable {b n : Nat} {t u : List Char} {c : Char}

theorem digitValue_lt (h : isDigit b c = true) : (digitValue c).getD 0 < b := by
  cases hd : digitValue c with
  | none => rw [isDigit, hd] at h; cases h
  | some d =>
    rw [isDigit, hd] at h
    exact of_decide_eq_true h

theorem digitValue_digitChar : ∀ d < 16, digitValue (Nat.digitChar d) = some d := by decide

theorem digitValue_pos (h : isDigit b c = true) (hc : c ≠ '0') : ∃ d, digitValue c = some d ∧ 0 < d := by
  cases hd : digitValue c with
  | none => rw [isDigit, hd] at h; cases h
  | some d =>
    refine ⟨d, rfl, Nat.pos_of_ne_zero fun h0 => hc ?_⟩
    subst h0
    unfold digitValue at hd
    split at hd
    · next hrange =>
      have hle : '0'.toNat ≤ c.toNat := hrange.1
      have hsub := Option.some.inj hd
      exact Char.toNat_inj.mp (by omega)
    · split at hd
      · cases hd
      · split at hd <;> cases hd

/-- A digit is printed as it was read, unless it is a letter in upper case. -/
theorem digitChar_digitValue {d : Nat} (hd : digitValue c = some d) (hlt : d < 16)
    (hc : c.isUpper = false) : Nat.digitChar d = c := by
  have hfigure : ∀ d < 10, (Nat.digitChar d).toNat = d + 48 := by decide
  have hletter : ∀ d < 16, 10 ≤ d → (Nat.digitChar d).toNat = d + 87 := by decide
  unfold digitValue at hd
  apply Char.toNat_inj.mp
  split at hd
  · next hrange =>
    have hle : 48 ≤ c.toNat := hrange.1
    have hge : c.toNat ≤ 57 := hrange.2
    have hsub : c.toNat - 48 = d := Option.some.inj hd
    rw [hfigure d (by omega)]
    omega
  · split at hd
    · next hrange =>
      have hle : 97 ≤ c.toNat := hrange.1
      have hsub : c.toNat - 97 + 10 = d := Option.some.inj hd
      rw [hletter d hlt (by omega)]
      omega
    · split at hd
      · next hrange =>
        exact absurd hrange (of_decide_eq_false hc)
      · cases hd

/-- The decimal digits are `0` to `9`. -/
theorem isDigit_ten (h : isDigit 10 c = true) :
    ('0' ≤ c ∧ c ≤ '9') ∧ digitValue c = some (c.toNat - '0'.toNat) := by
  by_cases hrange : '0' ≤ c ∧ c ≤ '9'
  · exact ⟨hrange, if_pos hrange⟩
  · rw [isDigit, digitValue, if_neg hrange] at h
    split at h
    · simp at h
    · split at h <;> simp at h

theorem isDigit_digitChar {d : Nat} (hd : d < b) (hb : b ≤ 16) : isDigit b (Nat.digitChar d) = true := by
  rw [isDigit, digitValue_digitChar d (by omega)]
  exact decide_eq_true hd

theorem value_snoc (t : List Char) (c : Char) :
    value b (t ++ [c]) = value b t * b + (digitValue c).getD 0 := by simp [value]

/-- A digit more is a factor more. -/
theorem value_lt (ht : ∀ c ∈ t, isDigit b c = true) : value b t < b ^ t.length := by
  induction t using List.reverseRecOn with
  | nil => exact Nat.one_pos
  | append_singleton t c ih =>
    have ih := ih fun x hx => ht x (List.mem_append_left _ hx)
    have hc := digitValue_lt (ht c (by simp))
    rw [value_snoc, List.length_append, List.length_singleton, Nat.pow_succ]
    calc value b t * b + (digitValue c).getD 0 < value b t * b + b := by omega
      _ = (value b t + 1) * b := by ring
      _ ≤ b ^ t.length * b := Nat.mul_le_mul_right b ih

/-- A leading digit other than zero makes the number as long as its text. -/
theorem le_value {d : Nat} (hd : digitValue c = some d) (hpos : 0 < d) : b ^ t.length ≤ value b (c :: t) := by
  induction t using List.reverseRecOn with
  | nil => simp [value, hd]; omega
  | append_singleton t x ih =>
    rw [← List.cons_append, value_snoc, List.length_append, List.length_singleton, Nat.pow_succ]
    exact (Nat.mul_le_mul_right b ih).trans (Nat.le_add_right _ _)

/-! ### Printed numbers -/

section printed
variable (hb : 1 < b) (hb' : b ≤ 16)
include hb

/-- Induction along the digits, most significant first. -/
theorem toDigits_induction {P : Nat → List Char → Prop} (hlt : ∀ n < b, P n [Nat.digitChar n])
    (hge : ∀ n, b ≤ n → P (n / b) (Nat.toDigits b (n / b)) →
      P n (Nat.toDigits b (n / b) ++ [Nat.digitChar (n % b)])) (n : Nat) : P n (Nat.toDigits b n) := by
  induction n using Nat.strong_induction_on with
  | _ n ih =>
    rcases Nat.lt_or_ge n b with h | h
    · rw [Nat.toDigits_of_lt_base h]
      exact hlt n h
    · rw [Nat.toDigits_of_base_le hb h]
      exact hge n h (ih (n / b) (Nat.div_lt_self (by omega) hb))

include hb'

theorem value_toDigits (n : Nat) : value b (Nat.toDigits b n) = n := by
  refine toDigits_induction hb (P := fun n t => value b t = n) (fun n hn => ?_) (fun n hn ih => ?_) n
  · simp [value, digitValue_digitChar n (by omega)]
  · have hmod : n % b < b := Nat.mod_lt n (by omega)
    rw [value_snoc, ih, digitValue_digitChar _ (by omega), Option.getD_some, Nat.mul_comm]
    exact Nat.div_add_mod n b

theorem isDigit_toDigits (n : Nat) : ∀ c ∈ Nat.toDigits b n, isDigit b c = true := by
  refine toDigits_induction hb (P := fun _ t => ∀ c ∈ t, isDigit b c = true) (fun n hn => ?_)
    (fun n hn ih => ?_) n
  · intro c hc
    rw [List.mem_singleton.mp hc]
    exact isDigit_digitChar hn hb'
  · intro c hc
    rcases List.mem_append.mp hc with hc | hc
    · exact ih c hc
    · rw [List.mem_singleton.mp hc]
      exact isDigit_digitChar (Nat.mod_lt n (by omega)) hb'

/-- Letters are printed in lower case. -/
theorem isUpper_toDigits (n : Nat) : ∀ c ∈ Nat.toDigits b n, c.isUpper = false := by
  have hdigit : ∀ d < 16, (Nat.digitChar d).isUpper = false := by decide
  refine toDigits_induction hb (P := fun _ t => ∀ c ∈ t, c.isUpper = false) (fun n hn => ?_)
    (fun n hn ih => ?_) n
  · intro c hc
    rw [List.mem_singleton.mp hc]
    exact hdigit n (by omega)
  · intro c hc
    rcases List.mem_append.mp hc with hc | hc
    · exact ih c hc
    · rw [List.mem_singleton.mp hc]
      exact hdigit _ ((Nat.mod_lt n (by omega)).trans_le hb')

/-- Only zero is printed with a leading zero. -/
theorem head_toDigits (hz : (Nat.toDigits b n).head? = some '0') : n = 0 := by
  refine toDigits_induction hb (P := fun n t => t.head? = some '0' → n = 0) (fun n hn hz => ?_)
    (fun n hn ih hz => ?_) n hz
  · have h0 := congrArg digitValue (Option.some.inj hz)
    rw [digitValue_digitChar n (by omega)] at h0
    exact Option.some.inj h0
  · have hne : Nat.toDigits b (n / b) ≠ [] := Nat.toDigits_ne_nil
    obtain ⟨x, t, ht⟩ := List.exists_cons_of_ne_nil hne
    rw [ht] at hz ih
    have := ih hz
    rw [Nat.div_eq_zero_iff] at this
    omega

/-- A number is printed as it was read, but for a leading zero and letters in upper case. -/
theorem toDigits_value (hne : t ≠ []) (ht : ∀ c ∈ t, isDigit b c = true)
    (hup : ∀ c ∈ t, c.isUpper = false) (hzero : t.head? = some '0' → t.length ≤ 1) :
    Nat.toDigits b (value b t) = t := by
  induction t using List.reverseRecOn with
  | nil => exact absurd rfl hne
  | append_singleton t c ih =>
    have hc := ht c (by simp)
    obtain ⟨d, hd⟩ : ∃ d, digitValue c = some d := by
      cases hd : digitValue c with
      | none => rw [isDigit, hd] at hc; cases hc
      | some d => exact ⟨d, rfl⟩
    have hlt : d < b := by simpa [hd] using digitValue_lt hc
    have hchar : Nat.digitChar d = c := digitChar_digitValue hd (by omega) (hup c (by simp))
    rw [value_snoc, hd, Option.getD_some]
    cases t with
    | nil => simp [value, Nat.toDigits_of_lt_base hlt, hchar]
    | cons x t =>
      have hx : x ≠ '0' := by
        rintro rfl
        simpa using hzero rfl
      have ih := ih (by simp) (fun y hy => ht y (List.mem_append_left _ hy))
        (fun y hy => hup y (List.mem_append_left _ hy)) fun h0 => absurd (Option.some.inj h0) hx
      obtain ⟨e, he, hpos⟩ := digitValue_pos (ht x (by simp)) hx
      have hlow : 1 ≤ value b (x :: t) := (Nat.one_le_pow _ _ (by omega)).trans (le_value he hpos)
      have hdiv : (value b (x :: t) * b + d) / b = value b (x :: t) := by
        rw [Nat.mul_comm, Nat.mul_add_div (by omega), Nat.div_eq_of_lt hlt, Nat.add_zero]
      have hmod : (value b (x :: t) * b + d) % b = d := by
        rw [Nat.mul_comm, Nat.mul_add_mod, Nat.mod_eq_of_lt hlt]
      rw [Nat.toDigits_of_base_le hb (le_add_right (Nat.le_mul_of_pos_left _ hlow)), hdiv, hmod, ih, hchar]

end printed

end Numeral

import RcuFib.PrefixRange
import Mathlib.Data.Nat.Bitwise
import Mathlib.Data.List.Lex

/-! The order of prefixes: `operator<=>` of `basic_address` and `basic_prefix`.

    Addresses compare word by word, prefixes by address and then by length. On bit strings this is the
    lexicographic order: host bits are zero, so a prefix sorts with the first address it covers and
    before everything it covers. A sorted table keeps what a prefix covers together. -/

namespace RcuFib

namespace Address
variable {w : Width}

/-- The comparison of two `std::array`s with `k` words left, the next of them word `i`. -/
def compareWords (a b : Address w) : (k i : Nat) → Ordering
  | 0, _ => .eq
  | k + 1, i =>
    if a.word i < b.word i then .lt
    else if b.word i < a.word i then .gt
    else compareWords a b k (i + 1)

/-- `a <=> b` -/
def compare (a b : Address w) : Ordering := compareWords a b w.wordCount 0

/-- The first word that differs decides. -/
theorem compareWords_lt {a b : Address w} {j : Nat} (hlt : a.word j < b.word j) :
    ∀ (k i : Nat), i ≤ j → j < i + k → (∀ l, i ≤ l → l < j → a.word l = b.word l) →
      compareWords a b k i = .lt := by
  intro k
  induction k with
  | zero => intro i hij hji; omega
  | succ k ih =>
    intro i hij hji heq
    rw [compareWords]
    rcases Nat.eq_or_lt_of_le hij with rfl | hij
    · rw [if_pos hlt]
    · have hi := heq i le_rfl hij
      rw [hi, if_neg (BitVec.lt_irrefl _), if_neg (BitVec.lt_irrefl _)]
      exact ih (i + 1) hij (by omega) fun l hl => heq l (by omega)

/-- The first bit that differs decides. -/
theorem compare_lt {a b : Address w} {i : Nat} (hi : i < w.bits) (heq : ∀ l < i, a.bit l = b.bit l)
    (ha : a.bit i = false) (hb : b.bit i = true) : a.compare b = .lt := by
  have hpos := w.bitsPerWord_pos
  have hdm := Nat.div_add_mod i w.bitsPerWord
  have hmod := Nat.mod_lt i hpos
  rw [Nat.mul_comm] at hdm
  refine compareWords_lt (j := i / w.bitsPerWord) ?_ w.wordCount 0 (Nat.zero_le _)
    (by simpa using w.div_lt_wordCount hi) fun l _ hl => ?_
  · rw [bit_eq_getLsbD] at ha hb
    rw [BitVec.lt_def]
    refine Nat.lt_of_testBit (w.bitsPerWord - 1 - i % w.bitsPerWord) ha hb fun l hl => ?_
    rcases Nat.lt_or_ge l w.bitsPerWord with hlw | hlw
    · have := heq (i / w.bitsPerWord * w.bitsPerWord + (w.bitsPerWord - 1 - l)) (by omega)
      rw [bit_at _ _ (by omega), bit_at _ _ (by omega)] at this
      rwa [show w.bitsPerWord - 1 - (w.bitsPerWord - 1 - l) = l by omega] at this
    · exact (getLsbD_of_word_ge a _ hlw).trans (getLsbD_of_word_ge b _ hlw).symm
  · refine word_eq_of_bits fun off hoff => heq _ ?_
    have : (l + 1) * w.bitsPerWord ≤ i / w.bitsPerWord * w.bitsPerWord := Nat.mul_le_mul_right _ hl
    rw [Nat.add_mul, Nat.one_mul] at this
    omega

theorem compare_self (a : Address w) : a.compare a = .eq := by
  have haux : ∀ k i, compareWords a a k i = .eq := by
    intro k
    induction k with
    | zero => intro i; rfl
    | succ k ih =>
      intro i
      rw [compareWords, if_neg (BitVec.lt_irrefl _), if_neg (BitVec.lt_irrefl _), ih]
  exact haux _ _

theorem compare_swap (a b : Address w) : b.compare a = (a.compare b).swap := by
  have haux : ∀ k i, compareWords b a k i = (compareWords a b k i).swap := by
    intro k
    induction k with
    | zero => intro i; rfl
    | succ k ih =>
      intro i
      simp only [compareWords]
      by_cases hlt : a.word i < b.word i
      · rw [if_pos hlt, if_neg (BitVec.lt_asymm hlt), if_pos hlt]
        rfl
      · rw [if_neg hlt, if_neg hlt]
        split
        · rfl
        · exact ih (i + 1)
  exact haux _ _

end Address

namespace Prefix
variable {w : Width} {p q : Prefix w}

/-- `p <=> q` -/
def compare (p q : Prefix w) : Ordering :=
  match p.address.compare q.address with
  | .eq => Ord.compare p.length q.length
  | cmp => cmp

/-- Beyond its length a prefix has only zeros. -/
theorem bit_host (p : Prefix w) {i : Nat} (hi : i < w.bits) (hp : p.length ≤ i) :
    p.address.bit i = false := by
  rw [← p.host_clear, Address.bit_masked _ hi, decide_eq_false (Nat.not_lt.mpr hp), Bool.false_and]

/-- The bit of an address at a position its prefix fixes. -/
theorem getElem_bits (p : Prefix w) {i : Nat} (h : i < p.bits.length) :
    p.bits[i] = p.address.bit i := by
  have hi := p.getElem?_bits (by simpa using h)
  rwa [List.getElem?_eq_getElem h, Option.some.injEq] at hi

/-- The order of prefixes is the lexicographic order of their bits. -/
theorem compare_lt (h : p.bits < q.bits) : p.compare q = .lt := by
  have hp := p.length_le
  have hq := q.length_le
  rcases List.lt_iff_exists.mp h with ⟨hpre, hlt⟩ | ⟨i, hi, hi', heq, hlt⟩
  · simp only [length_bits] at hlt hpre
    have hagree : ∀ l < p.length, p.address.bit l = q.address.bit l := by
      rw [bits, bits, List.take_take, Nat.min_eq_left hlt.le] at hpre
      exact (Address.take_bits_eq hp).mp hpre
    -- `q` goes on with zeros alone, or has a bit where `p` has none
    by_cases hzero : ∀ l, p.length ≤ l → l < w.bits → q.address.bit l = false
    · have haddr : p.address = q.address := by
        refine Address.ext_bit fun l hl => ?_
        rcases Nat.lt_or_ge l p.length with hlp | hlp
        · exact hagree l hlp
        · rw [p.bit_host hl hlp, hzero l hlp hl]
      rw [compare, haddr, Address.compare_self]
      exact Nat.compare_eq_lt.mpr hlt
    · have hex : ∃ l, p.length ≤ l ∧ l < w.bits ∧ q.address.bit l = true := by
        by_contra hno
        refine hzero fun l hl hlw => ?_
        rcases Bool.eq_false_or_eq_true (q.address.bit l) with hb | hb
        · exact absurd ⟨l, hl, hlw, hb⟩ hno
        · exact hb
      have hcmp : p.address.compare q.address = .lt := by
        obtain ⟨hl, hlw, hb⟩ := Nat.find_spec hex
        refine Address.compare_lt hlw (fun k hk => ?_) (p.bit_host hlw hl) hb
        rcases Nat.lt_or_ge k p.length with hkp | hkp
        · exact hagree k hkp
        · have hkw : k < w.bits := hk.trans hlw
          rw [p.bit_host hkw hkp]
          rcases Bool.eq_false_or_eq_true (q.address.bit k) with hb | hb
          · exact absurd ⟨hkp, hkw, hb⟩ (Nat.find_min hex hk)
          · exact hb.symm
      rw [compare, hcmp]
  · rw [getElem_bits, getElem_bits, Bool.lt_iff] at hlt
    rw [length_bits] at hi
    have hcmp : p.address.compare q.address = .lt := by
      refine Address.compare_lt (hi.trans_le hp) (fun l hl => ?_) hlt.1 hlt.2
      have := heq l hl
      rwa [getElem_bits, getElem_bits] at this
    rw [compare, hcmp]

theorem compare_swap (p q : Prefix w) : q.compare p = (p.compare q).swap := by
  simp only [compare]
  rw [Address.compare_swap]
  cases p.address.compare q.address with
  | lt => rfl
  | gt => rfl
  | eq => exact Nat.compare_swap p.length q.length |>.symm

/-- `p <= q` -/
theorem compare_le_iff : p.compare q ≠ .gt ↔ ¬q.bits < p.bits := by
  constructor
  · intro h hlt
    rw [compare_swap, compare_lt hlt] at h
    exact h rfl
  · intro h hgt
    rcases lt_trichotomy p.bits q.bits with hlt | heq | hlt
    · rw [compare_lt hlt] at hgt
      cases hgt
    · rw [bits_injective heq, compare, Address.compare_self] at hgt
      simp at hgt
    · exact h hlt

/-! ### Sorted tables -/

/-- Between a bit string and one it begins, everything begins with it. -/
theorem prefix_of_between {s t u : List Bool} (h : s <+: u) (hst : ¬t < s) (htu : ¬u < t) : s <+: t := by
  induction s generalizing t u with
  | nil => exact List.nil_prefix
  | cons x s ih =>
    obtain ⟨v, rfl⟩ := h
    rw [List.cons_append] at htu
    cases t with
    | nil => exact absurd (List.nil_lt_cons x s) hst
    | cons y t =>
      rw [List.cons_lt_cons_iff, not_or, not_and] at hst htu
      obtain rfl : x = y := le_antisymm (not_lt.mp hst.1) (not_lt.mp htu.1)
      rw [List.cons_prefix_cons]
      exact ⟨rfl, ih (List.prefix_append s v) (hst.2 rfl) (htu.2 rfl)⟩

theorem covers_of_between {r : Prefix w} (h : p.covers r = true) (hpq : p.compare q ≠ .gt)
    (hqr : q.compare r ≠ .gt) : p.covers q = true :=
  covers_iff.mpr (prefix_of_between (covers_iff.mp h) (compare_le_iff.mp hpq) (compare_le_iff.mp hqr))

/-- A prefix sorts before everything else it covers. -/
theorem lt_of_covers (h : p.covers q = true) (hne : p ≠ q) : p.compare q = .lt := by
  refine compare_lt ?_
  rcases lt_trichotomy p.bits q.bits with hlt | heq | hlt
  · exact hlt
  · exact absurd (bits_injective heq) hne
  · exact absurd hlt (List.not_lt.mpr (covers_iff.mp h).le)

theorem le_of_covers (h : p.covers q = true) : p.compare q ≠ .gt := by
  by_cases hpq : p = q
  · subst hpq
    rw [compare_le_iff]
    exact lt_irrefl _
  · rw [lt_of_covers h hpq]
    exact nofun

theorem le_trans {r : Prefix w} (hpq : p.compare q ≠ .gt) (hqr : q.compare r ≠ .gt) :
    p.compare r ≠ .gt := by
  rw [compare_le_iff, not_lt] at hpq hqr ⊢
  exact hpq.trans hqr

section table
variable {α : Type} {P : α → Bool} {R : α → α → Prop} {l : List α}

/-- In a sorted list, what satisfies a convex predicate starts the list if the first element does. -/
theorem filter_starts (hconvex : ∀ x y z, P x → R x y → R y z → P z → P y) {x : α} (hx : P x = true)
    (hl : (x :: l).Pairwise R) : l.filter P <+: l := by
  induction l with
  | nil => exact List.nil_prefix
  | cons y l ih =>
    obtain ⟨hxl, hyl⟩ := List.pairwise_cons.mp hl
    obtain ⟨hyz, hl'⟩ := List.pairwise_cons.mp hyl
    by_cases hy : P y = true
    · rw [List.filter_cons_of_pos hy, List.prefix_cons_inj]
      exact ih (List.pairwise_cons.mpr ⟨fun z hz => hxl z (List.mem_cons_of_mem _ hz), hl'⟩)
    · have hnone : ∀ z ∈ l, ¬P z = true := by
        intro z hz hPz
        exact hy (hconvex x y z hx (hxl y List.mem_cons_self) (hyz z hz) hPz)
      rw [List.filter_cons_of_neg hy, List.filter_eq_nil_iff.mpr hnone]
      exact List.nil_prefix

/-- In a sorted list, what satisfies a convex predicate is contiguous. -/
theorem filter_infix (hconvex : ∀ x y z, P x → R x y → R y z → P z → P y) (hl : l.Pairwise R) :
    l.filter P <:+: l := by
  induction l with
  | nil => exact List.infix_rfl
  | cons x l ih =>
    by_cases hx : P x = true
    · rw [List.filter_cons_of_pos hx]
      exact ((List.prefix_cons_inj x).mpr (filter_starts hconvex hx hl)).isInfix
    · rw [List.filter_cons_of_neg hx]
      exact List.infix_cons (ih hl.of_cons)

end table

/-- The covering prefix sorts first in a table, and everything it covers follows it contiguously. -/
theorem sorted_grouped (a : Prefix w) :
    (∀ b c, a.covers c = true → a.compare b ≠ .gt → b.compare c ≠ .gt → a.covers b = true) ∧
    (∀ c, a.covers c = true → a ≠ c → a.compare c = .lt) ∧
    ∀ l : List (Prefix w), l.Pairwise (fun b c => b.compare c ≠ .gt) →
      l.filter a.covers <:+: l ∧ (a ∈ l → (l.filter a.covers).head? = some a) := by
  refine ⟨fun b c => covers_of_between, fun c => lt_of_covers, fun l hl => ⟨?_, fun ha => ?_⟩⟩
  · refine filter_infix (fun x y z hx hxy hyz hz => ?_) hl
    exact covers_of_between hz (le_trans (le_of_covers hx) hxy) hyz
  · have hself : a.covers a = true := covers_iff.mpr List.prefix_rfl
    have hmem : a ∈ l.filter a.covers := List.mem_filter.mpr ⟨ha, hself⟩
    have hsorted := hl.filter a.covers
    cases hf : l.filter a.covers with
    | nil =>
      rw [hf] at hmem
      cases hmem
    | cons b t =>
      rw [hf] at hmem hsorted
      have hb : a.covers b = true := (List.mem_filter.mp (hf ▸ List.mem_cons_self)).2
      rcases List.mem_cons.mp hmem with rfl | hat
      · rfl
      · -- the first of them is not after `a`, and `a` covers it
        have hba : b.compare a ≠ .gt := (List.pairwise_cons.mp hsorted).1 a hat
        by_cases hab : a = b
        · rw [hab]
          rfl
        · rw [compare_swap, lt_of_covers hb hab] at hba
          exact absurd rfl hba

end Prefix

end RcuFib

import Mathlib.Data.List.OfFn
import Mathlib.Data.Vector.Basic
import Mathlib.Tactic.Ring
import Mathlib.Tactic.Linarith

/-! Fixed-width network addresses (`include/rcufib/address.hpp`).

    Storage is an array of 64-bit words, most significant word first; a 32-bit address occupies the
    low half of its single word. `bit`, `commonPrefixLength`, `masked` and `matches` are the word
    computations of the source. The second half of the file reads an address as a bit string
    (`bits`, most significant bit first) and shows that each of the four computes what its name
    says on that string; nothing after this file looks at a word again. -/

namespace RcuFib

/-- A supported width: `static_assert(Bits % 64 == 0 || Bits == 32)`. -/
structure Width where
  bits : Nat
  supported : bits % 64 = 0 ∨ bits = 32
  deriving DecidableEq

namespace Width

def ipv4 : Width := ⟨32, .inr rfl⟩
def ipv6 : Width := ⟨128, .inl rfl⟩

theorem zero_le_ipv4 : 0 ≤ ipv4.bits := Nat.zero_le _
theorem eight_le_ipv4 : 8 ≤ ipv4.bits := by decide
theorem sixteen_le_ipv4 : 16 ≤ ipv4.bits := by decide

variable (w : Width)

def wordCount : Nat := (w.bits + 63) / 64
def bitsPerWord : Nat := if w.bits = 32 then 32 else 64
/-- Unused high bits of the storage word of a 32-bit address. -/
def paddingBits : Nat := if w.bits = 32 then 32 else 0

theorem bitsPerWord_pos : 0 < w.bitsPerWord := by
  unfold bitsPerWord; split <;> omega

theorem bitsPerWord_add_padding : w.bitsPerWord + w.paddingBits = 64 := by
  unfold bitsPerWord paddingBits; split <;> omega

theorem bits_eq : w.bits = w.wordCount * w.bitsPerWord := by
  unfold wordCount bitsPerWord
  rcases w.supported with h | h <;> split <;> omega

theorem div_lt_wordCount {i : Nat} (h : i < w.bits) : i / w.bitsPerWord < w.wordCount := by
  rw [Nat.div_lt_iff_lt_mul w.bitsPerWord_pos, ← bits_eq]; exact h

end Width

/-- `basic_address<Bits>`. The padding of a 32-bit address is zero, as `from_v4` and `parse`
    produce it. -/
structure Address (w : Width) where
  words : Vector (BitVec 64) w.wordCount
  padded : ∀ i (h : i < w.wordCount), words[i].toNat < 2 ^ w.bitsPerWord
  deriving DecidableEq

namespace Address
variable {w : Width}

/-- `words_[i]`. -/
def word (a : Address w) (i : Nat) : BitVec 64 := a.words[i]?.getD 0

def zero (w : Width) : Address w where
  words := Vector.ofFn fun _ => 0
  padded := by intro i h; simp

/-- `from_v4`: an IPv4 address from its host-order value. -/
def fromV4 (value : BitVec 32) : Address .ipv4 where
  words := #v[value.setWidth 64]
  padded := by
    intro i h
    obtain rfl : i = 0 := by simp [Width.wordCount, Width.ipv4] at h; omega
    have hv : (value.setWidth 64).toNat < 2 ^ 32 := by simp; omega
    exact hv

/-- `to_v4`: the low half of word 0. -/
def toV4 (a : Address .ipv4) : BitVec 32 := (a.word 0).setWidth 32

/-- Bit `index`, counted from the most significant bit. -/
def bit (a : Address w) (index : Nat) : Bool :=
  let word := index / w.bitsPerWord
  let offset := index % w.bitsPerWord
  (a.word word >>> (w.bitsPerWord - 1 - offset)) &&& 1#64 != 0#64

/-- The loop of `common_prefix_length` with `k` words left, the next of them word `i`. -/
def commonPrefixLoop (a b : Address w) : (k i total : Nat) → Nat
  | 0, _, _ => w.bits
  | k + 1, i, total =>
    let diff := a.word i ^^^ b.word i
    if diff ≠ 0 then
      let lead := diff.clz.toNat - w.paddingBits
      min (total + lead) w.bits
    else
      let total := total + w.bitsPerWord
      if total ≥ w.bits then w.bits else commonPrefixLoop a b k (i + 1) total

/-- Number of leading bits shared with `b`. -/
def commonPrefixLength (a b : Address w) : Nat := commonPrefixLoop a b w.wordCount 0 0

/-- Word `i` of `masked(length)` when `length` is below the width. -/
def maskedWord (a : Address w) (length i : Nat) : BitVec 64 :=
  let consumed := i * w.bitsPerWord
  if length ≤ consumed then 0
  else
    let keep := min (length - consumed) w.bitsPerWord
    if keep = w.bitsPerWord then a.word i
    else a.word i &&& (BitVec.allOnes 64 <<< (w.bitsPerWord - keep))

theorem word_of_lt (a : Address w) {i : Nat} (h : i < w.wordCount) : a.word i = a.words[i] := by
  simp [word, h]

theorem word_lt (a : Address w) (i : Nat) : (a.word i).toNat < 2 ^ w.bitsPerWord := by
  by_cases h : i < w.wordCount
  · rw [word_of_lt a h]; exact a.padded i h
  · have : a.words[i]? = none := by simp; omega
    simp [word, this]

theorem maskedWord_le (a : Address w) (length i : Nat) :
    (a.maskedWord length i).toNat ≤ (a.word i).toNat := by
  simp only [maskedWord]
  split
  · simp
  · split
    · exact le_rfl
    · rw [BitVec.toNat_and]; exact Nat.and_le_left

/-- A copy with every bit at or beyond `length` cleared. -/
def masked (a : Address w) (length : Nat) : Address w :=
  if length ≥ w.bits then a
  else
    { words := Vector.ofFn fun i => a.maskedWord length i
      padded := by
        intro i h
        simpa using lt_of_le_of_lt (a.maskedWord_le length i) (a.word_lt i) }

/-- `matches`: the two addresses agree on their first `length` bits. -/
def matchesTo (a b : Address w) (length : Nat) : Bool :=
  length = 0 || decide (a.commonPrefixLength b ≥ length)

/-! ### Bits of a word -/

theorem bit_eq_getLsbD (a : Address w) (i : Nat) :
    a.bit i = (a.word (i / w.bitsPerWord)).getLsbD (w.bitsPerWord - 1 - i % w.bitsPerWord) := by
  simp only [bit]
  generalize a.word (i / w.bitsPerWord) = x
  generalize w.bitsPerWord - 1 - i % w.bitsPerWord = k
  rw [BitVec.and_one_eq_setWidth_ofBool_getLsbD, BitVec.getLsbD_ushiftRight, Nat.add_zero]
  cases x.getLsbD k <;> decide

/-- Bit `i * bitsPerWord + off` lives in word `i`. -/
theorem bit_at (a : Address w) {off : Nat} (i : Nat) (h : off < w.bitsPerWord) :
    a.bit (i * w.bitsPerWord + off) = (a.word i).getLsbD (w.bitsPerWord - 1 - off) := by
  have hd : (i * w.bitsPerWord + off) / w.bitsPerWord = i := by
    rw [Nat.mul_comm, Nat.mul_add_div w.bitsPerWord_pos, Nat.div_eq_of_lt h, Nat.add_zero]
  have hm : (i * w.bitsPerWord + off) % w.bitsPerWord = off := by
    rw [Nat.mul_comm, Nat.mul_add_mod, Nat.mod_eq_of_lt h]
  rw [bit_eq_getLsbD, hd, hm]

theorem getLsbD_of_word_ge (a : Address w) (i : Nat) {k : Nat} (h : w.bitsPerWord ≤ k) :
    (a.word i).getLsbD k = false := by
  exact Nat.testBit_lt_two_pow (lt_of_lt_of_le (a.word_lt i) (Nat.pow_le_pow_right (by omega) h))

/-- Two words of addresses that agree on the bits they store are equal. -/
theorem word_eq_of_bits {a b : Address w} {i : Nat}
    (h : ∀ off < w.bitsPerWord, a.bit (i * w.bitsPerWord + off) = b.bit (i * w.bitsPerWord + off)) :
    a.word i = b.word i := by
  refine BitVec.eq_of_getLsbD_eq fun k hk => ?_
  by_cases hkw : k < w.bitsPerWord
  · have := h (w.bitsPerWord - 1 - k) (by omega)
    rw [bit_at _ _ (by omega), bit_at _ _ (by omega)] at this
    rwa [show w.bitsPerWord - 1 - (w.bitsPerWord - 1 - k) = k by omega] at this
  · rw [getLsbD_of_word_ge _ _ (by omega), getLsbD_of_word_ge _ _ (by omega)]

/-- An address is determined by its bits. -/
theorem ext_bit {a b : Address w} (h : ∀ i < w.bits, a.bit i = b.bit i) : a = b := by
  have hw : ∀ i (hi : i < w.wordCount), a.words[i] = b.words[i] := by
    intro i hi
    rw [← word_of_lt a hi, ← word_of_lt b hi]
    refine word_eq_of_bits fun off hoff => h _ ?_
    have : (i + 1) * w.bitsPerWord ≤ w.wordCount * w.bitsPerWord := Nat.mul_le_mul_right _ hi
    rw [w.bits_eq]; rw [Nat.add_mul, Nat.one_mul] at this; omega
  cases a; cases b
  simp only [mk.injEq]
  exact Vector.ext hw

theorem word_zero_fromV4 (value : BitVec 32) : (fromV4 value).word 0 = value.setWidth 64 := by
  rw [word_of_lt _ (show 0 < Width.ipv4.wordCount by decide)]
  rfl

@[simp] theorem toV4_fromV4 (value : BitVec 32) : (fromV4 value).toV4 = value := by
  rw [toV4, word_zero_fromV4]
  simp

@[simp] theorem fromV4_toV4 (a : Address .ipv4) : fromV4 a.toV4 = a := by
  have hword : (fromV4 a.toV4).word 0 = a.word 0 := by
    have : (a.word 0).toNat < 2 ^ 32 := a.word_lt 0
    rw [word_zero_fromV4]
    refine BitVec.eq_of_toNat_eq ?_
    simp only [toV4, BitVec.toNat_setWidth]
    omega
  refine ext_bit fun i hi => ?_
  have hi0 : i / Width.ipv4.bitsPerWord = 0 := Nat.div_eq_of_lt hi
  rw [bit_eq_getLsbD, bit_eq_getLsbD, hi0, hword]

/-! ### `common_prefix_length` -/

/-- `n` is the number of leading bits on which `a` and `b` agree. -/
structure IsCommonPrefix (a b : Address w) (n : Nat) : Prop where
  le : n ≤ w.bits
  agree : ∀ i < n, a.bit i = b.bit i
  differ : n < w.bits → a.bit n ≠ b.bit n

theorem clz_padding_le {a b : Address w} {i : Nat} (h : a.word i ^^^ b.word i ≠ 0) :
    w.paddingBits ≤ (a.word i ^^^ b.word i).clz.toNat := by
  have hlow := BitVec.two_pow_sub_clz_le_toNat_of_ne_zero (by omega) h
  have hlt : (a.word i ^^^ b.word i).toNat < 2 ^ w.bitsPerWord := by
    rw [BitVec.toNat_xor]; exact Nat.xor_lt_two_pow (a.word_lt i) (b.word_lt i)
  have := (Nat.pow_lt_pow_iff_right (by omega)).mp (lt_of_le_of_lt hlow hlt)
  have := w.bitsPerWord_add_padding
  omega

theorem clz_lt {x : BitVec 64} (h : x ≠ 0) : x.clz.toNat < 64 := by
  have := BitVec.lt_def.mp (BitVec.clz_lt_iff_ne_zero.mpr h)
  simpa using this

/-- Within the first differing word, the leading zeros beyond the padding are the shared bits. -/
theorem differing_word {a b : Address w} {i : Nat} (hi : i < w.wordCount)
    (hprev : ∀ j < i * w.bitsPerWord, a.bit j = b.bit j) (h : a.word i ^^^ b.word i ≠ 0) :
    IsCommonPrefix a b
      (min (i * w.bitsPerWord + ((a.word i ^^^ b.word i).clz.toNat - w.paddingBits)) w.bits) := by
  set x := a.word i ^^^ b.word i with hx
  have hpad : w.paddingBits ≤ x.clz.toNat := clz_padding_le h
  have hsum := w.bitsPerWord_add_padding
  have hclz := clz_lt h
  have hend : (i + 1) * w.bitsPerWord ≤ w.bits := by
    rw [w.bits_eq]; exact Nat.mul_le_mul_right _ hi
  rw [Nat.add_mul, Nat.one_mul] at hend
  rw [Nat.min_eq_left (by omega)]
  have hbit : ∀ off < w.bitsPerWord, (a.bit (i * w.bitsPerWord + off) = b.bit (i * w.bitsPerWord + off)
      ↔ x.getLsbD (w.bitsPerWord - 1 - off) = false) := by
    intro off hoff
    rw [bit_at _ _ hoff, bit_at _ _ hoff, hx, BitVec.getLsbD_xor]
    simp
  refine ⟨by omega, fun j hj => ?_, fun _ => ?_⟩
  · by_cases hlow : j < i * w.bitsPerWord
    · exact hprev j hlow
    · obtain ⟨off, rfl⟩ := Nat.exists_eq_add_of_le (Nat.not_lt.mp hlow)
      rw [hbit off (by omega)]
      refine Nat.testBit_lt_two_pow (lt_of_lt_of_le BitVec.toNat_lt_two_pow_sub_clz
        (Nat.pow_le_pow_right (by omega) ?_))
      omega
  · rw [ne_eq, hbit _ (by omega)]
    have := BitVec.getLsbD_true_clz_of_ne_zero (by omega) h
    rw [show w.bitsPerWord - 1 - (x.clz.toNat - w.paddingBits) = 64 - 1 - x.clz.toNat by omega, this]
    simp

/-- Loop invariant of `common_prefix_length`: every word before word `i` agrees. -/
theorem commonPrefixLoop_spec (a b : Address w) : ∀ (k i : Nat), i + k = w.wordCount →
    (∀ j < i * w.bitsPerWord, a.bit j = b.bit j) →
    IsCommonPrefix a b (commonPrefixLoop a b k i (i * w.bitsPerWord))
  | 0, i, hk, hprev => by
    have : w.bits = i * w.bitsPerWord := by rw [w.bits_eq, ← hk, Nat.add_zero]
    exact ⟨le_rfl, fun j hj => hprev j (by rwa [commonPrefixLoop, this] at hj),
      fun h => absurd h (by simp [commonPrefixLoop])⟩
  | k + 1, i, hk, hprev => by
    simp only [commonPrefixLoop]
    by_cases hx : a.word i ^^^ b.word i = 0
    · have heq : a.word i = b.word i := by simpa using hx
      have hnext : ∀ j < (i + 1) * w.bitsPerWord, a.bit j = b.bit j := by
        intro j hj
        by_cases hlow : j < i * w.bitsPerWord
        · exact hprev j hlow
        · obtain ⟨off, rfl⟩ := Nat.exists_eq_add_of_le (Nat.not_lt.mp hlow)
          rw [Nat.add_mul, Nat.one_mul] at hj
          rw [bit_at _ _ (by omega), bit_at _ _ (by omega), heq]
      rw [if_neg (by simp [hx]), show i * w.bitsPerWord + w.bitsPerWord = (i + 1) * w.bitsPerWord by ring]
      split
      · next hge => exact ⟨le_rfl, fun j hj => hnext j (by omega), fun h => absurd h (by omega)⟩
      · exact commonPrefixLoop_spec a b k (i + 1) (by omega) hnext
    · rw [if_pos hx]; exact differing_word (by omega) hprev hx

theorem commonPrefixLength_spec (a b : Address w) :
    IsCommonPrefix a b (a.commonPrefixLength b) := by
  have := commonPrefixLoop_spec a b w.wordCount 0 (by omega) (by simp)
  simpa [commonPrefixLength] using this

theorem le_commonPrefixLength {a b : Address w} {n : Nat} (hn : n ≤ w.bits) :
    n ≤ a.commonPrefixLength b ↔ ∀ i < n, a.bit i = b.bit i := by
  have h := commonPrefixLength_spec a b
  refine ⟨fun hle i hi => h.agree i (by omega), fun hall => ?_⟩
  by_contra hlt
  exact h.differ (by omega) (hall _ (by omega))

/-! ### `masked` -/

theorem bit_masked (a : Address w) {length i : Nat} (hi : i < w.bits) :
    (a.masked length).bit i = (decide (i < length) && a.bit i) := by
  unfold masked
  split
  · next h => simp [show i < length by omega]
  · have hiw := w.div_lt_wordCount hi
    have hdm := Nat.div_add_mod i w.bitsPerWord
    have hmod := Nat.mod_lt i w.bitsPerWord_pos
    have hle64 := w.bitsPerWord_add_padding
    rw [bit_eq_getLsbD, bit_eq_getLsbD, word_of_lt _ hiw]
    simp only [Vector.getElem_ofFn, maskedWord]
    rw [Nat.mul_comm] at hdm
    split
    · simp; omega
    · split
      · simp [show i < length by omega]
      · rw [BitVec.getLsbD_and, BitVec.getLsbD_shiftLeft, Bool.and_comm]
        congr 1
        rw [BitVec.getLsbD_allOnes, Bool.eq_iff_iff]
        simp only [Bool.and_eq_true, decide_eq_true_eq, Bool.not_eq_true']
        simp only [decide_eq_false_iff_not]
        omega

/-! ### Addresses as bit strings -/

/-- The bits of an address, most significant first. -/
def bits (a : Address w) : List Bool := List.ofFn fun i : Fin w.bits => a.bit i

@[simp] theorem length_bits (a : Address w) : a.bits.length = w.bits := by simp [bits]

theorem getElem?_bits (a : Address w) {i : Nat} (h : i < w.bits) : a.bits[i]? = some (a.bit i) := by
  simp [bits, h]

/-- Agreeing on the first `n` bits, on bit strings. -/
theorem take_bits_eq {a b : Address w} {n : Nat} (hn : n ≤ w.bits) :
    a.bits.take n = b.bits.take n ↔ ∀ i < n, a.bit i = b.bit i := by
  constructor
  · intro h i hi
    have := congrArg (·[i]?) h
    simpa [List.getElem?_take, hi, getElem?_bits _ (show i < w.bits by omega)] using this
  · intro h
    refine List.ext_getElem? fun i => ?_
    by_cases hi : i < n
    · simp [hi, getElem?_bits _ (show i < w.bits by omega), h i hi]
    · simp [hi]

theorem le_commonPrefixLength_iff_take {a b : Address w} {n : Nat} (hn : n ≤ w.bits) :
    n ≤ a.commonPrefixLength b ↔ a.bits.take n = b.bits.take n := by
  rw [le_commonPrefixLength hn, take_bits_eq hn]

theorem matchesTo_iff {a b : Address w} {n : Nat} (hn : n ≤ w.bits) :
    a.matchesTo b n = true ↔ a.bits.take n = b.bits.take n := by
  rw [← le_commonPrefixLength_iff_take hn]
  rcases Nat.eq_zero_or_pos n with rfl | hpos
  · simp [matchesTo]
  · simp [matchesTo, Nat.pos_iff_ne_zero.mp hpos]

theorem take_bits_masked (a : Address w) {length : Nat} (h : length ≤ w.bits) :
    (a.masked length).bits.take length = a.bits.take length := by
  rw [take_bits_eq h]
  intro i hi
  rw [bit_masked a (by omega)]; simp [hi]

/-- Masked addresses are determined by the bits they keep. -/
theorem masked_eq_of_take {a b : Address w} {length : Nat} (h : length ≤ w.bits)
    (hab : a.bits.take length = b.bits.take length) : a.masked length = b.masked length := by
  refine ext_bit fun i hi => ?_
  rw [bit_masked a hi, bit_masked b hi]
  by_cases hil : i < length
  · simp [hil, (take_bits_eq h).mp hab i hil]
  · simp [hil]

end Address

end RcuFib

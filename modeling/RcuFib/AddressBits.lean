import RcuFib.PrefixOrder
import RcuFib.Library.Words

/-! The word arithmetic of `basic_address`, operation by operation.

    `bitChecked` and the others follow the source with every subtraction, every shift and every access
    to the array checked: they have no value where one of these would leave its range. None does, and
    what they compute is what their names say of `bitList`, the bits of the words in order. -/

namespace RcuFib
open Words

namespace Address
variable {w : Width}

/-- The bits a word stores, most significant first. -/
def wordBits (w : Width) (x : BitVec 64) : List Bool :=
  (List.range w.bitsPerWord).map fun off => x.getLsbD (w.bitsPerWord - 1 - off)

/-- The bits of the words, most significant word first. -/
def bitList (a : Address w) : List Bool := a.words.toList.flatMap (wordBits w)

/-- `bit(index)` -/
def bitChecked (a : Address w) (index : Nat) : Option Bool := do
  let word := index / w.bitsPerWord
  let offset := index % w.bitsPerWord
  let top ← checkedSub w.bitsPerWord 1
  let shift ← checkedSub top offset
  let x ← a.words[word]?
  let y ← checkedShiftRight x shift
  return y &&& 1#64 != 0#64

/-- The loop of `common_prefix_length(other)`. -/
def commonPrefixLoopChecked (a b : Address w) : (k i total : Nat) → Option Nat
  | 0, _, _ => some w.bits
  | k + 1, i, total => do
    let x ← a.words[i]?
    let y ← b.words[i]?
    let diff := x ^^^ y
    if diff ≠ 0 then
      let lead ← checkedSub diff.clz.toNat w.paddingBits
      return min (total + lead) w.bits
    else
      let total := total + w.bitsPerWord
      if total ≥ w.bits then return w.bits else commonPrefixLoopChecked a b k (i + 1) total

def commonPrefixLengthChecked (a b : Address w) : Option Nat :=
  commonPrefixLoopChecked a b w.wordCount 0 0

/-- `matches(other, length)` -/
def matchesChecked (a b : Address w) (length : Nat) : Option Bool :=
  if length = 0 then some true
  else (a.commonPrefixLengthChecked b).map fun shared => decide (shared ≥ length)

/-- Word `i` of `masked(length)`. -/
def maskedWordChecked (a : Address w) (length i : Nat) : Option (BitVec 64) := do
  let consumed := i * w.bitsPerWord
  if length ≤ consumed then return 0
  else
    let left ← checkedSub length consumed
    let keep := min left w.bitsPerWord
    let x ← a.words[i]?
    if keep = w.bitsPerWord then return x
    else
      let shift ← checkedSub w.bitsPerWord keep
      let mask ← checkedShiftLeft (BitVec.allOnes 64) shift
      return x &&& mask

/-- The words of `masked(length)`. -/
def maskedChecked (a : Address w) (length : Nat) : Option (List (BitVec 64)) :=
  if length ≥ w.bits then some a.words.toList
  else (List.range w.wordCount).mapM (a.maskedWordChecked length)

variable {a b : Address w} {i k length total : Nat}

theorem getElem?_words (a : Address w) (hi : i < w.wordCount) : a.words[i]? = some (a.word i) := by
  rw [word, Vector.getElem?_eq_getElem hi, Option.getD_some]

/-! ### Nothing leaves its range -/

theorem bitChecked_eq (a : Address w) (hi : i < w.bits) : a.bitChecked i = some (a.bit i) := by
  have hpos := w.bitsPerWord_pos
  have hsum := w.bitsPerWord_add_padding
  have hmod := Nat.mod_lt i hpos
  simp only [bitChecked, Option.bind_eq_bind]
  rw [checkedSub_of_le hpos, Option.bind_some, checkedSub_of_le (by omega), Option.bind_some,
    a.getElem?_words (w.div_lt_wordCount hi), Option.bind_some, checkedShiftRight_of_lt (by omega)]
  rfl

theorem commonPrefixLoopChecked_eq (a b : Address w) : ∀ k i total, i + k = w.wordCount →
    commonPrefixLoopChecked a b k i total = some (commonPrefixLoop a b k i total) := by
  intro k
  induction k with
  | zero => intro i total _; rfl
  | succ k ih =>
    intro i total hk
    rw [commonPrefixLoopChecked, commonPrefixLoop, a.getElem?_words (by omega),
      b.getElem?_words (by omega), Option.bind_eq_bind, Option.bind_some, Option.bind_some]
    dsimp only
    split
    · next hdiff =>
      -- the padding of both words is zero, so it is among the leading zeros
      rw [checkedSub_of_le (clz_padding_le hdiff)]
      rfl
    · split
      · rfl
      · exact ih (i + 1) _ (by omega)

theorem commonPrefixLengthChecked_eq (a b : Address w) :
    a.commonPrefixLengthChecked b = some (a.commonPrefixLength b) :=
  commonPrefixLoopChecked_eq a b w.wordCount 0 0 (Nat.zero_add _)

theorem matchesChecked_eq (a b : Address w) (length : Nat) :
    a.matchesChecked b length = some (a.matchesTo b length) := by
  unfold matchesChecked matchesTo
  split
  · next h0 => simp [h0]
  · next h0 => simp [h0, commonPrefixLengthChecked_eq]

theorem maskedWordChecked_eq (a : Address w) (length : Nat) (hi : i < w.wordCount) :
    a.maskedWordChecked length i = some (a.maskedWord length i) := by
  have hsum := w.bitsPerWord_add_padding
  simp only [maskedWordChecked, maskedWord, Option.bind_eq_bind]
  split
  · rfl
  · next hlt =>
    rw [checkedSub_of_le (Nat.le_of_not_le hlt), Option.bind_some,
      a.getElem?_words hi, Option.bind_some]
    split
    · rfl
    · next hkeep =>
      have hle := Nat.min_le_right (length - i * w.bitsPerWord) w.bitsPerWord
      rw [checkedSub_of_le hle, Option.bind_some, checkedShiftLeft_of_lt (by omega)]
      rfl

theorem maskedChecked_eq (a : Address w) (length : Nat) :
    a.maskedChecked length = some (a.masked length).words.toList := by
  unfold maskedChecked masked
  split
  · rfl
  · rw [mapM_eq_some _ fun i hi => a.maskedWordChecked_eq length (List.mem_range.mp hi)]
    congr 1
    refine List.ext_getElem (by simp) fun i h₁ h₂ => ?_
    simp

/-! ### The bits -/

theorem bitList_eq_bits (a : Address w) : a.bitList = a.bits := by
  have hlen : ∀ x ∈ a.words.toList, (wordBits w x).length = w.bitsPerWord := by simp [wordBits]
  refine List.ext_getElem? fun i => ?_
  rcases Nat.lt_or_ge i w.bits with hi | hi
  · have hword : i / w.bitsPerWord < a.words.toList.length := by simpa using w.div_lt_wordCount hi
    have hmod := Nat.mod_lt i w.bitsPerWord_pos
    rw [bitList, getElem?_flatMap w.bitsPerWord_pos _ hlen, a.getElem?_bits hi, bit_eq_getLsbD,
      List.getElem?_eq_getElem hword, word_of_lt a (w.div_lt_wordCount hi)]
    simp [wordBits, hmod]
  · have hsize : a.bitList.length = w.bits := by
      rw [bitList, length_flatMap _ hlen, Vector.length_toList, ← w.bits_eq]
    rw [List.getElem?_eq_none (by omega), List.getElem?_eq_none (by rwa [length_bits])]

theorem bits_masked (a : Address w) (hlength : length ≤ w.bits) :
    (a.masked length).bits = a.bits.take length ++ List.replicate (w.bits - length) false := by
  have htake : (a.bits.take length).length = length := by simpa using hlength
  refine List.ext_getElem? fun i => ?_
  rcases Nat.lt_or_ge i w.bits with hi | hi
  · rw [getElem?_bits _ hi, bit_masked a hi]
    rcases Nat.lt_or_ge i length with hlow | hhigh
    · rw [List.getElem?_append_left (by omega), List.getElem?_take_of_lt hlow, getElem?_bits _ hi,
        decide_eq_true hlow, Bool.true_and]
    · rw [List.getElem?_append_right (by omega), htake, List.getElem?_replicate_of_lt (by omega),
        decide_eq_false (Nat.not_lt.mpr hhigh), Bool.false_and]
  · rw [List.getElem?_eq_none (by simpa using hi), List.getElem?_eq_none]
    rw [List.length_append, htake, List.length_replicate]
    omega

theorem compare_lt_of_bits (h : a.bits < b.bits) : a.compare b = .lt := by
  rcases List.lt_iff_exists.mp h with ⟨-, hlt⟩ | ⟨i, hi, hi', heq, hlt⟩
  · simp at hlt
  · have hiw : i < w.bits := by simpa using hi
    have hbit : ∀ (c : Address w) {l : Nat} (hl : l < c.bits.length), c.bits[l] = c.bit l := by
      intro c l hl
      simp [bits]
    rw [hbit, hbit, Bool.lt_iff] at hlt
    refine compare_lt hiw (fun l hl => ?_) hlt.1 hlt.2
    have := heq l hl
    rwa [hbit, hbit] at this

/-- Addresses are ordered as their bits are, lexicographically. -/
theorem compare_le_iff : a.compare b ≠ .gt ↔ a.bits ≤ b.bits := by
  rw [← not_lt]
  constructor
  · intro hle hlt
    rw [compare_swap, compare_lt_of_bits hlt] at hle
    exact hle rfl
  · intro hle hgt
    rcases lt_or_eq_of_le (not_lt.mp hle) with hlt | heq
    · rw [compare_lt_of_bits hlt] at hgt
      cases hgt
    · have hab : a = b := by
        refine ext_bit ((take_bits_eq le_rfl).mp ?_)
        rw [heq]
      rw [hab, compare_self] at hgt
      cases hgt

/-- Every operation stays within the ranges of its words and computes what its name says of the bits. -/
theorem word_arithmetic (a b : Address w) :
    a.bitList.length = w.bits ∧
    (∀ i < w.bits, a.bitChecked i = a.bitList[i]?) ∧
    (∃ n ≤ w.bits, a.commonPrefixLengthChecked b = some n ∧
      ∀ m ≤ w.bits, m ≤ n ↔ a.bitList.take m = b.bitList.take m) ∧
    (∀ length ≤ w.bits, ∃ r, a.matchesChecked b length = some r ∧
      (r = true ↔ a.bitList.take length = b.bitList.take length)) ∧
    (∀ length ≤ w.bits, ∃ c : Address w, a.maskedChecked length = some c.words.toList ∧
      c.bitList = a.bitList.take length ++ List.replicate (w.bits - length) false) ∧
    (a.compare b ≠ .gt ↔ a.bitList ≤ b.bitList) := by
  simp only [bitList_eq_bits]
  refine ⟨a.length_bits, fun i hi => ?_, ⟨a.commonPrefixLength b, ?_, a.commonPrefixLengthChecked_eq b, ?_⟩,
    fun length hlength => ⟨_, a.matchesChecked_eq b length, matchesTo_iff hlength⟩,
    fun length hlength => ⟨a.masked length, a.maskedChecked_eq length, a.bits_masked hlength⟩,
    compare_le_iff⟩
  · rw [a.bitChecked_eq hi, a.getElem?_bits hi]
  · exact (commonPrefixLength_spec a b).le
  · exact fun m hm => le_commonPrefixLength_iff_take hm

end Address

end RcuFib

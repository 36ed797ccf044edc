import RcuFib.Prefix

/-! Prefixes as ranges of addresses.

    `contains` counts leading zeros of words, `covers` compares one address and two lengths, and `==`
    compares stored words. All three are read here off the set of addresses a prefix contains. -/

namespace RcuFib

namespace Address
variable {w : Width}

/-- The address with bit `n` the other way. -/
def flip (a : Address w) (n : Nat) : Address w where
  words := Vector.ofFn fun i => if i = n / w.bitsPerWord then
    a.word i ^^^ BitVec.twoPow 64 (w.bitsPerWord - 1 - n % w.bitsPerWord) else a.word i
  padded := by
    intro i hi
    rw [Vector.getElem_ofFn]
    dsimp only
    split
    · have hsum := w.bitsPerWord_add_padding
      have hpos := w.bitsPerWord_pos
      rw [BitVec.toNat_xor]
      refine Nat.xor_lt_two_pow (a.word_lt i) ?_
      rw [BitVec.toNat_twoPow_of_lt (by omega)]
      exact Nat.pow_lt_pow_right (by decide) (by omega)
    · exact a.word_lt i

theorem bit_flip (a : Address w) {n i : Nat} (hi : i < w.bits) :
    (a.flip n).bit i = (a.bit i ^^ decide (i = n)) := by
  have hiw := w.div_lt_wordCount hi
  have hpos := w.bitsPerWord_pos
  have hsum := w.bitsPerWord_add_padding
  have hdi := Nat.div_add_mod i w.bitsPerWord
  have hdn := Nat.div_add_mod n w.bitsPerWord
  have hmi := Nat.mod_lt i hpos
  have hmn := Nat.mod_lt n hpos
  rw [bit_eq_getLsbD, bit_eq_getLsbD, word_of_lt _ hiw]
  simp only [flip, Vector.getElem_ofFn]
  split
  · next hword =>
    rw [BitVec.getLsbD_xor, BitVec.getLsbD_twoPow]
    congr 1
    rw [hword] at hdi
    rw [Bool.eq_iff_iff]
    simp only [Bool.and_eq_true, decide_eq_true_eq]
    omega
  · next hword =>
    have hne : i ≠ n := by
      rintro rfl
      exact hword rfl
    rw [decide_eq_false hne, Bool.xor_false]

end Address

namespace Prefix
variable {w : Width} {p q : Prefix w}

/-- What a prefix contains, in words: the addresses with its leading bits. -/
theorem contains_make {a x : Address w} {n : Nat} (hn : n ≤ w.bits) :
    (make a n hn).contains x = true ↔ ∀ i < n, a.bit i = x.bit i := by
  rw [contains_iff, bits_make, take_prefix_iff hn, Address.take_bits_eq hn]

theorem contains_address (p : Prefix w) : p.contains p.address = true :=
  contains_iff.mpr p.bits_prefix_address

theorem covers_iff : p.covers q = true ↔ p.bits <+: q.bits := by
  rw [covers, Bool.and_eq_true, decide_eq_true_iff, contains_iff]
  constructor
  · rintro ⟨hle, h⟩
    exact List.prefix_of_prefix_length_le h q.bits_prefix_address (by simpa using hle)
  · intro h
    exact ⟨by simpa using h.length_le, h.trans q.bits_prefix_address⟩

/-- A shorter prefix contains an address that a longer one does not. -/
theorem exists_outside (h : q.length < p.length) : ∃ x, q.contains x = true ∧ p.contains x = false := by
  have hle := p.length_le
  have hbit : ∀ x : Address w, p.address.bit q.length ≠ x.bit q.length → p.contains x = false := by
    intro x hx
    rw [← Bool.not_eq_true, ← p.make_address, contains_make]
    intro hall
    exact hx (hall q.length h)
  by_cases hq : p.address.bit q.length = q.address.bit q.length
  · refine ⟨q.address.flip q.length, ?_, hbit _ ?_⟩
    · rw [← q.make_address, contains_make]
      intro i hi
      rw [make_address, Address.bit_flip _ (by omega), decide_eq_false (by omega), Bool.xor_false]
    · rw [Address.bit_flip _ (by omega), hq]
      simp
  · exact ⟨q.address, q.contains_address, hbit _ hq⟩

theorem covers_of_subset (h : ∀ x, q.contains x = true → p.contains x = true) : p.covers q = true := by
  have hle : p.length ≤ q.length := by
    by_contra hlt
    obtain ⟨x, hx, hx'⟩ := exists_outside (Nat.lt_of_not_le hlt)
    rw [h x hx] at hx'
    cases hx'
  rw [covers, h q.address q.contains_address, decide_eq_true hle]
  rfl

theorem subset_of_covers (h : p.covers q = true) {x : Address w} (hx : q.contains x = true) :
    p.contains x = true :=
  contains_iff.mpr ((covers_iff.mp h).trans (contains_iff.mp hx))

theorem covers_antisymm (h : p.covers q = true) (h' : q.covers p = true) : p = q := by
  have hpq := covers_iff.mp h
  exact bits_injective (hpq.eq_of_length (hpq.length_le.antisymm (covers_iff.mp h').length_le))

/-- Two prefixes of one address are nested. -/
theorem covers_of_common {x : Address w} (hp : p.contains x = true) (hq : q.contains x = true) :
    p.covers q = true ∨ q.covers p = true := by
  rw [covers_iff, covers_iff]
  exact List.prefix_or_prefix_of_prefix (contains_iff.mp hp) (contains_iff.mp hq)

theorem eq_iff_contains : p = q ↔ ∀ x, p.contains x = q.contains x := by
  constructor
  · rintro rfl x
    rfl
  · intro h
    refine covers_antisymm (covers_of_subset fun x hx => ?_) (covers_of_subset fun x hx => ?_)
    · rw [h x, hx]
    · rw [← h x, hx]

/-- Equality, covering and disjointness of prefixes are those of the sets of addresses they contain;
    a prefix is the one written `a/n` if it contains what agrees with `a` on `n` bits. -/
theorem ranges_faithful (p q : Prefix w) :
    (p = q ↔ ∀ x, p.contains x = q.contains x) ∧
    (∀ (a : Address w) (n : Nat) (hn : n ≤ w.bits),
      make a n hn = p ↔ ∀ x, (∀ i < n, a.bit i = x.bit i) ↔ p.contains x = true) ∧
    (p.covers q = true ↔ ∀ x, q.contains x = true → p.contains x = true) ∧
    (p.covers q = false → q.covers p = false → ∀ x, ¬(p.contains x = true ∧ q.contains x = true)) := by
  refine ⟨eq_iff_contains, fun a n hn => ?_, ⟨?_, covers_of_subset⟩, ?_⟩
  · rw [eq_iff_contains]
    refine forall_congr' fun x => ?_
    rw [← contains_make hn, Bool.eq_iff_iff]
  · intro h x hx
    exact subset_of_covers h hx
  · rintro hpq hqp x ⟨hp, hq⟩
    rcases covers_of_common hp hq with h | h
    · rw [h] at hpq
      cases hpq
    · rw [h] at hqp
      cases hqp

end Prefix

end RcuFib

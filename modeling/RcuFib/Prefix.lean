import RcuFib.Address

/-! Network prefixes (`include/rcufib/prefix.hpp`): an address and a mask length, host bits cleared.

    A prefix is read as the bit string of its first `length` bits. Containment is then "is a prefix
    of the address's bits", and two prefixes are equal exactly when their bit strings are. -/

namespace RcuFib

/-- `basic_prefix<Address>` with a length within the address width. -/
structure Prefix (w : Width) where
  address : Address w
  length : Nat
  length_le : length ≤ w.bits
  host_clear : address.masked length = address
  deriving DecidableEq

namespace Prefix
variable {w : Width}

/-- The constructor: host bits beyond `length` are cleared. -/
def make (addr : Address w) (length : Nat) (h : length ≤ w.bits) : Prefix w where
  address := addr.masked length
  length := length
  length_le := h
  host_clear := Address.masked_eq_of_take h (addr.take_bits_masked h)

def contains (p : Prefix w) (addr : Address w) : Bool :=
  decide (p.address.commonPrefixLength addr ≥ p.length)

def covers (p other : Prefix w) : Bool :=
  decide (other.length ≥ p.length) && p.contains other.address

/-- The bits a prefix fixes. -/
def bits (p : Prefix w) : List Bool := p.address.bits.take p.length

@[simp] theorem length_bits (p : Prefix w) : p.bits.length = p.length := by
  simp [bits, p.length_le]

theorem bits_prefix_address (p : Prefix w) : p.bits <+: p.address.bits := List.take_prefix _ _

@[simp] theorem bits_make (addr : Address w) (length : Nat) (h : length ≤ w.bits) :
    (make addr length h).bits = addr.bits.take length := addr.take_bits_masked h

@[simp] theorem length_make (addr : Address w) (length : Nat) (h : length ≤ w.bits) :
    (make addr length h).length = length := rfl

theorem bits_injective {p q : Prefix w} (h : p.bits = q.bits) : p = q := by
  have hl : p.length = q.length := by rw [← length_bits p, h, length_bits]
  have ha : p.address = q.address := by
    rw [← p.host_clear, ← q.host_clear, ← hl]
    exact Address.masked_eq_of_take p.length_le (by simpa [bits, hl] using h)
  cases p; cases q
  simp_all

/-- The constructor leaves an address without host bits alone. -/
theorem make_address (p : Prefix w) : make p.address p.length p.length_le = p := by
  refine bits_injective ?_
  rw [bits_make]
  rfl

/-- The first `n` bits of `b`, as a test on the first `n` bits of `a`. -/
theorem take_prefix_iff {a b : Address w} {n : Nat} (hn : n ≤ w.bits) :
    a.bits.take n <+: b.bits ↔ a.bits.take n = b.bits.take n := by
  constructor
  · intro h
    have := List.prefix_iff_eq_take.mp h
    rwa [List.length_take, Address.length_bits, Nat.min_eq_left hn] at this
  · intro h; rw [h]; exact List.take_prefix _ _

theorem contains_iff {p : Prefix w} {addr : Address w} :
    p.contains addr = true ↔ p.bits <+: addr.bits := by
  rw [contains, decide_eq_true_iff, ge_iff_le, Address.le_commonPrefixLength_iff_take p.length_le,
    bits, take_prefix_iff p.length_le]

/-- `matches` against a prefix's own key and length. -/
theorem matchesTo_iff {p : Prefix w} {addr : Address w} :
    p.address.matchesTo addr p.length = true ↔ p.bits <+: addr.bits := by
  rw [Address.matchesTo_iff p.length_le, bits, take_prefix_iff p.length_le]

/-- Two prefixes of one address of the same length are equal. -/
theorem eq_of_contains {p q : Prefix w} {s : List Bool} (hp : p.bits <+: s) (hq : q.bits <+: s)
    (h : p.length = q.length) : p = q := by
  refine bits_injective ((List.prefix_of_prefix_length_le hp hq ?_).eq_of_length ?_) <;> simp [h]

/-- A prefix's key read as a test on the bits of another prefix. -/
theorem matchesTo_address_iff {p q : Prefix w} (h : p.length ≤ q.length) :
    p.address.matchesTo q.address p.length = true ↔ p.bits <+: q.bits := by
  rw [matchesTo_iff]
  refine ⟨fun hp => List.prefix_of_prefix_length_le hp q.bits_prefix_address (by simpa using h),
    fun hp => hp.trans q.bits_prefix_address⟩

/-- `bit` of the address at a position the prefix fixes. -/
theorem getElem?_bits (p : Prefix w) {i : Nat} (h : i < p.length) :
    p.bits[i]? = some (p.address.bit i) := by
  rw [bits, List.getElem?_take, if_pos h, Address.getElem?_bits _ (by have := p.length_le; omega)]

end Prefix

end RcuFib

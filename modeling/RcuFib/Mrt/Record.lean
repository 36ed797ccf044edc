import RcuFib.Prefix
import RcuFib.Library.Words

/-! One record of an MRT dump (`src/mrt.cpp`: `read_be16`, `read_be32`, and what `load_mrt_prefixes`
    makes of the body of a record).

    A byte is read with `[i]?`, so a read outside the buffer has no value and would show in the result.
    `Announces` says which prefix a record carries, in terms of the bits of its body. -/

namespace RcuFib.Mrt

abbrev Bytes := List (BitVec 8)

def typeTableDumpV2 : BitVec 16 := 13
def td2RibIpv4Unicast : BitVec 16 := 2
def td2RibIpv4Multicast : BitVec 16 := 3

/-- `read_be16(p + at)`. -/
def readBe16 (p : Bytes) (i : Nat) : Option (BitVec 16) := do
  let b₀ ← p[i]?
  let b₁ ← p[i + 1]?
  return (b₀.setWidth 16 <<< 8) ||| b₁.setWidth 16

/-- `read_be32(p + at)`. -/
def readBe32 (p : Bytes) (i : Nat) : Option (BitVec 32) := do
  let b₀ ← p[i]?
  let b₁ ← p[i + 1]?
  let b₂ ← p[i + 2]?
  let b₃ ← p[i + 3]?
  return (b₀.setWidth 32 <<< 24) ||| (b₁.setWidth 32 <<< 16) ||| (b₂.setWidth 32 <<< 8) ||| b₃.setWidth 32

/-- The loop over the `left` bytes of the prefix that start at byte `5 + i` of the body. -/
def addressLoop (body : Bytes) : (left i : Nat) → BitVec 32 → Option (BitVec 32)
  | 0, _, address => some address
  | left + 1, i, address => do
    let byte ← body[5 + i]?
    addressLoop body left (i + 1) (address ||| (byte.setWidth 32 <<< (24 - 8 * i)))

/-- The prefix in the body of a record. The inner `none` is a record that is skipped. -/
def decodeBody (type subtype : BitVec 16) (body : Bytes) : Option (Option (Prefix .ipv4)) :=
  if type ≠ typeTableDumpV2 ∨ (subtype ≠ td2RibIpv4Unicast ∧ subtype ≠ td2RibIpv4Multicast) then some none
  else if body.length < 5 then some none
  else do
    let prefixLength ← body[4]?
    if h : prefixLength.toNat ≤ 32 then
      let prefixBytes := (prefixLength.toNat + 7) / 8
      if body.length < 5 + prefixBytes then return none
      else do
        let address ← addressLoop body prefixBytes 0 0
        return some (Prefix.make (Address.fromV4 address) prefixLength.toNat h)
    else return none

/-! ### Records -/

/-- A record; its body is not larger than any record may be. -/
structure Record where
  timestamp : BitVec 32
  type : BitVec 16
  subtype : BitVec 16
  body : Bytes
  size : body.length ≤ 16 * 1024 * 1024

/-- The bits of a byte, most significant first. -/
def byteBits (b : BitVec 8) : List Bool := (List.range 8).map b.getMsbD

/-- A TABLE_DUMP_V2 IPv4 RIB record with a prefix length of at most 32 and enough bytes for it. -/
def ribEntry (r : Record) : Bool :=
  decide (r.type = 13 ∧ (r.subtype = 2 ∨ r.subtype = 3)) &&
    r.body[4]?.any fun length =>
      decide (length.toNat ≤ 32 ∧ 5 + (length.toNat + 7) / 8 ≤ r.body.length)

/-- The record is a TABLE_DUMP_V2 IPv4 RIB entry for the prefix `p`. -/
structure Announces (r : Record) (p : Prefix .ipv4) : Prop where
  type_eq : r.type = 13
  subtype : r.subtype = 2 ∨ r.subtype = 3
  length : ∃ b, r.body[4]? = some b ∧ b.toNat = p.length
  enough : 5 + (p.length + 7) / 8 ≤ r.body.length
  bits : p.bits = ((r.body.drop 5).flatMap byteBits).take p.length

open Classical in
/-- The prefix a record announces. -/
noncomputable def announced (r : Record) : Option (Prefix .ipv4) :=
  if h : ∃ p, Announces r p then some h.choose else none

variable {r : Record} {p q : Prefix .ipv4} {body : Bytes}

theorem Announces.unique (hp : Announces r p) (hq : Announces r q) : p = q := by
  obtain ⟨b, hb, hbp⟩ := hp.length
  obtain ⟨c, hc, hcq⟩ := hq.length
  rw [hb] at hc
  cases hc
  refine Prefix.bits_injective ?_
  rw [hp.bits, hq.bits, ← hbp, ← hcq]

theorem announced_eq_some : announced r = some p ↔ Announces r p := by
  unfold announced
  split
  · next h =>
    rw [Option.some.injEq]
    exact ⟨fun he => he ▸ h.choose_spec, h.choose_spec.unique⟩
  · next h => simpa using fun hp => h ⟨p, hp⟩

/-! ### The address in the body -/

theorem getElem?_flatMap_byteBits (l : Bytes) (j : Nat) :
    (l.flatMap byteBits)[j]? = (l[j / 8]?).map fun b => b.getMsbD (j % 8) := by
  have hlen : ∀ b ∈ l, (byteBits b).length = 8 := fun b _ => by simp [byteBits]
  have hbit : ∀ b, (byteBits b)[j % 8]? = some (b.getMsbD (j % 8)) := fun b => by
    simp [byteBits, Nat.mod_lt]
  rw [Words.getElem?_flatMap (by decide) l hlen]
  simp only [hbit, Option.map_eq_bind]
  rfl

/-- Where the shift puts a byte. -/
theorem getMsbD_shifted (byte : BitVec 8) {i j : Nat} (hi : i ≤ 3) (hj : j < 32) :
    (byte.setWidth 32 <<< (24 - 8 * i)).getMsbD j =
      (decide (8 * i ≤ j) && decide (j < 8 * (i + 1)) && byte.getMsbD (j % 8)) := by
  rw [BitVec.getMsbD, BitVec.getLsbD_shiftLeft, BitVec.getLsbD_setWidth, BitVec.getMsbD]
  rcases Nat.lt_or_ge j (8 * i) with hlow | hlow
  · have : byte.getLsbD (32 - 1 - j - (24 - 8 * i)) = false := BitVec.getLsbD_of_ge _ _ (by omega)
    simp [this, Nat.not_le.mpr hlow]
  · rcases Nat.lt_or_ge j (8 * (i + 1)) with hhigh | hhigh
    · rw [show 32 - 1 - j - (24 - 8 * i) = 8 - 1 - j % 8 by omega]
      simp [hj, hlow, hhigh, Nat.mod_lt, show 32 - 1 - j < 32 by omega,
        show ¬32 - 1 - j < 24 - 8 * i by omega]
      intro _
      omega
    · simp [Nat.not_lt.mpr hhigh, show 32 - 1 - j < 24 - 8 * i by omega]

/-- The loop sets the bits of the bytes it has seen. -/
theorem addressLoop_spec (body : Bytes) (left : Nat) {i : Nat} {v : BitVec 32}
    (hlen : 5 + i + left ≤ body.length) (hleft : i + left ≤ 4)
    (hbits : ∀ j < 32, v.getMsbD j = (decide (j < 8 * i) && (body[5 + j / 8]?.getD 0).getMsbD (j % 8))) :
    ∃ v', addressLoop body left i v = some v' ∧
      ∀ j < 32, v'.getMsbD j =
        (decide (j < 8 * (i + left)) && (body[5 + j / 8]?.getD 0).getMsbD (j % 8)) := by
  induction left generalizing i v with
  | zero => exact ⟨v, rfl, hbits⟩
  | succ left ih =>
    have hbyte : body[5 + i]? = some body[5 + i] := List.getElem?_eq_getElem _
    rw [addressLoop, hbyte, Option.bind_eq_bind, Option.bind_some, show i + (left + 1) = i + 1 + left by omega]
    refine ih (by omega) (by omega) fun j hj => ?_
    rw [BitVec.getMsbD_or, hbits j hj, getMsbD_shifted _ (by omega) hj]
    rcases Nat.lt_or_ge j (8 * i) with hlow | hlow
    · simp [hlow, Nat.not_le.mpr hlow, show j < 8 * (i + 1) by omega]
    · rcases Nat.lt_or_ge j (8 * (i + 1)) with hhigh | hhigh
      · rw [show j / 8 = i by omega, hbyte]
        simp [hlow, hhigh, Nat.not_lt.mpr hlow]
      · simp [Nat.not_lt.mpr hlow, Nat.not_lt.mpr hhigh]

theorem addressLoop_start {n : Nat} (hlen : 5 + n ≤ body.length) (hn : n ≤ 4) :
    ∃ v, addressLoop body n 0 0 = some v ∧
      ∀ j < 32, v.getMsbD j = (decide (j < 8 * n) && (body[5 + j / 8]?.getD 0).getMsbD (j % 8)) := by
  have := addressLoop_spec body n (i := 0) (v := 0) (by omega) (by omega) (by simp)
  rwa [Nat.zero_add] at this

/-- Bit `j` of an IPv4 address. -/
theorem bit_fromV4 (v : BitVec 32) {j : Nat} (hj : j < 32) : (Address.fromV4 v).bit j = v.getMsbD j := by
  have h32 : Width.ipv4.bitsPerWord = 32 := rfl
  rw [Address.bit_eq_getLsbD, h32, Nat.div_eq_of_lt hj, Nat.mod_eq_of_lt hj, Address.word_zero_fromV4,
    BitVec.getLsbD_setWidth, BitVec.getMsbD]
  simp [hj, show 31 - j < 64 by omega]

/-- The address the loop reads starts with the bits of the prefix. -/
theorem bits_of_loop {v : BitVec 32} {length : Nat} (hlen : length ≤ 32)
    (henough : 5 + (length + 7) / 8 ≤ body.length)
    (hbits : ∀ j < 32, v.getMsbD j =
      (decide (j < 8 * ((length + 7) / 8)) && (body[5 + j / 8]?.getD 0).getMsbD (j % 8))) :
    (Address.fromV4 v).bits.take length = ((body.drop 5).flatMap byteBits).take length := by
  refine List.ext_getElem? fun j => ?_
  rcases Nat.lt_or_ge j length with hj | hj
  · have hbyte : body[5 + j / 8]? = some body[5 + j / 8] := List.getElem?_eq_getElem _
    rw [List.getElem?_take_of_lt hj, List.getElem?_take_of_lt hj, Address.getElem?_bits _ (show j < 32 by omega),
      getElem?_flatMap_byteBits, List.getElem?_drop, hbyte, bit_fromV4 v (by omega), hbits j (by omega), hbyte]
    simp [show j < 8 * ((length + 7) / 8) by omega]
  · rw [List.getElem?_take_eq_none hj, List.getElem?_take_eq_none hj]

/-- The loop reads the address of the prefix a RIB entry announces. -/
theorem announces_make {b : BitVec 8} (htype : r.type = 13) (hsub : r.subtype = 2 ∨ r.subtype = 3)
    (hbyte : r.body[4]? = some b) (hle : b.toNat ≤ 32) (henough : 5 + (b.toNat + 7) / 8 ≤ r.body.length) :
    ∃ v, addressLoop r.body ((b.toNat + 7) / 8) 0 0 = some v ∧
      Announces r (Prefix.make (Address.fromV4 v) b.toNat hle) := by
  obtain ⟨v, hv, hbits⟩ := addressLoop_start henough (by omega)
  refine ⟨v, hv, htype, hsub, ⟨b, hbyte, rfl⟩, henough, ?_⟩
  exact (Prefix.bits_make _ _ _).trans (bits_of_loop hle henough hbits)

theorem isSome_announced (r : Record) : (announced r).isSome = ribEntry r := by
  rw [Bool.eq_iff_iff, Option.isSome_iff_exists]
  simp only [announced_eq_some, ribEntry, Bool.and_eq_true, decide_eq_true_eq, Option.any_eq_true]
  constructor
  · rintro ⟨p, hp⟩
    obtain ⟨b, hb, hlen⟩ := hp.length
    exact ⟨⟨hp.type_eq, hp.subtype⟩, b, hb, hlen ▸ p.length_le, hlen ▸ hp.enough⟩
  · rintro ⟨⟨htype, hsub⟩, b, hb, hle, henough⟩
    obtain ⟨v, -, hv⟩ := announces_make htype hsub hb hle henough
    exact ⟨_, hv⟩

/-- A body is decoded without a read outside it, and to the prefix its record announces. -/
theorem decodeBody_spec (r : Record) : decodeBody r.type r.subtype r.body = some (announced r) := by
  have hnone : ribEntry r = false → announced r = none := by
    intro h
    rw [← isSome_announced] at h
    simpa using h
  unfold decodeBody
  split
  · next hkind =>
    rw [hnone]
    simp only [ribEntry, Bool.and_eq_false_iff, decide_eq_false_iff_not]
    exact .inl fun h => hkind.elim (· h.1) fun h' => h.2.elim h'.1 h'.2
  · next hkind =>
    simp only [not_or, not_and_or, not_not] at hkind
    split
    · next hshort =>
      have hbyte : r.body[4]? = none := List.getElem?_eq_none (by omega)
      rw [hnone (by simp [ribEntry, hbyte])]
    · next hlong =>
      have hbyte : r.body[4]? = some r.body[4] := List.getElem?_eq_getElem _
      generalize r.body[4] = b at hbyte
      rw [hbyte, Option.bind_eq_bind, Option.bind_some]
      split
      · next hle =>
        dsimp only
        split
        · next hshort =>
          rw [hnone (by simp [ribEntry, hbyte]; omega)]
          rfl
        · next henough =>
          obtain ⟨v, hv, hp⟩ := announces_make hkind.1 hkind.2 hbyte hle (Nat.not_lt.mp henough)
          rw [hv, Option.bind_eq_bind, Option.bind_some, announced_eq_some.mpr hp]
          rfl
      · next hgt =>
        rw [hnone (by simp [ribEntry, hbyte]; omega)]
        rfl

end RcuFib.Mrt

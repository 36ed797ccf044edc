import RcuFib.Address

/-! The eight 16-bit groups of an IPv6 address (`src/address.cpp`: the last loop of `parse_v6` and the
    first loop of `to_string`).

    `HasGroups` says of an address what its groups are, bit by bit; packing groups into words and
    unpacking them both meet it, and an address is determined by its groups. -/

namespace RcuFib.Address

/-- Word `k` of the address: group `i` is shifted into word `i / 4`. -/
def packWord (full : List (BitVec 16)) (k : Nat) : BitVec 64 :=
  (List.range 8).foldl
    (fun word i =>
      if i / 4 = k then word ||| ((full.getD i 0).setWidth 64 <<< (48 - 16 * (i % 4))) else word) 0

def ofGroups (full : List (BitVec 16)) : Address .ipv6 where
  words := #v[packWord full 0, packWord full 1]
  padded := fun _ _ => BitVec.isLt _

/-- Group `i` of the address. -/
def group (a : Address .ipv6) (i : Nat) : BitVec 16 :=
  ((a.word (i / 4) >>> (48 - 16 * (i % 4))) &&& 0xFFFF#64).setWidth 16

def groups (a : Address .ipv6) : List (BitVec 16) := (List.range 8).map a.group

/-- `gs` are the eight groups of `a`, most significant first. -/
structure HasGroups (a : Address .ipv6) (gs : List (BitVec 16)) : Prop where
  length : gs.length = 8
  bits : ∀ i < 8, ∀ k < 16, a.bit (16 * i + k) = (gs.getD i 0).getMsbD k

variable {a b : Address .ipv6} {gs : List (BitVec 16)}

theorem HasGroups.address (ha : a.HasGroups gs) (hb : b.HasGroups gs) : a = b := by
  refine ext_bit fun i hi => ?_
  have hi : i < 128 := hi
  have := ha.bits (i / 16) (by omega) (i % 16) (by omega)
  rw [← hb.bits (i / 16) (by omega) (i % 16) (by omega), Nat.div_add_mod] at this
  exact this

/-- Bit `k` of group `i` is a bit of word `i / 4`. -/
theorem bit_of_group (a : Address .ipv6) {i k : Nat} (hk : k < 16) :
    a.bit (16 * i + k) = (a.word (i / 4)).getLsbD (63 - 16 * (i % 4) - k) := by
  rw [bit_eq_getLsbD]
  have h64 : Width.ipv6.bitsPerWord = 64 := rfl
  rw [h64, show (16 * i + k) / 64 = i / 4 by omega,
    show 64 - 1 - (16 * i + k) % 64 = 63 - 16 * (i % 4) - k by omega]

theorem hasGroups_groups (a : Address .ipv6) : a.HasGroups a.groups := by
  refine ⟨by simp [groups], fun i hi k hk => ?_⟩
  have hget : a.groups.getD i 0 = a.group i := by simp [groups, hi]
  have hmask : ∀ j < 16, (0xFFFF#64).getLsbD j = true := by decide
  rw [hget, bit_of_group a hk, group, BitVec.getMsbD, decide_eq_true hk, Bool.true_and,
    BitVec.getLsbD_setWidth, decide_eq_true (by omega), Bool.true_and, BitVec.getLsbD_and,
    hmask _ (by omega), Bool.and_true, BitVec.getLsbD_ushiftRight]
  congr 1
  omega

theorem packWord_zero : packWord gs 0 = gs.getD 0 0 ++ gs.getD 1 0 ++ gs.getD 2 0 ++ gs.getD 3 0 := by
  have h := BitVec.setWidth_eq (gs.getD 0 0 ++ gs.getD 1 0 ++ gs.getD 2 0 ++ gs.getD 3 0)
  rw [BitVec.setWidth_append_append_append_eq_shiftLeft_setWidth_or] at h
  rw [← h]
  simp [packWord, List.range_succ]

theorem packWord_one : packWord gs 1 = gs.getD 4 0 ++ gs.getD 5 0 ++ gs.getD 6 0 ++ gs.getD 7 0 := by
  have h := BitVec.setWidth_eq (gs.getD 4 0 ++ gs.getD 5 0 ++ gs.getD 6 0 ++ gs.getD 7 0)
  rw [BitVec.setWidth_append_append_append_eq_shiftLeft_setWidth_or] at h
  rw [← h]
  simp [packWord, List.range_succ]

/-- Bit `k` of the `r`-th of four groups in a word. -/
theorem getLsbD_quad (g : Nat → BitVec 16) {r k : Nat} (hr : r < 4) (hk : k < 16) :
    (g 0 ++ g 1 ++ g 2 ++ g 3).getLsbD (63 - 16 * r - k) = (g r).getMsbD k := by
  rw [BitVec.getMsbD, decide_eq_true hk, Bool.true_and]
  simp only [BitVec.getLsbD_append]
  obtain rfl | rfl | rfl | rfl : r = 0 ∨ r = 1 ∨ r = 2 ∨ r = 3 := by omega
  · rw [if_neg (by omega), if_neg (by omega), if_neg (by omega)]
    congr 1
    omega
  · rw [if_neg (by omega), if_neg (by omega), if_pos (by omega)]
    congr 1
    omega
  · rw [if_neg (by omega), if_pos (by omega)]
    congr 1
    omega
  · rw [if_pos (by omega)]

theorem hasGroups_ofGroups (h : gs.length = 8) : (ofGroups gs).HasGroups gs := by
  refine ⟨h, fun i hi k hk => ?_⟩
  rw [bit_of_group _ hk]
  obtain hq | hq : i / 4 = 0 ∨ i / 4 = 1 := by omega
  · have hword : (ofGroups gs).word 0 = packWord gs 0 := rfl
    rw [hq, hword, packWord_zero, getLsbD_quad (fun j => gs.getD j 0) (by omega) hk]
    rw [show i % 4 = i by omega]
  · have hword : (ofGroups gs).word 1 = packWord gs 1 := rfl
    rw [hq, hword, packWord_one, getLsbD_quad (fun j => gs.getD (4 + j) 0) (by omega) hk]
    rw [show 4 + i % 4 = i by omega]

end RcuFib.Address

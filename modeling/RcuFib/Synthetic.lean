import RcuFib.PrefixOrder
import RcuFib.Mrt.Record
import Mathlib.Data.List.Sort
import Mathlib.Algebra.Order.Floor.Semiring
import Mathlib.Data.Rat.Floor

/-! The generator of route tables (`src/synthetic.cpp`).

    The engine and its distributions are the standard library's: a draw is some value in its range. What
    is generated has the properties below whatever is drawn. A `double` is taken exactly. -/

namespace RcuFib
open Address
open Mrt (bit_fromV4)

/-- `std::mt19937_64` and the distributions that are drawn from it. -/
structure Random (G : Type) where
  /-- `mt19937_64 rng(seed)` -/
  seeded : BitVec 64 → G
  /-- `rng()` -/
  word : G → BitVec 64 × G
  /-- `uniform_int_distribution(lo, hi)` -/
  uniform (lo hi : Nat) : lo ≤ hi → G → {n : Nat // lo ≤ n ∧ n ≤ hi} × G
  /-- `discrete_distribution(weights)` -/
  discrete (weights : List ℚ) : weights ≠ [] → G → Fin weights.length × G
  /-- `uniform_real_distribution(0.0, 1.0)` -/
  coin : G → {x : ℚ // 0 ≤ x ∧ x < 1} × G

/-- `l[uniform_int_distribution(0, l.size() - 1)(rng)]` -/
def Random.pick {G α : Type} (R : Random G) (l : List α) (g : G) : Option α × G :=
  let (i, g) := R.uniform 0 (l.length - 1) (Nat.zero_le _) g
  (l[i.val]?, g)

theorem Random.pick_mem {G α : Type} (R : Random G) {l : List α} (h : l ≠ []) (g : G) :
    ∃ x ∈ l, (R.pick l g).1 = some x := by
  have hlt : (R.uniform 0 (l.length - 1) (Nat.zero_le _) g).1.val < l.length :=
    lt_of_le_of_lt (R.uniform 0 (l.length - 1) (Nat.zero_le _) g).1.prop.2
      (Nat.sub_one_lt_of_lt (List.length_pos_of_ne_nil h))
  exact ⟨_, List.getElem_mem hlt, List.getElem?_eq_getElem hlt⟩

namespace Synthetic
variable {G : Type}

/-- Address ranges no global table carries. -/
def isReserved (firstOctet : Nat) : Bool :=
  firstOctet = 0 || firstOctet = 10 || firstOctet = 127 || firstOctet = 100 || firstOctet = 169 ||
    firstOctet = 172 || firstOctet = 192 || firstOctet ≥ 224

/-- `length_share` -/
structure LengthShare where
  length : Nat
  share : ℚ
  length_le : length ≤ Width.ipv4.bits

def globalTableLengthDistribution : List LengthShare := [
  ⟨8, 0.002, by decide⟩, ⟨9, 0.001, by decide⟩, ⟨10, 0.002, by decide⟩, ⟨11, 0.003, by decide⟩,
  ⟨12, 0.005, by decide⟩, ⟨13, 0.008, by decide⟩, ⟨14, 0.014, by decide⟩, ⟨15, 0.017, by decide⟩,
  ⟨16, 0.055, by decide⟩, ⟨17, 0.017, by decide⟩, ⟨18, 0.022, by decide⟩, ⟨19, 0.038, by decide⟩,
  ⟨20, 0.055, by decide⟩, ⟨21, 0.049, by decide⟩, ⟨22, 0.098, by decide⟩, ⟨23, 0.075, by decide⟩,
  ⟨24, 0.520, by decide⟩, ⟨25, 0.004, by decide⟩, ⟨26, 0.004, by decide⟩, ⟨27, 0.004, by decide⟩,
  ⟨28, 0.003, by decide⟩, ⟨29, 0.002, by decide⟩, ⟨30, 0.001, by decide⟩]

def weights : List ℚ := globalTableLengthDistribution.map LengthShare.share

/-- `synthetic_options`, its seed apart. -/
structure Options where
  prefixCount : Nat := 200000
  seed : BitVec 64 := 0x5EED
  allocationBlocks : Nat := 400
  includeDefaultRoute : Bool := true

/-- `block`: a top-level allocation. -/
structure Block where
  base : BitVec 32
  length : Nat
  length_le : length ≤ Width.ipv4.bits

/-- The allocation that starts with an octet. -/
def Block.draw (R : Random G) (first : Nat) (g : G) : Block × G :=
  let (length, g) := R.uniform 8 12 (by decide) g
  let (x, g) := R.word g
  let raw := (BitVec.ofNat 32 first <<< 24) ||| (x.setWidth 32 &&& 0x00FFFFFF#32)
  (⟨((fromV4 raw).masked length).toV4, length, length.prop.2.trans (by decide)⟩, g)

/-- `octet(rng)` -/
def octet (R : Random G) (g : G) : {n : Nat // 1 ≤ n ∧ n ≤ 223} × G := R.uniform 1 223 (by decide) g

/-- The loop that draws the allocations; a reserved octet is drawn again. -/
def carve (R : Random G) (count : Nat) : (fuel : Nat) → List Block → G → Option (List Block × G)
  | 0, blocks, g => if blocks.length < count then none else some (blocks, g)
  | fuel + 1, blocks, g =>
    if blocks.length < count then
      let (first, g) := octet R g
      if isReserved first then carve R count fuel blocks g
      else
        let (block, g) := Block.draw R first g
        carve R count fuel (blocks ++ [block]) g
    else some (blocks, g)

/-- A prefix of the drawn length in a block: random bits between the block's length and its own. -/
def Block.subnet (R : Random G) (chosen : Block) (entry : LengthShare) (g : G) : Prefix .ipv4 × G :=
  let span := entry.length - chosen.length
  let (randomBits, g) :=
    if span = 0 then (0#32, g)
    else
      let (x, g) := R.word g
      ((x &&& ((1#64 <<< span) - 1#64)).setWidth 32 <<< (32 - entry.length), g)
  (.make (fromV4 (chosen.base ||| randomBits)) entry.length entry.length_le, g)

/-- One attempt: no prefix if the length drawn is too short for the block. -/
def attempt (R : Random G) (blocks : List Block) (g : G) : Option (Option (Prefix .ipv4) × G) :=
  let (chosen, g) := R.pick blocks g
  let (i, g) := R.discrete weights (by decide) g
  let entry := globalTableLengthDistribution.get (i.cast (List.length_map _))
  chosen.map fun chosen =>
    if entry.length < chosen.length then (none, g)
    else
      let (p, g) := chosen.subnet R entry g
      (some p, g)

/-- The loop of attempts, with `left` of them to go. -/
def collect (R : Random G) (blocks : List Block) (count : Nat) :
    (left : Nat) → (seen out : List (Prefix .ipv4)) → G → Option (List (Prefix .ipv4))
  | 0, _, out, _ => some out
  | left + 1, seen, out, g =>
    if out.length < count then
      match attempt R blocks g with
      | none => none
      | some (none, g) => collect R blocks count left seen out g
      | some (some p, g) =>
        if seen.contains p then collect R blocks count left seen out g
        else collect R blocks count left (p :: seen) (out ++ [p]) g
    else some out

/-- `p <= q` -/
def le (p q : Prefix .ipv4) : Prop := p.compare q ≠ .gt

instance : DecidableRel le := fun p q => inferInstanceAs (Decidable (p.compare q ≠ .gt))

def defaultRoute : Prefix .ipv4 := .make (.zero .ipv4) 0 (Nat.zero_le _)

def generatePrefixes (R : Random G) (options : Options) (fuel : Nat) : Option (List (Prefix .ipv4)) := do
  let (blocks, g) ← carve R options.allocationBlocks fuel [] (R.seeded options.seed)
  let start := if options.includeDefaultRoute then [defaultRoute] else []
  let attemptLimit := (options.prefixCount * 20 + 1000) % 2 ^ 64
  let out ← collect R blocks options.prefixCount attemptLimit start start g
  return out.insertionSort le

/-- One lookup key, and whether it was meant to hit. -/
def key (R : Random G) (prefixes : List (Prefix .ipv4)) (hitRatio : ℚ) (g : G) :
    Option (Address .ipv4) × G :=
  let (coin, g) := R.coin g
  if coin ≥ hitRatio then
    let (x, g) := R.word g
    (some (fromV4 (x.setWidth 32)), g)
  else
    let (p, g) := R.pick prefixes g
    let (x, g) := R.word g
    (p.map fun p =>
      let hostBits := 32 - p.length
      let mask := if hostBits ≥ 32 then 0xFFFFFFFF#32
        else (((1#64 <<< hostBits) - 1#64) &&& 0xFFFFFFFF#64).setWidth 32
      fromV4 (p.address.toV4 ||| (x.setWidth 32 &&& mask)), g)

def keys (R : Random G) (prefixes : List (Prefix .ipv4)) (hitRatio : ℚ) :
    (count : Nat) → List (Address .ipv4) → G → Option (List (Address .ipv4))
  | 0, out, _ => some out
  | count + 1, out, g =>
    let (a, g) := key R prefixes hitRatio g
    a.bind fun a => keys R prefixes hitRatio count (out ++ [a]) g

def generateTraffic (R : Random G) (prefixes : List (Prefix .ipv4)) (count : Nat) (seed : BitVec 64)
    (hitRatio : ℚ) : Option (List (Address .ipv4)) :=
  if prefixes = [] then some [] else keys R prefixes hitRatio count [] (R.seeded (seed ^^^ 0xA11CE#64))

/-- One index: nine times in ten of the hot slice. -/
def churnIndex (R : Random G) (prefixCount size start : Nat) (g : G) : Nat × G :=
  let (coin, g) := R.coin g
  if coin < (0.9 : ℚ) then
    let (i, g) := R.uniform 0 (size - 1) (Nat.zero_le _) g
    ((start + i) % 2 ^ 64 % prefixCount, g)
  else
    let (i, g) := R.uniform 0 (prefixCount - 1) (Nat.zero_le _) g
    (i, g)

def churnLoop (R : Random G) (prefixCount size start : Nat) :
    (count : Nat) → List Nat → G → List Nat
  | 0, out, _ => out
  | count + 1, out, g =>
    let (i, g) := churnIndex R prefixCount size start g
    churnLoop R prefixCount size start count (out ++ [i]) g

/-- The size of the hot slice. -/
def hotSize (prefixCount : Nat) (hotFraction : ℚ) : Nat := max 1 ⌊(prefixCount : ℚ) * hotFraction⌋₊

/-- Where the hot slice starts. -/
def hotStart (R : Random G) (prefixCount : Nat) (seed : BitVec 64) :
    {n : Nat // 0 ≤ n ∧ n ≤ prefixCount - 1} × G :=
  R.uniform 0 (prefixCount - 1) (Nat.zero_le _) (R.seeded (seed ^^^ 0xC0FFEE#64))

def generateChurnIndices (R : Random G) (prefixCount churnCount : Nat) (seed : BitVec 64)
    (hotFraction : ℚ) : List Nat :=
  if prefixCount = 0 then []
  else
    let (start, g) := hotStart R prefixCount seed
    churnLoop R prefixCount (hotSize prefixCount hotFraction) start churnCount [] g

/-! ### Bits of host-order values -/

/-- The first octet is the first eight bits. -/
theorem firstOctet_eq {x y : BitVec 32} (h : ∀ i < 8, x.getMsbD i = y.getMsbD i) :
    x >>> 24 = y >>> 24 := by
  refine BitVec.eq_of_getMsbD_eq fun i hi => ?_
  rw [BitVec.getMsbD_ushiftRight, BitVec.getMsbD_ushiftRight]
  by_cases h24 : i < 24
  · simp [h24]
  · rw [h (i - 24) (by omega)]

theorem ones_shiftLeft {k i : Nat} (hk : k < 64) :
    ((1#64 <<< k) - 1#64).getLsbD i = decide (i < k) := by
  have hlt : 2 ^ k < 2 ^ 64 := Nat.pow_lt_pow_right (by decide) hk
  have hpos : 0 < 2 ^ k := Nat.pos_of_ne_zero (by simp)
  have hone : (1#64 <<< k).toNat = 2 ^ k := by
    rw [BitVec.toNat_shiftLeft, BitVec.toNat_ofNat, Nat.one_mod, Nat.one_shiftLeft,
      Nat.mod_eq_of_lt hlt]
  have hnat : ((1#64 <<< k) - 1#64).toNat = 2 ^ k - 1 := by
    rw [BitVec.toNat_sub_of_le (by rw [BitVec.le_def, hone]; exact hpos), hone]
    rfl
  rw [BitVec.getLsbD, hnat, Nat.testBit_two_pow_sub_one]

/-! ### Blocks -/

namespace Block

def pfx (b : Block) : Prefix .ipv4 := .make (fromV4 b.base) b.length b.length_le

/-- What an allocation looks like. -/
structure Allocated (b : Block) : Prop where
  eight_le : 8 ≤ b.length
  le_twelve : b.length ≤ 12
  routable : isReserved (b.base >>> 24).toNat = false

variable {R : Random G} {b : Block} {first : Nat} {entry : LengthShare} {a : Address .ipv4}

theorem draw_allocated (hlt : first < 256) (h : isReserved first = false) (g : G) :
    (draw R first g).1.Allocated := by
  have hfirst : (BitVec.ofNat 32 first).toNat = first := by
    rw [BitVec.toNat_ofNat, Nat.mod_eq_of_lt (by omega)]
  have hraw : ∀ x : BitVec 32,
      ((BitVec.ofNat 32 first <<< 24) ||| (x &&& 0x00FFFFFF#32)) >>> 24 = BitVec.ofNat 32 first := by
    intro x
    refine BitVec.eq_of_getLsbD_eq fun i hi => ?_
    have hlow : (0x00FFFFFF#32).getLsbD (24 + i) = false :=
      Nat.testBit_lt_two_pow (lt_of_lt_of_le (by decide : (0x00FFFFFF#32).toNat < 2 ^ 24)
        (Nat.pow_le_pow_right (by decide) (Nat.le_add_right 24 i)))
    rw [BitVec.getLsbD_ushiftRight, BitVec.getLsbD_or, BitVec.getLsbD_and, hlow, Bool.and_false,
      Bool.or_false, BitVec.getLsbD_shiftLeft, Nat.add_sub_cancel_left]
    by_cases h8 : i < 8
    · simp [show 24 + i < 32 by omega]
    · have hhigh : (BitVec.ofNat 32 first).getLsbD i = false := by
        rw [BitVec.getLsbD, hfirst]
        exact Nat.testBit_lt_two_pow (lt_of_lt_of_le hlt
          (Nat.pow_le_pow_right (by decide) (Nat.le_of_not_lt h8) : 2 ^ 8 ≤ 2 ^ i))
      rw [hhigh, Bool.and_false]
  have hmasked : ∀ (x : BitVec 32) (length : Nat), 8 ≤ length →
      ((fromV4 x).masked length).toV4 >>> 24 = x >>> 24 := by
    intro x length h8
    refine firstOctet_eq fun i hi => ?_
    have hi32 : i < Width.ipv4.bits := hi.trans (by decide)
    rw [← bit_fromV4 _ hi32, fromV4_toV4, bit_masked _ hi32, decide_eq_true (hi.trans_le h8),
      Bool.true_and, bit_fromV4 _ hi32]
  unfold draw
  obtain ⟨⟨length, h8, h12⟩, g⟩ := R.uniform 8 12 (by decide) g
  dsimp only
  obtain ⟨x, g⟩ := R.word g
  refine ⟨h8, h12, ?_⟩
  dsimp only
  rw [hmasked _ _ h8, hraw, hfirst]
  exact h

/-- An address in a block has the block's first octet. -/
theorem Allocated.unreserved (h : b.Allocated) (ha : b.pfx.contains a = true) :
    isReserved (a.toV4 >>> 24).toNat = false := by
  have hbits := (Prefix.contains_make b.length_le).mp ha
  rw [← h.routable, firstOctet_eq (x := a.toV4) (y := b.base)]
  intro i hi
  have hi32 : i < 32 := hi.trans (by decide)
  rw [← bit_fromV4 _ hi32, ← bit_fromV4 _ hi32, fromV4_toV4, hbits i (hi.trans_le h.eight_le)]

/-- What is carved from a block is covered by it. -/
theorem covers_subnet (h : b.length ≤ entry.length) (g : G) :
    b.pfx.covers (subnet R b entry g).1 = true ∧ (subnet R b entry g).1.length = entry.length := by
  have hle : entry.length ≤ 32 := entry.length_le
  have hmake : ∀ bits : BitVec 32, (∀ i < b.length, bits.getMsbD i = false) →
      b.pfx.covers (.make (fromV4 (b.base ||| bits)) entry.length entry.length_le) = true := by
    intro bits hbits
    have htake : (fromV4 b.base).bits.take b.length = (fromV4 (b.base ||| bits)).bits.take b.length := by
      rw [take_bits_eq b.length_le]
      intro i hi
      have hi32 : i < 32 := hi.trans_le b.length_le
      rw [bit_fromV4 _ hi32, bit_fromV4 _ hi32, BitVec.getMsbD_or, hbits i hi, Bool.or_false]
    rw [Prefix.covers_iff, pfx, Prefix.bits_make, Prefix.bits_make, htake]
    exact List.take_prefix_take_left h
  unfold subnet
  dsimp only
  split
  · next hspan =>
    refine ⟨hmake 0#32 fun i _ => ?_, rfl⟩
    simp
  · next hspan =>
    obtain ⟨x, g⟩ := R.word g
    refine ⟨hmake _ fun i hi => ?_, rfl⟩
    -- the random bits end where the block begins
    rw [BitVec.getMsbD_eq_getLsbD, BitVec.getLsbD_shiftLeft, BitVec.getLsbD_setWidth,
      BitVec.getLsbD_and, ones_shiftLeft (show entry.length - b.length < 64 by omega)]
    have hi32 : ¬32 - 1 - i - (32 - entry.length) < entry.length - b.length := by omega
    rw [decide_eq_false hi32]
    simp

end Block

variable {R : Random G} {options : Options} {blocks : List Block} {p q : Prefix .ipv4} {count : Nat}
  {start seen out : List (Prefix .ipv4)}

/-- The engine once `n` octets have been drawn and thrown away. -/
def skip (R : Random G) : (n : Nat) → G → G
  | 0, g => g
  | n + 1, g => skip R n (octet R g).2

/-- An octet that is not reserved comes sooner or later. -/
def Fair (R : Random G) : Prop := ∀ g, ∃ n, isReserved (octet R (skip R n g)).1 = false

theorem carve_of_le (h : count ≤ blocks.length) (fuel : Nat) (g : G) :
    carve R count fuel blocks g = some (blocks, g) := by
  cases fuel <;> rw [carve, if_neg (Nat.not_lt.mpr h)]

/-- One turn of the loop. -/
theorem carve_step (h : blocks.length < count) (fuel : Nat) (g : G) :
    carve R count (fuel + 1) blocks g =
      if isReserved (octet R g).1 then carve R count fuel blocks (octet R g).2
      else carve R count fuel (blocks ++ [(Block.draw R (octet R g).1 (octet R g).2).1])
        (Block.draw R (octet R g).1 (octet R g).2).2 := by
  rw [carve, if_pos h]

theorem carve_allocated : ∀ (fuel : Nat) (blocks : List Block) (g : G) {r : List Block × G},
    carve R count fuel blocks g = some r → blocks.length ≤ count →
    (∀ b ∈ blocks, b.Allocated) → r.1.length = count ∧ ∀ b ∈ r.1, b.Allocated := by
  intro fuel
  induction fuel with
  | zero =>
    intro blocks g r h hle hall
    rw [carve] at h
    split at h
    · cases h
    · next hge =>
      obtain rfl := Option.some.inj h
      exact ⟨hle.antisymm (Nat.le_of_not_lt hge), hall⟩
  | succ fuel ih =>
    intro blocks g r h hle hall
    rcases hle.eq_or_lt with heq | hlt
    · rw [carve_of_le heq.ge] at h
      obtain rfl := Option.some.inj h
      exact ⟨heq, hall⟩
    · rw [carve_step hlt] at h
      have hoctet := (octet R g).1.prop
      split at h
      · exact ih blocks _ h hle hall
      · next hfree =>
        refine ih _ _ h ?_ ?_
        · rw [List.length_append, List.length_singleton]
          exact hlt
        · intro b hb
          rcases List.mem_append.mp hb with hb | hb
          · exact hall b hb
          · rw [List.mem_singleton.mp hb]
            exact Block.draw_allocated (by omega) (Bool.eq_false_of_not_eq_true hfree) _

/-- With enough fuel the blocks are found: induction on how many are missing, and for each on the octets
    thrown away before it. -/
theorem carve_returns (hfair : Fair R) (count : Nat) : ∀ (k : Nat) (blocks : List Block) (g : G),
    blocks.length + k = count →
    ∃ r fuel₀, ∀ fuel ≥ fuel₀, carve R count fuel blocks g = some r := by
  intro k
  induction k with
  | zero =>
    intro blocks g hk
    exact ⟨(blocks, g), 0, fun fuel _ => carve_of_le hk.ge fuel g⟩
  | succ k ih =>
    intro blocks g hk
    have hlt : blocks.length < count := by omega
    obtain ⟨n, hn⟩ := hfair g
    have hkept : ∀ g, isReserved (octet R g).1 = false →
        ∃ r fuel₀, ∀ fuel ≥ fuel₀, carve R count fuel blocks g = some r := by
      intro g hfree
      obtain ⟨r, fuel₀, hr⟩ := ih (blocks ++ [(Block.draw R (octet R g).1 (octet R g).2).1])
        (Block.draw R (octet R g).1 (octet R g).2).2 (by simp; omega)
      refine ⟨r, fuel₀ + 1, fun fuel hfuel => ?_⟩
      obtain ⟨fuel, rfl⟩ : ∃ f, fuel = f + 1 := ⟨fuel - 1, by omega⟩
      rw [carve_step hlt, hfree, if_neg Bool.false_ne_true]
      exact hr fuel (by omega)
    induction n generalizing g with
    | zero => exact hkept g hn
    | succ n hskip =>
      cases hfree : isReserved (octet R g).1 with
      | false => exact hkept g hfree
      | true =>
        obtain ⟨r, fuel₀, hr⟩ := hskip (octet R g).2 hn
        refine ⟨r, fuel₀ + 1, fun fuel hfuel => ?_⟩
        obtain ⟨fuel, rfl⟩ : ∃ f, fuel = f + 1 := ⟨fuel - 1, by omega⟩
        rw [carve_step hlt, if_pos hfree]
        exact hr fuel (by omega)

/-- The allocations one after another, without the octets that are drawn again. -/
def draws (R : Random G) : (left fuel : Nat) → G → Option (List Block × G)
  | 0, _, g => some ([], g)
  | _ + 1, 0, _ => none
  | left + 1, fuel + 1, g =>
    let (first, g) := octet R g
    if isReserved first then draws R (left + 1) fuel g
    else
      let (block, g) := Block.draw R first g
      (draws R left fuel g).map fun x => (block :: x.1, x.2)

theorem carve_eq_draws (left fuel : Nat) (blocks : List Block) (g : G) :
    carve R (blocks.length + left) fuel blocks g =
      (draws R left fuel g).map fun x => (blocks ++ x.1, x.2) := by
  induction fuel generalizing left blocks g with
  | zero => cases left <;> simp [carve, draws]
  | succ fuel ih =>
    cases left with
    | zero => simp [carve, draws]
    | succ left =>
      have hlt : blocks.length < blocks.length + (left + 1) := by omega
      rw [carve_step hlt, draws]
      dsimp only
      split
      · exact ih (left + 1) blocks (octet R g).2
      · have hnext := ih left (blocks ++ [(Block.draw R (octet R g).1 (octet R g).2).1])
          (Block.draw R (octet R g).1 (octet R g).2).2
        rw [List.length_append, List.length_singleton, Nat.add_assoc, Nat.add_comm 1 left] at hnext
        rw [hnext, Option.map_map]
        simp only [Function.comp_def, List.append_assoc, List.singleton_append]

/-! ### Prefixes -/

/-- `p` is in one of the blocks, with a length of the table. -/
def Placed (blocks : List Block) (p : Prefix .ipv4) : Prop :=
  ∃ b ∈ blocks, b.pfx.covers p = true ∧
    p.length ∈ globalTableLengthDistribution.map LengthShare.length

theorem attempt_placed (hne : blocks ≠ []) (g : G) :
    ∃ candidate g', attempt R blocks g = some (candidate, g') ∧
      ∀ p, candidate = some p → Placed blocks p := by
  obtain ⟨chosen, hmem, hpick⟩ := R.pick_mem hne g
  unfold attempt
  dsimp only
  rw [hpick, Option.map_some]
  split
  · exact ⟨none, _, rfl, fun p hp => by cases hp⟩
  · next hshort =>
    refine ⟨_, _, rfl, ?_⟩
    rintro p ⟨⟩
    obtain ⟨hcovers, hlength⟩ := Block.covers_subnet (R := R) (Nat.le_of_not_lt hshort) _
    refine ⟨_, hmem, hcovers, ?_⟩
    rw [hlength]
    exact List.mem_map_of_mem (List.get_mem _ _)

/-- What the loop of attempts has gathered. -/
structure Collected (blocks : List Block) (count : Nat) (start out : List (Prefix .ipv4)) : Prop where
  nodup : out.Nodup
  kept : start <+: out
  size : out.length ≤ max count start.length
  placed : ∀ p ∈ out, p ∈ start ∨ Placed blocks p

theorem Collected.push (h : Collected blocks count start out) (hlt : out.length < count)
    (hp : Placed blocks p) (hfresh : p ∉ out) : Collected blocks count start (out ++ [p]) where
  nodup := by
    rw [List.nodup_append]
    refine ⟨h.nodup, List.nodup_singleton p, ?_⟩
    rintro q hq r hr rfl
    rw [List.mem_singleton.mp hr] at hq
    exact hfresh hq
  kept := h.kept.trans (List.prefix_append out [p])
  size := by
    rw [List.length_append, List.length_singleton]
    exact le_max_of_le_left hlt
  placed := by
    intro q hq
    rcases List.mem_append.mp hq with hq | hq
    · exact h.placed q hq
    · rw [List.mem_singleton.mp hq]
      exact .inr hp

/-- The loop ends, and `seen` holds throughout what `out` does. -/
theorem collect_collected (hne : blocks ≠ []) : ∀ (left : Nat) (seen out : List (Prefix .ipv4)) (g : G),
    (∀ p, p ∈ seen ↔ p ∈ out) → Collected blocks count start out →
    ∃ out', collect R blocks count left seen out g = some out' ∧ Collected blocks count start out' := by
  intro left
  induction left with
  | zero =>
    intro seen out g _ h
    exact ⟨out, rfl, h⟩
  | succ left ih =>
    intro seen out g hseen h
    rw [collect]
    split
    · next hlt =>
      obtain ⟨candidate, g', hattempt, hplaced⟩ := attempt_placed (R := R) hne g
      rw [hattempt]
      cases candidate with
      | none => exact ih seen out g' hseen h
      | some p =>
        dsimp only
        split
        · exact ih seen out g' hseen h
        · next hfresh =>
          rw [List.contains_iff_mem, hseen p] at hfresh
          refine ih _ _ g' (fun q => ?_) (h.push hlt (hplaced p rfl) hfresh)
          rw [List.mem_cons, List.mem_append, List.mem_singleton, hseen q, or_comm]
    · exact ⟨out, rfl, h⟩

instance : Std.Total le where
  total p q := by
    rw [le, le, Prefix.compare_le_iff, Prefix.compare_le_iff]
    rcases lt_or_ge q.bits p.bits with hlt | hge
    · exact .inr (lt_asymm hlt)
    · exact .inl hge.not_gt

instance : IsTrans (Prefix .ipv4) le := ⟨fun _ _ _ => Prefix.le_trans⟩

/-- A sorted list without duplicates ascends. -/
theorem ascending (h : out.Nodup) : (out.insertionSort le).Pairwise fun p q => p.compare q = .lt := by
  have hsorted := List.pairwise_insertionSort le out
  have hnodup : (out.insertionSort le).Nodup := (List.perm_insertionSort le out).nodup_iff.mpr h
  refine (hsorted.and hnodup).imp ?_
  rintro p q ⟨hle, hne⟩
  rw [le, Prefix.compare_le_iff] at hle
  refine Prefix.compare_lt (lt_of_le_of_ne (not_lt.mp hle) fun hbits => ?_)
  exact hne (Prefix.bits_injective hbits)

/-- A table that was generated from these blocks. -/
structure Generated (options : Options) (blocks : List Block) (out : List (Prefix .ipv4)) : Prop where
  allocations : blocks.length = options.allocationBlocks ∧ ∀ b ∈ blocks, b.Allocated
  sorted : out.Pairwise fun p q => p.compare q = .lt
  size : out.length ≤ max options.prefixCount (if options.includeDefaultRoute then 1 else 0)
  default : options.includeDefaultRoute = true → defaultRoute ∈ out
  placed : ∀ p ∈ out, (options.includeDefaultRoute = true ∧ p = defaultRoute) ∨ Placed blocks p

theorem generated_of_carve {fuel : Nat} {g : G} (hblocks : options.allocationBlocks ≠ 0)
    (h : carve R options.allocationBlocks fuel [] (R.seeded options.seed) = some (blocks, g)) :
    ∃ out, Generated options blocks out ∧ ∀ fuel,
      carve R options.allocationBlocks fuel [] (R.seeded options.seed) = some (blocks, g) →
      generatePrefixes R options fuel = some out := by
  obtain ⟨hlength, hallocated⟩ := carve_allocated fuel [] _ h (Nat.zero_le _) (by simp)
  have hne : blocks ≠ [] := by
    rintro rfl
    exact hblocks hlength.symm
  have hstart : Collected blocks options.prefixCount
      (if options.includeDefaultRoute then [defaultRoute] else [])
      (if options.includeDefaultRoute then [defaultRoute] else []) := by
    refine ⟨?_, List.prefix_rfl, le_max_right _ _, fun p hp => .inl hp⟩
    split
    · exact List.nodup_singleton _
    · exact List.nodup_nil
  obtain ⟨out, hout, hcollected⟩ := collect_collected (R := R) hne
    ((options.prefixCount * 20 + 1000) % 2 ^ 64) _ _ g (fun _ => Iff.rfl) hstart
  refine ⟨out.insertionSort le, ⟨⟨hlength, hallocated⟩, ascending hcollected.nodup, ?_, ?_, ?_⟩, ?_⟩
  · rw [List.length_insertionSort]
    refine hcollected.size.trans (max_le_max le_rfl ?_)
    split <;> rfl
  · intro hdefault
    rw [List.mem_insertionSort]
    refine hcollected.kept.subset ?_
    rw [if_pos hdefault]
    exact List.mem_singleton_self _
  · intro p hp
    rw [List.mem_insertionSort] at hp
    rcases hcollected.placed p hp with hstart | hplaced
    · split at hstart
      · next hdefault => exact .inl ⟨hdefault, List.mem_singleton.mp hstart⟩
      · cases hstart
    · exact .inr hplaced
  · intro fuel hcarve
    rw [generatePrefixes, hcarve, Option.bind_eq_bind, Option.bind_some]
    dsimp only
    rw [hout]
    rfl

/-- Nothing but the default route covers reserved space. -/
theorem Generated.unreserved (h : Generated options blocks out) (hp : p ∈ out) {a : Address .ipv4}
    (ha : p.contains a = true) (hreserved : isReserved (a.toV4 >>> 24).toNat = true) :
    p = defaultRoute := by
  rcases h.placed p hp with ⟨-, hdefault⟩ | ⟨b, hb, hcovers, -⟩
  · exact hdefault
  · have hfree := (h.allocations.2 b hb).unreserved (Prefix.subset_of_covers hcovers ha)
    rw [hreserved] at hfree
    cases hfree

/-- Whatever is drawn, and if there is an allocation to pick from, the generator ends with a table that
    ascends, so without duplicates, and is no larger than asked for (a default route that was asked for is
    there even in a table of no prefixes). Besides the default route it has prefixes of the table's lengths,
    in no more than the allocations asked for, and none in reserved space. -/
theorem table_generated (hfair : Fair R) (hblocks : options.allocationBlocks ≠ 0) :
    ∃ out blocks fuel₀, (∀ fuel ≥ fuel₀, generatePrefixes R options fuel = some out) ∧
      Generated options blocks out ∧
      ∀ (a : Address .ipv4), isReserved (a.toV4 >>> 24).toNat = true →
        ∀ p ∈ out, p.contains a = true → p = defaultRoute := by
  obtain ⟨⟨blocks, g⟩, fuel₀, hcarve⟩ := carve_returns hfair options.allocationBlocks _ []
    (R.seeded options.seed) (Nat.zero_add _)
  obtain ⟨out, hgenerated, hout⟩ := generated_of_carve hblocks (hcarve fuel₀ le_rfl)
  exact ⟨out, blocks, fuel₀, fun fuel hfuel => hout fuel (hcarve fuel hfuel), hgenerated,
    fun a hreserved p hp ha => hgenerated.unreserved hp ha hreserved⟩

/-- An engine that counts. -/
def counter : Random Nat where
  seeded seed := seed.toNat
  word g := (.ofNat 64 g, g + 1)
  uniform lo hi h g := (⟨lo + g % (hi - lo + 1), by omega, by
    have := Nat.mod_lt g (Nat.zero_lt_succ (hi - lo))
    rw [Nat.succ_eq_add_one] at this
    omega⟩, g + 1)
  discrete weights h g := (⟨g % weights.length, Nat.mod_lt g (List.length_pos_of_ne_nil h)⟩, g + 1)
  coin g := (⟨if g % 2 = 0 then 1 / 2 else 0, by split <;> norm_num, by split <;> norm_num⟩, g + 1)

theorem skip_counter (n g : Nat) : skip counter n g = g + n := by
  induction n generalizing g with
  | zero => rfl
  | succ n ih =>
    rw [skip, ih]
    exact Nat.add_right_comm g 1 n

theorem fair_counter : Fair counter := by
  intro g
  refine ⟨223 - g % 223, ?_⟩
  have hfirst : (octet counter (skip counter (223 - g % 223) g)).1.val = 1 := by
    rw [skip_counter]
    change 1 + (g + (223 - g % 223)) % 223 = 1
    omega
  rw [hfirst]
  rfl

theorem coin_counter (g : Nat) : (counter.coin g).1.val < (0.9 : ℚ) := by
  simp only [counter]
  split <;> norm_num

theorem table_generated_counter :
    ∃ out blocks fuel₀, (∀ fuel ≥ fuel₀, generatePrefixes counter {} fuel = some out) ∧
      Generated {} blocks out ∧
      ∀ (a : Address .ipv4), isReserved (a.toV4 >>> 24).toNat = true →
        ∀ p ∈ out, p.contains a = true → p = defaultRoute :=
  table_generated fair_counter (by decide)

/-! ### Traffic -/

/-- The engine once `n` of something have been drawn. -/
def after {α : Type} (draw : G → α × G) : (n : Nat) → G → G
  | 0, g => g
  | n + 1, g => after draw n (draw g).2

variable {prefixes : List (Prefix .ipv4)}

/-- Any host bits leave the address in the prefix. -/
theorem contains_host (p : Prefix .ipv4) (x : BitVec 32) :
    p.contains (fromV4 (p.address.toV4 ||| (x &&&
      if 32 - p.length ≥ 32 then 0xFFFFFFFF#32
      else (((1#64 <<< (32 - p.length)) - 1#64) &&& 0xFFFFFFFF#64).setWidth 32))) = true := by
  rw [← p.make_address, Prefix.contains_make, Prefix.make_address]
  intro i hi
  have hle : p.length ≤ 32 := p.length_le
  have hi32 : i < 32 := hi.trans_le hle
  rw [bit_fromV4 _ hi32, BitVec.getMsbD_or, BitVec.getMsbD_and, if_neg (by omega),
    ← bit_fromV4 _ hi32, fromV4_toV4, BitVec.getMsbD_eq_getLsbD (BitVec.setWidth _ _),
    BitVec.getLsbD_setWidth, BitVec.getLsbD_and, ones_shiftLeft (by omega),
    decide_eq_false (show ¬32 - 1 - i < 32 - p.length by omega)]
  simp

theorem key_hits (hne : prefixes ≠ []) (hitRatio : ℚ) (g : G) : ∃ a, (key R prefixes hitRatio g).1 = some a ∧
    ((R.coin g).1 < hitRatio → ∃ p ∈ prefixes, p.contains a = true) := by
  unfold key
  dsimp only
  split
  · next hmiss => exact ⟨_, rfl, fun hlt => absurd hlt (not_lt.mpr hmiss)⟩
  · obtain ⟨p, hp, hpick⟩ := R.pick_mem hne (R.coin g).2
    dsimp only
    rw [hpick, Option.map_some]
    exact ⟨_, rfl, fun _ => ⟨p, hp, contains_host p _⟩⟩

/-- Key `i` is drawn from the engine as `i` keys have left it. -/
theorem keys_drawn (hne : prefixes ≠ []) (hitRatio : ℚ) : ∀ (count : Nat) (out : List (Address .ipv4)) (g : G),
    ∃ drawn, keys R prefixes hitRatio count out g = some (out ++ drawn) ∧ drawn.length = count ∧
      ∀ i a, drawn[i]? = some a →
        (key R prefixes hitRatio (after (key R prefixes hitRatio) i g)).1 = some a := by
  intro count
  induction count with
  | zero =>
    intro out g
    exact ⟨[], by rw [keys, List.append_nil], rfl, fun i a ha => by cases ha⟩
  | succ count ih =>
    intro out g
    obtain ⟨a, ha, -⟩ := key_hits (R := R) hne hitRatio g
    obtain ⟨drawn, hdrawn, hlength, hall⟩ := ih (out ++ [a]) (key R prefixes hitRatio g).2
    refine ⟨a :: drawn, ?_, by rw [List.length_cons, hlength], ?_⟩
    · rw [keys]
      dsimp only
      rw [ha, Option.bind_some, hdrawn, List.append_assoc, List.singleton_append]
    · intro i b hb
      cases i with
      | zero => exact ha.trans hb
      | succ i => exact hall i b hb

theorem traffic_drawn (hne : prefixes ≠ []) (count : Nat) (seed : BitVec 64) (hitRatio : ℚ) :
    ∃ traffic, generateTraffic R prefixes count seed hitRatio = some traffic ∧
      traffic.length = count ∧ ∀ i a, traffic[i]? = some a →
        (key R prefixes hitRatio (after (key R prefixes hitRatio) i
          (R.seeded (seed ^^^ 0xA11CE#64)))).1 = some a := by
  obtain ⟨traffic, htraffic, hlength, hdrawn⟩ := keys_drawn (R := R) hne hitRatio count []
    (R.seeded (seed ^^^ 0xA11CE#64))
  rw [List.nil_append] at htraffic
  refine ⟨traffic, ?_, hlength, hdrawn⟩
  rw [generateTraffic, if_neg hne, htraffic]

/-! ### Churn -/

section churn
variable {prefixCount size : Nat}

theorem churnIndex_spec (hpos : 0 < prefixCount) (hsize : 0 < size) (start : Nat) (g : G) :
    (churnIndex R prefixCount size start g).1 < prefixCount ∧
    ((R.coin g).1 < (0.9 : ℚ) → ∃ k < size,
      (churnIndex R prefixCount size start g).1 = (start + k) % 2 ^ 64 % prefixCount) := by
  unfold churnIndex
  dsimp only
  split
  · refine ⟨Nat.mod_lt _ hpos, fun _ => ⟨_, ?_, rfl⟩⟩
    exact lt_of_le_of_lt (R.uniform 0 (size - 1) (Nat.zero_le _) _).1.prop.2 (Nat.sub_one_lt_of_lt hsize)
  · next hcold =>
    refine ⟨?_, fun hlt => absurd hlt hcold⟩
    exact lt_of_le_of_lt (R.uniform 0 (prefixCount - 1) (Nat.zero_le _) _).1.prop.2
      (Nat.sub_one_lt_of_lt hpos)

theorem churnLoop_spec (hpos : 0 < prefixCount) (hsize : 0 < size) (start : Nat) :
    ∀ (count : Nat) (out : List Nat) (g : G), ∃ drawn,
      churnLoop R prefixCount size start count out g = out ++ drawn ∧ drawn.length = count ∧
      ∀ i j, drawn[i]? = some j → j < prefixCount ∧
        ((R.coin (after (churnIndex R prefixCount size start) i g)).1 < (0.9 : ℚ) →
          ∃ k < size, j = (start + k) % 2 ^ 64 % prefixCount) := by
  intro count
  induction count with
  | zero =>
    intro out g
    exact ⟨[], (List.append_nil out).symm, rfl, fun i j hj => by cases hj⟩
  | succ count ih =>
    intro out g
    have hindex := churnIndex_spec (R := R) hpos hsize start g
    obtain ⟨drawn, hdrawn, hlength, hall⟩ := ih (out ++ [(churnIndex R prefixCount size start g).1])
      (churnIndex R prefixCount size start g).2
    refine ⟨(churnIndex R prefixCount size start g).1 :: drawn, ?_,
      by rw [List.length_cons, hlength], ?_⟩
    · rw [churnLoop]
      dsimp only
      rw [hdrawn, List.append_assoc, List.singleton_append]
    · intro i j hj
      cases i with
      | zero =>
        obtain rfl := Option.some.inj hj
        exact hindex
      | succ i => exact hall i j hj

end churn

theorem churn_generated {prefixCount : Nat} (hpos : 0 < prefixCount) (churnCount : Nat)
    (seed : BitVec 64) (hotFraction : ℚ) :
    (generateChurnIndices R prefixCount churnCount seed hotFraction).length = churnCount ∧
    ∀ i j, (generateChurnIndices R prefixCount churnCount seed hotFraction)[i]? = some j →
      j < prefixCount ∧
      ((R.coin (after (churnIndex R prefixCount (hotSize prefixCount hotFraction)
          (hotStart R prefixCount seed).1) i (hotStart R prefixCount seed).2)).1 < (0.9 : ℚ) →
        ∃ k < hotSize prefixCount hotFraction,
          j = ((hotStart R prefixCount seed).1 + k) % 2 ^ 64 % prefixCount) := by
  have hsize : 0 < hotSize prefixCount hotFraction := lt_max_of_lt_left Nat.one_pos
  obtain ⟨drawn, hdrawn, hlength, hall⟩ := churnLoop_spec (R := R) hpos hsize
    (hotStart R prefixCount seed).1 churnCount [] (hotStart R prefixCount seed).2
  have heq : generateChurnIndices R prefixCount churnCount seed hotFraction = drawn := by
    rw [generateChurnIndices, if_neg hpos.ne']
    dsimp only
    rw [hdrawn, List.nil_append]
  rw [heq]
  exact ⟨hlength, hall⟩

/-- A key falls into some prefix of the table unless its coin says miss. Churn picks places in the table,
    in the hot slice (which wraps around) unless its coin says otherwise. -/
theorem streams_generated (hne : prefixes ≠ []) (count churnCount : Nat) (seed : BitVec 64)
    (hitRatio hotFraction : ℚ) :
    (∃ traffic, generateTraffic R prefixes count seed hitRatio = some traffic ∧
      traffic.length = count ∧ ∀ i a, traffic[i]? = some a →
        (R.coin (after (key R prefixes hitRatio) i (R.seeded (seed ^^^ 0xA11CE#64)))).1 < hitRatio →
        ∃ p ∈ prefixes, p.contains a = true) ∧
    (generateChurnIndices R prefixes.length churnCount seed hotFraction).length = churnCount ∧
    ∀ i j, (generateChurnIndices R prefixes.length churnCount seed hotFraction)[i]? = some j →
      j < prefixes.length ∧
      ((R.coin (after (churnIndex R prefixes.length (hotSize prefixes.length hotFraction)
          (hotStart R prefixes.length seed).1) i (hotStart R prefixes.length seed).2)).1 < (0.9 : ℚ) →
        ∃ k < hotSize prefixes.length hotFraction,
          j = ((hotStart R prefixes.length seed).1 + k) % 2 ^ 64 % prefixes.length) := by
  refine ⟨?_, churn_generated (List.length_pos_of_ne_nil hne) churnCount seed hotFraction⟩
  obtain ⟨traffic, htraffic, hlength, hdrawn⟩ := traffic_drawn (R := R) hne count seed hitRatio
  refine ⟨traffic, htraffic, hlength, fun i a ha hlt => ?_⟩
  obtain ⟨b, hb, hhit⟩ := key_hits (R := R) hne hitRatio
    (after (key R prefixes hitRatio) i (R.seeded (seed ^^^ 0xA11CE#64)))
  obtain rfl := Option.some.inj ((hdrawn i a ha).symm.trans hb)
  exact hhit hlt

/-- A host, and three networks of which one is in another. -/
def fourPrefixes : List (Prefix .ipv4) := [
  .make (fromV4 0x0A000000#32) 8 (by decide), .make (fromV4 0x0A010000#32) 16 (by decide),
  .make (fromV4 0xAC200000#32) 12 (by decide), .make (fromV4 0xC0000201#32) 32 (by decide)]

/-- The hot slice is the last prefix and the first. -/
theorem streams_generated_counter :
    (∃ traffic, generateTraffic counter fourPrefixes 5 1 0.25 = some traffic ∧
      traffic.length = 5 ∧ ∀ i a, traffic[i]? = some a →
        (counter.coin (after (key counter fourPrefixes 0.25) i
          (counter.seeded (1#64 ^^^ 0xA11CE#64)))).1 < (0.25 : ℚ) →
        ∃ p ∈ fourPrefixes, p.contains a = true) ∧
    (generateChurnIndices counter 4 6 1 0.5).length = 6 ∧
    ∀ i j, (generateChurnIndices counter 4 6 1 0.5)[i]? = some j → j < 4 ∧
      ((counter.coin (after (churnIndex counter 4 2 3) i (hotStart counter 4 1).2)).1 < (0.9 : ℚ) →
        ∃ k < 2, j = (3 + k) % 2 ^ 64 % 4) := by
  have hne : fourPrefixes ≠ [] := List.cons_ne_nil _ _
  have hsize : hotSize fourPrefixes.length 0.5 = 2 := by
    have hhalf : ((fourPrefixes.length : ℕ) : ℚ) * 0.5 = (2 : ℕ) := by norm_num [fourPrefixes]
    rw [hotSize, hhalf, Nat.floor_natCast]
    rfl
  have hstart : (hotStart counter fourPrefixes.length 1).1.val = 3 := rfl
  have hstreams := streams_generated (R := counter) hne 5 6 1 0.25 0.5
  rw [hsize, hstart] at hstreams
  exact hstreams

end Synthetic

end RcuFib

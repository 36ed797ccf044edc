import Mathlib.Data.List.TakeWhile
import RcuFib.Address
import RcuFib.Library.Numeral

/-! IPv4 addresses as text (`src/address.cpp`: `parse_uint`, `parse_v4`, `to_string`).

    A `std::string_view` is the list of its characters, and a position in it is what is left of the
    text there. `Quad` is the grammar: four decimal octets without leading zeros. -/

namespace RcuFib
open Numeral

abbrev Text := List Char

namespace Text

/-- `text.find(c)`: the text before the first `c` and the text after it, unless there is none. -/
def cut (c : Char) : Text → Option (Text × Text)
  | [] => none
  | x :: text => if x = c then some ([], text) else (cut c text).map fun p => (x :: p.1, p.2)

/-- `std::from_chars`: the number at the head of the text and the text left over. -/
def fromChars (base : Nat) (text : Text) : Option (Nat × Text) :=
  let digits := text.takeWhile (isDigit base)
  if digits.isEmpty then none
  else if value base digits ≥ 2 ^ 64 then none
  else some (value base digits, text.dropWhile (isDigit base))

def parseUint (text : Text) (base max : Nat) : Option Nat :=
  if text.isEmpty || decide (text.length > 8) then none
  else
    match fromChars base text with
    | some (value, []) => if value > max then none else some value
    | _ => none

/-- One octet of `parse_v4`, shifted into `value`. -/
def parseOctet (part : Text) (value : BitVec 32) : Option (BitVec 32) :=
  if part.length > 1 ∧ part.head? = some '0' then none
  else (parseUint part 10 255).map fun parsed => (value <<< 8) ||| BitVec.ofNat 32 parsed

/-- The loop of `parse_v4` with `left` octets to come after this one. -/
def parseV4Loop : (left : Nat) → Text → BitVec 32 → Option (BitVec 32)
  | 0, text, value =>
    match cut '.' text with
    | some _ => none
    | none => parseOctet text value
  | left + 1, text, value =>
    match cut '.' text with
    | none => none
    | some (part, rest) => (parseOctet part value).bind (parseV4Loop left rest)

def parseV4 (text : Text) : Option (Address .ipv4) := (parseV4Loop 3 text 0).map Address.fromV4

variable {c : Char} {t u v : Text} {base max n : Nat}

theorem cut_none : cut c t = none ↔ c ∉ t := by
  induction t with
  | nil => simp [cut]
  | cons x t ih =>
    simp only [cut]
    split
    · next h => simp [h]
    · next h => simp [ih, Ne.symm h]

theorem cut_some : cut c t = some (u, v) ↔ t = u ++ c :: v ∧ c ∉ u := by
  induction t generalizing u with
  | nil => simp [cut]
  | cons x t ih =>
    simp only [cut]
    split
    · next h =>
      subst h
      constructor
      · rintro ⟨⟩
        simp
      · rintro ⟨he, hn⟩
        cases u with
        | nil => rw [(List.cons.inj he).2]
        | cons y u =>
          obtain ⟨rfl, -⟩ := List.cons.inj he
          simp at hn
    · next h =>
      rw [Option.map_eq_some_iff]
      constructor
      · rintro ⟨⟨u', v'⟩, hc, he⟩
        cases he
        obtain ⟨rfl, hn⟩ := ih.mp hc
        exact ⟨rfl, by simpa [Ne.symm h] using hn⟩
      · rintro ⟨he, hn⟩
        cases u with
        | nil => exact absurd (List.cons.inj he).1 h
        | cons y u =>
          obtain ⟨rfl, htail⟩ := List.cons.inj he
          exact ⟨(u, v), ih.mpr ⟨htail, fun hm => hn (List.mem_cons_of_mem _ hm)⟩, rfl⟩

theorem parseUint_iff (hb : base ≤ 16) : parseUint t base max = some n ↔
    t ≠ [] ∧ t.length ≤ 8 ∧ (∀ c ∈ t, isDigit base c = true) ∧ value base t = n ∧ n ≤ max := by
  unfold parseUint
  have hsplit := List.takeWhile_append_dropWhile (p := isDigit base) (l := t)
  constructor
  · intro h
    split at h
    · cases h
    · next hlen =>
      simp only [Bool.or_eq_true, List.isEmpty_iff, decide_eq_true_iff, not_or] at hlen
      split at h
      · next v hf =>
        split at h
        · cases h
        · next hmax =>
          cases h
          simp only [fromChars] at hf
          split at hf
          · cases hf
          · split at hf
            · cases hf
            · obtain ⟨rfl, hrest⟩ := Prod.mk.inj (Option.some.inj hf)
              rw [hrest, List.append_nil] at hsplit
              rw [hsplit]
              refine ⟨hlen.1, by omega, ?_, rfl, by rw [hsplit] at hmax; omega⟩
              rw [← hsplit]
              exact fun c hc => List.mem_takeWhile_imp hc
      · cases h
  · rintro ⟨hne, hlen, hdigits, rfl, hmax⟩
    have htake : t.takeWhile (isDigit base) = t := List.takeWhile_eq_self_iff.mpr hdigits
    have hdrop : t.dropWhile (isDigit base) = [] := by
      rw [htake] at hsplit
      simpa using hsplit
    have hlt : value base t < 2 ^ 64 := by
      calc value base t < base ^ t.length := value_lt hdigits
        _ ≤ 16 ^ t.length := Nat.pow_le_pow_left hb _
        _ ≤ 16 ^ 8 := Nat.pow_le_pow_right (by decide) hlen
        _ < 2 ^ 64 := by decide
    have hf : fromChars base t = some (value base t, []) := by
      simp only [fromChars, htake, hdrop]
      rw [if_neg (by simpa using hne), if_neg (by omega)]
    rw [if_neg (by simpa using ⟨hne, hlen⟩), hf]
    exact if_neg (by omega)

/-! ### The grammar -/

/-- A decimal octet without leading zeros. -/
structure Octet (t : Text) (x : BitVec 8) : Prop where
  ne_nil : t ≠ []
  digits : ∀ c ∈ t, isDigit 10 c = true
  no_zero : t.head? = some '0' → t.length ≤ 1
  value : value 10 t = x.toNat

/-- Four octets with dots between them. -/
def Quad (t : Text) (v : BitVec 32) : Prop :=
  ∃ (t₀ t₁ t₂ t₃ : Text) (a b c d : BitVec 8), Octet t₀ a ∧ Octet t₁ b ∧ Octet t₂ c ∧ Octet t₃ d ∧
    t = t₀ ++ '.' :: (t₁ ++ '.' :: (t₂ ++ '.' :: t₃)) ∧ v = a ++ b ++ c ++ d

/-- No more than three digits fit into an octet without a leading zero. -/
theorem Octet.length_le {x : BitVec 8} (h : Octet t x) : t.length ≤ 3 := by
  cases t with
  | nil => simp
  | cons c t =>
    by_contra hlong
    have hc : c ≠ '0' := by
      rintro rfl
      exact hlong (le_trans (h.no_zero rfl) (by omega))
    obtain ⟨d, hd, hpos⟩ := digitValue_pos (h.digits c List.mem_cons_self) hc
    have hlow : 10 ^ t.length ≤ x.toNat := h.value ▸ le_value hd hpos
    have hpow : 10 ^ 3 ≤ 10 ^ t.length :=
      Nat.pow_le_pow_right (by decide) (by simp at hlong; omega)
    have := x.isLt
    omega

theorem parseOctet_iff {value value' : BitVec 32} : parseOctet t value = some value' ↔
    ∃ x : BitVec 8, Octet t x ∧ value' = (value <<< 8) ||| x.setWidth 32 := by
  unfold parseOctet
  constructor
  · intro h
    split at h
    · cases h
    · next hzero =>
      obtain ⟨n, hn, rfl⟩ := Option.map_eq_some_iff.mp h
      obtain ⟨hne, -, hdigits, hvalue, hmax⟩ := (parseUint_iff (by decide)).mp hn
      have hx : (BitVec.ofNat 8 n).toNat = n := by simp; omega
      refine ⟨BitVec.ofNat 8 n, ⟨hne, hdigits, fun hz => ?_, by rw [hx, hvalue]⟩, ?_⟩
      · by_contra hlong
        exact hzero ⟨by omega, hz⟩
      · rw [BitVec.setWidth_ofNat_of_le_of_lt (by omega) (by omega)]
  · rintro ⟨x, hx, rfl⟩
    have hlen := hx.length_le
    rw [if_neg fun hz => by have := hx.no_zero hz.2; omega,
      (parseUint_iff (by decide)).mpr ⟨hx.ne_nil, by omega, hx.digits, hx.value, by omega⟩]
    simp

theorem Octet.not_mem {x : BitVec 8} (h : Octet t x) (hc : isDigit 10 c = false) : c ∉ t := by
  intro hm
  rw [h.digits c hm] at hc
  cases hc

/-- What four octets shifted in one after the other amount to. -/
theorem shift_octets (a b c d : BitVec 8) :
    ((((((0#32 <<< 8 ||| a.setWidth 32) <<< 8) ||| b.setWidth 32) <<< 8) ||| c.setWidth 32) <<< 8) |||
      d.setWidth 32 = a ++ b ++ c ++ d := by
  have h := BitVec.setWidth_eq (a ++ b ++ c ++ d)
  simp only [BitVec.setWidth_append_eq_shiftLeft_setWidth_or] at h
  rw [← h]
  simp

theorem parseV4Loop_iff {v : BitVec 32} : parseV4Loop 3 t 0 = some v ↔ Quad t v := by
  simp only [parseV4Loop]
  constructor
  · intro h
    split at h
    · cases h
    · next t₀ u₀ h₀ =>
      obtain ⟨v₀, hv₀, h⟩ := Option.bind_eq_some_iff.mp h
      split at h
      · cases h
      · next t₁ u₁ h₁ =>
        obtain ⟨v₁, hv₁, h⟩ := Option.bind_eq_some_iff.mp h
        split at h
        · cases h
        · next t₂ u₂ h₂ =>
          obtain ⟨v₂, hv₂, h⟩ := Option.bind_eq_some_iff.mp h
          split at h
          · cases h
          · obtain ⟨a, ha, rfl⟩ := parseOctet_iff.mp hv₀
            obtain ⟨b, hb, rfl⟩ := parseOctet_iff.mp hv₁
            obtain ⟨c, hc, rfl⟩ := parseOctet_iff.mp hv₂
            obtain ⟨d, hd, rfl⟩ := parseOctet_iff.mp h
            obtain ⟨rfl, -⟩ := cut_some.mp h₂
            obtain ⟨rfl, -⟩ := cut_some.mp h₁
            obtain ⟨rfl, -⟩ := cut_some.mp h₀
            exact ⟨t₀, t₁, t₂, u₂, a, b, c, d, ha, hb, hc, hd, rfl, shift_octets a b c d⟩
  · rintro ⟨t₀, t₁, t₂, t₃, a, b, c, d, ha, hb, hc, hd, rfl, rfl⟩
    have hdot : isDigit 10 '.' = false := by decide
    rw [cut_some.mpr ⟨rfl, ha.not_mem hdot⟩]
    dsimp only
    rw [parseOctet_iff.mpr ⟨a, ha, rfl⟩, Option.bind_some, cut_some.mpr ⟨rfl, hb.not_mem hdot⟩]
    dsimp only
    rw [parseOctet_iff.mpr ⟨b, hb, rfl⟩, Option.bind_some, cut_some.mpr ⟨rfl, hc.not_mem hdot⟩]
    dsimp only
    rw [parseOctet_iff.mpr ⟨c, hc, rfl⟩, Option.bind_some, cut_none.mpr (hd.not_mem hdot)]
    dsimp only
    exact parseOctet_iff.mpr ⟨d, hd, (shift_octets a b c d).symm⟩

/-- `parse_v4` accepts exactly four octets with dots between them. -/
theorem parseV4_iff {a : Address .ipv4} : parseV4 t = some a ↔ Quad t a.toV4 := by
  rw [parseV4, Option.map_eq_some_iff]
  constructor
  · rintro ⟨v, hv, rfl⟩
    rw [Address.toV4_fromV4]
    exact parseV4Loop_iff.mp hv
  · intro h
    exact ⟨a.toV4, parseV4Loop_iff.mpr h, a.fromV4_toV4⟩

theorem Quad.dot_mem {v : BitVec 32} (h : Quad t v) : '.' ∈ t := by
  obtain ⟨t₀, t₁, t₂, t₃, a, b, c, d, -, -, -, -, rfl, -⟩ := h
  simp

theorem Quad.not_mem {v : BitVec 32} (h : Quad t v) (hc : isDigit 10 c = false) (hdot : c ≠ '.') :
    c ∉ t := by
  obtain ⟨t₀, t₁, t₂, t₃, a, b, x, d, ha, hb, hx, hd, rfl, -⟩ := h
  simp [ha.not_mem hc, hb.not_mem hc, hx.not_mem hc, hd.not_mem hc, hdot]

/-- An octet is written in one way. -/
theorem Octet.eq_toDigits {x : BitVec 8} (h : Octet t x) : t = Nat.toDigits 10 x.toNat := by
  have hlower : ∀ c ∈ t, c.isUpper = false := by
    intro c hc
    have hle : c.toNat ≤ 57 := (isDigit_ten (h.digits c hc)).1.2
    refine decide_eq_false fun hupper => ?_
    have hge : 65 ≤ c.toNat := hupper.1
    omega
  rw [← h.value, toDigits_value (by decide) (by decide) h.ne_nil h.digits hlower h.no_zero]

theorem append_inj {m k : Nat} {x x' : BitVec m} {y y' : BitVec k} (h : x ++ y = x' ++ y') :
    x = x' ∧ y = y' := by
  constructor
  · rw [← BitVec.extractLsb'_append_eq_left (a := x) (b := y), h, BitVec.extractLsb'_append_eq_left]
  · rw [← BitVec.extractLsb'_append_eq_right (a := x) (b := y), h, BitVec.extractLsb'_append_eq_right]

/-- Four octets are written in one way. -/
theorem Quad.unique {v : BitVec 32} (h : Quad t v) (h' : Quad u v) : t = u := by
  obtain ⟨t₀, t₁, t₂, t₃, a, b, c, d, ha, hb, hc, hd, rfl, rfl⟩ := h
  obtain ⟨u₀, u₁, u₂, u₃, a', b', c', d', ha', hb', hc', hd', rfl, hv⟩ := h'
  obtain ⟨hv, hd₀⟩ := append_inj hv
  obtain ⟨hv, hc₀⟩ := append_inj hv
  obtain ⟨ha₀, hb₀⟩ := append_inj hv
  rw [ha.eq_toDigits, hb.eq_toDigits, hc.eq_toDigits, hd.eq_toDigits, ha₀, hb₀, hc₀, hd₀,
    ← ha'.eq_toDigits, ← hb'.eq_toDigits, ← hc'.eq_toDigits, ← hd'.eq_toDigits]

/-! ### Printing -/

/-- `%u` of one octet of the host-order value. -/
def octetText (v : BitVec 32) (shift : Nat) : Text := Nat.toDigits 10 ((v >>> shift) &&& 0xFF#32).toNat

/-- `basic_address<32>::to_string`. -/
def toStringV4 (a : Address .ipv4) : Text :=
  let v := a.toV4
  octetText v 24 ++ '.' :: (octetText v 16 ++ '.' :: (octetText v 8 ++ '.' :: octetText v 0))

theorem octet_octetText (v : BitVec 32) (shift : Nat) :
    Octet (octetText v shift) ((v >>> shift).setWidth 8) := by
  have hvalue : ((v >>> shift) &&& 0xFF#32).toNat = ((v >>> shift).setWidth 8).toNat := by
    rw [BitVec.toNat_and, BitVec.toNat_setWidth]
    exact Nat.and_two_pow_sub_one_eq_mod _ 8
  refine ⟨Nat.toDigits_ne_nil, isDigit_toDigits (by decide) (by decide) _, fun hz => ?_, ?_⟩
  · rw [octetText, head_toDigits (by decide) (by decide) hz]
    exact le_rfl
  · rw [octetText, value_toDigits (by decide) (by decide), hvalue]

theorem quad_toStringV4 (a : Address .ipv4) : Quad (toStringV4 a) a.toV4 := by
  refine ⟨_, _, _, _, _, _, _, _, octet_octetText a.toV4 24, octet_octetText a.toV4 16,
    octet_octetText a.toV4 8, octet_octetText a.toV4 0, rfl, ?_⟩
  generalize a.toV4 = v
  refine BitVec.eq_of_getLsbD_eq fun i hi => ?_
  simp only [BitVec.getLsbD_append, BitVec.getLsbD_setWidth, BitVec.getLsbD_ushiftRight]
  have hbit : ∀ s j, j < 8 → s + j = i → v.getLsbD i = (decide (j < 8) && v.getLsbD (s + j)) := by
    rintro s j hj rfl
    rw [decide_eq_true hj, Bool.true_and]
  split
  · exact hbit 0 i (by omega) (by omega)
  · split
    · exact hbit 8 (i - 8) (by omega) (by omega)
    · split
      · exact hbit 16 (i - 8 - 8) (by omega) (by omega)
      · exact hbit 24 (i - 8 - 8 - 8) (by omega) (by omega)

/-- A printed IPv4 address is read back. -/
theorem parseV4_toStringV4 (a : Address .ipv4) : parseV4 (toStringV4 a) = some a :=
  parseV4_iff.mpr (quad_toStringV4 a)

/-- `parse` accepts exactly what `to_string` prints. -/
theorem parseV4_canonical {a : Address .ipv4} : parseV4 t = some a ↔ t = toStringV4 a := by
  rw [parseV4_iff]
  constructor
  · intro h
    exact h.unique (quad_toStringV4 a)
  · rintro rfl
    exact quad_toStringV4 a

end Text

end RcuFib

import RcuFib.Prefix
import RcuFib.Text.Format

/-! Addresses and prefixes as text and back (`include/rcufib/address.hpp`, `include/rcufib/prefix.hpp`).

    `to_string` and `parse` of an address are specialised for each width; those of a prefix are written
    once over them. -/

namespace RcuFib
open Numeral Text

/-- The members `basic_address<Bits>` declares and `address.cpp` specialises. -/
class AddressText (w : Width) where
  toString : Address w → Text
  parse : Text → Option (Address w)

instance : AddressText .ipv4 := ⟨toStringV4, parseV4⟩
instance : AddressText .ipv6 := ⟨toStringV6, parseV6⟩

namespace Prefix
variable {w : Width} [AddressText w]

def toString (p : Prefix w) : Text := AddressText.toString p.address ++ ['/'] ++ Nat.toDigits 10 p.length

/-- The loop over `len_text`. -/
def parseLength : Text → Nat → Option Nat
  | [], length => some length
  | c :: text, length =>
    if c < '0' ∨ c > '9' then none else parseLength text (length * 10 + (c.toNat - '0'.toNat))

/-- The length after the slash. -/
def parseLengthText (lenText : Text) : Option Nat :=
  if lenText.isEmpty || decide (lenText.length > 3) then none else parseLength lenText 0

/-- A bare address is a host route. -/
def parse (text : Text) : Option (Prefix w) :=
  match cut '/' text with
  | none => (AddressText.parse text).map fun addr => make addr w.bits le_rfl
  | some (addrText, lenText) =>
    (AddressText.parse addrText).bind fun addr =>
      (parseLengthText lenText).bind fun length =>
        if h : length ≤ w.bits then some (make addr length h) else none

theorem parseLength_digits {t : Text} (ht : ∀ c ∈ t, isDigit 10 c = true) (n : Nat) :
    parseLength t n = some (t.foldl (fun n c => n * 10 + (digitValue c).getD 0) n) := by
  induction t generalizing n with
  | nil => rfl
  | cons c t ih =>
    obtain ⟨⟨hlow, hhigh⟩, hvalue⟩ := isDigit_ten (ht c List.mem_cons_self)
    rw [parseLength, if_neg (by simp [hlow, hhigh]), ih fun x hx => ht x (List.mem_cons_of_mem _ hx)]
    simp [hvalue]

/-- A length below 1000 is read back. -/
theorem parseLengthText_toDigits {n : Nat} (h : n < 1000) : parseLengthText (Nat.toDigits 10 n) = some n := by
  have hlen : (Nat.toDigits 10 n).length ≤ 3 := (Nat.length_toDigits_le_iff (by decide) (by decide)).mpr h
  rw [parseLengthText, if_neg (by simp [Nat.toDigits_ne_nil, hlen]),
    parseLength_digits (isDigit_toDigits (by decide) (by decide) n)]
  exact congrArg some (value_toDigits (by decide) (by decide) n)

/-- A prefix is read back if its address is, and the address is printed without a slash. -/
theorem parse_toString (hparse : ∀ a : Address w, AddressText.parse (AddressText.toString a) = some a)
    (hslash : ∀ a : Address w, '/' ∉ AddressText.toString a) (hbits : w.bits < 1000) (p : Prefix w) :
    parse p.toString = some p := by
  have hle := p.length_le
  have hcut : cut '/' p.toString = some (AddressText.toString p.address, Nat.toDigits 10 p.length) :=
    cut_some.mpr ⟨by simp [toString], hslash _⟩
  rw [parse, hcut]
  dsimp only
  rw [hparse, Option.bind_some, parseLengthText_toDigits (by omega), Option.bind_some, dif_pos hle,
    make_address]

end Prefix

namespace Text

theorem Groups.not_mem {n : Nat} {quad : Text → BitVec 32 → Prop} {gs : List (BitVec 16)} {t : Text} {c : Char}
    (hquad : ∀ t v, quad t v → c ∉ t) (hhex : isDigit 16 c = false) (hc : c ≠ ':')
    (h : Groups n quad gs t) : c ∉ t := by
  induction h with
  | group hg => exact hg.not_mem hhex
  | quad hq => exact hquad _ _ hq
  | colon hg _ ih => simp [hg.not_mem hhex, hc, ih]

theorem Side.not_mem {n : Nat} {quad : Text → BitVec 32 → Prop} {gs : List (BitVec 16)} {t : Text} {c : Char}
    (hquad : ∀ t v, quad t v → c ∉ t) (hhex : isDigit 16 c = false) (hc : c ≠ ':')
    (h : Side n quad gs t) : c ∉ t := by
  rcases h with ⟨-, rfl⟩ | h
  · exact List.not_mem_nil
  · exact h.not_mem hquad hhex hc

/-- There are no slashes in IPv6 text. -/
theorem Denotes.no_slash {s : Text} {a : Address .ipv6} (h : Denotes s a) : '/' ∉ s := by
  have hhex : isDigit 16 '/' = false := by decide
  have hquad : ∀ t v, Quad t v → '/' ∉ t := fun t v hq => hq.not_mem (by decide) (by decide)
  obtain ⟨gs, h, -⟩ := h
  cases h with
  | full hgs _ => exact hgs.not_mem hquad hhex (by decide)
  | compressed hl hr _ =>
    have hnone : ∀ t v, NoQuad t v → '/' ∉ t := fun t v hq => hq.elim
    simp [hl.not_mem hnone hhex (by decide), hr.not_mem hquad hhex (by decide)]

end Text

/-- The text of an address is read back as that address, IPv6 text is in the canonical form, and a
    prefix of either family is read back as that prefix. -/
theorem text_round_trip :
    (∀ a : Address .ipv4, AddressText.parse (AddressText.toString a) = some a) ∧
    (∀ a : Address .ipv6, AddressText.parse (AddressText.toString a) = some a ∧
      ∃ gs, a.HasGroups gs ∧ Rfc5952 gs (AddressText.toString a)) ∧
    (∀ p : Prefix .ipv4, Prefix.parse p.toString = some p) ∧
    (∀ p : Prefix .ipv6, Prefix.parse p.toString = some p) := by
  refine ⟨parseV4_toStringV4, fun a => ⟨parseV6_toStringV6 a, a.groups, a.hasGroups_groups, ?_⟩, ?_, ?_⟩
  · exact rfc5952_print a.hasGroups_groups.length
  · exact Prefix.parse_toString parseV4_toStringV4
      (fun a => (quad_toStringV4 a).not_mem (by decide) (by decide)) (by decide)
  · exact Prefix.parse_toString parseV6_toStringV6 (fun a => (denotes_toStringV6 a).no_slash) (by decide)

end RcuFib

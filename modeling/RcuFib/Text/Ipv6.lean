import RcuFib.Text.Groups
import RcuFib.Text.Ipv4

/-! IPv6 addresses as text (`src/address.cpp`: `parse_v6`).

    The loop of `parse_v6` reads groups into the head, and after a "::" into the tail. `Groups` is the
    grammar of a sequence of groups, with the number of digits of a group and the form of a dotted quad
    left open, so that one definition serves the IPv6 grammar and what the loop accepts. -/

namespace RcuFib
open Numeral

namespace Text

/-- The arrays `groups` and `tail_groups`, each up to its count. -/
structure Scan where
  head : List (BitVec 16)
  tail : List (BitVec 16)
  seenCompression : Bool
  deriving DecidableEq

namespace Scan

/-- The array `target` and `store` point to. -/
def target (s : Scan) : List (BitVec 16) := if s.seenCompression then s.tail else s.head

def store (s : Scan) (gs : List (BitVec 16)) : Scan :=
  if s.seenCompression then { s with tail := s.tail ++ gs } else { s with head := s.head ++ gs }

def compress (s : Scan) : Scan := { s with seenCompression := true }

variable {s : Scan} {gs gs' : List (BitVec 16)}

@[simp] theorem store_nil : s.store [] = s := by
  unfold store
  split <;> simp

@[simp] theorem store_store : (s.store gs).store gs' = s.store (gs ++ gs') := by
  unfold store
  split <;> simp [*]

@[simp] theorem target_store : (s.store gs).target = s.target ++ gs := by
  unfold store target
  split <;> simp [*]

@[simp] theorem seen_store : (s.store gs).seenCompression = s.seenCompression := by
  unfold store
  split <;> rfl

theorem tail_store (h : s.seenCompression = false) : (s.store gs).tail = s.tail := by
  simp [store, h]

theorem tail_store_le (h : s.target.length + gs.length ≤ 8) (htail : s.tail.length ≤ 8) :
    (s.store gs).tail.length ≤ 8 := by
  unfold store target at *
  split <;> simp_all

end Scan

/-- `part`, and what is left after the colon that ends it, if one does. -/
def partAt (text : Text) : Text × Option Text :=
  match cut ':' text with
  | some (part, rest) => (part, some rest)
  | none => (text, none)

/-- The two groups of an embedded IPv4 address. -/
def halves (raw : BitVec 32) : List (BitVec 16) :=
  [(raw >>> 16).setWidth 16, (raw &&& 0xFFFF#32).setWidth 16]

/-- The loop of `parse_v6` at the text from `pos` on. -/
def parseV6Loop : (fuel : Nat) → Text → Scan → Option Scan
  | _, [], s => some s
  | 0, _ :: _, _ => none
  | fuel + 1, c :: text, s =>
    if c = ':' then
      if s.seenCompression then none
      else parseV6Loop fuel text s.compress
    else
      match partAt (c :: text) with
      | (part, colon) =>
        if '.' ∈ part then
          -- a trailing dotted quad: the loop ends here
          (parseV4 part).bind fun embedded =>
            if s.target.length > 6 then none else some (s.store (halves embedded.toV4))
        else
          (parseUint part 16 0xFFFF).bind fun group =>
            if s.target.length ≥ 8 then none
            else
              match colon with
              | none => some (s.store [BitVec.ofNat 16 group])
              | some [] => none
              | some rest => parseV6Loop fuel rest (s.store [BitVec.ofNat 16 group])

/-- The groups before the "::", zeros, the groups after it. -/
def expand (head tail : List (BitVec 16)) : List (BitVec 16) :=
  head ++ List.replicate (8 - (head.length + tail.length)) 0 ++ tail

/-- What `parse_v6` makes of the groups once the loop is through. -/
def assemble (s : Scan) : Option (Address .ipv6) :=
  if ¬s.seenCompression ∧ s.head.length ≠ 8 then none
  else if s.head.length + s.tail.length > 8 then none
  else some (Address.ofGroups (expand s.head s.tail))

/-- `parse_v6` up to the end of its loop. After a leading "::" the groups are a suffix. -/
def scanV6 (text : Text) : Option Scan :=
  match text with
  | ':' :: ':' :: rest => parseV6Loop rest.length rest ⟨[], [], true⟩
  | _ => parseV6Loop text.length text ⟨[], [], false⟩

def parseV6 (text : Text) : Option (Address .ipv6) :=
  if text = [':', ':'] then some (Address.zero .ipv6) else (scanV6 text).bind assemble

/-! ### Sequences of groups -/

/-- A group of up to `n` hexadecimal digits. -/
structure Hextet (n : Nat) (t : Text) (g : BitVec 16) : Prop where
  ne_nil : t ≠ []
  length_le : t.length ≤ n
  digits : ∀ c ∈ t, isDigit 16 c = true
  value : value 16 t = g.toNat

/-- Groups with single colons between them. The last two may be written as `quad` has it. -/
inductive Groups (n : Nat) (quad : Text → BitVec 32 → Prop) : List (BitVec 16) → Text → Prop
  | group {t g} : Hextet n t g → Groups n quad [g] t
  | quad {t hi lo} : quad t (hi ++ lo) → Groups n quad [hi, lo] t
  | colon {t g gs u} : Hextet n t g → Groups n quad gs u → Groups n quad (g :: gs) (t ++ ':' :: u)

/-- One side of a "::": groups, or nothing. -/
def Side (n : Nat) (quad : Text → BitVec 32 → Prop) (gs : List (BitVec 16)) (t : Text) : Prop :=
  (gs = [] ∧ t = []) ∨ Groups n quad gs t

/-- Groups with a colon after each. -/
inductive Led (n : Nat) : List (BitVec 16) → Text → Prop
  | nil : Led n [] []
  | cons {t g gs u} : Hextet n t g → Led n gs u → Led n (g :: gs) (t ++ ':' :: u)

/-- No dotted quad at all. -/
def NoQuad (_ : Text) (_ : BitVec 32) : Prop := False

/-- A dotted quad and, after a colon, anything. -/
def QuadThen (t : Text) (v : BitVec 32) : Prop :=
  ∃ q rest : Text, Quad q v ∧ t = q ++ rest ∧ (rest = [] ∨ ∃ u, rest = ':' :: u)

/-- What the loop reads from state `s` on: groups to the end of the text, or groups up to the second of
    two colons and, if they are the first "::", groups after it. -/
inductive Reads (s : Scan) : Text → Scan → Prop
  | groups {t gs} : Side 8 QuadThen gs t → s.target.length + gs.length ≤ 8 → Reads s t (s.store gs)
  | compression {p u l r} : s.seenCompression = false → Led 8 l p → Side 8 QuadThen r u →
      s.target.length + l.length ≤ 8 → s.tail.length + r.length ≤ 8 →
      Reads s (p ++ ':' :: u) ((s.store l).compress.store r)

/-- What the loop makes of a text from its start. The last form is a text with a single leading
    colon. -/
inductive Scans : Text → Scan → Prop
  | groups {t gs} : Side 8 QuadThen gs t → gs.length ≤ 8 → Scans t ⟨gs, [], false⟩
  | compressed {t u l r} : Side 8 NoQuad l t → Side 8 QuadThen r u → l.length ≤ 8 → r.length ≤ 8 →
      Scans (t ++ ':' :: ':' :: u) ⟨l, r, true⟩
  | stray {u r} : Side 8 QuadThen r u → r.length ≤ 8 → Scans (':' :: u) ⟨[], r, true⟩

variable {n : Nat} {t u part : Text} {g : BitVec 16} {gs l r : List (BitVec 16)} {s s' : Scan}
  {quad quad' : Text → BitVec 32 → Prop} {fuel : Nat}

theorem Hextet.not_mem {c : Char} (h : Hextet n t g) (hc : isDigit 16 c = false) : c ∉ t := by
  intro hm
  rw [h.digits c hm] at hc
  cases hc

theorem Hextet.head (h : Hextet n t g) : ∃ c u, t = c :: u ∧ c ≠ ':' := by
  obtain ⟨c, u, rfl⟩ := List.exists_cons_of_ne_nil h.ne_nil
  refine ⟨c, u, rfl, ?_⟩
  rintro rfl
  exact h.not_mem (by decide) List.mem_cons_self

theorem Quad.head {v : BitVec 32} (h : Quad t v) : ∃ c u, t = c :: u ∧ c ≠ ':' := by
  obtain ⟨c, u, rfl⟩ := List.exists_cons_of_ne_nil (List.ne_nil_of_mem h.dot_mem)
  refine ⟨c, u, rfl, ?_⟩
  rintro rfl
  exact h.not_mem (by decide) (by decide) List.mem_cons_self

theorem QuadThen.head {v : BitVec 32} (h : QuadThen t v) : ∃ c u, t = c :: u ∧ c ≠ ':' := by
  obtain ⟨q, rest, hq, rfl, -⟩ := h
  obtain ⟨c, u, rfl, hc⟩ := hq.head
  exact ⟨c, u ++ rest, rfl, hc⟩

/-- A sequence of groups starts with a character of a group. -/
theorem Groups.head (hquad : ∀ t v, quad t v → ∃ c u, t = c :: u ∧ c ≠ ':') (h : Groups n quad gs t) :
    ∃ c u, t = c :: u ∧ c ≠ ':' := by
  cases h with
  | group hg => exact hg.head
  | quad hq => exact hquad _ _ hq
  | colon hg _ =>
    obtain ⟨c, u, rfl, hc⟩ := hg.head
    exact ⟨c, _, rfl, hc⟩

theorem partAt_iff {colon : Option Text} : partAt t = (part, colon) ↔
    t = part ++ colon.elim [] (':' :: ·) ∧ ':' ∉ part := by
  unfold partAt
  cases hcut : cut ':' t with
  | none =>
    have hno := cut_none.mp hcut
    constructor
    · rintro ⟨⟩
      exact ⟨(List.append_nil t).symm, hno⟩
    · rintro ⟨rfl, -⟩
      cases colon with
      | none => simp
      | some rest => simp at hno
  | some p =>
    obtain ⟨part', rest'⟩ := p
    constructor
    · rintro ⟨⟩
      exact cut_some.mp hcut
    · rintro ⟨rfl, hpart⟩
      cases colon with
      | none => rw [cut_none.mpr (by simpa using hpart)] at hcut; cases hcut
      | some rest =>
        rw [Option.elim_some, cut_some.mpr ⟨rfl, hpart⟩] at hcut
        cases hcut
        rfl

theorem halves_append (hi lo : BitVec 16) : halves (hi ++ lo) = [hi, lo] := by
  have hhi : ((hi ++ lo) >>> 16).setWidth 16 = hi := by
    rw [BitVec.setWidth_ushiftRight_eq_extractLsb, BitVec.extractLsb'_append_eq_left]
  have hlo : ((hi ++ lo) &&& 0xFFFF#32).setWidth 16 = lo := by
    rw [BitVec.setWidth_and, BitVec.setWidth_append_eq_right]
    exact BitVec.and_allOnes
  rw [halves, hhi, hlo]

theorem exists_halves (v : BitVec 32) : ∃ hi lo : BitVec 16, v = hi ++ lo :=
  ⟨v.extractLsb' 16 16, v.extractLsb' 0 16, (@BitVec.extractLsb'_append_extractLsb' 16 16 v).symm⟩

theorem parseUint_hextet {k : Nat} : parseUint t 16 0xFFFF = some k ↔ ∃ g, Hextet 8 t g ∧ k = g.toNat := by
  rw [parseUint_iff (by decide)]
  constructor
  · rintro ⟨hne, hlen, hdigits, rfl, hmax⟩
    have hg : (BitVec.ofNat 16 (value 16 t)).toNat = value 16 t := by
      rw [BitVec.toNat_ofNat]
      omega
    exact ⟨_, ⟨hne, hlen, hdigits, hg.symm⟩, hg.symm⟩
  · rintro ⟨g, hg, rfl⟩
    exact ⟨hg.ne_nil, hg.length_le, hg.digits, hg.value, by omega⟩

section part
variable {colon : Option Text} (h : partAt t = (part, colon))
include h

theorem partAt_unique {p : Text} {o : Option Text} (ht : t = p ++ o.elim [] (':' :: ·)) (hp : ':' ∉ p) :
    p = part ∧ o = colon := by
  have := partAt_iff.mpr ⟨ht, hp⟩
  rw [h] at this
  exact ⟨(Prod.mk.inj this).1.symm, (Prod.mk.inj this).2.symm⟩

theorem quadThen_part {v : BitVec 32} : QuadThen t v ↔ Quad part v := by
  obtain ⟨ht, -⟩ := partAt_iff.mp h
  constructor
  · rintro ⟨q, rest, hq, htq, hrest⟩
    have hno : ':' ∉ q := hq.not_mem (by decide) (by decide)
    rcases hrest with rfl | ⟨u, rfl⟩
    · obtain ⟨rfl, -⟩ := partAt_unique h (o := none) htq hno
      exact hq
    · obtain ⟨rfl, -⟩ := partAt_unique h (o := some u) htq hno
      exact hq
  · intro hq
    refine ⟨part, colon.elim [] (':' :: ·), hq, ht, ?_⟩
    cases colon with
    | none => exact .inl rfl
    | some u => exact .inr ⟨u, rfl⟩

theorem hextet_part : Hextet n t g ↔ colon = none ∧ Hextet n part g := by
  obtain ⟨ht, -⟩ := partAt_iff.mp h
  constructor
  · intro hg
    obtain ⟨rfl, rfl⟩ := partAt_unique h (o := none) (List.append_nil t).symm (hg.not_mem (by decide))
    exact ⟨rfl, hg⟩
  · rintro ⟨rfl, hg⟩
    rw [ht]
    simpa using hg

theorem hextet_colon : (∃ p, Hextet n p g ∧ t = p ++ ':' :: u) ↔ colon = some u ∧ Hextet n part g := by
  obtain ⟨ht, -⟩ := partAt_iff.mp h
  constructor
  · rintro ⟨p, hg, htp⟩
    obtain ⟨rfl, rfl⟩ := partAt_unique h (o := some u) htp (hg.not_mem (by decide))
    exact ⟨rfl, hg⟩
  · rintro ⟨rfl, hg⟩
    exact ⟨part, hg, ht⟩

end part

/-! ### The loop -/

@[simp] theorem loop_nil : parseV6Loop fuel [] s = some s := by
  cases fuel <;> rfl

theorem loop_colon : parseV6Loop (fuel + 1) (':' :: t) s =
    if s.seenCompression then none else parseV6Loop fuel t s.compress := rfl

/-- A pass of the loop over a group: a dotted quad ends the loop, a group ends it with the text or is
    followed by a colon and more text. -/
theorem loop_group (hne : t ≠ []) (hc : t.head? ≠ some ':') :
    parseV6Loop (fuel + 1) t s = some s' ↔
      (∃ hi lo, QuadThen t (hi ++ lo) ∧ s.target.length + 2 ≤ 8 ∧ s' = s.store [hi, lo]) ∨
      (∃ g, s.target.length + 1 ≤ 8 ∧ ((Hextet 8 t g ∧ s' = s.store [g]) ∨
        ∃ u, (∃ p, Hextet 8 p g ∧ t = p ++ ':' :: u) ∧ u ≠ [] ∧
          parseV6Loop fuel u (s.store [g]) = some s')) := by
  obtain ⟨c, text, rfl⟩ := List.exists_cons_of_ne_nil hne
  have hc : c ≠ ':' := by simpa using hc
  obtain ⟨part, colon, hpart⟩ : ∃ part colon, partAt (c :: text) = (part, colon) := ⟨_, _, rfl⟩
  simp only [parseV6Loop, if_neg hc, hpart, quadThen_part hpart, hextet_part hpart, hextet_colon hpart]
  split
  · next hdot =>
    have hno : ∀ g, ¬Hextet 8 part g := fun g hg => hg.not_mem (by decide) hdot
    simp only [hno, and_false, false_and, or_false, exists_false]
    constructor
    · intro h
      obtain ⟨a, ha, h⟩ := Option.bind_eq_some_iff.mp h
      obtain ⟨hi, lo, hv⟩ := exists_halves a.toV4
      rw [parseV4_iff, hv] at ha
      rw [hv, halves_append] at h
      split at h
      · cases h
      · exact ⟨hi, lo, ha, by omega, (Option.some.inj h).symm⟩
    · rintro ⟨hi, lo, hq, hlen, rfl⟩
      have ha : parseV4 part = some (Address.fromV4 (hi ++ lo)) :=
        parseV4_iff.mpr (by rwa [Address.toV4_fromV4])
      rw [ha, Option.bind_some, Address.toV4_fromV4, halves_append, if_neg (by omega)]
  · next hdot =>
    have hno : ∀ v, ¬Quad part v := fun v hq => hdot hq.dot_mem
    simp only [hno, false_and, exists_false, false_or]
    simp only [Option.bind_eq_some_iff, parseUint_hextet]
    constructor
    · rintro ⟨_, ⟨g, hg, rfl⟩, h⟩
      split at h
      · cases h
      · rw [BitVec.ofNat_toNat, BitVec.setWidth_eq] at h
        refine ⟨g, by omega, ?_⟩
        split at h
        · exact .inl ⟨⟨rfl, hg⟩, (Option.some.inj h).symm⟩
        · cases h
        · next u hu => exact .inr ⟨u, ⟨rfl, hg⟩, hu, h⟩
    · rintro ⟨g, hlen, h⟩
      have hg : Hextet 8 part g := by
        rcases h with ⟨⟨-, hg⟩, -⟩ | ⟨u, ⟨-, hg⟩, -, -⟩ <;> exact hg
      refine ⟨g.toNat, ⟨g, hg, rfl⟩, ?_⟩
      rw [if_neg (by omega), BitVec.ofNat_toNat, BitVec.setWidth_eq]
      rcases h with ⟨⟨rfl, -⟩, rfl⟩ | ⟨u, ⟨rfl, -⟩, hu, h⟩
      · rfl
      · obtain ⟨c, u, rfl⟩ := List.exists_cons_of_ne_nil hu
        exact h

theorem side_nil (quad : Text → BitVec 32 → Prop) : Side n quad [] [] := .inl ⟨rfl, rfl⟩

theorem Side.groups (h : Side n quad gs t) (ht : t ≠ []) : Groups n quad gs t :=
  h.resolve_left fun h => ht h.2

theorem reads_nil (htarget : s.target.length ≤ 8) : Reads s [] s' ↔ s' = s := by
  constructor
  · intro h
    generalize ht : ([] : Text) = t at h
    cases h with
    | groups hgs _ =>
      subst ht
      rcases hgs with ⟨rfl, -⟩ | hgs
      · exact Scan.store_nil
      · obtain ⟨c, u, hu, -⟩ := hgs.head fun _ _ => QuadThen.head
        cases hu
    | compression => simp at ht
  · rintro rfl
    have := Reads.groups (s := s') (side_nil QuadThen) (by simpa using htarget)
    simpa using this

theorem reads_colon (htarget : s.target.length ≤ 8) :
    Reads s (':' :: u) s' ↔ s.seenCompression = false ∧ Reads s.compress u s' := by
  constructor
  · intro h
    generalize ht : ':' :: u = t at h
    cases h with
    | groups hgs _ =>
      subst ht
      obtain ⟨c, v, hv, hc⟩ := (hgs.groups (List.cons_ne_nil _ _)).head fun _ _ => QuadThen.head
      exact absurd (List.cons.inj hv).1.symm hc
    | compression hseen hl hr _ hlen =>
      cases hl with
      | nil =>
        obtain rfl := (List.cons.inj ht).2
        rw [Scan.store_nil]
        exact ⟨hseen, .groups hr hlen⟩
      | cons hg _ =>
        obtain ⟨c, v, rfl, hc⟩ := hg.head
        exact absurd (List.cons.inj ht).1.symm hc
  · rintro ⟨hseen, h⟩
    cases h with
    | groups hr hlen =>
      have := Reads.compression hseen .nil hr (by simpa using htarget) hlen
      simpa using this
    | compression hseen' => cases hseen'

/-- The passes of `loop_group`. -/
theorem reads_group (hne : t ≠ []) (hc : t.head? ≠ some ':') : Reads s t s' ↔
      (∃ hi lo, QuadThen t (hi ++ lo) ∧ s.target.length + 2 ≤ 8 ∧ s' = s.store [hi, lo]) ∨
      (∃ g, s.target.length + 1 ≤ 8 ∧ ((Hextet 8 t g ∧ s' = s.store [g]) ∨
        ∃ u, (∃ p, Hextet 8 p g ∧ t = p ++ ':' :: u) ∧ u ≠ [] ∧ Reads (s.store [g]) u s')) := by
  constructor
  · intro h
    cases h with
    | groups hgs hlen =>
      cases hgs.groups hne with
      | group hg => exact .inr ⟨_, hlen, .inl ⟨hg, rfl⟩⟩
      | quad hq => exact .inl ⟨_, _, hq, hlen, rfl⟩
      | @colon p g gs u hg hgs' =>
        obtain ⟨c, v, hv, -⟩ := hgs'.head fun _ _ => QuadThen.head
        simp only [List.length_cons] at hlen
        refine .inr ⟨g, by omega, .inr ⟨u, ⟨p, hg, rfl⟩, by rw [hv]; exact List.cons_ne_nil _ _, ?_⟩⟩
        have := Reads.groups (s := s.store [g]) (.inr hgs') (by simp; omega)
        simpa using this
    | @compression p u l r hseen hl hr hlen hlen' =>
      cases hl with
      | nil => exact absurd rfl hc
      | @cons p g l p' hg hl =>
        simp only [List.length_cons] at hlen
        refine .inr ⟨g, by omega, .inr ⟨p' ++ ':' :: u, ⟨p, hg, by simp⟩, by simp, ?_⟩⟩
        have := Reads.compression (s := s.store [g]) (by simpa using hseen) hl hr (by simp; omega)
          (by rwa [Scan.tail_store hseen])
        simpa using this
  · rintro (⟨hi, lo, hq, hlen, rfl⟩ | ⟨g, hlen, ⟨hg, rfl⟩ | ⟨u, ⟨p, hg, rfl⟩, hu, h⟩⟩)
    · exact .groups (.inr (.quad hq)) hlen
    · exact .groups (.inr (.group hg)) hlen
    · cases h with
      | groups hgs hlen' =>
        have := Reads.groups (s := s) (.inr (.colon hg (hgs.groups hu))) (by simp at hlen' ⊢; omega)
        simpa using this
      | compression hseen hl hr hlen₁ hlen₂ =>
        have hseen : s.seenCompression = false := by simpa using hseen
        rw [Scan.tail_store hseen] at hlen₂
        have := Reads.compression hseen (.cons hg hl) hr (by simp at hlen₁ ⊢; omega) hlen₂
        simpa using this

theorem loop_iff (hfuel : t.length ≤ fuel) (htarget : s.target.length ≤ 8) (htail : s.tail.length ≤ 8) :
    parseV6Loop fuel t s = some s' ↔ Reads s t s' := by
  induction fuel generalizing t s with
  | zero =>
    obtain rfl := List.length_eq_zero_iff.mp (Nat.le_zero.mp hfuel)
    rw [loop_nil, reads_nil htarget, Option.some.injEq, eq_comm]
  | succ fuel ih =>
    rcases eq_or_ne t [] with rfl | hne
    · rw [loop_nil, reads_nil htarget, Option.some.injEq, eq_comm]
    · rcases eq_or_ne t.head? (some ':') with hc | hc
      · obtain ⟨u, rfl⟩ : ∃ u, t = ':' :: u := List.head?_eq_some_iff.mp hc
        rw [loop_colon, reads_colon htarget]
        split
        · next hseen => simp [hseen]
        · next hseen =>
          rw [ih (s := s.compress) (by simpa using hfuel) htail htail]
          simp [hseen]
      · rw [loop_group hne hc, reads_group hne hc]
        refine or_congr Iff.rfl (exists_congr fun g => and_congr_right fun hlen =>
          or_congr Iff.rfl (exists_congr fun u => and_congr_right fun hu => and_congr_right fun _ => ?_))
        obtain ⟨p, -, rfl⟩ := hu
        exact ih (by simp at hfuel; omega) (by simpa using hlen) (Scan.tail_store_le hlen htail)

/-! ### The whole text -/

theorem Led.cases (h : Led n l t) : (l = [] ∧ t = []) ∨ ∃ u, t = u ++ [':'] ∧ Groups n NoQuad l u := by
  induction h with
  | nil => exact .inl ⟨rfl, rfl⟩
  | @cons p g l u hg _ ih =>
    right
    rcases ih with ⟨rfl, rfl⟩ | ⟨v, rfl, hl⟩
    · exact ⟨p, rfl, .group hg⟩
    · exact ⟨p ++ ':' :: v, by simp, .colon hg hl⟩

theorem Groups.led (h : Groups n NoQuad l t) : Led n l (t ++ [':']) := by
  induction h with
  | group hg => exact .cons hg .nil
  | quad hq => exact hq.elim
  | @colon p g l u hg _ ih =>
    rw [List.append_assoc, List.cons_append]
    exact .cons hg ih

theorem Groups.ne_colon (h : Groups n QuadThen gs t) : t ≠ ':' :: u := by
  rintro rfl
  obtain ⟨c, v, hv, hc⟩ := h.head fun _ _ => QuadThen.head
  exact hc (List.cons.inj hv).1.symm

theorem Side.ne_colon (h : Side n QuadThen gs t) : t ≠ ':' :: u := by
  rcases h with ⟨-, rfl⟩ | h
  · exact (List.cons_ne_nil _ _).symm
  · exact h.ne_colon

theorem Groups.mono {m : Nat} (hquad : ∀ t v, quad t v → quad' t v) (hle : n ≤ m)
    (h : Groups n quad gs t) : Groups m quad' gs t := by
  induction h with
  | group hg => exact .group ⟨hg.ne_nil, hg.length_le.trans hle, hg.digits, hg.value⟩
  | quad hq => exact .quad (hquad _ _ hq)
  | colon hg _ ih => exact .colon ⟨hg.ne_nil, hg.length_le.trans hle, hg.digits, hg.value⟩ ih

theorem loop_start {seen : Bool} :
    parseV6Loop t.length t ⟨[], [], seen⟩ = some s ↔ Reads ⟨[], [], seen⟩ t s :=
  loop_iff le_rfl (by cases seen <;> exact Nat.zero_le 8) (Nat.zero_le 8)

theorem scanV6_colons : scanV6 (':' :: ':' :: u) = some s ↔ Reads ⟨[], [], true⟩ u s := loop_start

theorem scanV6_other (h : ∀ u, t ≠ ':' :: ':' :: u) :
    scanV6 t = some s ↔ Reads ⟨[], [], false⟩ t s := by
  rw [← loop_start]
  unfold scanV6
  split
  · next u => exact absurd rfl (h u)
  · rfl

theorem scanV6_iff : scanV6 t = some s ↔ Scans t s := by
  constructor
  · intro h
    by_cases hcolons : ∃ u, t = ':' :: ':' :: u
    · obtain ⟨u, rfl⟩ := hcolons
      rw [scanV6_colons] at h
      cases h with
      | groups hr hlen => exact .compressed (side_nil _) hr (Nat.zero_le 8) (by simpa [Scan.target] using hlen)
      | compression hseen => cases hseen
    · rw [scanV6_other (by simpa using hcolons)] at h
      cases h with
      | groups hgs hlen => exact .groups hgs (by simpa [Scan.target] using hlen)
      | @compression p u l r _ hl hr hlen hlen' =>
        have hlen : l.length ≤ 8 := by simpa [Scan.target] using hlen
        have hlen' : r.length ≤ 8 := by simpa using hlen'
        rcases hl.cases with ⟨rfl, rfl⟩ | ⟨p, rfl, hgs⟩
        · exact .stray hr hlen'
        · rw [List.append_assoc]
          exact .compressed (l := l) (.inr hgs) hr hlen hlen'
  · intro h
    cases h with
    | groups hgs hlen =>
      rw [scanV6_other fun u => hgs.ne_colon]
      exact .groups (s := ⟨[], [], false⟩) hgs (by simpa [Scan.target] using hlen)
    | @compressed p u l r hl hr hlen hlen' =>
      rcases hl with ⟨rfl, rfl⟩ | hl
      · rw [List.nil_append, scanV6_colons]
        exact .groups (s := ⟨[], [], true⟩) hr (by simpa [Scan.target] using hlen')
      · obtain ⟨c, v, hv, hc⟩ := hl.head fun _ _ hq => hq.elim
        rw [scanV6_other (by simp [hv, hc])]
        have := Reads.compression (s := ⟨[], [], false⟩) rfl hl.led hr
          (by simpa [Scan.target] using hlen) (by simpa using hlen')
        simpa [Scan.store, Scan.compress] using this
    | stray hr hlen =>
      rw [scanV6_other (by simpa using fun u => hr.ne_colon)]
      have := Reads.compression (s := ⟨[], [], false⟩) rfl .nil hr (Nat.zero_le 8) (by simpa using hlen)
      simpa [Scan.store, Scan.compress] using this

end Text

end RcuFib

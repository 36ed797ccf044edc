import RcuFib.Trie.Lookup

/-! Lookups in a trie that nobody is changing: they end, and return what the table says. -/

namespace RcuFib
open SearchGraph Routine

namespace RadixTrie
variable {w : Width} {V : Type*} {t t' : RadixTrie w V} {priv : List Nat} {a : Address w}
  {p q : Prefix w} {s : Slot Nat}

/-- `r` is the value of the longest prefix of `a` in the table, null if there is none. -/
def LongestMatch (M : Table w V) (a : Address w) : Option (Box V) → Prop
  | none => ∀ p : Prefix w, p.contains a → M p = none
  | some b => ∃ q : Prefix w, M q = some b ∧ q.contains a ∧
      ∀ p : Prefix w, p.contains a → M p ≠ none → p.length ≤ q.length

def lookupMeasure (t : RadixTrie w V) : LookupPc V → Nat
  | .root => 2 * w.bits + 3
  | .value c _ => 2 * (w.bits - (t.nodes c).keyLength) + 2
  | .child c _ => 2 * (w.bits - (t.nodes c).keyLength) + 1

/-- The lookup has passed no prefix of `a` without taking note. -/
def LookupInv (t₀ : RadixTrie w V) (a : Address w) (t : RadixTrie w V) (pc : LookupPc V) : Prop :=
  t = t₀ ∧ Sighted t.Stored t.Linked t a pc ∧
    ∀ (p : Prefix w) b, p.contains a → t.Stored p b → Toward t.Stored t a p.length p pc

theorem longestMatch_of_reaches (h : t.Inv priv) {r : Option (Box V)} (hg : Genuine t.Stored a r)
    (hr : ∀ (p : Prefix w) b, p.contains a → t.Stored p b → Reaches t.Stored a p.length r) :
    LongestMatch t.table a r := by
  cases r with
  | none =>
    intro p hp
    cases hb : t.table p with
    | none => rfl
    | some b =>
      obtain ⟨_, hc, -⟩ := hr p b hp (h.table_eq_some.mp hb)
      cases hc
  | some b =>
    obtain ⟨q, hq, hqa⟩ := hg b rfl
    refine ⟨q, h.table_eq_some.mpr hq, hqa, fun p hp hne => ?_⟩
    obtain ⟨c, hc⟩ := Option.ne_none_iff_exists'.mp hne
    obtain ⟨_, ⟨rfl⟩, q', hq', -, hle⟩ := hr p c hp (h.table_eq_some.mp hc)
    -- one box hangs off one node, so it belongs to one prefix
    obtain ⟨n, -, hnq, hnb⟩ := hq
    obtain ⟨m, -, hmq, hmb⟩ := hq'
    obtain rfl := h.box_unique n m _ _ hnb hmb rfl
    rwa [← hnq, hmq]

theorem lookup_measure (h : t.Inv priv) {pc : LookupPc V} :
    (lookupStep a t pc).Sat (fun t' pc' => lookupMeasure t' pc' < lookupMeasure t pc)
      (fun _ _ => True) := by
  cases pc with
  | root =>
    cases hr : t.root with
    | none => simp only [lookupStep, lookupLoop, hr]; trivial
    | some c =>
      simp only [lookupStep, lookupLoop, hr, Outcome.sat_next, lookupMeasure]
      omega
  | value c best =>
    simp only [lookupStep]
    split
    · trivial
    · split
      · trivial
      · simp only [Outcome.sat_next, lookupMeasure]; omega
  | child c best =>
    simp only [lookupStep]
    cases he : (t.nodes c).child (a.bit (t.nodes c).keyLength) with
    | none => trivial
    | some e =>
      have hlt := h.visible_linked.lt_child he
      have hle : (t.nodes e).keyLength ≤ w.bits := (t.nodes e).pfx.length_le
      simp only [lookupLoop, Outcome.sat_next, lookupMeasure]
      omega

/-- One load of a lookup in a trie that does not change. -/
theorem lookup_step {t₀ : RadixTrie w V} (h : t₀.Inv priv) {pc : LookupPc V}
    (hpc : LookupInv t₀ a t pc) :
    (lookupStep a t pc).Sat
      (fun t' pc' => LookupInv t₀ a t' pc' ∧ lookupMeasure t' pc' < lookupMeasure t pc)
      (fun t' r => t' = t₀ ∧ LongestMatch t₀.table a r) := by
  obtain ⟨rfl, hs, ht⟩ := hpc
  have hsight := sighted_step h.visible_linked (fun _ _ hq => hq) hs
  have hmeas : (lookupStep a t pc).Sat _ _ := lookup_measure h
  have htow := fun (p : Prefix w) b (hp : p.contains a) (hb : t.Stored p b) =>
    toward_step h.visible_linked (fun _ _ hq => hq) hp le_rfl hb hs (ht p b hp hb)
  have hsame := lookup_trie (a := a) (t := t) pc
  cases ho : lookupStep a t pc with
  | next t' pc' =>
    rw [ho] at hsight hmeas hsame
    obtain rfl := hsame
    refine ⟨⟨rfl, hsight, fun p b hp hb => ?_⟩, hmeas⟩
    have := htow p b hp hb
    rwa [ho] at this
  | call t' e => exact e.elim
  | done t' r =>
    rw [ho] at hsight hsame
    obtain rfl := hsame
    refine ⟨rfl, longestMatch_of_reaches h hsight fun p b hp hb => ?_⟩
    have := htow p b hp hb
    rwa [ho] at this

theorem lookupInv_root : LookupInv t a t .root := ⟨rfl, trivial, fun _ _ _ _ => trivial⟩

/-- Alone, a lookup returns the longest match. -/
theorem run_lookup (h : t.Inv priv) (a : Address w) :
    ∃ t' es r, (t' = t ∧ LongestMatch t.table a r) ∧
      ∀ fuel > 2 * w.bits + 3, run (lookupStep a) fuel t .root = some (t', es, r) :=
  run_of_measure (fun _ _ => lookup_step h) (i := .root) lookupInv_root

/-! ### `find_exact` -/

def FindInv (t₀ : RadixTrie w V) (p : Prefix w) (t : RadixTrie w V) : FindPc → Prop
  | .root => t = t₀
  | .node c => t = t₀ ∧ ∃ s, t.At s p ∧ t.loadSlot s = some c

def findMeasure (t : RadixTrie w V) : FindPc → Nat
  | .root => w.bits + 2
  | .node c => w.bits + 1 - (t.nodes c).keyLength

/-- The loop condition after the load of slot `s`. -/
theorem findLoop_sat (h : t.Inv priv) (ha : t.At s p) {μ : Nat}
    (hμ : ∀ c, t.loadSlot s = some c → w.bits + 1 - (t.nodes c).keyLength < μ) :
    (findLoop t (t.loadSlot s)).Sat (fun t' pc => FindInv t p t' pc ∧ findMeasure t' pc < μ)
      (fun t' r => t' = t ∧ r = t.table p) := by
  cases hl : t.loadSlot s with
  | none =>
    refine ⟨rfl, (table_eq_none_of_slot h ha fun m hm => ?_).symm⟩
    rw [hl] at hm; exact absurd hm Graph.not_reach_none
  | some c => exact ⟨⟨rfl, s, ha, hl⟩, hμ c hl⟩

theorem find_step (h : t.Inv priv) {pc : FindPc} (hf : FindInv t p t pc) :
    (findExactStep p t pc).Sat
      (fun t' pc' => FindInv t p t' pc' ∧ findMeasure t' pc' < findMeasure t pc)
      (fun t' r => t' = t ∧ r = t.table p) := by
  cases pc with
  | root =>
    exact findLoop_sat (s := .root) h ⟨trivial, List.nil_prefix⟩ fun c _ => by
      simp only [findMeasure]; omega
  | node c =>
    obtain ⟨-, s, ha, hl⟩ := hf
    simp only [findExactStep]
    split
    · next hlt =>
      refine ⟨rfl, (ha.table_eq_none h hl fun hpre => ?_).symm⟩
      have hle := hpre.length_le
      rw [Prefix.length_bits, Prefix.length_bits] at hle
      exact absurd hle (Nat.not_le.mpr hlt)
    · next hle =>
      have hle : (t.nodes c).pfx.length ≤ p.length := Nat.not_lt.mp hle
      have hiff : (t.nodes c).key.matchesTo p.address (t.nodes c).keyLength = true ↔
          (t.nodes c).pfx.bits <+: p.bits := Prefix.matchesTo_address_iff hle
      split
      · next hm =>
        refine ⟨rfl, (ha.table_eq_none h hl fun hpre => ?_).symm⟩
        rw [hiff.mpr hpre] at hm; cases hm
      · next hm =>
        rw [Bool.not_eq_true, Bool.not_eq_false', hiff] at hm
        split
        · next heq =>
          have hp : (t.nodes c).pfx = p :=
            Prefix.bits_injective (hm.eq_of_length (by simpa [Node.keyLength] using heq))
          exact ⟨rfl, by rw [← hp, h.table_at (ha.linked hl)]⟩
        · next hne =>
          have hlt : (t.nodes c).pfx.length < p.length := lt_of_le_of_ne hle hne
          refine findLoop_sat (s := .child c _) h ⟨ha.linked hl, prefix_snoc hm hlt⟩ fun e he => ?_
          have hce := h.visible_linked.lt_child he
          have hle : (t.nodes e).keyLength ≤ w.bits := (t.nodes e).pfx.length_le
          simp only [findMeasure]
          omega

theorem run_findExact (h : t.Inv priv) (p : Prefix w) :
    ∃ t' es r, (t' = t ∧ r = t.table p) ∧
      ∀ fuel > w.bits + 2, run (findExactStep p) fuel t .root = some (t', es, r) := by
  have hstep : ∀ t' pc, FindInv t p t' pc → (findExactStep p t' pc).Sat
      (fun t'' pc' => FindInv t p t'' pc' ∧ findMeasure t'' pc' < findMeasure t' pc)
      (fun t'' r => t'' = t ∧ r = t.table p) := by
    intro t' pc hf
    obtain rfl : t' = t := by cases pc; exacts [hf, hf.1]
    exact find_step h hf
  exact run_of_measure hstep (i := .root) rfl

end RadixTrie

end RcuFib

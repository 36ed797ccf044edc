import RcuFib.Trie.InsertSteps
import RcuFib.Trie.Erase
import RcuFib.Trie.Clear
import RcuFib.Trie.Alone
import Mathlib.Data.List.AList

/-! A `radix_trie` used by one thread: any sequence of `insert`, `erase` and `clear`, from empty.

    The abstract side is the `std::map` the tests compare with: an association list without repeated
    keys, and the linear scan for the longest prefix that contains an address. -/

namespace RcuFib
open SearchGraph Routine

namespace RadixTrie
variable {w : Width} {V : Type*}

inductive Op (w : Width) (V : Type*) where
  | insert (p : Prefix w) (value : V)
  | erase (p : Prefix w)
  | clear

/-- Runs one operation alone; `clear` returns nothing. -/
def Op.run (fuel : Nat) (t : RadixTrie w V) : Op w V → Option (RadixTrie w V × Option Bool)
  | insert p value => (Routine.run (insertStep p) fuel t (.box value)).map fun x => (x.1, some x.2.2)
  | erase p => (Routine.run (eraseStep p) fuel t (.load .root none)).map fun x => (x.1, some x.2.2)
  | clear => (Routine.run clearStep fuel t .exchangeRoot).map fun x => (x.1, none)

/-- Runs operations one after the other. -/
def exec (fuel : Nat) (t : RadixTrie w V) : List (Op w V) → Option (RadixTrie w V)
  | [] => some t
  | op :: ops => (op.run fuel t).bind fun x => exec fuel x.1 ops

def lookup (fuel : Nat) (t : RadixTrie w V) (a : Address w) : Option (Option (Box V)) :=
  (Routine.run (lookupStep a) fuel t .root).map fun x => x.2.2

def findExact (fuel : Nat) (t : RadixTrie w V) (p : Prefix w) : Option (Option (Box V)) :=
  (Routine.run (findExactStep p) fuel t .root).map fun x => x.2.2

/-! ### The map it stands for -/

/-- `std::map<prefix, value>`. -/
abbrev Reference (w : Width) (V : Type*) := AList fun _ : Prefix w => V

def Op.apply (M : Reference w V) : Op w V → Reference w V
  | insert p value => M.insert p value
  | erase p => M.erase p
  | clear => ∅

/-- What the operation reports about the map it finds. -/
def Op.result (M : Reference w V) : Op w V → Option Bool
  | insert p _ => some (M.lookup p).isNone
  | erase p => some (M.lookup p).isSome
  | clear => none

def reference (ops : List (Op w V)) : Reference w V := ops.foldl (fun M op => op.apply M) ∅

/-- One round of the scan: `best_length`, which starts at -1, and `best`. -/
def scanStep (a : Address w) (best : Int × Option V) (entry : Sigma fun _ : Prefix w => V) :
    Int × Option V :=
  if entry.1.contains a ∧ (entry.1.length : Int) > best.1 then (entry.1.length, some entry.2)
  else best

def referenceLookup (entries : List (Sigma fun _ : Prefix w => V)) (a : Address w) : Option V :=
  (entries.foldl (scanStep a) (-1, none)).2

variable {t t' : RadixTrie w V} {M : Reference w V} {T : Table w V} {a : Address w} {p : Prefix w}

/-- The trie holds the map: its table has the map's values, and its counters are exact. -/
def Represents (t : RadixTrie w V) (M : Reference w V) : Prop :=
  ∃ T : Table w V, t.Rep [] T 0 0 ∧ ∀ p, (T p).map Box.content = M.lookup p

/-- What the scan has found after the entries `seen`. -/
structure Scanned (a : Address w) (seen : List (Sigma fun _ : Prefix w => V))
    (best : Int × Option V) : Prop where
  longest : ∀ e ∈ seen, e.1.contains a → (e.1.length : Int) ≤ best.1
  found : ∀ v, best.2 = some v → ∃ q : Prefix w, ⟨q, v⟩ ∈ seen ∧ q.contains a ∧ (q.length : Int) = best.1
  none : best.2 = none → best.1 = -1

theorem scan_step {seen : List (Sigma fun _ : Prefix w => V)} {best : Int × Option V}
    (h : Scanned a seen best) (e : Sigma fun _ : Prefix w => V) :
    Scanned a (seen ++ [e]) (scanStep a best e) := by
  unfold scanStep
  split
  · next hc =>
    refine ⟨fun e' he' hc' => ?_, fun v hv => ?_, nofun⟩
    · rcases List.mem_append.mp he' with he' | he'
      · exact (h.longest e' he' hc').trans hc.2.le
      · rw [List.mem_singleton.mp he']
    · obtain rfl := Option.some.inj hv
      exact ⟨e.1, by simp, hc.1, rfl⟩
  · next hc =>
    refine ⟨fun e' he' hc' => ?_, fun v hv => ?_, h.none⟩
    · rcases List.mem_append.mp he' with he' | he'
      · exact h.longest e' he' hc'
      · obtain rfl := List.mem_singleton.mp he'
        exact not_lt.mp fun hlt => hc ⟨hc', hlt⟩
    · obtain ⟨q, hq, hqa⟩ := h.found v hv
      exact ⟨q, List.mem_append_left _ hq, hqa⟩

theorem scan_fold (entries : List (Sigma fun _ : Prefix w => V)) :
    ∀ {seen : List (Sigma fun _ : Prefix w => V)} {best : Int × Option V}, Scanned a seen best →
      Scanned a (seen ++ entries) (entries.foldl (scanStep a) best) := by
  induction entries with
  | nil => intro seen best h; simpa using h
  | cons e entries ih => intro seen best h; simpa using ih (scan_step h e)

/-- The scan of any enumeration of the map finds what the longest match carries. -/
theorem referenceLookup_eq {entries : List (Sigma fun _ : Prefix w => V)}
    (hperm : entries.Perm M.entries) (hT : ∀ p, (T p).map Box.content = M.lookup p)
    {r : Option (Box V)} (hr : LongestMatch T a r) :
    referenceLookup entries a = r.map Box.content := by
  have hscan : Scanned a entries (entries.foldl (scanStep a) (-1, none)) := by
    have hnil : Scanned a [] ((-1 : Int), (none : Option V)) := ⟨nofun, nofun, fun _ => rfl⟩
    simpa using scan_fold entries hnil
  have hmem : ∀ (q : Prefix w) (v : V), ⟨q, v⟩ ∈ entries ↔ M.lookup q = some v := fun q v => by
    rw [hperm.mem_iff, ← Option.mem_def, AList.mem_lookup_iff]
  cases r with
  | none =>
    cases hv : referenceLookup entries a with
    | none => rfl
    | some v =>
      obtain ⟨q, hq, hqa, -⟩ := hscan.found v hv
      rw [hmem, ← hT, hr q hqa] at hq
      cases hq
  | some b =>
    obtain ⟨q, hq, hqa, hmax⟩ := hr
    have hqm : ⟨q, b.content⟩ ∈ entries := by rw [hmem, ← hT, hq]; rfl
    have hlen := hscan.longest _ hqm hqa
    cases hv : referenceLookup entries a with
    | none => rw [hscan.none hv] at hlen; simp at hlen; omega
    | some v =>
      obtain ⟨q', hq', hqa', hlen'⟩ := hscan.found v hv
      have hne : T q' ≠ none := fun hn => by
        rw [hmem, ← hT, hn] at hq'; cases hq'
      have hqq : q' = q := by
        refine Prefix.eq_of_contains (Prefix.contains_iff.mp hqa') (Prefix.contains_iff.mp hqa) ?_
        have := hmax q' hqa' hne
        simp only at hlen
        omega
      rw [hqq, hmem, ← hT, hq] at hq'
      exact hq'.symm

/-! ### One operation -/

theorem represents_empty : (empty : RadixTrie w V).Represents ∅ :=
  ⟨_, rep_of_root_none inv_empty rfl, fun p => by simp⟩

theorem lookup_update {b : Option (Box V)} (hT : ∀ p, (T p).map Box.content = M.lookup p)
    {N : Reference w V} (hp : N.lookup p = b.map Box.content)
    (hne : ∀ q, q ≠ p → N.lookup q = M.lookup q) (q : Prefix w) :
    (Function.update T p b q).map Box.content = N.lookup q := by
  by_cases hq : q = p
  · rw [hq, Function.update_self, hp]
  · rw [Function.update_of_ne hq, hT, hne q hq]

theorem isSome_table (hT : ∀ p, (T p).map Box.content = M.lookup p) (p : Prefix w) :
    (T p).isSome = (M.lookup p).isSome := by rw [← hT, Option.isSome_map]

theorem insert_spec (h : t.Represents M) (p : Prefix w) (v : V) :
    ∃ t' : RadixTrie w V, t'.Represents (M.insert p v) ∧
      ∀ fuel > w.bits + 14, (Op.insert p v).run fuel t = some (t', some (M.lookup p).isNone) := by
  obtain ⟨T, hrep, hT⟩ := h
  obtain ⟨t', es, r, ⟨⟨b, hb, hrep'⟩, hr⟩, hrun⟩ :=
    run_of_measure (fun _ _ => insert_total) (InsertInv.start hrep p v)
  refine ⟨t', ⟨Function.update T p (some b), hrep',
    lookup_update hT (by simp [hb]) fun q hq => AList.lookup_insert_ne hq⟩, fun fuel hf => ?_⟩
  rw [Op.run, hrun fuel hf, hr, ← hT, Option.isNone_map]
  rfl

theorem erase_spec (h : t.Represents M) (p : Prefix w) :
    ∃ t' : RadixTrie w V, t'.Represents (M.erase p) ∧ ((M.lookup p).isSome = false → t' = t) ∧
      ∀ fuel > w.bits + 16, (Op.erase p).run fuel t = some (t', some (M.lookup p).isSome) := by
  obtain ⟨T, hrep, hT⟩ := h
  obtain ⟨t', es, r, ⟨hrep', hr, hsame⟩, hrun⟩ :=
    run_of_measure (fun _ _ => erase_total) (EraseInv.start hrep p)
  refine ⟨t', ⟨Function.update T p none, hrep',
    lookup_update hT (by simp) fun q hq => AList.lookup_erase_ne hq⟩, fun hn => hsame ?_,
    fun fuel hf => ?_⟩
  · rw [hr, isSome_table hT, hn]
  · have hμ : eraseMeasure t (.load .root none) = w.bits + 16 := by
      simp only [eraseMeasure, Graph.span, List.length_nil]; omega
    rw [Op.run, hrun fuel (hμ ▸ hf), hr, ← isSome_table hT]
    rfl

theorem clear_spec (h : t.Represents M) :
    ∃ (t' : RadixTrie w V) (fuel₀ : Nat), t'.Represents ∅ ∧
      ∀ fuel > fuel₀, (Op.clear : Op w V).run fuel t = some (t', none) := by
  obtain ⟨T, hrep, -⟩ := h
  obtain ⟨t', es, r, hrep', hrun⟩ :=
    run_of_measure (fun _ _ => clear_step (M := T)) (i := .exchangeRoot) hrep
  exact ⟨t', _, ⟨_, hrep', fun p => by simp⟩, fun fuel hf => by rw [Op.run, hrun fuel hf]; rfl⟩

/-- Every operation ends, reports what the map says, and follows the map's update. -/
theorem op_spec (h : t.Represents M) (op : Op w V) :
    ∃ (t' : RadixTrie w V) (fuel₀ : Nat), t'.Represents (op.apply M) ∧
      ∀ fuel > fuel₀, op.run fuel t = some (t', op.result M) := by
  cases op with
  | insert p v =>
    obtain ⟨t', ht', hrun⟩ := insert_spec h p v
    exact ⟨t', _, ht', hrun⟩
  | erase p =>
    obtain ⟨t', ht', -, hrun⟩ := erase_spec h p
    exact ⟨t', _, ht', hrun⟩
  | clear => exact clear_spec h

/-! ### Whole histories -/

/-- What every operation keeps, whole histories keep. -/
theorem exec_of_op {P : RadixTrie w V → Reference w V → Prop}
    (hop : ∀ t M (op : Op w V), P t M → ∃ (t' : RadixTrie w V) (fuel₀ : Nat), P t' (op.apply M) ∧
      ∀ fuel > fuel₀, op.run fuel t = some (t', op.result M)) (ops : List (Op w V)) :
    ∀ {t : RadixTrie w V} {M : Reference w V}, P t M → ∃ (t' : RadixTrie w V) (fuel₀ : Nat),
      P t' (ops.foldl (fun M op => op.apply M) M) ∧ ∀ fuel > fuel₀, exec fuel t ops = some t' := by
  induction ops with
  | nil => intro t M h; exact ⟨t, 0, h, fun _ _ => rfl⟩
  | cons op ops ih =>
    intro t M h
    obtain ⟨t₁, f₁, h₁, hrun₁⟩ := hop t M op h
    obtain ⟨t₂, f₂, h₂, hrun₂⟩ := ih h₁
    refine ⟨t₂, max f₁ f₂, h₂, fun fuel hf => ?_⟩
    obtain ⟨hf₁, hf₂⟩ := max_lt_iff.mp hf
    rw [exec, hrun₁ fuel hf₁, Option.bind_some, hrun₂ fuel hf₂]

theorem exec_reference (ops : List (Op w V)) : ∃ (t : RadixTrie w V) (fuel₀ : Nat),
    t.Represents (reference ops) ∧ ∀ fuel > fuel₀, exec fuel .empty ops = some t :=
  exec_of_op (P := Represents) (fun _ _ op h => op_spec h op) ops represents_empty

theorem lookup_spec (h : t.Represents M) (a : Address w) : ∃ T r,
    LongestMatch T a r ∧ (∀ p, (T p).map Box.content = M.lookup p) ∧
      ∀ fuel > 2 * w.bits + 3, lookup fuel t a = some r := by
  obtain ⟨T, hrep, hT⟩ := h
  obtain ⟨_, _, r, ⟨rfl, hr⟩, hrun⟩ := run_lookup hrep.inv a
  exact ⟨T, r, hrep.table_eq ▸ hr, hT, fun fuel hf => by rw [lookup, hrun fuel hf]; rfl⟩

theorem findExact_spec (h : t.Represents M) (p : Prefix w) : ∃ r : Option (Box V),
    r.map Box.content = M.lookup p ∧ ∀ fuel > w.bits + 2, findExact fuel t p = some r := by
  obtain ⟨T, hrep, hT⟩ := h
  obtain ⟨_, _, r, ⟨-, rfl⟩, hrun⟩ := run_findExact hrep.inv p
  exact ⟨t.table p, by rw [hrep.table_eq, hT], fun fuel hf => by rw [findExact, hrun fuel hf]; rfl⟩

theorem size_spec (h : t.Represents M) : t.size = M.keys.length := by
  obtain ⟨T, hrep, hT⟩ := h
  have hkeys : t.valuedSet.image (fun n => (t.nodes n).pfx) = M.keys.toFinset := by
    refine Finset.ext fun p => ?_
    rw [Finset.mem_image, List.mem_toFinset, ← AList.mem_keys, ← AList.lookup_isSome, ← hT,
      Option.isSome_map, Option.isSome_iff_exists, ← hrep.table_eq]
    constructor
    · rintro ⟨n, hn, rfl⟩
      obtain ⟨hl, hv⟩ := hrep.inv.mem_valuedSet.mp hn
      rw [hrep.inv.table_at hl]
      exact Option.ne_none_iff_exists'.mp hv
    · rintro ⟨b, hb⟩
      obtain ⟨n, hl, hp, hv⟩ := hrep.inv.table_eq_some.mp hb
      exact ⟨n, hrep.inv.mem_valuedSet.mpr ⟨hl, by simp [hv]⟩, hp⟩
  have hcard := congrArg Finset.card hkeys
  rw [Finset.card_image_of_injOn, List.toFinset_card_of_nodup M.keys_nodup] at hcard
  · have := hrep.size_eq
    omega
  · intro n hn m hm he
    exact hrep.inv.linked_unique (hrep.inv.mem_valuedSet.mp hn).1 (hrep.inv.mem_valuedSet.mp hm).1 he

/-- After any history `lookup` finds the value last inserted for the longest stored prefix of the
    address, as the scan over the stored prefixes does in whatever order it meets them. -/
theorem lookup_after_history (ops : List (Op w V)) (a : Address w) :
    ∃ (t : RadixTrie w V) (r : Option (Box V)) (fuel₀ : Nat),
      (∀ fuel > fuel₀, exec fuel .empty ops = some t ∧ lookup fuel t a = some r) ∧
      (r = none ↔ ∀ p : Prefix w, p.contains a → p ∉ reference ops) ∧
      (∀ b, r = some b → ∃ q : Prefix w, (reference ops).lookup q = some b.content ∧ q.contains a ∧
        ∀ p : Prefix w, p.contains a → p ∈ reference ops → p.length ≤ q.length) ∧
      ∀ entries, entries.Perm (reference ops).entries →
        r.map Box.content = referenceLookup entries a := by
  obtain ⟨t, f₁, ht, hexec⟩ := exec_reference ops
  obtain ⟨T, r, hr, hT, hrun⟩ := lookup_spec ht a
  have hmem : ∀ p, p ∈ reference ops ↔ T p ≠ none := fun p => by
    rw [← AList.lookup_isSome, ← hT, Option.isSome_map, Option.isSome_iff_ne_none]
  refine ⟨t, r, max f₁ (2 * w.bits + 3), fun fuel hf => ?_, ?_, ?_, fun entries hperm => ?_⟩
  · obtain ⟨hf₁, hf₂⟩ := max_lt_iff.mp hf
    exact ⟨hexec fuel hf₁, hrun fuel hf₂⟩
  · cases r with
    | none => exact ⟨fun _ p hp hm => (hmem p).mp hm (hr p hp), fun _ => rfl⟩
    | some b =>
      obtain ⟨q, hq, hqa, -⟩ := hr
      exact ⟨nofun, fun hall => absurd ((hmem q).mpr (by simp [hq])) (hall q hqa)⟩
  · rintro b rfl
    obtain ⟨q, hq, hqa, hmax⟩ := hr
    exact ⟨q, by rw [← hT, hq]; rfl, hqa, fun p hp hm => hmax p hp ((hmem p).mp hm)⟩
  · exact (referenceLookup_eq hperm hT hr).symm

/-- After any history every operation answers as the map does, and the size is the number of keys. -/
theorem history_refines_map (ops : List (Op w V)) :
    ∃ (t : RadixTrie w V) (fuel₀ : Nat), (∀ fuel > fuel₀, exec fuel .empty ops = some t) ∧
      t.size = (reference ops).keys.length ∧
      (∀ fuel > fuel₀, ∀ p v, ∃ t',
        (Op.insert p v).run fuel t = some (t', some (decide (p ∉ reference ops)))) ∧
      (∀ fuel > fuel₀, ∀ p, ∃ t',
        (Op.erase p).run fuel t = some (t', some (decide (p ∈ reference ops))) ∧
          (p ∉ reference ops → t' = t)) ∧
      ∀ fuel > fuel₀, ∀ p, ∃ r, findExact fuel t p = some r ∧
        r.map Box.content = (reference ops).lookup p := by
  obtain ⟨t, f₁, ht, hexec⟩ := exec_reference ops
  have hmem : ∀ p, decide (p ∈ reference ops) = ((reference ops).lookup p).isSome := fun p => by
    rw [Bool.eq_iff_iff, decide_eq_true_iff, AList.lookup_isSome]
  refine ⟨t, max f₁ (w.bits + 16), fun fuel hf => hexec fuel (max_lt_iff.mp hf).1, size_spec ht,
    fun fuel hf p v => ?_, fun fuel hf p => ?_, fun fuel hf p => ?_⟩
  · obtain ⟨t', -, hrun⟩ := insert_spec ht p v
    refine ⟨t', ?_⟩
    rw [hrun fuel (by have := (max_lt_iff.mp hf).2; omega), decide_not, hmem, Option.not_isSome]
  · obtain ⟨t', -, hsame, hrun⟩ := erase_spec ht p
    refine ⟨t', by rw [hrun fuel (max_lt_iff.mp hf).2, hmem], fun hn => hsame ?_⟩
    rw [← hmem]; exact decide_eq_false hn
  · obtain ⟨r, hr, hrun⟩ := findExact_spec ht p
    exact ⟨r, hrun fuel (by have := (max_lt_iff.mp hf).2; omega), hr⟩

end RadixTrie

end RcuFib

import RcuFib.Trie.ForEach
import RcuFib.Library.Histogram
import Mathlib.Data.Rat.Defs
import Mathlib.Algebra.Order.Field.Rat
import Mathlib.Tactic.FieldSimp

/-! `radix_trie::measure_depth`: how many nodes a lookup traverses to reach each stored prefix.

    The measure is a recursion over the tree and `find_exact` a loop that follows the bits of one
    prefix. They count the same nodes, because the search for a stored prefix goes down the path on
    which the recursion meets its node. The mean is taken exactly. -/

namespace RcuFib
open SearchGraph Routine Histogram

/-- `depth_stats` -/
structure DepthStats where
  maxDepth : Nat := 0
  meanDepth : ℚ := 0
  histogram : List Nat := []

namespace RadixTrie
variable {w : Width} {V : Type*} {t : RadixTrie w V}

/-- What `measure` updates. -/
structure Measured where
  stats : DepthStats := {}
  total : Nat := 0
  count : Nat := 0

def Measured.record (m : Measured) (depth : Nat) : Measured where
  stats := { m.stats with
    histogram := bump m.stats.histogram depth
    maxDepth := max m.stats.maxDepth depth }
  total := m.total + depth
  count := m.count + 1

/-- `measure(current, depth, stats, total, count)`; `fuel` bounds the depth of the recursion. -/
def measure (t : RadixTrie w V) :
    (fuel : Nat) → Option Nat → (depth : Nat) → Measured → Option Measured
  | 0, _, _, _ => none
  | _ + 1, none, _, m => some m
  | fuel + 1, some current, depth, m => do
    let n := t.nodes current
    let m := if n.value.isSome then m.record depth else m
    let m ← measure t fuel (n.child false) (depth + 1) m
    measure t fuel (n.child true) (depth + 1) m

/-- `measure_depth()` -/
def measureDepth (fuel : Nat) (t : RadixTrie w V) : Option DepthStats := do
  let m ← measure t fuel t.root 1 {}
  return { m.stats with meanDepth := if m.count = 0 then 0 else (m.total : ℚ) / m.count }

def FindPc.isNode : FindPc → Bool
  | .root => false
  | .node _ => true

/-- How many nodes `find_exact(prefix)` visits. -/
def findVisits (fuel : Nat) (t : RadixTrie w V) (p : Prefix w) : Option Nat :=
  (run (findExactStep p) fuel t .root).map fun _ =>
    (positions (findExactStep p) fuel t .root).countP FindPc.isNode

/-! ### The recursion -/

/-- The nodes that carry a value, each with its depth, in the order of the recursion. -/
def valued (t : RadixTrie w V) (d : Nat) (u : BinaryTree Nat) : List (Nat × Nat) :=
  (depths d u).filter fun e => (t.nodes e.1).value.isSome

theorem valued_keys (u : BinaryTree Nat) (d : Nat) :
    (t.valued d u).map (fun e => (t.nodes e.1).pfx) = (entries (u.map t.label)).map Prod.fst := by
  induction u generalizing d with
  | nil => rfl
  | node n l r ihl ihr =>
    simp only [valued] at ihl ihr
    cases hv : (t.nodes n).value <;>
      simp [valued, depths, BinaryTree.map, label, entries_node, hv, ihl, ihr]

/-- The measures of the depths `ds`. -/
structure Recorded (m : Measured) (ds : List Nat) : Prop where
  histogram : Counts m.stats.histogram ds
  total : m.total = ds.sum
  count : m.count = ds.length
  le_max : ∀ d ∈ ds, d ≤ m.stats.maxDepth
  max_mem : ds ≠ [] → m.stats.maxDepth ∈ ds
  max_nil : ds = [] → m.stats.maxDepth = 0

theorem recorded_nil : Recorded {} [] :=
  ⟨counts_nil, rfl, rfl, nofun, fun h => absurd rfl h, fun _ => rfl⟩

theorem Recorded.record {m : Measured} {ds : List Nat} (h : Recorded m ds) (d : Nat) :
    Recorded (m.record d) (ds ++ [d]) where
  histogram := h.histogram.bump d
  total := by simp [Measured.record, h.total]
  count := by simp [Measured.record, h.count]
  le_max e he := by
    rcases List.mem_append.mp he with he | he
    · exact (h.le_max e he).trans (le_max_left _ _)
    · exact List.mem_singleton.mp he ▸ le_max_right _ _
  max_mem _ := by
    simp only [Measured.record, List.mem_append, List.mem_singleton]
    rcases eq_or_ne ds [] with h0 | h0
    · rw [h.max_nil h0, Nat.zero_max]
      exact .inr rfl
    · rcases le_total m.stats.maxDepth d with hle | hle
      · exact .inr (max_eq_right hle)
      · rw [max_eq_left hle]
        exact .inl (h.max_mem h0)
  max_nil h0 := by simp at h0

theorem recorded_foldl (ds : List Nat) : Recorded (ds.foldl Measured.record {}) ds := by
  induction ds using List.reverseRecOn with
  | nil => exact recorded_nil
  | append_singleton ds d ih =>
    rw [List.foldl_concat]
    exact ih.record d

/-- The recursion records the depth of every node with a value. -/
theorem measure_eq {p : Option Nat} {u : BinaryTree Nat} (hu : t.graph.Unfolds p u) {d : Nat} :
    ∀ fuel > u.height, ∀ m,
      measure t fuel p d m = some (((valued t d u).map Prod.snd).foldl Measured.record m) := by
  induction hu generalizing d with
  | nil =>
    intro fuel hf m
    obtain ⟨fuel, rfl⟩ := Nat.exists_eq_succ_of_ne_zero (Nat.ne_of_gt (Nat.zero_lt_of_lt hf))
    rfl
  | @node n l r _ _ ihl ihr =>
    intro fuel hf m
    obtain ⟨fuel, rfl⟩ := Nat.exists_eq_succ_of_ne_zero (Nat.ne_of_gt (Nat.zero_lt_of_lt hf))
    have hmax : max l.height r.height < fuel := Nat.lt_of_succ_lt_succ hf
    have hleft := ihl fuel ((le_max_left _ _).trans_lt hmax) (d := d + 1)
    have hright := ihr fuel ((le_max_right _ _).trans_lt hmax) (d := d + 1)
    have hchild : ∀ side, t.graph.child n side = (t.nodes n).child side := fun _ => rfl
    rw [hchild] at hleft hright
    simp only [measure, hleft, hright, bind, Option.bind_some]
    cases hv : (t.nodes n).value <;> simp [valued, depths, hv]

/-! ### The search -/

theorem find_here (n : Nat) :
    findExactStep (t.nodes n).pfx t (.node n) = .done t (t.nodes n).value := by
  have hm : (t.nodes n).key.matchesTo (t.nodes n).pfx.address (t.nodes n).keyLength = true :=
    (Prefix.matchesTo_address_iff le_rfl).mpr List.prefix_rfl
  simp only [findExactStep, hm]
  simp [Node.keyLength]

/-- The search for what lies below node `m` goes on to that side. -/
theorem find_below (ho : t.graph.Ordered) {m n c : Nat} {side : Bool}
    (hc : (t.nodes m).child side = some c) (hn : t.graph.Reach (some c) n) :
    findExactStep (t.nodes n).pfx t (.node m) = .next t (.node c) := by
  have hreach : t.graph.Reach ((t.nodes m).child side) n := by rw [hc]; exact hn
  have hlt : (t.nodes m).keyLength < (t.nodes n).pfx.length := by
    simpa [Node.keyLength] using Graph.key_lt_of_child ho hreach
  have hpre : (t.nodes m).pfx.bits <+: (t.nodes n).pfx.bits :=
    (List.prefix_append _ _).trans (Graph.span_of_reach ho (s := .child m side) hreach)
  have hm : (t.nodes m).key.matchesTo (t.nodes n).pfx.address (t.nodes m).keyLength = true :=
    (Prefix.matchesTo_address_iff hlt.le).mpr hpre
  have hbit : (t.nodes n).pfx.address.bit (t.nodes m).keyLength = side := by
    have hside : (t.nodes n).pfx.bits[(t.nodes m).pfx.bits.length]? = some side :=
      Graph.side_of_reach ho hreach List.prefix_rfl
    rw [Prefix.length_bits] at hside
    exact Option.some.inj ((Prefix.getElem?_bits _ hlt).symm.trans hside)
  simp only [findExactStep, if_neg hlt.not_gt, hm, if_neg hlt.ne, hbit, hc, findLoop, Bool.not_true,
    Bool.false_eq_true, if_false]

/-- From pointer `p` the search for node `n` visits `k` nodes, that one last. -/
def Visits (t : RadixTrie w V) (p : Option Nat) (height n k : Nat) : Prop :=
  ∃ c, p = some c ∧ ∀ fuel > height,
    run (findExactStep (t.nodes n).pfx) fuel t (.node c) = some (t, [], (t.nodes n).value) ∧
    (positions (findExactStep (t.nodes n).pfx) fuel t (.node c)).countP FindPc.isNode = k

theorem visits_here (n h : Nat) : t.Visits (some n) h n 1 := by
  refine ⟨n, rfl, fun fuel hf => ?_⟩
  obtain ⟨fuel, rfl⟩ := Nat.exists_eq_succ_of_ne_zero (Nat.ne_of_gt (Nat.zero_lt_of_lt hf))
  obtain ⟨hrun, hpos⟩ := run_done (find_here n) fuel
  refine ⟨hrun, ?_⟩
  rw [hpos, List.countP_cons_of_pos rfl, List.countP_nil]

theorem Visits.below (ho : t.graph.Ordered) {m n h h' k : Nat} {side : Bool}
    (hv : t.Visits ((t.nodes m).child side) h n k) (hn : t.graph.Reach ((t.nodes m).child side) n)
    (hh : h ≤ h') : t.Visits (some m) (h' + 1) n (k + 1) := by
  obtain ⟨c, hc, hrun⟩ := hv
  refine ⟨m, rfl, fun fuel hf => ?_⟩
  obtain ⟨fuel, rfl⟩ := Nat.exists_eq_succ_of_ne_zero (Nat.ne_of_gt (Nat.zero_lt_of_lt hf))
  obtain ⟨hnext, hpos⟩ := run_next (find_below ho hc (hc ▸ hn)) fuel
  obtain ⟨hval, hcount⟩ := hrun fuel (hh.trans_lt (Nat.lt_of_succ_lt_succ hf))
  refine ⟨hnext.trans hval, ?_⟩
  rw [hpos, List.countP_cons_of_pos rfl, hcount]

/-- From the root of a tree the search for one of its nodes visits as many nodes as the node is deep. -/
theorem visits_depth (ho : t.graph.Ordered) {p : Option Nat} {u : BinaryTree Nat}
    (hu : t.graph.Unfolds p u) {d : Nat} :
    ∀ e ∈ depths d u, ∃ k, t.Visits p u.height e.1 k ∧ k + d = e.2 + 1 := by
  induction hu generalizing d with
  | nil => exact nofun
  | @node n l r hl hr ihl ihr =>
    have hreach : ∀ {side : Bool} {v : BinaryTree Nat} {e : Nat × Nat},
        t.graph.Unfolds (t.graph.child n side) v → e ∈ depths (d + 1) v →
        t.graph.Reach ((t.nodes n).child side) e.1 := by
      intro side v e hv he
      exact (hv.mem_iff e.1).mp (map_fst_depths v (d + 1) ▸ List.mem_map_of_mem he)
    intro e he
    rw [depths, List.mem_cons, List.mem_append] at he
    rcases he with rfl | he | he
    · exact ⟨1, visits_here n _, Nat.add_comm ..⟩
    · obtain ⟨k, hk, hd⟩ := ihl e he
      exact ⟨k + 1, hk.below ho (hreach hl he) (le_max_left _ _), by omega⟩
    · obtain ⟨k, hk, hd⟩ := ihr e he
      exact ⟨k + 1, hk.below ho (hreach hr he) (le_max_right _ _), by omega⟩

/-- `find_exact` visits as many nodes as the node of the prefix is deep, the root at depth 1. -/
theorem findVisits_eq (ho : t.graph.Ordered) {u : BinaryTree Nat} (hu : t.graph.Unfolds t.root u) :
    ∀ e ∈ depths 1 u, ∀ fuel > u.height + 1, findVisits fuel t (t.nodes e.1).pfx = some e.2 := by
  intro e he fuel hf
  obtain ⟨fuel, rfl⟩ := Nat.exists_eq_succ_of_ne_zero (Nat.ne_of_gt (Nat.zero_lt_of_lt hf))
  obtain ⟨k, ⟨c, hc, hvisits⟩, hk⟩ := visits_depth ho hu e he
  have hroot : findExactStep (t.nodes e.1).pfx t .root = .next t (.node c) := by
    simp only [findExactStep, hc, findLoop]
  obtain ⟨hrun, hpos⟩ := run_next hroot fuel
  obtain ⟨hval, hcount⟩ := hvisits fuel (Nat.lt_of_succ_lt_succ hf)
  rw [findVisits, hrun, hval, hpos, List.countP_cons_of_neg Bool.false_ne_true, hcount]
  exact congrArg some (Nat.succ.inj hk)

/-! ### After any history -/

/-- The nodes with a value are those of the keys, one each. -/
theorem Sound.valued_perm {M : Reference w V} (h : t.Sound M) : ∃ u, t.graph.Unfolds t.root u ∧
    ((t.valued 1 u).map fun e => (t.nodes e.1).pfx).Perm M.keys ∧ t.size = (t.valued 1 u).length := by
  obtain ⟨u, hu, hsorted, -, hentries, -, hsize⟩ := h.tree
  have hkeys := valued_keys (t := t) u 1
  refine ⟨u, hu, ?_, by rw [hsize, ← List.length_map Prod.fst, ← hkeys, List.length_map]⟩
  rw [hkeys]
  refine (List.perm_ext_iff_of_nodup ?_ M.keys_nodup).mpr fun p => ?_
  · rw [List.nodup_iff_pairwise_ne, List.pairwise_map]
    refine hsorted.pairwise.imp fun hlt he => ?_
    rw [he] at hlt
    exact List.lt_irrefl _ hlt
  · rw [← AList.mem_keys, ← AList.lookup_isSome, Option.isSome_iff_exists]
    simp only [List.mem_map, Prod.exists, exists_and_right, exists_eq_right, hentries]

/-- The mean is the sum of the depths over their number. -/
theorem Recorded.mean {m : Measured} {ds : List Nat} (h : Recorded m ds) :
    (if m.count = 0 then 0 else (m.total : ℚ) / m.count) * ds.length = ds.sum := by
  rw [h.count, h.total]
  split
  · next h0 => rw [List.length_eq_zero_iff.mp h0]; simp
  · next h0 => exact div_mul_cancel₀ _ (by exact_mod_cast h0)

/-- After any history `measure_depth` says of every stored prefix how many nodes `find_exact` visits to
    reach it, and no walk is longer than the address and one more. -/
theorem measure_depth_after_history (ops : List (Op w V)) :
    ∃ (t : RadixTrie w V) (stats : DepthStats) (fuel₀ : Nat),
      (∀ fuel > fuel₀, exec fuel .empty ops = some t ∧ measureDepth fuel t = some stats ∧
        (∀ d, stats.histogram.getD d 0 =
          (reference ops).keys.countP fun p => findVisits fuel t p = some d) ∧
        (∀ p ∈ reference ops, ∃ d ≤ stats.maxDepth, findVisits fuel t p = some d) ∧
        (t.size ≠ 0 → ∃ p ∈ reference ops, findVisits fuel t p = some stats.maxDepth)) ∧
      (t.size = 0 → stats.maxDepth = 0) ∧ stats.histogram.sum = t.size ∧
      stats.maxDepth ≤ w.bits + 1 ∧
      stats.meanDepth * t.size =
        ∑ d ∈ Finset.range stats.histogram.length, (stats.histogram.getD d 0 * d : Nat) := by
  obtain ⟨t, f, hsound, hexec⟩ := exec_sound ops
  obtain ⟨u, hu, hperm, hsize⟩ := hsound.valued_perm
  obtain ⟨T, hrep, -⟩ := hsound.represents
  have ho := hrep.inv.ordered
  have hrec := recorded_foldl ((t.valued 1 u).map Prod.snd)
  have hmeasure : ∀ fuel > u.height, measure t fuel t.root 1 {} = _ := fun fuel hf => measure_eq hu fuel hf _
  generalize ((t.valued 1 u).map Prod.snd).foldl Measured.record {} = m at hrec hmeasure
  have hdepths : ∀ e ∈ t.valued 1 u, e ∈ depths 1 u := fun e he => List.mem_of_mem_filter he
  have hvisits : ∀ fuel > u.height + 1, ∀ e ∈ t.valued 1 u,
      findVisits fuel t (t.nodes e.1).pfx = some e.2 :=
    fun fuel hf e he => findVisits_eq ho hu e (hdepths e he) fuel hf
  have hlen : ((t.valued 1 u).map Prod.snd).length = t.size := by rw [List.length_map, hsize]
  have hmem : ∀ p, p ∈ reference ops ↔ ∃ e ∈ t.valued 1 u, (t.nodes e.1).pfx = p := fun p => by
    rw [AList.mem_keys, ← hperm.mem_iff, List.mem_map]
  have hne : t.size ≠ 0 → ∃ e ∈ t.valued 1 u, e.2 = m.stats.maxDepth := fun h0 =>
    List.mem_map.mp (hrec.max_mem fun hnil => h0 (by rw [← hlen, hnil, List.length_nil]))
  have hzero : t.size = 0 → m.stats.maxDepth = 0 := fun h0 =>
    hrec.max_nil (List.length_eq_zero_iff.mp (hlen.trans h0))
  refine ⟨t, ⟨m.stats.maxDepth, if m.count = 0 then 0 else (m.total : ℚ) / m.count, m.stats.histogram⟩,
    max f (u.height + 1), fun fuel hf => ?_, hzero, hrec.histogram.sum_eq.trans hlen, ?_, ?_⟩
  · obtain ⟨hf₁, hf₂⟩ := max_lt_iff.mp hf
    refine ⟨hexec fuel hf₁, by rw [measureDepth, hmeasure fuel (Nat.lt_of_succ_lt hf₂)]; rfl,
      fun d => ?_, fun p hp => ?_, fun h0 => ?_⟩
    · rw [← hperm.countP_eq, List.countP_map, hrec.histogram d, List.count, List.countP_map]
      refine List.countP_congr fun e he => ?_
      simp only [Function.comp_apply, hvisits fuel hf₂ e he, beq_iff_eq, decide_eq_true_eq,
        Option.some.injEq]
    · obtain ⟨e, he, rfl⟩ := (hmem p).mp hp
      exact ⟨e.2, hrec.le_max _ (List.mem_map_of_mem he), hvisits fuel hf₂ e he⟩
    · obtain ⟨e, he, hmax⟩ := hne h0
      exact ⟨_, (hmem _).mpr ⟨e, he, rfl⟩, hmax ▸ hvisits fuel hf₂ e he⟩
  · rcases eq_or_ne t.size 0 with h0 | h0
    · exact (hzero h0).trans_le (Nat.zero_le _)
    · -- keys grow along the path to the deepest node, so it has no more nodes than bits and one
      obtain ⟨e, he, hmax⟩ := hne h0
      have hdeep := hu.depth_le ho (d := 1) (fun _ _ => Nat.le_add_left ..) e (hdepths e he)
      rw [key_graph, Prefix.length_bits] at hdeep
      exact hmax ▸ hdeep.trans (Nat.succ_le_succ (t.nodes e.1).pfx.length_le)
  · have hsum := hrec.histogram.sum_map id
    simp only [id, List.map_id] at hsum
    rw [hsum, ← hrec.mean, hlen]

end RadixTrie

end RcuFib

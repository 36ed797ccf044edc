import RcuFib.Bench.Workload
import RcuFib.Fib.Visits
import Mathlib.Data.List.TakeWhile

/-! The readers of the benchmark (`bench/workload.hpp`).

    Once the table is loaded the writer withdraws nothing and announces nothing new. So for each of the
    four tables, in any interleaving, a reader's visit comes back without an entry for an address that no
    prefix of the dataset covers and for no other, and its counters of misses are exact. -/

namespace RcuFib
open SearchGraph Routine Trace RadixTrie Monitor

variable {w : Width} {data : Dataset} {C : Prefix .ipv4 → Option FibEntry} {a : Address .ipv4}

namespace Dataset

/-- Some prefix of the dataset contains the address. -/
def covers (data : Dataset) (a : Address .ipv4) : Bool := data.prefixes.any fun p => p.contains a

/-- The prefixes routed are those of the dataset. -/
def Loaded (data : Dataset) (C : Prefix .ipv4 → Option FibEntry) : Prop :=
  ∀ q, C q ≠ none ↔ q ∈ data.prefixes

/-- What the table is called with: the batch of `preload`, then those of the writer. -/
def calls (data : Dataset) (batches : List (List (FibUpdate .ipv4))) : List (FibCall .ipv4) :=
  .apply data.preload :: batches.map .apply

theorem Loaded.none_iff (h : data.Loaded C) {result : Option FibEntry} (hm : Matched C a result) :
    result = none ↔ data.covers a = false := by
  rw [covers, List.any_eq_false]
  cases result with
  | none => exact ⟨fun _ p hp hpa => (h p).mpr hp (hm p hpa), fun _ => rfl⟩
  | some entry =>
    obtain ⟨q, hq, hqa, -⟩ := hm
    have hmem : q ∈ data.prefixes := by
      rw [← h q, hq]
      exact Option.some_ne_none entry
    exact ⟨(fun hnone => by cases hnone), fun hcov => absurd hqa (hcov q hmem)⟩

theorem preload_updates (data : Dataset) : ∃ l : List (Prefix .ipv4 × FibEntry),
    (FibCall.apply data.preload).updates = l.map (fun x => .add x.1 x.2) ∧
      l.map Prod.fst = data.prefixes := by
  refine ⟨data.preload.map fun u => (u.pfx, u.entry), ?_, ?_⟩
  · rw [FibCall.updates, List.map_map]
    refine List.map_congr_left fun u hu => ?_
    rw [preload, List.mem_mapIdx] at hu
    obtain ⟨i, hi, rfl⟩ := hu
    rfl
  · rw [List.map_map, preload]
    refine List.ext_getElem (by simp) fun i hi hi' => ?_
    simp

end Dataset

namespace Churner
variable {rounds : List (List (List (Prefix .ipv4)))} {batches : List (List (FibUpdate .ipv4))}
  {s : Churner} {calls : List (FibCall .ipv4)}

theorem renews (hreach : init.churn data rounds = some (s, batches)) :
    ∀ c ∈ batches.map FibCall.apply, c.Renews (· ∈ data.prefixes) := by
  intro c hc u hu
  obtain ⟨batch, hb, rfl⟩ := List.mem_map.mp hc
  obtain ⟨v, hv, rfl⟩ := List.mem_map.mp hu
  obtain ⟨hkind, hmem⟩ := (standing_init.churn hreach).2 batch hb v hv
  rw [FibUpdate.update, hkind]
  exact hmem

/-- From the first call on, the prefixes routed are those of the dataset. -/
theorem loaded (hreach : init.churn data rounds = some (s, batches)) (hcalls : calls <+: data.calls batches)
    (hne : calls ≠ []) : data.Loaded (programmed calls) := by
  obtain ⟨c, more, rfl⟩ := List.exists_cons_of_ne_nil hne
  obtain ⟨rfl, hmore⟩ := List.cons_prefix_cons.mp hcalls
  obtain ⟨l, hl, hfst⟩ := data.preload_updates
  intro q
  rw [programmed_eq_made, List.flatMap_cons, made_append, hl]
  refine renewed (fun u hu => ?_) (fun q => (made_adds l q).trans (by rw [hfst])) q
  obtain ⟨c, hc, hcu⟩ := List.mem_flatMap.mp hu
  exact renews hreach c (hmore.subset hc) u hcu

end Churner

/-! ### Without a lock -/

section tables
variable {T : Type*} [DecidableEq T] {τ : T} {rounds : List (List (List (Prefix .ipv4)))}
  {batches : List (List (FibUpdate .ipv4))} {s : Churner} {n m i₀ : Nat}

/-- `rcu_fib`: the table is loaded at `m`, and the lookup starts after that. -/
theorem Rcu.reader {r : Nat → Rcu T .ipv4} {result : Option (Box FibEntry)} (h : Run Rcu.act .init r n)
    (hreach : Churner.init.churn data rounds = some (s, batches))
    (hcalls : Rcu.taken r n <+: data.calls batches) (hfree : (r m).writer = none)
    (hloaded : Rcu.taken r m ≠ []) (hm : m ≤ i₀) (hs : Rcu.LookupSpan r τ a i₀ n result) :
    (result = none ↔ data.covers a = false) ∧
    ∃ i, i₀ ≤ i ∧ i ≤ n ∧ Matched (r i).trie.contents a (result.map Box.content) := by
  have hmn : m ≤ n := hm.trans hs.le
  have hP : ∀ q, (r m).trie.table q ≠ none ↔ q ∈ data.prefixes := by
    intro q
    obtain ⟨done, rest, hdone, hC, hidle, -⟩ := Rcu.made_run h m hmn
    obtain rfl := hidle hfree
    rw [List.append_nil] at hdone
    rw [← contents_ne_none, hC, ← hdone, ← programmed_eq_made]
    exact Churner.loaded hreach ((Rcu.taken_mono r hmn).trans hcalls) hloaded q
  have hrenew : ∀ c ∈ (Rcu.taken r n).drop (Rcu.taken r m).length, c.Renews (· ∈ data.prefixes) := by
    intro c hc
    refine Churner.renews hreach c ?_
    have hpos := List.length_pos_iff.mpr hloaded
    have hdrop : (Rcu.taken r n).drop 1 <+: batches.map FibCall.apply := hcalls.drop 1
    refine hdrop.subset (List.mem_of_mem_drop (i := (Rcu.taken r m).length - 1) ?_)
    rwa [List.drop_drop, Nat.add_sub_cancel' hpos]
  have hkept : ∀ i, m ≤ i → i ≤ n → ∀ q, (r i).trie.table q ≠ none ↔ q ∈ data.prefixes :=
    fun i hlo hi => Rcu.routes_kept h hfree hmn hP hrenew hlo hi
  obtain ⟨i, hlo, hi, hmatch⟩ := Rcu.exact_of_fixed h hs fun p _ i hlo hi => by
    rw [← not_iff_not]
    exact (hkept i (hm.trans hlo) hi p).trans (hkept i₀ hm hs.le p).symm
  have hC : data.Loaded (r i).trie.contents := by
    intro q
    rw [contents_ne_none]
    exact hkept i (hm.trans hlo) hi q
  refine ⟨?_, i, hlo, hi, hmatch.matched⟩
  rw [← hC.none_iff hmatch.matched, Option.map_eq_none_iff]

/-- `seqlock_fib`: the batch of `preload` is in the table when the visit starts. -/
theorem Seqlock.reader {r : Nat → Seqlock T .ipv4} {entry : Option (Box FibEntry)}
    (h : Run Seqlock.act .init r n) (hreach : Churner.init.churn data rounds = some (s, batches))
    (hcalls : (r n).log <+: data.calls batches) (hloaded : (r i₀).log ≠ [])
    (hwrap : (r n).fib.sequence < (r i₀).fib.sequence + 2 ^ 64)
    (hs : Seqlock.VisitSpan r τ a i₀ n entry) :
    (entry = none ↔ data.covers a = false) ∧
    ∃ i, i₀ ≤ i ∧ i ≤ n ∧ Matched (r i).fib.trie.contents a (entry.map Box.content) := by
  obtain ⟨i, hlo, hi, hcontents, hmatch⟩ := Seqlock.snapshot h hwrap hs
  have hne : (r i).log ≠ [] := by
    intro hnil
    have hlog := Seqlock.log_mono h hlo hi
    rw [hnil, List.prefix_nil] at hlog
    exact hloaded hlog
  have hC : data.Loaded (r i).fib.trie.contents := by
    rw [hcontents]
    exact Churner.loaded hreach ((Seqlock.log_mono h hi le_rfl).trans hcalls) hne
  refine ⟨?_, i, hlo, hi, hmatch⟩
  rw [← hC.none_iff hmatch, Option.map_eq_none_iff]

end tables

/-! ### Behind the locks -/

section locked
variable {T : Type*} [DecidableEq T] {l : Locking} {τ : T} {n i₀ : Nat}

/-- `mutex_fib` and `shared_mutex_fib`: the batch of `preload` is in the table when the visit starts. -/
theorem Locking.reader {rounds : List (List (List (Prefix .ipv4)))}
    {batches : List (List (FibUpdate .ipv4))} {s : Churner} {r : Nat → LockedFib T .ipv4}
    {entry : Option (Box FibEntry)}
    (h : Run (System.act (l.calls .ipv4)) (System.init .empty) r n)
    (hreach : Churner.init.churn data rounds = some (s, batches))
    (hcalls : mutations (r n).log <+: data.calls batches) (hloaded : mutations (r i₀).log ≠ [])
    (hs : System.CallSpan r τ (.visit a) (.visited entry) i₀ n) :
    (entry = none ↔ data.covers a = false) ∧
    ∃ i, i₀ ≤ i ∧ i ≤ n ∧ Matched (programmed (mutations (r i).log)) a (entry.map Box.content) := by
  obtain ⟨i, hlo, hi, hmatch⟩ := Locking.snapshot h hs
  have hne : mutations (r i).log ≠ [] := by
    intro hnil
    have hlog := mutations_mono h hlo hi
    rw [hnil, List.prefix_nil] at hlog
    exact hloaded hlog
  have hC : data.Loaded (programmed (mutations (r i).log)) :=
    Churner.loaded hreach ((mutations_mono h hi le_rfl).trans hcalls) hne
  refine ⟨?_, i, hlo, hi, hmatch⟩
  rw [← hC.none_iff hmatch, Option.map_eq_none_iff]

end locked

/-! ### The readers' counters -/

/-- How a visit of `a` came back in a run of one of the four tables in which the table has been loaded
    before and the writer has made none but its own calls. The counter of `seqlock_fib` does not come round
    meanwhile. -/
inductive Served (data : Dataset) (batches : List (List (FibUpdate .ipv4))) (T : Type) [DecidableEq T]
    (a : Address .ipv4) : Option FibEntry → Prop
  | rcu {r : Nat → Rcu T .ipv4} {τ n m i₀ result} : Run Rcu.act .init r n →
      Rcu.taken r n <+: data.calls batches → (r m).writer = none → Rcu.taken r m ≠ [] → m ≤ i₀ →
      Rcu.LookupSpan r τ a i₀ n result → Served data batches T a (result.map Box.content)
  | seqlock {r : Nat → Seqlock T .ipv4} {τ n i₀ entry} : Run Seqlock.act .init r n →
      (r n).log <+: data.calls batches → (r i₀).log ≠ [] →
      (r n).fib.sequence < (r i₀).fib.sequence + 2 ^ 64 →
      Seqlock.VisitSpan r τ a i₀ n entry → Served data batches T a (entry.map Box.content)
  | locked {l : Locking} {r : Nat → LockedFib T .ipv4} {τ n i₀ entry} :
      Run (System.act (l.calls .ipv4)) (System.init .empty) r n →
      mutations (r n).log <+: data.calls batches → mutations (r i₀).log ≠ [] →
      System.CallSpan r τ (.visit a) (.visited entry) i₀ n →
      Served data batches T a (entry.map Box.content)

theorem Served.none_iff {rounds : List (List (List (Prefix .ipv4)))}
    {batches : List (List (FibUpdate .ipv4))} {s : Churner} {T : Type} [DecidableEq T]
    {entry : Option FibEntry} (hreach : Churner.init.churn data rounds = some (s, batches))
    (h : Served data batches T a entry) : entry = none ↔ data.covers a = false := by
  cases h with
  | rcu h hcalls hfree hloaded hm hs =>
    rw [Option.map_eq_none_iff]
    exact (Rcu.reader h hreach hcalls hfree hloaded hm hs).1
  | seqlock h hcalls hloaded hwrap hs =>
    rw [Option.map_eq_none_iff]
    exact (Seqlock.reader h hreach hcalls hloaded hwrap hs).1
  | locked h hcalls hloaded hs =>
    rw [Option.map_eq_none_iff]
    exact (Locking.reader h hreach hcalls hloaded hs).1

/-- `latency_sample_every` and `max_latency_samples`. -/
structure Sampling where
  every : Nat
  cap : Nat

/-- The local variables of a reader. -/
structure ReaderLoop where
  index : UInt64
  lookups : Nat
  misses : Nat
  accumulator : UInt64
  sinceSample : Nat
  samples : List UInt64
  counted : Bool

/-- What a turn of the reader's loop meets: the flag, the visit's outcome, the time taken. -/
structure Observation where
  measuring : Bool
  entry : Option FibEntry
  elapsed : UInt64

namespace ReaderLoop

def start (index : UInt64) : ReaderLoop := ⟨index, 0, 0, 0, 0, [], false⟩

/-- Discard whatever the warmup accumulated. -/
def reset (s : ReaderLoop) (x : Observation) : ReaderLoop :=
  if x.measuring && !s.counted then
    { s with lookups := 0, misses := 0, samples := [], counted := true }
  else s

/-- The visit, timed or not. -/
def visit (cfg : Sampling) (s : ReaderLoop) (x : Observation) : ReaderLoop :=
  let timed := s.sinceSample + 1 ≥ cfg.every && s.samples.length < cfg.cap
  { s with
    index := s.index + 1
    lookups := s.lookups + 1
    misses := if x.entry.isNone then s.misses + 1 else s.misses
    accumulator := match x.entry with
      | some entry => s.accumulator + entry.hop.gateway.toUInt64
      | none => s.accumulator
    sinceSample := if timed then 0 else s.sinceSample + 1
    samples := if timed && x.measuring then s.samples ++ [x.elapsed] else s.samples }

def step (cfg : Sampling) (s : ReaderLoop) (x : Observation) : ReaderLoop := (s.reset x).visit cfg x

def run (cfg : Sampling) (index : UInt64) (xs : List Observation) : ReaderLoop :=
  xs.foldl (step cfg) (start index)

/-- The turns that the counters are about: from the first that finds the flag set, or all. -/
def kept (xs : List Observation) : List Observation :=
  if xs.any Observation.measuring then xs.dropWhile fun x => !x.measuring else xs

theorem kept_snoc (xs : List Observation) (x : Observation) :
    kept (xs ++ [x]) =
      if x.measuring && !xs.any Observation.measuring then [x] else kept xs ++ [x] := by
  unfold kept
  rw [List.any_append, List.dropWhile_append]
  cases hany : xs.any Observation.measuring with
  | true =>
    obtain ⟨y, hy, hmeasuring⟩ := List.any_eq_true.mp hany
    have hne : (xs.dropWhile fun x => !x.measuring).isEmpty = false := by
      rw [List.isEmpty_eq_false_iff, ne_eq, List.dropWhile_eq_nil_iff]
      intro hall
      have hnot := hall y hy
      rw [hmeasuring] at hnot
      cases hnot
    simp [hne]
  | false =>
    have hnil : (xs.dropWhile fun x => !x.measuring).isEmpty = true := by
      rw [List.isEmpty_iff, List.dropWhile_eq_nil_iff]
      intro y hy
      rw [Bool.eq_false_of_not_eq_true (List.any_eq_false.mp hany y hy)]
      rfl
    cases hx : x.measuring <;> simp [hnil, hx]

/-- The counters after the turns `ys`, taken from the first that counts. -/
structure Counts (cfg : Sampling) (ys : List Observation) (s : ReaderLoop) : Prop where
  lookups : s.lookups = ys.length
  misses : s.misses = ys.countP fun y => y.entry.isNone
  samples : s.samples.length ≤ cfg.cap
  sparse : s.samples.length * cfg.every + min s.sinceSample cfg.every ≤ s.lookups + cfg.every

theorem Counts.visit {cfg : Sampling} {ys : List Observation} {s : ReaderLoop} (h : Counts cfg ys s)
    (x : Observation) : Counts cfg (ys ++ [x]) (s.visit cfg x) := by
  obtain ⟨hlookups, hmisses, hsamples, hsparse⟩ := h
  refine ⟨?_, ?_, ?_, ?_⟩
  · rw [List.length_append, ReaderLoop.visit, hlookups]
    rfl
  · rw [List.countP_append, List.countP_singleton, ← hmisses, ReaderLoop.visit]
    simp only
    split <;> rfl
  · simp only [ReaderLoop.visit]
    split
    · next htimed =>
      simp only [Bool.and_eq_true, decide_eq_true_eq] at htimed
      rw [List.length_append, List.length_singleton]
      exact htimed.1.2
    · exact hsamples
  · simp only [ReaderLoop.visit]
    cases htimed : decide (s.sinceSample + 1 ≥ cfg.every) && decide (s.samples.length < cfg.cap) with
    | false =>
      simp only [Bool.false_and, Bool.false_eq_true, if_false]
      omega
    | true =>
      simp only [Bool.and_eq_true, decide_eq_true_eq] at htimed
      cases x.measuring with
      | false =>
        simp only [Bool.and_false, Bool.false_eq_true, if_false, if_true]
        omega
      | true =>
        simp only [Bool.and_true, if_true, List.length_append, List.length_singleton, Nat.succ_mul]
        omega

theorem Counts.reset {cfg : Sampling} {ys : List Observation} {s : ReaderLoop} (h : Counts cfg ys s)
    (x : Observation) :
    Counts cfg (if x.measuring && !s.counted then [] else ys) (s.reset x) := by
  unfold ReaderLoop.reset
  split
  · refine ⟨rfl, rfl, Nat.zero_le _, ?_⟩
    simp
  · exact h

theorem counts_run (cfg : Sampling) (index : UInt64) (xs : List Observation) :
    (run cfg index xs).counted = xs.any Observation.measuring ∧
      Counts cfg (kept xs) (run cfg index xs) := by
  induction xs using List.reverseRecOn with
  | nil => exact ⟨rfl, rfl, rfl, Nat.zero_le _, by simp [run, start]⟩
  | append_singleton xs x ih =>
    obtain ⟨hcounted, hcounts⟩ := ih
    have hsnoc : run cfg index (xs ++ [x]) = ((run cfg index xs).reset x).visit cfg x := by
      rw [run, List.foldl_append, List.foldl_cons, List.foldl_nil, run]
      rfl
    have hnext := (hcounts.reset x).visit x
    rw [hcounted] at hnext
    rw [hsnoc]
    constructor
    · have hvisit : ∀ s : ReaderLoop, (s.visit cfg x).counted = s.counted := fun _ => rfl
      rw [hvisit, List.any_append, ← hcounted, reset]
      cases hx : x.measuring <;> cases hc : (run cfg index xs).counted <;> simp [hx, hc]
    · rw [kept_snoc]
      split
      · next hfresh => simpa [hfresh] using hnext
      · next hfresh => simpa [hfresh] using hnext

end ReaderLoop

/-- The address that the reader looks up in its turn `i`. -/
def Dataset.key (data : Dataset) (index : UInt64) (i : Nat) : Option (Address .ipv4) :=
  data.traffic[(index + .ofNat i).toNat % data.traffic.length]?

/-- The turns that count are the last ones. -/
theorem ReaderLoop.kept_suffix (xs : List Observation) : kept xs <:+ xs := by
  unfold kept
  split
  · exact List.dropWhile_suffix _
  · exact List.suffix_rfl

/-- A reader's counters are exact, whichever of the four tables it reads and however its threads take
    turns: its misses are the lookups of addresses that no prefix of the dataset contains. Of the latencies
    it keeps no more than the cap, and no more than one in so many. -/
theorem misses_exact {rounds : List (List (List (Prefix .ipv4)))}
    {batches : List (List (FibUpdate .ipv4))} {s : Churner} {T : Type} [DecidableEq T]
    (hreach : Churner.init.churn data rounds = some (s, batches)) (cfg : Sampling) (index : UInt64)
    (xs : List Observation) (hserved : ∀ (i : Nat) (x : Observation), xs[i]? = some x →
      ∃ a, data.key index i = some a ∧ Served data batches T a x.entry) :
    let t := ReaderLoop.run cfg index xs
    t.lookups = (ReaderLoop.kept xs).length ∧
    t.misses = ((List.range xs.length).drop (xs.length - t.lookups)).countP
      (fun i => (data.key index i).any fun a => !data.covers a) ∧
    t.samples.length ≤ cfg.cap ∧ t.samples.length * cfg.every ≤ t.lookups + cfg.every := by
  intro t
  obtain ⟨-, hlookups, hmisses, hcap, hsparse⟩ := ReaderLoop.counts_run cfg index xs
  refine ⟨hlookups, ?_, hcap, le_of_add_le_left hsparse⟩
  have hmissed : xs.map (fun x => x.entry.isNone) = (List.range xs.length).map
      fun i => (data.key index i).any fun a => !data.covers a := by
    refine List.ext_getElem (by simp) fun i hi hi' => ?_
    rw [List.length_map] at hi
    obtain ⟨a, ha, hserve⟩ := hserved i xs[i] (List.getElem?_eq_getElem hi)
    have hnone := hserve.none_iff hreach
    rw [List.getElem_map, List.getElem_map, List.getElem_range, ha, Option.any_some, Bool.eq_iff_iff,
      Option.isNone_iff_eq_none, hnone, Bool.not_eq_true']
  have hlast : ReaderLoop.kept xs = xs.drop (xs.length - t.lookups) := by
    rw [hlookups]
    exact List.suffix_iff_eq_drop.mp (ReaderLoop.kept_suffix xs)
  have hcount : ∀ {α : Type} (f : α → Bool) (l : List α) (k : Nat),
      (l.drop k).countP f = ((l.map f).drop k).countP id := by
    intro α f l k
    rw [← List.map_drop, List.countP_map, Function.id_comp]
  rw [hmisses, hlast, hcount _ xs, hmissed, hcount _ (List.range xs.length)]

/-- `mutex_fib` is loaded, and read twice: once with a hit, once with a miss. -/
def twoVisits : Nat → LockedFib Bool .ipv4 :=
  play (System.act (Locking.mutex.calls .ipv4)) (System.init .empty) <|
  [.call false (.apply Churner.lone.preload), .lock false] ++ List.replicate 9 (.step false) ++
  [.unlock false, .call true (.visit (.fromV4 0x0A000001)), .lock true] ++
  List.replicate 3 (.step true) ++
  [.unlock true, .call true (.visit (.fromV4 0x0B000001)), .lock true, .step true, .step true,
    .unlock true]

/-- The first turn is warmup. -/
def twoTurns : List Observation := [⟨false, some ⟨⟨0, 0, 0, 0⟩, .bgp, 1⟩, 5⟩, ⟨true, none, 7⟩]

theorem misses_exact_twoVisits :
    (ReaderLoop.run ⟨1, 1⟩ 0 twoTurns).lookups = (ReaderLoop.kept twoTurns).length ∧
    (ReaderLoop.run ⟨1, 1⟩ 0 twoTurns).misses =
      ((List.range 2).drop (2 - (ReaderLoop.run ⟨1, 1⟩ 0 twoTurns).lookups)).countP
        (fun i => (Churner.lone.key 0 i).any fun a => !Churner.lone.covers a) ∧
    (ReaderLoop.run ⟨1, 1⟩ 0 twoTurns).samples.length ≤ 1 ∧
    (ReaderLoop.run ⟨1, 1⟩ 0 twoTurns).samples.length * 1 ≤
      (ReaderLoop.run ⟨1, 1⟩ 0 twoTurns).lookups + 1 := by
  have hrun : Run (System.act (Locking.mutex.calls .ipv4)) (System.init .empty) twoVisits 23 :=
    run_play (by rfl)
  have hreach : Churner.init.churn Churner.lone [] = some (Churner.init, []) := rfl
  have hloaded : ∀ i, mutations (twoVisits i).log = [.apply Churner.lone.preload] →
      mutations (twoVisits i).log ≠ [] := by
    intro i h
    rw [h]
    exact List.cons_ne_nil _ _
  refine misses_exact (T := Bool) hreach ⟨1, 1⟩ 0 twoTurns ?_
  intro i x hx
  match i with
  | 0 =>
    obtain rfl := Option.some.inj hx
    have hspan : System.CallSpan twoVisits true (.visit (.fromV4 0x0A000001))
        (.visited (some ⟨0, ⟨⟨0, 0, 0, 0⟩, .bgp, 1⟩⟩)) 13 18 := by
      refine ⟨by decide, by rfl, ?_, by rfl⟩
      intro i hlo hhi
      interval_cases i <;> rfl
    exact ⟨_, rfl, Served.locked (hrun.take (by decide)) ⟨[], rfl⟩ (hloaded 13 rfl) hspan⟩
  | 1 =>
    obtain rfl := Option.some.inj hx
    have hspan : System.CallSpan twoVisits true (.visit (.fromV4 0x0B000001)) (.visited none) 19 23 := by
      refine ⟨by decide, by rfl, ?_, by rfl⟩
      intro i hlo hhi
      interval_cases i <;> rfl
    exact ⟨_, rfl, Served.locked hrun ⟨[], rfl⟩ (hloaded 19 rfl) hspan⟩
  | i + 2 => cases hx

end RcuFib

import RcuFib.Bench.Readers
import RcuFib.Mrt.Load
import RcuFib.Synthetic

/-! What the benchmark runs on (`bench/workload.cpp`): a generated table, or one read from a dump.

    A generated table starts with the default route. So no lookup of the benchmark misses, whatever the
    hit ratio of the keys, unless it runs on a dump. -/

namespace RcuFib
open SearchGraph Routine Trace RadixTrie Monitor Synthetic Address

namespace Dataset
variable {G : Type}

/-- The keys and the churn for a table. -/
def streams (R : Random G) (prefixes : List (Prefix .ipv4)) (seed : BitVec 64) : Option Dataset :=
  (generateTraffic R prefixes (2 ^ 20) seed 0.99).map fun traffic =>
    ⟨prefixes, traffic, generateChurnIndices R prefixes.length (2 ^ 18) seed 0.05⟩

/-- `build_dataset(config)` -/
def build (R : Random G) (prefixCount : Nat) (seed : BitVec 64) (fuel : Nat) : Option Dataset :=
  (generatePrefixes R { prefixCount, seed } fuel).bind fun prefixes => streams R prefixes seed

/-- `load_real_table(data, path, config)`: the error, and the dataset afterwards. -/
def loadReal (R : Random G) (files : Mrt.Files) (data : Dataset) (path : String) (prefixCount : Nat)
    (seed : BitVec 64) : Option (String × Dataset) :=
  (Mrt.loadMrtPrefixes files path prefixCount).bind fun loaded =>
    if !loaded.ok then some (loaded.error, data)
    else if loaded.prefixes = [] then some ("the dump contained no IPv4 prefixes", data)
    else (streams R (loaded.prefixes.insertionSort le) seed).map fun data => ("", data)

/-- Every key and every pick of the writer is there. -/
def Supplied (data : Dataset) : Prop :=
  ∀ index, (∀ i, (data.key index i).isSome) ∧ (data.pick index).isSome

variable {R : Random G} {prefixes : List (Prefix .ipv4)} {data : Dataset}

/-- The streams for a table that is not empty. -/
theorem streams_supplied (hne : prefixes ≠ []) (seed : BitVec 64) :
    ∃ data, streams R prefixes seed = some data ∧ data.prefixes = prefixes ∧ data.Supplied := by
  have hpos := List.length_pos_of_ne_nil hne
  obtain ⟨traffic, htraffic, hlength, -⟩ := traffic_drawn (R := R) hne (2 ^ 20) seed 0.99
  obtain ⟨hchurn, -⟩ := churn_generated (R := R) hpos (2 ^ 18) seed 0.05
  refine ⟨_, by rw [streams, htraffic, Option.map_some], rfl, fun index => ⟨fun i => ?_, ?_⟩⟩
  · rw [key, List.getElem?_eq_getElem (Nat.mod_lt _ (by rw [hlength]; exact Nat.two_pow_pos 20))]
    rfl
  · rw [pick, List.getElem?_eq_getElem (Nat.mod_lt _ (by rw [hchurn]; exact Nat.two_pow_pos 18)),
      Option.bind_some, List.getElem?_eq_getElem (Nat.mod_lt _ hpos)]
    rfl

/-- A dump that cannot be used leaves the dataset as it was, and says why. -/
theorem loadReal_supplied {files : Mrt.Files} {path error : String} {prefixCount : Nat}
    {seed : BitVec 64} {data' : Dataset}
    (h : loadReal R files data path prefixCount seed = some (error, data')) :
    error = "" ∧ data'.Supplied ∨ error ≠ "" ∧ data' = data := by
  obtain ⟨loaded, -, hrest⟩ := Option.bind_eq_some_iff.mp h
  split at hrest
  · next hok =>
    obtain ⟨rfl, rfl⟩ := Prod.mk.inj (Option.some.inj hrest)
    refine .inr ⟨fun hempty => ?_, rfl⟩
    rw [Mrt.MrtResult.ok, hempty] at hok
    cases hok
  · split at hrest
    · obtain ⟨rfl, rfl⟩ := Prod.mk.inj (Option.some.inj hrest)
      exact .inr ⟨by decide, rfl⟩
    · next hne =>
      have hsorted : loaded.prefixes.insertionSort le ≠ [] := by
        rw [← List.length_pos_iff, List.length_insertionSort]
        exact List.length_pos_of_ne_nil hne
      obtain ⟨built, hbuilt, -, hsupplied⟩ := streams_supplied (R := R) hsorted seed
      rw [hbuilt, Option.map_some] at hrest
      obtain ⟨rfl, rfl⟩ := Prod.mk.inj (Option.some.inj hrest)
      exact .inl ⟨rfl, hsupplied⟩

theorem covers_defaultRoute (h : defaultRoute ∈ data.prefixes) (a : Address .ipv4) :
    data.covers a = true := by
  rw [covers, List.any_eq_true]
  exact ⟨defaultRoute, h, by rw [defaultRoute, Prefix.contains_make]; simp⟩

/-- The generator has been at work. -/
theorem generated_of_some {options : Options} {fuel : Nat} {out : List (Prefix .ipv4)}
    (hblocks : options.allocationBlocks ≠ 0) (h : generatePrefixes R options fuel = some out) :
    ∃ blocks, Generated options blocks out := by
  obtain ⟨⟨blocks, g⟩, hcarve, -⟩ := Option.bind_eq_some_iff.mp h
  obtain ⟨out', hgenerated, hout'⟩ := generated_of_carve hblocks hcarve
  obtain rfl := Option.some.inj (h.symm.trans (hout' fuel hcarve))
  exact ⟨blocks, hgenerated⟩

theorem build_covers {prefixCount fuel : Nat} {seed : BitVec 64}
    (h : build R prefixCount seed fuel = some data) :
    data.Supplied ∧ ∀ a, data.covers a = true := by
  obtain ⟨prefixes, hprefixes, hstreams⟩ := Option.bind_eq_some_iff.mp h
  obtain ⟨blocks, hgenerated⟩ := generated_of_some (Nat.succ_ne_zero 399) hprefixes
  have hdefault := hgenerated.default rfl
  obtain ⟨data', hdata', hsame, hsupplied⟩ := streams_supplied (R := R) (List.ne_nil_of_mem hdefault) seed
  obtain rfl := Option.some.inj (hstreams.symm.trans hdata')
  exact ⟨hsupplied, fun a => covers_defaultRoute (hsame ▸ hdefault) a⟩

end Dataset

/-- On a generated table no reader counts a miss, whichever of the four tables it reads and however its
    threads take turns, and neither a reader nor the writer ever runs out of the streams. -/
theorem generated_never_misses {G : Type} {R : Random G} {data : Dataset} {prefixCount fuel : Nat}
    {seed : BitVec 64} {rounds : List (List (List (Prefix .ipv4)))}
    {batches : List (List (FibUpdate .ipv4))} {s : Churner} {T : Type} [DecidableEq T]
    (hbuild : Dataset.build R prefixCount seed fuel = some data)
    (hreach : Churner.init.churn data rounds = some (s, batches)) (cfg : Sampling) (index : UInt64)
    (xs : List Observation) (hserved : ∀ (i : Nat) (x : Observation), xs[i]? = some x →
      ∃ a, data.key index i = some a ∧ Served data batches T a x.entry) :
    data.Supplied ∧ (ReaderLoop.run cfg index xs).misses = 0 := by
  obtain ⟨hsupplied, hcovers⟩ := Dataset.build_covers hbuild
  obtain ⟨-, -, hmisses, -, -⟩ := ReaderLoop.counts_run cfg index xs
  refine ⟨hsupplied, ?_⟩
  rw [hmisses, List.countP_eq_zero]
  intro x hx hnone
  obtain ⟨i, hi⟩ := List.mem_iff_getElem?.mp ((ReaderLoop.kept_suffix xs).subset hx)
  obtain ⟨a, -, hserve⟩ := hserved i x hi
  have hmiss := (hserve.none_iff hreach).mp (Option.isNone_iff_eq_none.mp hnone)
  rw [hcovers a] at hmiss
  cases hmiss

/-! ### A generated table -/

theorem nineteen_le : 19 ≤ Width.ipv4.bits := by decide
theorem twentyTwo_le : 22 ≤ Width.ipv4.bits := by decide
theorem twentyFive_le : 25 ≤ Width.ipv4.bits := by decide

def thirdRoute : Prefix .ipv4 := .make (fromV4 0x1D02EC00#32) 22 twentyTwo_le

/-- The default route and three networks far apart. -/
def fourRoutes : List (Prefix .ipv4) := [defaultRoute, .make (fromV4 0x14970000#32) 19 nineteen_le,
  thirdRoute, .make (fromV4 0x26025F00#32) 25 twentyFive_le]

theorem generate_four : generatePrefixes counter { prefixCount := 4, seed := 0 } 406 = some fourRoutes := by
  have hcarve := carve_eq_draws (R := counter) 400 406 [] (counter.seeded 0)
  rw [List.length_nil, Nat.zero_add] at hcarve
  rw [generatePrefixes, hcarve]
  decide +kernel

/-- Every pick is of the hot slice, which has one route, and the first two keys are in the last route and in
    that one. -/
theorem build_four : ∃ traffic churn, Dataset.build counter 4 0 406 = some ⟨fourRoutes, traffic, churn⟩ ∧
    (∀ index, Dataset.pick ⟨fourRoutes, traffic, churn⟩ index = some thirdRoute) ∧
    Dataset.key ⟨fourRoutes, traffic, churn⟩ 0 0 = some (fromV4 0x26025F50#32) ∧
    Dataset.key ⟨fourRoutes, traffic, churn⟩ 0 1 = some (fromV4 0x1D02EDD3#32) := by
  have hne : fourRoutes ≠ [] := List.cons_ne_nil _ _
  obtain ⟨traffic, htraffic, hlength, hdrawn⟩ := traffic_drawn (R := counter) hne (2 ^ 20) 0 0.99
  obtain ⟨hchurn, hpicks⟩ := churn_generated (R := counter) (List.length_pos_of_ne_nil hne) (2 ^ 18) 0 0.05
  have hhot : hotSize fourRoutes.length 0.05 = 1 := by
    have hfloor : ⌊((fourRoutes.length : ℕ) : ℚ) * 0.05⌋₊ = 0 :=
      Nat.floor_eq_zero.mpr (by norm_num [fourRoutes])
    rw [hotSize, hfloor]
    rfl
  have hkey : ∀ i, i < 2 ^ 20 → Dataset.key ⟨fourRoutes, traffic, generateChurnIndices counter
      fourRoutes.length (2 ^ 18) 0 0.05⟩ 0 i = (key counter fourRoutes 0.99
        (after (key counter fourRoutes 0.99) i (counter.seeded (0#64 ^^^ 0xA11CE#64)))).1 := by
    intro i hi
    have hindex : (0 + UInt64.ofNat i).toNat % traffic.length = i := by
      rw [UInt64.zero_add, hlength, UInt64.toNat_ofNat_of_lt' (hi.trans (by decide)), Nat.mod_eq_of_lt hi]
    have hlt : i < traffic.length := hlength ▸ hi
    rw [Dataset.key, hindex, List.getElem?_eq_getElem hlt]
    exact (hdrawn i _ (List.getElem?_eq_getElem hlt)).symm
  refine ⟨traffic, generateChurnIndices counter fourRoutes.length (2 ^ 18) 0 0.05, ?_, ?_, ?_, ?_⟩
  · rw [Dataset.build, generate_four, Option.bind_some, Dataset.streams, htraffic, Option.map_some]
  · intro index
    have hlt : index.toNat % (2 ^ 18) <
        (generateChurnIndices counter fourRoutes.length (2 ^ 18) 0 0.05).length := by
      rw [hchurn]
      exact Nat.mod_lt _ (Nat.two_pow_pos 18)
    obtain ⟨-, hslice⟩ := hpicks _ _ (List.getElem?_eq_getElem hlt)
    obtain ⟨k, hk, heq⟩ := hslice (coin_counter _)
    obtain rfl : k = 0 := by omega
    rw [Dataset.pick, hchurn, List.getElem?_eq_getElem hlt, Option.bind_some, heq]
    rfl
  · exact (hkey 0 (by decide)).trans (by decide +kernel)
  · exact (hkey 1 (by decide)).trans (by decide +kernel)

/-- The batch of a round of two picks. -/
def fourBatch : List (FibUpdate .ipv4) := [⟨thirdRoute, ⟨⟨3, 1, 0, 0⟩, .bgp, 1⟩, .add⟩]

/-- The table is loaded and read, has the third route replaced, and is read again. -/
def fourActions : List (Monitor.Action Bool (LockedCall .ipv4)) := List.flatten
  [[.call false (.apply (Dataset.preload ⟨fourRoutes, [], []⟩)), .lock false], List.replicate 42 (.step false),
    [.unlock false, .call true (.visit (fromV4 0x26025F50#32)), .lock true], List.replicate 7 (.step true),
    [.unlock true, .call false (.apply fourBatch), .lock false], List.replicate 9 (.step false),
    [.unlock false, .call true (.visit (fromV4 0x1D02EDD3#32)), .lock true], List.replicate 9 (.step true),
    [.unlock true]]

def fourVisits : Nat → LockedFib Bool .ipv4 :=
  play (System.act (Locking.mutex.calls .ipv4)) (System.init .empty) fourActions

/-- The entries that the two visits return. -/
def fourTurns : List Observation :=
  [⟨true, some ⟨⟨3, 3, 0, 0⟩, .bgp, 1⟩, 5⟩, ⟨true, some ⟨⟨3, 1, 0, 0⟩, .bgp, 1⟩, 5⟩]

theorem generated_never_misses_fourVisits : ∃ data s, Dataset.build counter 4 0 406 = some data ∧
    Churner.init.churn data [[[thirdRoute], [thirdRoute]]] = some (s, [fourBatch]) ∧
    data.Supplied ∧ (ReaderLoop.run ⟨128, 200000⟩ 0 fourTurns).misses = 0 := by
  obtain ⟨traffic, churn, hbuild, hpick, hfirst, hsecond⟩ := build_four
  obtain ⟨s, hreach⟩ : ∃ s, Churner.init.churn ⟨fourRoutes, traffic, churn⟩ [[[thirdRoute], [thirdRoute]]] =
      some (s, [fourBatch]) := by
    have hpick' : ∀ index, Dataset.pick ⟨fourRoutes, [], [2]⟩ index = some thirdRoute := by
      intro index
      rw [Dataset.pick, List.length_singleton, Nat.mod_one]
      rfl
    rw [Churner.churn_congr fun index => (hpick index).trans (hpick' index).symm]
    exact ⟨_, rfl⟩
  have hrun : Run (System.act (Locking.mutex.calls .ipv4)) (System.init .empty) fourVisits 79 :=
    run_play (by rfl)
  refine ⟨_, s, hbuild, hreach, generated_never_misses (T := Bool) hbuild hreach ⟨128, 200000⟩ 0 _ ?_⟩
  intro i x hx
  match i with
  | 0 =>
    obtain rfl := Option.some.inj hx
    have hspan : System.CallSpan fourVisits true (.visit (fromV4 0x26025F50#32))
        (.visited (some ⟨3, ⟨⟨3, 3, 0, 0⟩, .bgp, 1⟩⟩)) 46 55 := by
      refine ⟨by decide, by rfl, ?_, by rfl⟩
      intro i hlo hhi
      interval_cases i <;> rfl
    refine ⟨_, hfirst, Served.locked (hrun.take (by decide)) ⟨[.apply fourBatch], rfl⟩ ?_ hspan⟩
    exact fun hnil => absurd (congrArg List.length hnil) (by decide)
  | 1 =>
    obtain rfl := Option.some.inj hx
    have hspan : System.CallSpan fourVisits true (.visit (fromV4 0x1D02EDD3#32))
        (.visited (some ⟨4, ⟨⟨3, 1, 0, 0⟩, .bgp, 1⟩⟩)) 68 79 := by
      refine ⟨by decide, by rfl, ?_, by rfl⟩
      intro i hlo hhi
      interval_cases i <;> rfl
    refine ⟨_, hsecond, Served.locked hrun ⟨[], rfl⟩ ?_ hspan⟩
    exact fun hnil => absurd (congrArg List.length hnil) (by decide)
  | i + 2 => cases hx

end RcuFib

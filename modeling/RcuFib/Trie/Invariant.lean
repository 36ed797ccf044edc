import RcuFib.Trie.Heap
import Mathlib.Data.Finset.Card
import Mathlib.Data.Finset.Image

/-! The representation invariant of the trie and the effect of each store on it.

    `Rep t priv M ds dn` says that the heap is well formed while the writer still owns the
    unpublished nodes `priv`, that the linked nodes spell the table `M`, and that the two counters
    lag behind by `ds` prefixes and `dn` nodes. Every routine of the writer is a sequence of the
    primitive steps below, so its proof is a chain of their lemmas.

    `Evolves` is the reader's half: what a thread that holds node pointers may rely on when the
    writer makes a step. -/

namespace RcuFib
open SearchGraph

namespace RadixTrie
variable {w : Width} {V : Type*}

/-- The table: a prefix is stored when a linked node with its bits carries a value. -/
def Stored (t : RadixTrie w V) (p : Prefix w) (b : Box V) : Prop :=
  ∃ n, t.Linked n ∧ (t.nodes n).pfx = p ∧ (t.nodes n).value = some b

abbrev Table (w : Width) (V : Type*) := Prefix w → Option (Box V)

open Classical in
/-- The prefix-to-value map the linked nodes represent. -/
noncomputable def table (t : RadixTrie w V) : Table w V := fun p =>
  if h : ∃ b, t.Stored p b then some h.choose else none

structure Inv (t : RadixTrie w V) (priv : List Nat) : Prop where
  ordered : t.graph.Ordered
  root_lt : ∀ n, t.root = some n → n < t.nextNode
  child_lt : ∀ n b c, (t.nodes n).child b = some c → n < t.nextNode ∧ c < t.nextNode
  priv_unlinked : ∀ n ∈ priv, n < t.nextNode ∧ ¬ t.Linked n
  /-- Only private nodes point to private nodes. -/
  priv_closed : ∀ m b n, (t.nodes m).child b = some n → n ∈ priv → m ∈ priv
  box_lt : ∀ n v, (t.nodes n).value = some v → v.address < t.nextBox
  box_unique : ∀ n m v u, (t.nodes n).value = some v → (t.nodes m).value = some u →
    v.address = u.address → n = m

/-- Only linked or still private nodes carry a value. Lost for good once `clear` has run. -/
def Silent (t : RadixTrie w V) (priv : List Nat) : Prop :=
  ∀ n, ¬ t.Linked n → n ∉ priv → (t.nodes n).value = none

/-- Allocated and not private to the writer. -/
def Known (t : RadixTrie w V) (priv : List Nat) (x : Nat) : Prop := x < t.nextNode ∧ x ∉ priv

open Classical in
noncomputable def linkedSet (t : RadixTrie w V) : Finset Nat :=
  (Finset.range t.nextNode).filter t.Linked

open Classical in
noncomputable def valuedSet (t : RadixTrie w V) : Finset Nat :=
  t.linkedSet.filter fun n => (t.nodes n).value ≠ none

structure Rep (t : RadixTrie w V) (priv : List Nat) (M : Table w V) (ds dn : Int) : Prop where
  inv : t.Inv priv
  table_eq : t.table = M
  size_eq : (t.valuedSet.card : Int) = t.size + ds
  nodes_eq : (t.linkedSet.card : Int) = t.nodeCount + dn

/-- What the other threads may rely on across a step of the writer. -/
structure Evolves (t : RadixTrie w V) (priv : List Nat) (t' : RadixTrie w V) (priv' : List Nat) :
    Prop where
  known : ∀ x, t.Known priv x → t'.Known priv' x
  pfx : ∀ x, t.Known priv x → (t'.nodes x).pfx = (t.nodes x).pfx
  /-- From a known node only linked nodes become newly reachable. -/
  reach : ∀ x m, t.Known priv x → t'.graph.Reach (some x) m → t.graph.Reach (some x) m ∨ t'.Linked m
  /-- A search under way keeps leading to every node that is linked afterwards. -/
  walk : ∀ q x m, t.Known priv x → t.graph.Walk q (some x) m → t'.Linked m →
    (t'.nodes m).pfx.bits <+: q → t'.graph.Walk q (some x) m
  linked : ∀ m, t'.Linked m → t.Linked m ∨ m ∈ priv
  /-- No node that carries a value is unlinked. -/
  stays : ∀ m, t.Linked m → (t.nodes m).value ≠ none → t'.Linked m
  silent : t.Silent priv → t'.Silent priv'
  table : ∃ p, ∀ q, q ≠ p → t'.table q = t.table q

variable {t t' : RadixTrie w V} {priv : List Nat} {M : Table w V} {ds dn : Int}

/-! ### Consequences of the invariant -/

namespace Inv

theorem reach_lt (h : t.Inv priv) {n m : Nat} (hn : n < t.nextNode)
    (hr : t.graph.Reach (some n) m) : m < t.nextNode := by
  generalize hp : some n = p at hr
  induction hr generalizing n with
  | here => cases hp; exact hn
  | @down k m b hr ih =>
    cases hc : t.graph.child k b with
    | none => rw [hc] at hr; exact absurd hr Graph.not_reach_none
    | some c => exact ih (h.child_lt k b c hc).2 hc.symm

theorem linked_lt (h : t.Inv priv) {n : Nat} (hn : t.Linked n) : n < t.nextNode := by
  have hr : t.graph.Reach t.root n := hn
  cases hroot : t.root with
  | none => rw [hroot] at hr; exact absurd hr Graph.not_reach_none
  | some r => rw [hroot] at hr; exact h.reach_lt (h.root_lt r hroot) hr

theorem linked_not_priv (h : t.Inv priv) {n : Nat} (hn : t.Linked n) : n ∉ priv :=
  fun hp => (h.priv_unlinked n hp).2 hn

theorem linked_known (h : t.Inv priv) {n : Nat} (hn : t.Linked n) : t.Known priv n :=
  ⟨h.linked_lt hn, h.linked_not_priv hn⟩

theorem reach_known (h : t.Inv priv) {x m : Nat} (hx : t.Known priv x)
    (hr : t.graph.Reach (some x) m) : t.Known priv m := by
  generalize hp : some x = p at hr
  induction hr generalizing x with
  | here => cases hp; exact hx
  | @down k m b hr ih =>
    cases hp
    cases hc : t.graph.child k b with
    | none => rw [hc] at hr; exact absurd hr Graph.not_reach_none
    | some c =>
      exact ih ⟨(h.child_lt k b c hc).2, fun hcp => hx.2 (h.priv_closed k b c hc hcp)⟩ hc.symm

theorem linked_unique (h : t.Inv priv) {n m : Nat} (hn : t.Linked n) (hm : t.Linked m)
    (hp : (t.nodes n).pfx = (t.nodes m).pfx) : n = m :=
  Graph.reach_unique h.ordered hn hm (congrArg Prefix.bits hp)

theorem stored_unique (h : t.Inv priv) {p : Prefix w} {b c : Box V} (hb : t.Stored p b)
    (hc : t.Stored p c) : b = c := by
  obtain ⟨n, hn, hnp, hnv⟩ := hb
  obtain ⟨m, hm, hmp, hmv⟩ := hc
  obtain rfl := h.linked_unique hn hm (hnp.trans hmp.symm)
  exact Option.some.inj (hnv.symm.trans hmv)

theorem table_eq_some (h : t.Inv priv) {p : Prefix w} {b : Box V} :
    t.table p = some b ↔ t.Stored p b := by
  unfold RadixTrie.table
  split
  · next hex =>
    rw [Option.some.injEq]
    exact ⟨fun e => e ▸ hex.choose_spec, fun hb => h.stored_unique hex.choose_spec hb⟩
  · next hex => exact ⟨nofun, fun hb => absurd ⟨b, hb⟩ hex⟩

theorem table_eq_none (h : t.Inv priv) {p : Prefix w} :
    t.table p = none ↔ ∀ n, t.Linked n → (t.nodes n).pfx = p → (t.nodes n).value = none := by
  rw [Option.eq_none_iff_forall_ne_some]
  constructor
  · intro hall n hn hp
    cases hv : (t.nodes n).value with
    | none => rfl
    | some b => exact absurd (h.table_eq_some.mpr ⟨n, hn, hp, hv⟩) (hall b)
  · intro hall b hb
    obtain ⟨n, hn, hp, hv⟩ := h.table_eq_some.mp hb
    rw [hall n hn hp] at hv
    cases hv

/-- At a linked node the table holds the node's value. -/
theorem table_at (h : t.Inv priv) {n : Nat} (hn : t.Linked n) :
    t.table (t.nodes n).pfx = (t.nodes n).value := by
  cases hv : (t.nodes n).value with
  | some b => exact h.table_eq_some.mpr ⟨n, hn, rfl, hv⟩
  | none =>
    refine h.table_eq_none.mpr fun m hm hp => ?_
    rw [h.linked_unique hm hn hp]; exact hv

theorem mem_linkedSet (h : t.Inv priv) {n : Nat} : n ∈ t.linkedSet ↔ t.Linked n := by
  simp only [linkedSet, Finset.mem_filter, Finset.mem_range, and_iff_right_iff_imp]
  exact h.linked_lt

theorem mem_valuedSet (h : t.Inv priv) {n : Nat} :
    n ∈ t.valuedSet ↔ t.Linked n ∧ (t.nodes n).value ≠ none := by
  rw [valuedSet, Finset.mem_filter, h.mem_linkedSet]

end Inv

theorem inv_empty : (empty : RadixTrie w V).Inv [] :=
  ⟨nofun, nofun, nofun, nofun, nofun, nofun, nofun⟩

/-- Without a root the table is empty, whatever the counters say. -/
theorem rep_of_root_none (h : t.Inv []) (hr : t.root = none) :
    t.Rep [] (fun _ => none) (-t.size) (-t.nodeCount) := by
  have hl : ∀ n, ¬ t.Linked n := fun n hn => by
    have hn : t.graph.Reach t.root n := hn
    rw [hr] at hn; exact Graph.not_reach_none hn
  have hls : t.linkedSet = ∅ := Finset.eq_empty_iff_forall_notMem.mpr fun n hn =>
    hl n (h.mem_linkedSet.mp hn)
  have hvs : t.valuedSet = ∅ := Finset.eq_empty_iff_forall_notMem.mpr fun n hn =>
    hl n (h.mem_valuedSet.mp hn).1
  refine ⟨h, funext fun p => h.table_eq_none.mpr fun n hn => absurd hn (hl n), ?_, ?_⟩
  · rw [hvs]; simp
  · rw [hls]; simp

/-! ### Steps that leave the linked nodes alone -/

section same
variable {priv' : List Nat}

theorem stored_of_same (hl : ∀ n, t'.Linked n ↔ t.Linked n)
    (hv : ∀ n, t.Linked n → (t'.nodes n).pfx = (t.nodes n).pfx ∧ (t'.nodes n).value = (t.nodes n).value)
    (p : Prefix w) (b : Box V) : t'.Stored p b ↔ t.Stored p b := by
  constructor
  · rintro ⟨n, hn, hp, hb⟩
    have hn' := (hl n).mp hn
    exact ⟨n, hn', (hv n hn').1 ▸ hp, (hv n hn').2 ▸ hb⟩
  · rintro ⟨n, hn, hp, hb⟩
    exact ⟨n, (hl n).mpr hn, (hv n hn).1.trans hp, (hv n hn).2.trans hb⟩

theorem table_of_stored (h : t.Inv priv) (h' : t'.Inv priv')
    (hs : ∀ p b, t'.Stored p b ↔ t.Stored p b) : t'.table = t.table := by
  funext p
  refine Option.ext fun b => ?_
  rw [h'.table_eq_some, h.table_eq_some, hs]

theorem Rep.of_same (h : t.Rep priv M ds dn) (h' : t'.Inv priv')
    (hl : ∀ n, t'.Linked n ↔ t.Linked n)
    (hv : ∀ n, t.Linked n → (t'.nodes n).pfx = (t.nodes n).pfx ∧ (t'.nodes n).value = (t.nodes n).value)
    {es en : Int} (hsize : (t'.size : Int) + es = t.size + ds)
    (hcount : (t'.nodeCount : Int) + en = t.nodeCount + dn) : t'.Rep priv' M es en := by
  have hls : t'.linkedSet = t.linkedSet :=
    Finset.ext fun n => by rw [h'.mem_linkedSet, h.inv.mem_linkedSet, hl]
  have hvs : t'.valuedSet = t.valuedSet := by
    refine Finset.ext fun n => ?_
    rw [h'.mem_valuedSet, h.inv.mem_valuedSet, hl]
    exact and_congr_right fun hn => by rw [(hv n hn).2]
  refine ⟨h', ?_, by rw [hvs, hsize, h.size_eq], by rw [hls, hcount, h.nodes_eq]⟩
  rw [table_of_stored h.inv h' (stored_of_same hl hv), h.table_eq]

/-- A step that changes neither the linked nodes nor what any known node points to. -/
theorem Evolves.of_same (h : t.Inv priv) (h' : t'.Inv priv')
    (hk : ∀ x, t.Known priv x → t'.Known priv' x)
    (hc : ∀ x, t.Known priv x →
      (t'.nodes x).child = (t.nodes x).child ∧ (t'.nodes x).pfx = (t.nodes x).pfx)
    (hl : ∀ n, t'.Linked n ↔ t.Linked n)
    (hv : ∀ n, t.Linked n → (t'.nodes n).value = (t.nodes n).value)
    (hs : ∀ n, n ∉ priv' → (t'.nodes n).value = none ∨
      n ∉ priv ∧ (t'.nodes n).value = (t.nodes n).value) :
    t.Evolves priv t' priv' where
  known := hk
  pfx x hx := (hc x hx).2
  reach x m hx hr := .inl <| (Graph.reach_congr_iff fun n hn =>
    (hc n (h.reach_known hx hn)).1).mp hr
  walk q x m hx hw _ _ := Graph.walk_congr (fun n hn =>
    ⟨(hc n (h.reach_known hx hn)).1, congrArg Prefix.bits (hc n (h.reach_known hx hn)).2⟩) hw
  linked m hm := .inl ((hl m).mp hm)
  stays m hm _ := (hl m).mpr hm
  silent h n hn hp := by
    rcases hs n hp with hs | ⟨hp, hs⟩
    · exact hs
    · rw [hs, h n (fun hn' => hn ((hl n).mpr hn')) hp]
  table := by
    have hs := stored_of_same hl fun n hn => ⟨(hc n (h.linked_known hn)).2, hv n hn⟩
    exact ⟨.make (.zero w) 0 (Nat.zero_le _), fun q _ => by rw [table_of_stored h h' hs]⟩

end same

theorem linked_of_child (hr : t'.root = t.root)
    (hc : ∀ x, t.Linked x → (t'.nodes x).child = (t.nodes x).child) (n : Nat) :
    t'.Linked n ↔ t.Linked n := by
  have hroot : t'.graph.root = t.graph.root := hr
  show t'.graph.Reach t'.graph.root n ↔ _
  rw [hroot]
  exact Graph.reach_congr_iff fun x hx => hc x hx

/-- Counters and fresh boxes: the heap stays as it is. -/
theorem Inv.quiet (h : t.Inv priv) (hr : t'.root = t.root) (hn : t'.nodes = t.nodes)
    (hnext : t'.nextNode = t.nextNode) (hbox : t.nextBox ≤ t'.nextBox) : t'.Inv priv := by
  have hg : t'.graph = t.graph := by simp [graph, hr, hn]
  have hl : ∀ n, t'.Linked n ↔ t.Linked n := fun n => by rw [Linked, hg]
  refine ⟨hg ▸ h.ordered, by rw [hr, hnext]; exact h.root_lt, by rw [hn, hnext]; exact h.child_lt,
    fun n hp => ?_, by rw [hn]; exact h.priv_closed, fun n v hv => ?_,
    by rw [hn]; exact h.box_unique⟩
  · rw [hnext, hl]; exact h.priv_unlinked n hp
  · rw [hn] at hv; exact lt_of_lt_of_le (h.box_lt n v hv) hbox

theorem Rep.quiet (h : t.Rep priv M ds dn) (hr : t'.root = t.root) (hn : t'.nodes = t.nodes)
    (hnext : t'.nextNode = t.nextNode) (hbox : t.nextBox ≤ t'.nextBox) {es en : Int}
    (hsize : (t'.size : Int) + es = t.size + ds)
    (hcount : (t'.nodeCount : Int) + en = t.nodeCount + dn) : t'.Rep priv M es en :=
  h.of_same (h.inv.quiet hr hn hnext hbox) (linked_of_child hr fun _ _ => by rw [hn])
    (fun _ _ => by rw [hn]; exact ⟨rfl, rfl⟩) hsize hcount

theorem Evolves.quiet (h : t.Inv priv) (hr : t'.root = t.root) (hn : t'.nodes = t.nodes)
    (hnext : t'.nextNode = t.nextNode) (hbox : t.nextBox ≤ t'.nextBox) : t.Evolves priv t' priv :=
  .of_same h (h.quiet hr hn hnext hbox) (fun _ hx => ⟨hnext ▸ hx.1, hx.2⟩)
    (fun _ _ => by rw [hn]; exact ⟨rfl, rfl⟩) (linked_of_child hr fun _ _ => by rw [hn])
    (fun _ _ => by rw [hn]) (fun _ hp => .inr ⟨hp, by rw [hn]⟩)

theorem Evolves.refl (h : t.Inv priv) : t.Evolves priv t priv := .quiet h rfl rfl rfl le_rfl

/-! ### Private nodes -/

section newNode
variable {pfx : Prefix w}

theorem linked_newNode (h : t.Inv priv) (n : Nat) : (t.newNode pfx).Linked n ↔ t.Linked n := by
  have hc : ∀ x, t.Linked x → ((t.newNode pfx).nodes x).child = (t.nodes x).child := by
    intro x hx
    rw [nodes_newNode, if_neg (h.linked_lt hx).ne]
  exact linked_of_child (by rfl) hc n

theorem Inv.newNode (h : t.Inv priv) : (t.newNode pfx).Inv (t.nextNode :: priv) := by
  have hnodes : ∀ n, n < t.nextNode → (t.newNode pfx).nodes n = t.nodes n := fun n hn => by
    rw [nodes_newNode, if_neg hn.ne]
  have hchild : ∀ n b c, ((t.newNode pfx).nodes n).child b = some c →
      n < t.nextNode ∧ c < t.nextNode ∧ (t.nodes n).child b = some c := by
    intro n b c hc
    rw [nodes_newNode] at hc
    split at hc
    · cases hc
    · exact ⟨(h.child_lt n b c hc).1, (h.child_lt n b c hc).2, hc⟩
  have hvalue : ∀ n v, ((t.newNode pfx).nodes n).value = some v → (t.nodes n).value = some v := by
    intro n v hv
    rw [nodes_newNode] at hv
    split at hv
    · cases hv
    · exact hv
  refine ⟨fun n b c hc => ?_, fun n hn => ?_, fun n b c hc => ?_, fun n hp => ?_, fun m b n hc hp => ?_, fun n v hv => h.box_lt n v (hvalue n v hv),
    fun n m v u hv hu => h.box_unique n m v u (hvalue n v hv) (hvalue m u hu)⟩
  · obtain ⟨hn, hc', hold⟩ := hchild n b c hc
    rw [key_graph, key_graph, hnodes n hn, hnodes c hc']
    exact h.ordered n b c hold
  · exact Nat.lt_succ_of_lt (h.root_lt n hn)
  · exact ⟨Nat.lt_succ_of_lt (hchild n b c hc).1, Nat.lt_succ_of_lt (hchild n b c hc).2.1⟩
  · rw [linked_newNode h]
    rcases List.mem_cons.mp hp with rfl | hp
    · exact ⟨Nat.lt_succ_self _, fun hl => absurd (h.linked_lt hl) (lt_irrefl _)⟩
    · exact ⟨Nat.lt_succ_of_lt (h.priv_unlinked n hp).1, (h.priv_unlinked n hp).2⟩
  · obtain ⟨_, hn, hold⟩ := hchild m b n hc
    rcases List.mem_cons.mp hp with rfl | hp
    · exact absurd hn (lt_irrefl _)
    · exact List.mem_cons_of_mem _ (h.priv_closed m b n hold hp)

theorem Rep.newNode (h : t.Rep priv M ds dn) : (t.newNode pfx).Rep (t.nextNode :: priv) M ds dn :=
  h.of_same h.inv.newNode (linked_newNode h.inv) (fun n hn => by
    rw [nodes_newNode, if_neg (h.inv.linked_lt hn).ne]; exact ⟨rfl, rfl⟩) rfl rfl

theorem Evolves.newNode (h : t.Inv priv) :
    t.Evolves priv (t.newNode pfx) (t.nextNode :: priv) :=
  .of_same h h.newNode
    (fun x hx => ⟨Nat.lt_succ_of_lt hx.1, fun hm =>
      (List.mem_cons.mp hm).elim (fun he => absurd hx.1 (he ▸ lt_irrefl _)) hx.2⟩)
    (fun x hx => by rw [nodes_newNode, if_neg hx.1.ne]; exact ⟨rfl, rfl⟩) (linked_newNode h)
    (fun n hn => by rw [nodes_newNode, if_neg (h.linked_lt hn).ne])
    (fun n hp => by
      rw [List.mem_cons, not_or] at hp
      exact .inr ⟨hp.2, by rw [nodes_newNode, if_neg hp.1]⟩)

end newNode

/-- A box that exists and hangs off no node: not attached yet, or taken out again. -/
def Detached (t : RadixTrie w V) (b : Box V) : Prop :=
  b.address < t.nextBox ∧ ∀ n u, (t.nodes n).value = some u → u.address ≠ b.address

section privValue
variable {k : Nat} {b : Box V}

theorem linked_storeValue (v : Option (Box V)) (n : Nat) : (t.storeValue k v).Linked n ↔ t.Linked n := by
  rw [Linked, graph_storeValue]

/-- Attaching a fresh box, or nothing, keeps boxes distinct. -/
theorem box_storeValue (h : t.Inv priv) {v : Option (Box V)} (hv : ∀ b, v = some b → t.Detached b) :
    (∀ n u, ((t.storeValue k v).nodes n).value = some u → u.address < t.nextBox) ∧
    ∀ n m u u', ((t.storeValue k v).nodes n).value = some u →
      ((t.storeValue k v).nodes m).value = some u' → u.address = u'.address → n = m := by
  simp only [value_storeValue]
  refine ⟨fun n u hu => ?_, fun n m u u' hu hu' he => ?_⟩
  · split at hu
    · exact (hv u hu).1
    · exact h.box_lt n u hu
  · split at hu <;> split at hu'
    · next hn hm => rw [hn, hm]
    · exact absurd he.symm ((hv u hu).2 m u' hu')
    · exact absurd he ((hv u' hu').2 n u hu)
    · exact h.box_unique n m u u' hu hu' he

theorem Inv.storeValue (h : t.Inv priv) {v : Option (Box V)}
    (hv : ∀ b, v = some b → t.Detached b) : (t.storeValue k v).Inv priv := by
  have hbox := box_storeValue (k := k) h hv
  refine ⟨by rw [graph_storeValue]; exact h.ordered, h.root_lt, fun n b c hc => ?_,
    fun n hp => ?_, fun m b n hc hp => ?_, hbox.1, hbox.2⟩
  · rw [child_storeValue] at hc; exact h.child_lt n b c hc
  · rw [linked_storeValue]; exact h.priv_unlinked n hp
  · rw [child_storeValue] at hc; exact h.priv_closed m b n hc hp

theorem Rep.privValue (h : t.Rep priv M ds dn) (hk : k ∈ priv) (hb : t.Detached b) :
    (t.storeValue k (some b)).Rep priv M ds dn := by
  have hv : ∀ c, some b = some c → t.Detached c := fun c hc => Option.some.inj hc ▸ hb
  refine h.of_same (h.inv.storeValue hv) (linked_storeValue _) (fun n hn => ?_) rfl rfl
  rw [pfx_storeValue, value_storeValue, if_neg]
  · exact ⟨rfl, rfl⟩
  · rintro rfl; exact h.inv.linked_not_priv hn hk

theorem Evolves.privValue (h : t.Inv priv) (hk : k ∈ priv) (hb : t.Detached b) :
    t.Evolves priv (t.storeValue k (some b)) priv := by
  have hv : ∀ c, some b = some c → t.Detached c := fun c hc => Option.some.inj hc ▸ hb
  refine .of_same h (h.storeValue hv) (fun _ hx => hx) (fun _ _ => by simp)
    (linked_storeValue _) (fun n hn => ?_) (fun n hp => .inr ⟨hp, ?_⟩)
  · rw [value_storeValue, if_neg]
    rintro rfl; exact h.linked_not_priv hn hk
  · rw [value_storeValue, if_neg]
    rintro rfl; exact hp hk

end privValue

section privChild
variable {k c : Nat} {b : Bool}

theorem child_storeChild_of_ne {x : Nat} {p : Option Nat} (h : x ≠ k) :
    ((t.storeSlot (.child k b) p).nodes x).child = (t.nodes x).child := by
  simp [storeSlot, h]

theorem child_storeSlot {s : Slot Nat} {p : Option Nat} {n : Nat} {d : Bool} {e : Nat}
    (h : ((t.storeSlot s p).nodes n).child d = some e) : p = some e ∧ s = .child n d ∨
      (t.nodes n).child d = some e := by
  have hg : (t.graph.set s p).get (.child n d) = some e := by
    rw [← graph_storeSlot]; exact h
  by_cases hs : Slot.child n d = s
  · subst hs
    rw [Graph.get_set] at hg
    exact .inl ⟨hg, rfl⟩
  · rw [Graph.get_set_of_ne hs] at hg
    exact .inr hg

theorem linked_privChild (h : t.Inv priv) (hk : k ∈ priv) (n : Nat) :
    (t.storeSlot (.child k b) (some c)).Linked n ↔ t.Linked n := by
  have hc : ∀ x, t.Linked x →
      ((t.storeSlot (.child k b) (some c)).nodes x).child = (t.nodes x).child := by
    intro x hx
    refine child_storeChild_of_ne ?_
    rintro rfl; exact h.linked_not_priv hx hk
  exact linked_of_child (by rfl) hc n

theorem Inv.privChild (h : t.Inv priv) (hk : k ∈ priv) (hc : c < t.nextNode)
    (hord : (t.nodes k).pfx.bits ++ [b] <+: (t.nodes c).pfx.bits) :
    (t.storeSlot (.child k b) (some c)).Inv priv := by
  refine ⟨?_, h.root_lt, fun n d e he => ?_, fun n hp => ?_,
    fun m d n he hp => ?_, fun n v hv => ?_, fun n m v u hv hu => ?_⟩
  · rw [graph_storeSlot]
    exact Graph.ordered_set h.ordered fun e he => by cases he; exact hord
  · rw [nextNode_storeSlot]
    rcases child_storeSlot he with ⟨he, hs⟩ | he
    · cases he; cases hs; exact ⟨(h.priv_unlinked k hk).1, hc⟩
    · exact h.child_lt n d e he
  · rw [linked_privChild h hk, nextNode_storeSlot]; exact h.priv_unlinked n hp
  · rcases child_storeSlot he with ⟨_, hs⟩ | he
    · cases hs; exact hk
    · exact h.priv_closed m d n he hp
  · rw [value_storeSlot] at hv; exact h.box_lt n v hv
  · rw [value_storeSlot] at hv hu; exact h.box_unique n m v u hv hu

theorem Rep.privChild (h : t.Rep priv M ds dn) (hk : k ∈ priv) (hc : c < t.nextNode)
    (hord : (t.nodes k).pfx.bits ++ [b] <+: (t.nodes c).pfx.bits) :
    (t.storeSlot (.child k b) (some c)).Rep priv M ds dn :=
  h.of_same (h.inv.privChild hk hc hord) (linked_privChild h.inv hk) (fun _ _ => by simp) (by simp)
    (by simp)

theorem Evolves.privChild (h : t.Inv priv) (hk : k ∈ priv) (hc : c < t.nextNode)
    (hord : (t.nodes k).pfx.bits ++ [b] <+: (t.nodes c).pfx.bits) :
    t.Evolves priv (t.storeSlot (.child k b) (some c)) priv :=
  .of_same h (h.privChild hk hc hord) (fun _ hx => hx)
    (fun x hx => ⟨child_storeChild_of_ne (by rintro rfl; exact hx.2 hk), by simp⟩)
    (linked_privChild h hk) (fun _ _ => by simp) (fun _ hp => .inr ⟨hp, by simp⟩)

end privChild

end RadixTrie

end RcuFib

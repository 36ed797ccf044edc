import RcuFib.Trie.Invariant

/-! The stores readers can see: exchanging the value of a linked node, publishing private nodes
    through a linked slot, and unlinking a node from one. Each changes the table at one prefix or
    not at all, and each is a step readers can live with (`Evolves`). -/

namespace RcuFib
open SearchGraph

namespace RadixTrie
variable {w : Width} {V : Type*} {t : RadixTrie w V} {priv : List Nat} {M : Table w V}
  {ds dn : Int}

/-- How many prefixes a value slot accounts for. -/
def weight (v : Option (Box V)) : Int := if v = none then 0 else 1

/-! ### The value of a linked node -/

section exchange
variable {k : Nat} {v : Option (Box V)}

theorem stored_exchange (hk : t.Linked k) (h : t.Inv priv) (p : Prefix w) (b : Box V) :
    (t.storeValue k v).Stored p b ↔
      if p = (t.nodes k).pfx then v = some b else t.Stored p b := by
  constructor
  · rintro ⟨n, hn, hp, hb⟩
    rw [linked_storeValue] at hn
    rw [pfx_storeValue] at hp
    rw [value_storeValue] at hb
    by_cases hnk : n = k
    · subst hnk
      rw [if_pos hp.symm]
      rwa [if_pos rfl] at hb
    · rw [if_neg hnk] at hb
      rw [if_neg fun he => hnk (h.linked_unique hn hk (hp.trans he))]
      exact ⟨n, hn, hp, hb⟩
  · intro hb
    split at hb
    · next hp =>
      refine ⟨k, (linked_storeValue v k).mpr hk, by rw [pfx_storeValue, hp], ?_⟩
      rw [value_storeValue, if_pos rfl, hb]
    · next hp =>
      obtain ⟨n, hn, hnp, hnb⟩ := hb
      have hnk : n ≠ k := by rintro rfl; exact hp hnp.symm
      refine ⟨n, (linked_storeValue v n).mpr hn, by rw [pfx_storeValue, hnp], ?_⟩
      rw [value_storeValue, if_neg hnk, hnb]

theorem table_exchange (h : t.Inv priv) (hk : t.Linked k) (hv : ∀ b, v = some b → t.Detached b) :
    (t.storeValue k v).table = Function.update t.table (t.nodes k).pfx v := by
  have h' := h.storeValue (k := k) hv
  funext p
  refine Option.ext fun b => ?_
  rw [h'.table_eq_some, stored_exchange hk h, Function.update_apply]
  split
  · rfl
  · exact h.table_eq_some.symm

theorem card_exchange (h : t.Inv priv) (hk : t.Linked k) (hv : ∀ b, v = some b → t.Detached b) :
    ((t.storeValue k v).valuedSet.card : Int) =
      t.valuedSet.card + weight v - weight (t.nodes k).value := by
  have h' := h.storeValue (k := k) hv
  have hmem : ∀ n, n ∈ (t.storeValue k v).valuedSet ↔
      if n = k then v ≠ none else n ∈ t.valuedSet := by
    intro n
    rw [h'.mem_valuedSet, linked_storeValue, value_storeValue]
    split
    · next he => subst he; simp [hk]
    · rw [h.mem_valuedSet]
  have hold : k ∈ t.valuedSet ↔ (t.nodes k).value ≠ none := by
    rw [h.mem_valuedSet]; exact and_iff_right hk
  by_cases hnew : v = none
  · have hset : (t.storeValue k v).valuedSet = t.valuedSet.erase k := by
      refine Finset.ext fun n => ?_
      rw [hmem, Finset.mem_erase]
      by_cases hn : n = k <;> simp [hn, hnew]
    rw [hset]
    by_cases hval : (t.nodes k).value = none
    · rw [Finset.erase_eq_of_notMem (by rw [hold]; simpa using hval)]
      simp [weight, hnew, hval]
    · have hin := hold.mpr hval
      have hpos := Finset.card_pos.mpr ⟨k, hin⟩
      rw [Finset.card_erase_of_mem hin]
      simp only [weight, hnew, hval, if_true, if_false]
      omega
  · have hset : (t.storeValue k v).valuedSet = insert k t.valuedSet := by
      refine Finset.ext fun n => ?_
      rw [hmem, Finset.mem_insert]
      by_cases hn : n = k <;> simp [hn, hnew]
    rw [hset]
    by_cases hval : (t.nodes k).value = none
    · rw [Finset.card_insert_of_notMem (by rw [hold]; simpa using hval)]
      simp [weight, hnew, hval]
    · rw [Finset.insert_eq_of_mem (hold.mpr hval)]
      simp [weight, hnew, hval]

theorem Rep.exchange (h : t.Rep priv M ds dn) (hk : t.Linked k)
    (hv : ∀ b, v = some b → t.Detached b) :
    (t.storeValue k v).Rep priv (Function.update M (t.nodes k).pfx v)
      (ds + weight v - weight (t.nodes k).value) dn := by
  have h' := h.inv.storeValue (k := k) hv
  have hls : (t.storeValue k v).linkedSet = t.linkedSet :=
    Finset.ext fun n => by rw [h'.mem_linkedSet, h.inv.mem_linkedSet, linked_storeValue]
  refine ⟨h', by rw [table_exchange h.inv hk hv, h.table_eq], ?_, by rw [hls]; exact h.nodes_eq⟩
  rw [card_exchange h.inv hk hv, h.size_eq]
  simp only [storeValue]
  omega

theorem Evolves.exchange (h : t.Inv priv) (hk : t.Linked k)
    (hv : ∀ b, v = some b → t.Detached b) : t.Evolves priv (t.storeValue k v) priv where
  known _ hx := hx
  pfx _ _ := pfx_storeValue ..
  reach x m _ hr := .inl (by rwa [graph_storeValue] at hr)
  walk q x m _ hw _ _ := by rwa [graph_storeValue]
  linked m hm := .inl ((linked_storeValue v m).mp hm)
  stays m hm _ := (linked_storeValue v m).mpr hm
  silent hs n hn hp := by
    rw [linked_storeValue] at hn
    rw [value_storeValue, if_neg (by rintro rfl; exact hn hk)]
    exact hs n hn hp
  table := ⟨(t.nodes k).pfx, fun q hq => by rw [table_exchange h hk hv, Function.update_of_ne hq]⟩

end exchange

/-! ### Stores into a linked slot -/

section slot
variable {s : Slot Nat} {p : Option Nat}

theorem linked_storeSlot (h : t.Inv priv) (hs : t.graph.SlotLinked s)
    (hp : ∀ c, p = some c → t.graph.span s <+: (t.nodes c).pfx.bits) (m : Nat) :
    (t.storeSlot s p).Linked m ↔
      (t.Linked m ∧ ¬ t.graph.span s <+: (t.nodes m).pfx.bits) ∨ t.graph.Reach p m := by
  rw [Linked, graph_storeSlot]
  exact Graph.linked_set h.ordered (Graph.ordered_set h.ordered hp) hs

theorem linked_before (h : t.Inv priv) (hs : t.graph.SlotLinked s) (m : Nat) :
    t.Linked m ↔ (t.Linked m ∧ ¬ t.graph.span s <+: (t.nodes m).pfx.bits) ∨
      t.graph.Reach (t.loadSlot s) m := by
  rw [← get_graph]
  exact Graph.linked_split h.ordered hs

theorem slotLinked_lt (h : t.Inv priv) (hs : t.graph.SlotLinked s) {n : Nat} {b : Bool}
    (he : s = .child n b) : n < t.nextNode ∧ n ∉ priv := by
  subst he
  exact ⟨h.linked_lt hs, h.linked_not_priv hs⟩

theorem Inv.storeSlot (h : t.Inv priv) (hs : t.graph.SlotLinked s)
    (hp : ∀ c, p = some c → t.graph.span s <+: (t.nodes c).pfx.bits ∧ c < t.nextNode) :
    (t.storeSlot s p).Inv [] := by
  refine ⟨?_, fun n hn => ?_, fun n d e he => ?_, nofun, nofun,
    fun n v hv => ?_, fun n m v u hv hu => ?_⟩
  · rw [graph_storeSlot]
    exact Graph.ordered_set h.ordered fun c hc => (hp c hc).1
  · rw [nextNode_storeSlot]
    cases s with
    | root => exact (hp n hn).2
    | child => exact h.root_lt n hn
  · rw [nextNode_storeSlot]
    rcases child_storeSlot he with ⟨he, hsl⟩ | he
    · exact ⟨(slotLinked_lt h hs hsl).1, (hp e he).2⟩
    · exact h.child_lt n d e he
  · rw [value_storeSlot] at hv; rw [nextBox_storeSlot]; exact h.box_lt n v hv
  · rw [value_storeSlot] at hv hu; exact h.box_unique n m v u hv hu

theorem Evolves.storeSlot (h : t.Inv priv) (hs : t.graph.SlotLinked s)
    (hp : ∀ c, p = some c → t.graph.span s <+: (t.nodes c).pfx.bits)
    (hl : ∀ m, (t.storeSlot s p).Linked m → t.Linked m ∨ m ∈ priv)
    (hun : ∀ m, ¬ (t.storeSlot s p).Linked m → ¬ t.Linked m ∧ m ∉ priv ∨ (t.nodes m).value = none)
    (htable : ∃ q₀, ∀ q, q ≠ q₀ → (t.storeSlot s p).table q = t.table q) :
    t.Evolves priv (t.storeSlot s p) [] := by
  have hord := Graph.ordered_set h.ordered hp
  have hs' := Graph.linked_slot_of_set h.ordered hord hs
  refine ⟨fun x hx => ⟨by rw [nextNode_storeSlot]; exact hx.1, List.not_mem_nil⟩,
    fun x _ => pfx_storeSlot .., fun x m _ hr => ?_, fun q x m _ hw hm hq => ?_, hl,
    fun m hm hv => ?_, fun hsi n hn _ => ?_, htable⟩
  · rw [graph_storeSlot] at hr
    rw [Linked, graph_storeSlot]
    refine (Graph.reach_of_set hr).imp id fun hr => Graph.linked_of_slot hs' ?_
    rwa [Graph.get_set]
  · rw [Linked, graph_storeSlot] at hm
    rw [graph_storeSlot]
    rw [pfx_storeSlot] at hq
    exact Graph.walk_set h.ordered hord hs hw hm hq
  · by_contra hn
    exact (hun m hn).elim (fun hn => hn.1 hm) hv
  · rw [value_storeSlot]
    exact (hun n hn).elim (fun hn => hsi n hn.1 hn.2) id

end slot

/-! ### Publishing -/

section publish
variable {s : Slot Nat} {top leaf : Nat} {q : Prefix w} {b : Box V}

/-- The private nodes hang below `top`, above what the slot holds now, and one of them carries the
    new value. -/
structure Ready (t : RadixTrie w V) (priv : List Nat) (s : Slot Nat) (top : Nat) (q : Prefix w)
    (b : Box V) : Prop where
  slot : t.graph.SlotLinked s
  span : t.graph.span s <+: (t.nodes top).pfx.bits
  top_mem : top ∈ priv
  nodup : priv.Nodup
  reach : ∀ m, t.graph.Reach (some top) m ↔ m ∈ priv ∨ t.graph.Reach (t.loadSlot s) m
  leaf : ∃ m ∈ priv, (t.nodes m).pfx = q ∧ (t.nodes m).value = some b
  only : ∀ m ∈ priv, ∀ c, (t.nodes m).value = some c → (t.nodes m).pfx = q ∧ c = b

variable (h : t.Inv priv) (hr : t.Ready priv s top q b)
include h hr

theorem linked_publish (m : Nat) :
    (t.storeSlot s (some top)).Linked m ↔ t.Linked m ∨ m ∈ priv := by
  have hb := linked_before h hr.slot m
  rw [linked_storeSlot h hr.slot (fun c hc => Option.some.inj hc ▸ hr.span), hr.reach]
  constructor
  · rintro (hm | hm | hm)
    exacts [.inl hm.1, .inr hm, .inl (hb.mpr (.inr hm))]
  · rintro (hm | hm)
    exacts [(hb.mp hm).imp id .inr, .inr (.inl hm)]

theorem Inv.publish : (t.storeSlot s (some top)).Inv [] := by
  refine h.storeSlot hr.slot fun c hc => ?_
  obtain rfl := Option.some.inj hc
  exact ⟨hr.span, (h.priv_unlinked _ hr.top_mem).1⟩

theorem stored_publish (p : Prefix w) (c : Box V) :
    (t.storeSlot s (some top)).Stored p c ↔ t.Stored p c ∨ (p = q ∧ c = b) := by
  constructor
  · rintro ⟨n, hn, hp, hc⟩
    rw [pfx_storeSlot] at hp
    rw [value_storeSlot] at hc
    rcases (linked_publish h hr n).mp hn with hn | hn
    · exact .inl ⟨n, hn, hp, hc⟩
    · obtain ⟨hq, rfl⟩ := hr.only n hn c hc
      exact .inr ⟨hp.symm.trans hq, rfl⟩
  · rintro (⟨n, hn, hp, hc⟩ | ⟨rfl, rfl⟩)
    · exact ⟨n, (linked_publish h hr n).mpr (.inl hn), by rwa [pfx_storeSlot], by rwa [value_storeSlot]⟩
    · obtain ⟨m, hm, hp, hc⟩ := hr.leaf
      exact ⟨m, (linked_publish h hr m).mpr (.inr hm), by rwa [pfx_storeSlot], by rwa [value_storeSlot]⟩

theorem table_publish (hq : t.table q = none) :
    (t.storeSlot s (some top)).table = Function.update t.table q (some b) := by
  funext p
  refine Option.ext fun c => ?_
  rw [(h.publish hr).table_eq_some, stored_publish h hr, Function.update_apply, ← h.table_eq_some]
  split
  · next hp => subst hp; simp [hq, eq_comm]
  · next hp => simp [hp]

theorem card_publish :
    (t.storeSlot s (some top)).valuedSet.card = t.valuedSet.card + 1 ∧
      (t.storeSlot s (some top)).linkedSet.card = t.linkedSet.card + priv.length := by
  have h' := h.publish hr
  obtain ⟨m, hm, -, hc⟩ := hr.leaf
  constructor
  · have hset : (t.storeSlot s (some top)).valuedSet = insert m t.valuedSet := by
      refine Finset.ext fun n => ?_
      rw [h'.mem_valuedSet, linked_publish h hr, value_storeSlot, Finset.mem_insert, h.mem_valuedSet]
      constructor
      · rintro ⟨hn | hn, hv⟩
        · exact .inr ⟨hn, hv⟩
        · obtain ⟨c, hcn⟩ := Option.ne_none_iff_exists'.mp hv
          obtain ⟨-, rfl⟩ := hr.only n hn c hcn
          exact .inl (h.box_unique n m _ _ hcn hc rfl)
      · rintro (rfl | ⟨hn, hv⟩)
        · exact ⟨.inr hm, by simp [hc]⟩
        · exact ⟨.inl hn, hv⟩
    rw [hset, Finset.card_insert_of_notMem]
    rw [h.mem_valuedSet]
    exact fun hv => (h.priv_unlinked m hm).2 hv.1
  · have hset : (t.storeSlot s (some top)).linkedSet = t.linkedSet ∪ priv.toFinset := by
      refine Finset.ext fun n => ?_
      rw [h'.mem_linkedSet, linked_publish h hr, Finset.mem_union, h.mem_linkedSet, List.mem_toFinset]
    rw [hset, Finset.card_union_of_disjoint, List.toFinset_card_of_nodup hr.nodup]
    refine Finset.disjoint_left.mpr fun n hn hp => ?_
    exact (h.priv_unlinked n (List.mem_toFinset.mp hp)).2 (h.mem_linkedSet.mp hn)

theorem Evolves.publish (hq : t.table q = none) :
    t.Evolves priv (t.storeSlot s (some top)) [] :=
  .storeSlot h hr.slot (fun _ hc => Option.some.inj hc ▸ hr.span)
    (fun m => (linked_publish h hr m).mp)
    (fun m hm => .inl (by rwa [linked_publish h hr, not_or] at hm))
    ⟨q, fun p hp => by rw [table_publish h hr hq, Function.update_of_ne hp]⟩

omit h in
theorem Rep.publish (h : t.Rep priv M ds dn) (hq : M q = none) :
    (t.storeSlot s (some top)).Rep [] (Function.update M q (some b)) (ds + 1)
      (dn + priv.length) := by
  have hc := card_publish h.inv hr
  refine ⟨h.inv.publish hr, ?_, ?_, ?_⟩
  · rw [table_publish h.inv hr (by rw [h.table_eq]; exact hq), h.table_eq]
  · rw [hc.1, size_storeSlot]; have := h.size_eq; omega
  · rw [hc.2, nodeCount_storeSlot]; have := h.nodes_eq; omega

end publish

/-! ### Unlinking -/

section unlink
variable {s : Slot Nat} {n : Nat} {p : Option Nat}

/-- Slot `s` holds the valueless node `n`, and `p` is all there is below it. -/
structure Prunable (t : RadixTrie w V) (s : Slot Nat) (n : Nat) (p : Option Nat) : Prop where
  slot : t.graph.SlotLinked s
  load : t.loadSlot s = some n
  valueless : (t.nodes n).value = none
  reach : ∀ m, t.graph.Reach (some n) m ↔ m = n ∨ t.graph.Reach p m
  below : ∀ c, p = some c → ∃ b, (t.nodes n).child b = some c

variable (h : t.Inv []) (hu : t.Prunable s n p)
include h hu

omit h in
theorem Prunable.linked : t.Linked n :=
  Graph.linked_of_slot hu.slot (reach_get hu.load)

theorem Prunable.span (c : Nat) (hc : p = some c) :
    t.graph.span s <+: (t.nodes c).pfx.bits ∧ c < t.nextNode := by
  obtain ⟨b, hb⟩ := hu.below c hc
  refine ⟨Graph.span_of_reach h.ordered (s := s) (m := c) ?_, (h.child_lt n b c hb).2⟩
  rw [get_graph, hu.load]
  exact .down b (Graph.reach_of_eq hb)

theorem Prunable.not_reach : ¬ t.graph.Reach p n := by
  intro hr
  cases hp : p with
  | none => rw [hp] at hr; exact Graph.not_reach_none hr
  | some c =>
    obtain ⟨b, hb⟩ := hu.below c hp
    have hchild : t.graph.Reach (t.graph.child n b) n := by
      rw [show t.graph.child n b = some c from hb, ← hp]; exact hr
    exact absurd (Graph.key_lt_of_child h.ordered hchild) (lt_irrefl _)

theorem linked_unlink (m : Nat) : (t.storeSlot s p).Linked m ↔ t.Linked m ∧ m ≠ n := by
  have hspan : t.graph.span s <+: (t.nodes n).pfx.bits :=
    Graph.span_of_reach h.ordered (s := s) (m := n) (reach_get hu.load)
  have hb := linked_before h hu.slot m
  rw [hu.load, hu.reach] at hb
  rw [linked_storeSlot h hu.slot fun c hc => (hu.span h c hc).1]
  constructor
  · rintro (hm | hm)
    · exact ⟨hm.1, fun he => hm.2 (he ▸ hspan)⟩
    · exact ⟨hb.mpr (.inr (.inr hm)), fun he => hu.not_reach h (he ▸ hm)⟩
  · rintro ⟨hm, hne⟩
    rcases hb.mp hm with hm | hm | hm
    exacts [.inl hm, absurd hm hne, .inr hm]

theorem Inv.unlink : (t.storeSlot s p).Inv [] := h.storeSlot hu.slot (hu.span h)

theorem table_unlink : (t.storeSlot s p).table = t.table := by
  refine table_of_stored h (h.unlink hu) fun q b => ?_
  constructor
  · rintro ⟨m, hm, hq, hb⟩
    exact ⟨m, ((linked_unlink h hu m).mp hm).1, by rwa [pfx_storeSlot] at hq,
      by rwa [value_storeSlot] at hb⟩
  · rintro ⟨m, hm, hq, hb⟩
    refine ⟨m, (linked_unlink h hu m).mpr ⟨hm, ?_⟩, by rwa [pfx_storeSlot], by rwa [value_storeSlot]⟩
    rintro rfl
    rw [hu.valueless] at hb; cases hb

theorem Evolves.unlink : t.Evolves [] (t.storeSlot s p) [] :=
  .storeSlot h hu.slot (fun c hc => (hu.span h c hc).1)
    (fun m hm => .inl ((linked_unlink h hu m).mp hm).1)
    (fun m hm => by
      rw [linked_unlink h hu, not_and_or, not_not] at hm
      rcases hm with hm | rfl
      exacts [.inl ⟨hm, List.not_mem_nil⟩, .inr hu.valueless])
    ⟨(t.nodes n).pfx, fun q _ => by rw [table_unlink h hu]⟩

omit h in
theorem Rep.unlink (h : t.Rep [] M ds dn) : (t.storeSlot s p).Rep [] M ds (dn - 1) := by
  have h' := h.inv.unlink hu
  have hls : (t.storeSlot s p).linkedSet = t.linkedSet.erase n := by
    refine Finset.ext fun m => ?_
    rw [h'.mem_linkedSet, linked_unlink h.inv hu, Finset.mem_erase, h.inv.mem_linkedSet, and_comm]
  have hvs : (t.storeSlot s p).valuedSet = t.valuedSet := by
    refine Finset.ext fun m => ?_
    rw [h'.mem_valuedSet, linked_unlink h.inv hu, value_storeSlot, h.inv.mem_valuedSet, and_assoc]
    refine and_congr_right fun _ => and_iff_right_of_imp ?_
    rintro hv rfl
    exact hv hu.valueless
  have hn : n ∈ t.linkedSet := h.inv.mem_linkedSet.mpr (hu.linked)
  refine ⟨h', by rw [table_unlink h.inv hu, h.table_eq], by rw [hvs, size_storeSlot, h.size_eq], ?_⟩
  rw [hls, Finset.card_erase_of_mem hn, nodeCount_storeSlot]
  have hpos := Finset.card_pos.mpr ⟨n, hn⟩
  have := h.nodes_eq
  omega

end unlink

end RadixTrie

end RcuFib

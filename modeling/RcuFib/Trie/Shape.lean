import RcuFib.Trie.History
import RcuFib.Trie.Compression
import RcuFib.Library.SearchTree

/-! The shape of the trie after any history: which nodes there are, what they carry and how they hang
    together. It is a compressed search tree, so the prefixes stored determine it. -/

namespace RcuFib
open SearchGraph Routine

namespace RadixTrie
variable {w : Width} {V : Type*} {t t' : RadixTrie w V} {M : Reference w V} {priv : List Nat}

/-! ### The tree of a trie -/

/-- What a node says, whatever its address. -/
def label (t : RadixTrie w V) (n : Nat) : Prefix w × Option V :=
  ((t.nodes n).pfx, (t.nodes n).value.map Box.content)

theorem Inv.exists_unfolds (h : t.Inv priv) (p : Option Nat) : ∃ u, t.graph.Unfolds p u :=
  SearchGraph.exists_unfolds h.ordered (B := w.bits)
    (fun n => by rw [key_graph, Prefix.length_bits]; exact (t.nodes n).pfx.length_le) p

theorem sorted_label (ho : t.graph.Ordered) {p : Option Nat} {u : BinaryTree Nat}
    (hu : t.graph.Unfolds p u) {span : List Bool}
    (hs : ∀ n, p = some n → span <+: (t.nodes n).pfx.bits) :
    Sorted Prefix.bits span (u.map t.label) := by
  induction hu generalizing span with
  | nil => trivial
  | @node n l r hl hr ihl ihr => exact ⟨hs n rfl, ihl fun c hc => ho n _ c hc, ihr fun c hc => ho n _ c hc⟩

theorem map_ne_nil {u : BinaryTree Nat} (h : u ≠ .nil) : u.map t.label ≠ .nil := by
  cases u with
  | nil => exact absurd rfl h
  | node => exact nofun

theorem tight_label (hc : t.Compressed []) {p : Option Nat} {u : BinaryTree Nat}
    (hu : t.graph.Unfolds p u) (hl : ∀ n, t.graph.Reach p n → t.Linked n) :
    SearchGraph.Tight (u.map t.label) := by
  induction hu with
  | nil => trivial
  | @node n l r hul hur ihl ihr =>
    refine ⟨fun hv => ?_, ihl fun m hm => hl m (.down _ hm), ihr fun m hm => hl m (.down _ hm)⟩
    have hboth := hc n (hl n (.here n)) (Option.map_eq_none_iff.mp hv) List.not_mem_nil
    exact ⟨map_ne_nil fun he => hboth false (hul.nil_iff.mp he),
      map_ne_nil fun he => hboth true (hur.nil_iff.mp he)⟩

/-- The entries of the tree are the prefixes stored. -/
theorem mem_entries_label {u : BinaryTree Nat} (hu : t.graph.Unfolds t.root u) (p : Prefix w) (v : V) :
    (p, v) ∈ entries (u.map t.label) ↔ ∃ b, t.Stored p b ∧ b.content = v := by
  rw [entries, preorder_map, List.mem_filterMap]
  constructor
  · rintro ⟨a, ha, he⟩
    obtain ⟨n, hn, rfl⟩ := List.mem_map.mp ha
    obtain ⟨v', hv', he⟩ := Option.map_eq_some_iff.mp he
    cases he
    obtain ⟨b, hb, rfl⟩ := Option.map_eq_some_iff.mp hv'
    exact ⟨b, ⟨n, (hu.mem_iff n).mp hn, rfl, hb⟩, rfl⟩
  · rintro ⟨b, ⟨n, hn, rfl, hb⟩, rfl⟩
    exact ⟨t.label n, List.mem_map.mpr ⟨n, (hu.mem_iff n).mpr hn, rfl⟩, by simp [label, hb]⟩

/-- The two counters count the nodes of the tree and its entries. -/
theorem Rep.counters {T : Table w V} (h : t.Rep [] T 0 0) {u : BinaryTree Nat}
    (hu : t.graph.Unfolds t.root u) :
    t.nodeCount = (preorder u).length ∧ t.size = (entries (u.map t.label)).length := by
  classical
  have hnodup := hu.nodup h.inv.ordered
  have hlinked : t.linkedSet = (preorder u).toFinset := by
    refine Finset.ext fun n => ?_
    rw [h.inv.mem_linkedSet, List.mem_toFinset, hu.mem_iff]
    rfl
  have hvalued : t.valuedSet = ((preorder u).filter fun n => (t.nodes n).value.isSome).toFinset := by
    refine Finset.ext fun n => ?_
    rw [h.inv.mem_valuedSet, List.mem_toFinset, List.mem_filter, hu.mem_iff, Option.isSome_iff_ne_none]
    rfl
  have hlen : (entries (u.map t.label)).length =
      ((preorder u).filter fun n => (t.nodes n).value.isSome).length := by
    rw [entries, preorder_map, List.filterMap_map]
    induction preorder u with
    | nil => rfl
    | cons n l ih =>
      cases hv : (t.nodes n).value <;> simp [label, hv, ih]
  have hnodes := h.nodes_eq
  have hsize := h.size_eq
  rw [hlinked, List.toFinset_card_of_nodup hnodup] at hnodes
  rw [hvalued, List.toFinset_card_of_nodup (hnodup.filter _)] at hsize
  omega

/-! ### Histories -/

/-- The trie holds the map and is compressed. -/
structure Sound (t : RadixTrie w V) (M : Reference w V) : Prop where
  represents : t.Represents M
  compressed : t.Compressed []

theorem Op.run_compressed (h : t.Sound M) {fuel : Nat} {op : Op w V} {r : Option Bool}
    (hrun : op.run fuel t = some (t', r)) : t'.Compressed [] := by
  obtain ⟨⟨T, hrep, -⟩, hc⟩ := h
  cases op with
  | insert p v =>
    obtain ⟨⟨t₁, es, x⟩, hx, he⟩ := Option.map_eq_some_iff.mp hrun
    cases he
    have hstep : ∀ s pc, InsertInv T p v s pc ∧ InsertTight s pc → (insertStep p s pc).Sat
        (fun s' pc' => InsertInv T p v s' pc' ∧ InsertTight s' pc') (fun s' _ => s'.Compressed []) :=
      fun s pc ⟨hi, ht⟩ => (Outcome.Sat.and (insert_step hi) (insert_tight hi ht)).mono
        (fun _ _ h => ⟨h.1.1, h.2⟩) (fun _ _ h => h.2)
    exact run_sat hstep ⟨InsertInv.start hrep p v, hc⟩ hx
  | erase p =>
    obtain ⟨⟨t₁, es, x⟩, hx, he⟩ := Option.map_eq_some_iff.mp hrun
    cases he
    have hstep : ∀ s pc, EraseInv t T p s pc ∧ EraseTight s pc → (eraseStep p s pc).Sat
        (fun s' pc' => EraseInv t T p s' pc' ∧ EraseTight s' pc') (fun s' _ => s'.Compressed []) :=
      fun s pc ⟨hi, ht⟩ => (Outcome.Sat.and (erase_step hi) (erase_tight hi ht)).mono
        (fun _ _ h => ⟨h.1.1, h.2⟩) (fun _ _ h => h.2)
    exact run_sat hstep ⟨EraseInv.start hrep p, hc, fun _ => rfl⟩ hx
  | clear =>
    obtain ⟨⟨t₁, es, x⟩, hx, he⟩ := Option.map_eq_some_iff.mp hrun
    cases he
    have hstep : ∀ (s : RadixTrie w V) (pc : ClearPc), Cleared s pc →
        (clearStep s pc).Sat (fun s' pc' => Cleared s' pc') (fun s' _ => s'.root = none) :=
      fun _ _ hs => clear_cleared hs
    exact compressed_of_root_none (run_sat hstep (i := .exchangeRoot) trivial hx)

theorem op_sound (h : t.Sound M) (op : Op w V) :
    ∃ (t' : RadixTrie w V) (fuel₀ : Nat), t'.Sound (op.apply M) ∧
      ∀ fuel > fuel₀, op.run fuel t = some (t', op.result M) := by
  obtain ⟨t', f, ht', hrun⟩ := op_spec h.represents op
  exact ⟨t', f, ⟨ht', Op.run_compressed h (hrun (f + 1) (Nat.lt_succ_self f))⟩, hrun⟩

theorem exec_sound (ops : List (Op w V)) : ∃ (t : RadixTrie w V) (fuel₀ : Nat),
    t.Sound (reference ops) ∧ ∀ fuel > fuel₀, exec fuel .empty ops = some t :=
  exec_of_op (P := Sound) (fun _ _ op h => op_sound h op) ops ⟨represents_empty, compressed_empty⟩

/-- A sound trie unfolds into the compressed search tree of the map. -/
theorem Sound.tree (h : t.Sound M) : ∃ u, t.graph.Unfolds t.root u ∧
    Sorted Prefix.bits [] (u.map t.label) ∧ SearchGraph.Tight (u.map t.label) ∧
    (∀ p v, (p, v) ∈ entries (u.map t.label) ↔ M.lookup p = some v) ∧
    t.nodeCount = (preorder u).length ∧ t.size = (entries (u.map t.label)).length := by
  obtain ⟨⟨T, hrep, hT⟩, hc⟩ := h
  obtain ⟨u, hu⟩ := hrep.inv.exists_unfolds t.root
  obtain ⟨hnodes, hsize⟩ := hrep.counters hu
  refine ⟨u, hu, sorted_label hrep.inv.ordered hu fun _ _ => List.nil_prefix,
    tight_label hc hu fun _ hn => hn, fun p v => ?_, hnodes, hsize⟩
  rw [mem_entries_label hu, ← hT, Option.map_eq_some_iff]
  simp only [← hrep.table_eq, hrep.inv.table_eq_some]

/-- After any history the linked nodes form a path-compressed search tree, which `node_count` counts:
    nothing when nothing is stored, and fewer branching nodes than prefixes otherwise. -/
theorem compressed_after_history (ops : List (Op w V)) :
    ∃ (t : RadixTrie w V) (fuel₀ : Nat), (∀ fuel > fuel₀, exec fuel .empty ops = some t) ∧
      (∀ n, t.Linked n → (t.nodes n).key.masked (t.nodes n).keyLength = (t.nodes n).key) ∧
      (∀ n d c, t.Linked n → (t.nodes n).child d = some c →
        (t.nodes n).pfx.bits ++ [d] <+: (t.nodes c).pfx.bits) ∧
      (∀ n, t.Linked n → (t.nodes n).value = none → ∀ d, (t.nodes n).child d ≠ none) ∧
      (∃ l : List Nat, l.Nodup ∧ (∀ n, n ∈ l ↔ t.Linked n) ∧ t.nodeCount = l.length) ∧
      (t.size = 0 → t.nodeCount = 0) ∧ (t.size ≠ 0 → t.nodeCount ≤ 2 * t.size - 1) := by
  obtain ⟨t, f, hsound, hexec⟩ := exec_sound ops
  obtain ⟨u, hu, -, htight, -, hnodes, hsize⟩ := hsound.tree
  obtain ⟨T, hrep, -⟩ := hsound.represents
  have hbound : u ≠ .nil → t.nodeCount + 1 ≤ 2 * t.size := by
    intro hne
    have hlt := htight.numNodes_lt (map_ne_nil hne)
    rwa [← length_preorder, preorder_map, List.length_map, ← hnodes, ← hsize] at hlt
  have hnil : u = .nil → t.nodeCount = 0 := by
    rintro rfl
    exact hnodes
  refine ⟨t, f, hexec, fun n _ => (t.nodes n).pfx.host_clear, fun n d c _ hc => hrep.inv.ordered n d c hc,
    fun n hn hv => hsound.compressed n hn hv List.not_mem_nil,
    ⟨preorder u, hu.nodup hrep.inv.ordered, hu.mem_iff, hnodes⟩, fun hs => ?_, fun hs => ?_⟩
  · by_contra hn
    have := hbound fun he => hn (hnil he)
    omega
  · rcases eq_or_ne u .nil with he | hne
    · rw [hnil he]
      exact Nat.zero_le _
    · have := hbound hne
      omega

/-! ### The shape is canonical -/

/-- The same tree hangs below the two pointers. -/
def SameTree (t t' : RadixTrie w V) (p p' : Option Nat) : Prop :=
  ∃ u u', t.graph.Unfolds p u ∧ t'.graph.Unfolds p' u' ∧ u.map t.label = u'.map t'.label

theorem SameTree.none_iff {p p' : Option Nat} (h : SameTree t t' p p') : p = none ↔ p' = none := by
  obtain ⟨u, u', hu, hu', hs⟩ := h
  rw [← hu.nil_iff, ← hu'.nil_iff]
  cases u <;> cases u' <;> simp_all [BinaryTree.map]

theorem SameTree.node {n n' : Nat} (h : SameTree t t' (some n) (some n')) :
    (t.nodes n).pfx = (t'.nodes n').pfx ∧
      ∀ d, SameTree t t' ((t.nodes n).child d) ((t'.nodes n').child d) := by
  obtain ⟨u, u', hu, hu', hs⟩ := h
  obtain ⟨l, r, rfl, hl, hr⟩ := hu.child
  obtain ⟨l', r', rfl, hl', hr'⟩ := hu'.child
  simp only [BinaryTree.map, BinaryTree.node.injEq] at hs
  refine ⟨congrArg Prod.fst hs.1, fun d => ?_⟩
  cases d with
  | false => exact ⟨l, l', hl, hl', hs.2.1⟩
  | true => exact ⟨r, r', hr, hr', hs.2.2⟩

/-- Two lookups at the same place of the same tree. -/
def Beside (t₀ t₀' t : RadixTrie w V) : LookupPc V → RadixTrie w V → LookupPc V → Prop
  | .root, t', .root => t = t₀ ∧ t' = t₀' ∧ SameTree t t' t.root t'.root
  | .value n _, t', .value n' _ => t = t₀ ∧ t' = t₀' ∧ SameTree t t' (some n) (some n')
  | .child n _, t', .child n' _ => t = t₀ ∧ t' = t₀' ∧ SameTree t t' (some n) (some n')
  | _, _, _ => False

theorem lookup_beside {a : Address w} {t₀ t₀' : RadixTrie w V} {pc pc' : LookupPc V}
    (h : Beside t₀ t₀' t pc t' pc') :
    Outcome.Paired (Beside t₀ t₀') (lookupStep a t pc) (lookupStep a t' pc') := by
  have hloop : ∀ {p p' : Option Nat} {best best' : Option (Box V)}, t = t₀ → t' = t₀' →
      SameTree t t' p p' →
      Outcome.Paired (Beside t₀ t₀') (lookupLoop t p best) (lookupLoop t' p' best') := by
    intro p p' best best' ht ht' hs
    cases p with
    | none => rw [hs.none_iff.mp rfl]; trivial
    | some n =>
      cases p' with
      | none => exact absurd (hs.none_iff.mpr rfl) nofun
      | some n' => exact ⟨ht, ht', hs⟩
  cases pc with
  | root =>
    cases pc' with
    | root => exact hloop h.1 h.2.1 h.2.2
    | value | child => exact h.elim
  | value n best =>
    cases pc' with
    | value n' best' =>
      obtain ⟨hpfx, -⟩ := h.2.2.node
      simp only [lookupStep, Node.key, Node.keyLength, hpfx]
      rcases Bool.eq_false_or_eq_true
        ((t'.nodes n').pfx.address.matchesTo a (t'.nodes n').pfx.length) with hm | hm
      · rcases Nat.lt_or_ge (t'.nodes n').pfx.length w.bits with hw | hw
        · simp only [hm, Nat.not_le.mpr hw, Bool.not_true, Bool.false_eq_true, if_false]
          exact h
        · simp only [hm, hw, Bool.not_true, Bool.false_eq_true, if_false, if_true]
          trivial
      · simp only [hm, Bool.not_false, if_true]
        trivial
    | root | child => exact h.elim
  | child n best =>
    cases pc' with
    | child n' best' =>
      obtain ⟨hpfx, hside⟩ := h.2.2.node
      simp only [lookupStep, Node.keyLength, hpfx]
      exact hloop h.1 h.2.1 (hside _)
    | root | value => exact h.elim

/-- Histories that end with the same map end with the same tree, and lookups take as many steps. -/
theorem shape_canonical (ops ops' : List (Op w V))
    (hmap : ∀ p, (reference ops).lookup p = (reference ops').lookup p) :
    ∃ (t t' : RadixTrie w V) (fuel₀ : Nat) (u u' : BinaryTree Nat),
      (∀ fuel > fuel₀, exec fuel .empty ops = some t ∧ exec fuel .empty ops' = some t') ∧
      t.graph.Unfolds t.root u ∧ t'.graph.Unfolds t'.root u' ∧ u.map t.label = u'.map t'.label ∧
      t.nodeCount = t'.nodeCount ∧ ∀ a fuel, (lookup fuel t a).isSome = (lookup fuel t' a).isSome := by
  obtain ⟨t, f, hsound, hexec⟩ := exec_sound ops
  obtain ⟨t', f', hsound', hexec'⟩ := exec_sound ops'
  obtain ⟨u, hu, hsorted, htight, hentries, hnodes, -⟩ := hsound.tree
  obtain ⟨u', hu', hsorted', htight', hentries', hnodes', -⟩ := hsound'.tree
  have hshape : u.map t.label = u'.map t'.label :=
    tight_unique (fun _ _ => Prefix.bits_injective) hsorted hsorted' htight htight' fun ⟨p, v⟩ => by
      rw [hentries, hentries', hmap]
  refine ⟨t, t', max f f', u, u', fun fuel hf => ?_, hu, hu', hshape, ?_, fun a fuel => ?_⟩
  · obtain ⟨hf₁, hf₂⟩ := max_lt_iff.mp hf
    exact ⟨hexec fuel hf₁, hexec' fuel hf₂⟩
  · have hlen := congrArg (fun v => (preorder v).length) hshape
    simp only [preorder_map, List.length_map] at hlen
    rw [hnodes, hnodes', hlen]
  · have hsame : Beside t t' t .root t' .root := ⟨rfl, rfl, u, u', hu, hu', hshape⟩
    rw [lookup, lookup, Option.isSome_map, Option.isSome_map]
    exact run_lockstep (fun _ _ _ _ h => lookup_beside h) fuel hsame

/-- 10.0.0.0/8 and 10.1.0.0/16, inserted in this order. -/
def coverFirst : List (Op .ipv4 Nat) :=
  [.insert (.make (.fromV4 0x0a000000) 8 Width.eight_le_ipv4) 1,
    .insert (.make (.fromV4 0x0a010000) 16 Width.sixteen_le_ipv4) 2]

/-- The same two prefixes the other way round, one of them withdrawn in between. -/
def coverLast : List (Op .ipv4 Nat) :=
  [.insert (.make (.fromV4 0x0a010000) 16 Width.sixteen_le_ipv4) 3,
    .insert (.make (.fromV4 0x0a000000) 8 Width.eight_le_ipv4) 1,
    .erase (.make (.fromV4 0x0a010000) 16 Width.sixteen_le_ipv4),
    .insert (.make (.fromV4 0x0a010000) 16 Width.sixteen_le_ipv4) 2]

theorem shape_canonical_covers :
    ∃ (t t' : RadixTrie .ipv4 Nat) (fuel₀ : Nat) (u u' : BinaryTree Nat),
      (∀ fuel > fuel₀, exec fuel .empty coverFirst = some t ∧ exec fuel .empty coverLast = some t') ∧
      t.graph.Unfolds t.root u ∧ t'.graph.Unfolds t'.root u' ∧ u.map t.label = u'.map t'.label ∧
      t.nodeCount = t'.nodeCount ∧
      ∀ a fuel, (lookup fuel t a).isSome = (lookup fuel t' a).isSome := by
  refine shape_canonical coverFirst coverLast fun p => ?_
  simp only [coverFirst, coverLast, reference, List.foldl, Op.apply]
  rcases eq_or_ne p (.make (.fromV4 0x0a010000) 16 Width.sixteen_le_ipv4) with rfl | hp
  · rw [AList.lookup_insert, AList.lookup_insert]
  · rw [AList.lookup_insert_ne hp, AList.lookup_insert_ne hp, AList.lookup_erase_ne hp]
    rcases eq_or_ne p (.make (.fromV4 0x0a000000) 8 Width.eight_le_ipv4) with rfl | hq
    · rw [AList.lookup_insert, AList.lookup_insert]
    · rw [AList.lookup_insert_ne hq, AList.lookup_insert_ne hq, AList.lookup_insert_ne hp]

end RadixTrie

end RcuFib

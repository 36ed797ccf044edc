import RcuFib.Trie.Insert

/-! Every step of `insert` keeps its annotation. -/

namespace RcuFib
open SearchGraph Routine

namespace RadixTrie
variable {w : Width} {V : Type*} {t t' : RadixTrie w V} {priv : List Nat} {M : Table w V}
  {p q : Prefix w} {v : V} {b : Box V} {s : Slot Nat}

/-! ### Allocating and filling private nodes -/

theorem Detached.newNode (h : t.Detached b) : (t.newNode q).Detached b := by
  refine ⟨h.1, fun n u hu => ?_⟩
  rw [nodes_newNode] at hu
  split at hu
  · cases hu
  · exact h.2 n u hu

theorem Seeking.newNode (h : t.Seeking priv M p v b s) (q : Prefix w) :
    (t.newNode q).Seeking (t.nextNode :: priv) M p v b s :=
  ⟨h.rep.newNode, h.content, h.box.newNode, (frame_newNode h.rep.inv q).atSlot h.at_slot⟩

theorem Seeking.storeValue (h : t.Seeking priv M p v b s) {k : Nat} (hk : k ∈ priv)
    (hn : t.nodes k = .fresh p) :
    (t.storeValue k (some b)).Building priv M p v b s k (fun _ => none) := by
  refine ⟨h.rep.privValue hk h.box, h.content, (frame_storeValue h.rep.inv hk _).atSlot h.at_slot, ?_⟩
  rw [nodes_storeValue, if_pos rfl, hn]; rfl

theorem Building.storeChild {leaf : Nat} {child : Bool → Option Nat}
    (h : t.Building priv M p v b s leaf child) {k c : Nat} {d : Bool} (hk : k ∈ priv)
    (hc : c < t.nextNode) (hord : (t.nodes k).pfx.bits ++ [d] <+: (t.nodes c).pfx.bits) :
    (t.storeSlot (.child k d) (some c)).Building priv M p v b s leaf
      (if leaf = k then Function.update child d (some c) else child) := by
  refine ⟨h.rep.privChild hk hc hord, h.content, (frame_storeChild h.rep.inv hk d _).atSlot h.at_slot,
    ?_⟩
  rw [nodes_storeChild]
  split
  · next he => rw [← he, h.node]; rfl
  · exact h.node

/-! ### The three publications -/

theorem Building.table_none {leaf : Nat} {child : Bool → Option Nat}
    (h : t.Building priv M p v b s leaf child)
    (hne : ∀ m, t.graph.Reach (t.loadSlot s) m → (t.nodes m).pfx ≠ p) : M p = none := by
  rw [← h.rep.table_eq]
  exact table_eq_none_of_slot h.rep.inv h.at_slot hne

theorem Building.ready_leaf {f : Nat} (h : t.Building [f] M p v b s f (fun _ => none))
    (hl : t.loadSlot s = none) : M p = none ∧ t.Ready [f] s f p b := by
  refine ⟨h.table_none fun m hm => ?_, h.at_slot.slot, ?_, List.mem_singleton_self f,
    List.nodup_singleton f, fun m => ?_, ⟨f, List.mem_singleton_self f, ?_, ?_⟩, ?_⟩
  · rw [hl] at hm; exact absurd hm Graph.not_reach_none
  · rw [h.node]; exact h.at_slot.span
  · rw [reach_node, h.node, hl]; simp [Graph.not_reach_none]
  · rw [h.node]
  · rw [h.node]
  · intro m hm c hc
    obtain rfl := List.mem_singleton.mp hm
    rw [h.node] at hc ⊢
    exact ⟨rfl, (Option.some.inj hc).symm⟩

theorem Building.ready_parent {f c : Nat} {d : Bool}
    (h : t.Building [f] M p v b s f (Function.update (fun _ => none) d (some c)))
    (hl : t.loadSlot s = some c) (hlt : p.length < (t.nodes c).keyLength) :
    M p = none ∧ t.Ready [f] s f p b := by
  have hd : (t.nodes f).child d = some c := by rw [h.node]; simp
  have hnd : (t.nodes f).child (!d) = none := by rw [h.node]; cases d <;> simp
  refine ⟨h.table_none fun m hm hp => ?_, h.at_slot.slot, ?_, List.mem_singleton_self f,
    List.nodup_singleton f, fun m => ?_, ⟨f, List.mem_singleton_self f, ?_, ?_⟩, ?_⟩
  · rw [hl] at hm
    have hle := (Graph.key_of_reach h.rep.inv.ordered hm).length_le
    simp only [key_graph, hp, Prefix.length_bits] at hle
    exact absurd hle (Nat.not_le.mpr hlt)
  · rw [h.node]; exact h.at_slot.span
  · rw [reach_two hd hnd, hl]; simp [Graph.not_reach_none]
  · rw [h.node]
  · rw [h.node]
  · intro m hm c hc
    obtain rfl := List.mem_singleton.mp hm
    rw [h.node] at hc ⊢
    exact ⟨rfl, (Option.some.inj hc).symm⟩

theorem Diverge.not_prefix {e k : Nat} (h : t.Diverge e p k) : ¬ (t.nodes e).pfx.bits <+: p.bits := by
  intro hpre
  have hk : (t.nodes e).pfx.bits[k]? = some ((t.nodes e).key.bit k) :=
    Prefix.getElem?_bits _ h.lt_key
  have hp := Prefix.getElem?_bits p h.lt_length
  obtain ⟨r, hr⟩ := hpre
  have hlt : k < (t.nodes e).pfx.bits.length := by rw [Prefix.length_bits]; exact h.lt_key
  rw [← hr, List.getElem?_append_left hlt, hk] at hp
  exact h.differ (Option.some.inj hp)

theorem Building.ready_branch {br lf e k : Nat} {hk : k ≤ w.bits}
    (h : t.Building [lf, br] M p v b s lf (fun _ => none)) (hl : t.loadSlot s = some e)
    (hd : t.Diverge e p k) (hne : lf ≠ br)
    (hbr : t.nodes br = ((Node.fresh (.make p.address k hk)).setChild ((t.nodes e).key.bit k)
      (some e)).setChild (!(t.nodes e).key.bit k) (some lf)) :
    M p = none ∧ t.Ready [lf, br] s br p b := by
  have hfalse : (t.nodes br).child ((t.nodes e).key.bit k) = some e := by
    rw [hbr]; cases (t.nodes e).key.bit k <;> rfl
  have htrue : (t.nodes br).child (!(t.nodes e).key.bit k) = some lf := by
    rw [hbr]; cases (t.nodes e).key.bit k <;> rfl
  have hleaf : ∀ m, t.graph.Reach (some lf) m ↔ m = lf := by
    intro m; rw [reach_node, h.node]; simp [Graph.not_reach_none]
  have hspan := At.span_load h.rep.inv hl
  have hkey : p.address.bits.take k = (t.nodes e).pfx.bits.take k := by
    have hlt : k ≤ (t.nodes e).pfx.length := hd.lt_key.le
    rw [← hd.agree, Prefix.bits, List.take_take, Nat.min_eq_left hlt]; rfl
  refine ⟨h.table_none fun m hm hp => ?_, h.at_slot.slot, ?_, by simp, by simp [hne], fun m => ?_,
    ⟨lf, by simp, by rw [h.node], by rw [h.node]⟩, ?_⟩
  · rw [hl] at hm
    have hpre := Graph.key_of_reach h.rep.inv.ordered hm
    rw [key_graph, key_graph, hp] at hpre
    exact hd.not_prefix hpre
  · -- the slot's span is shared by both keys and they only part ways at bit `k`
    have hle : (t.graph.span s).length ≤ k := by
      by_contra hlt
      rw [not_le] at hlt
      have he : (t.nodes e).pfx.bits[k]? = (t.graph.span s)[k]? := by
        obtain ⟨r, hr⟩ := hspan; rw [← hr, List.getElem?_append_left hlt]
      have hp : p.bits[k]? = (t.graph.span s)[k]? := by
        obtain ⟨r, hr⟩ := h.at_slot.span; rw [← hr, List.getElem?_append_left hlt]
      rw [Prefix.getElem?_bits _ hd.lt_key, ← hp, Prefix.getElem?_bits _ hd.lt_length] at he
      exact hd.differ (Option.some.inj he)
    have hpfx : (t.nodes br).pfx = .make p.address k hk := by rw [hbr]; rfl
    rw [hpfx, Prefix.bits_make, hkey]
    refine List.prefix_of_prefix_length_le hspan (List.take_prefix _ _) ?_
    rw [List.length_take, Prefix.length_bits]
    exact Nat.le_min.mpr ⟨hle, hle.trans hd.lt_key.le⟩
  · rw [reach_two hfalse htrue, hleaf, hl]
    simp only [List.mem_cons, List.not_mem_nil, or_false]
    tauto
  · intro m hm c hc
    rcases List.mem_cons.mp hm with rfl | hm
    · rw [h.node] at hc ⊢
      exact ⟨rfl, (Option.some.inj hc).symm⟩
    · obtain rfl := List.mem_singleton.mp hm
      rw [hbr] at hc; cases hc

/-! ### One step -/

/-- What a step of `insert` guarantees: the next annotation, the readers' view, progress. -/
def InsertOk (M : Table w V) (p : Prefix w) (v : V) (t : RadixTrie w V) (pc : InsertPc w V) : Prop :=
  (insertStep p t pc).Sat
    (fun t' pc' => InsertInv M p v t' pc' ∧ t.Evolves pc.priv t' pc'.priv ∧
      insertMeasure t' pc' < insertMeasure t pc)
    (fun t' r => t' = t ∧ t.Switched M p v 0 0 ∧ r = (M p).isNone)

theorem insert_box {value : V} (h : InsertInv M p v t (.box value)) :
    InsertOk M p v t (.box value) := by
  obtain ⟨h, rfl⟩ := h
  have hfresh : t.newBox.Detached ⟨t.nextBox, value⟩ :=
    ⟨Nat.lt_succ_self _, fun n u hu => (h.inv.box_lt n u hu).ne⟩
  have hbox : t.nextBox ≤ t.newBox.nextBox := Nat.le_succ _
  refine ⟨⟨h.quiet (by rfl) (by rfl) (by rfl) hbox (by rfl) (by rfl), rfl, hfresh,
    ⟨trivial, List.nil_prefix⟩⟩, .quiet h.inv (by rfl) (by rfl) (by rfl) hbox, ?_⟩
  simp only [insertMeasure, Graph.span, List.length_nil]
  omega

/-- The head of the descent loop: one of its five ways on. -/
theorem insert_load (h : InsertInv M p v t (.load b s)) : InsertOk M p v t (.load b s) := by
  have h : t.Seeking [] M p v b s := h
  have hle := h.at_slot.span_le
  have hpw := p.length_le
  have hev : t.Evolves [] t [] := .refl h.rep.inv
  cases hl : t.loadSlot s with
  | none =>
    simp only [InsertOk, insertStep, hl]
    exact ⟨⟨h, hl⟩, hev, by simp only [insertMeasure]; omega⟩
  | some c =>
    simp only [InsertOk, insertStep, hl]
    have hspan := (At.span_load h.rep.inv hl).length_le
    rw [Prefix.length_bits] at hspan
    split
    · next hlt =>
      exact ⟨⟨h, hl, diverge_of_lt hlt⟩, hev, by simp only [insertMeasure]; omega⟩
    · next hlt =>
      have hagree := agree_of_not_lt hlt
      split
      · next heq =>
        refine ⟨⟨h.rep, h.content, h.box, h.at_slot.linked hl, Prefix.bits_injective ?_⟩, hev,
          by simp only [insertMeasure]; omega⟩
        rw [heq, Nat.min_self] at hagree
        have heq : (t.nodes c).pfx.length = p.length := heq
        rw [Prefix.bits, Prefix.bits, heq]
        exact hagree
      · next hne =>
        split
        · next hklt =>
          rw [Nat.min_eq_left hklt.le] at hagree
          have hpre : (t.nodes c).pfx.bits <+: p.bits := by
            rw [Prefix.bits, show (t.nodes c).pfx.address.bits.take (t.nodes c).pfx.length = _ from hagree]
            exact List.take_prefix_take_left hklt.le
          refine ⟨⟨h.rep, h.content, h.box, h.at_slot.linked hl, prefix_snoc hpre hklt⟩, hev, ?_⟩
          have hnext : (t.graph.span (.child c (p.address.bit (t.nodes c).keyLength))).length =
              (t.nodes c).pfx.length + 1 := by simp [Graph.span]
          have : (t.nodes c).pfx.length < p.length := hklt
          simp only [insertMeasure]
          omega
        · next hklt =>
          have hgt : p.length < (t.nodes c).keyLength := by omega
          rw [Nat.min_eq_right hgt.le] at hagree
          refine ⟨⟨h, hl, ?_, hgt⟩, hev, by simp only [insertMeasure]; omega⟩
          rw [Prefix.bits, ← hagree]
          exact List.take_prefix_take_left hgt.le

theorem insert_newLeaf (h : InsertInv M p v t (.newLeaf b s)) : InsertOk M p v t (.newLeaf b s) := by
  obtain ⟨h, hl⟩ := h
  refine ⟨⟨h.newNode p, ?_, ?_⟩, .newNode h.rep.inv, by simp [insertMeasure]⟩
  · rw [(frame_newNode h.rep.inv p).load h.at_slot.slot, hl]
  · rw [nodes_newNode, if_pos rfl]

theorem insert_leafValue {f : Nat} (h : InsertInv M p v t (.leafValue b s f)) :
    InsertOk M p v t (.leafValue b s f) := by
  obtain ⟨h, hl, hn⟩ := h
  have hmem := List.mem_singleton_self f
  have hb := h.storeValue hmem hn
  have hload := (frame_storeValue h.rep.inv hmem (some b)).load h.at_slot.slot
  obtain ⟨hM, hr⟩ := hb.ready_leaf (hload.trans hl)
  exact ⟨⟨b, h.content, hb.rep, hM, hr⟩, .privValue h.rep.inv hmem h.box, by simp [insertMeasure]⟩

theorem insert_newParent {c : Nat} (h : InsertInv M p v t (.newParent b s c)) :
    InsertOk M p v t (.newParent b s c) := by
  obtain ⟨h, hl, hp, hlt⟩ := h
  have hf := frame_newNode h.rep.inv p
  have hc := hf.nodes c (h.at_slot.linked hl)
  refine ⟨⟨h.newNode p, by rw [hf.load h.at_slot.slot, hl], hc ▸ hp, hc ▸ hlt, ?_⟩,
    .newNode h.rep.inv, by simp [insertMeasure]⟩
  rw [nodes_newNode, if_pos rfl]

theorem insert_parentValue {c f : Nat} (h : InsertInv M p v t (.parentValue b s c f)) :
    InsertOk M p v t (.parentValue b s c f) := by
  obtain ⟨h, hl, hp, hlt, hn⟩ := h
  have hmem := List.mem_singleton_self f
  have hf := frame_storeValue h.rep.inv hmem (some b)
  have hc := hf.nodes c (h.at_slot.linked hl)
  exact ⟨⟨b, h.storeValue hmem hn, by rw [hf.load h.at_slot.slot, hl], hc ▸ hp, hc ▸ hlt⟩,
    .privValue h.rep.inv hmem h.box, by simp [insertMeasure]⟩

theorem insert_parentChild {c f : Nat} (h : InsertInv M p v t (.parentChild s c f)) :
    InsertOk M p v t (.parentChild s c f) := by
  obtain ⟨b, h, hl, hp, hlt⟩ := h
  have hmem := List.mem_singleton_self f
  have hc := h.at_slot.linked hl
  have hclt := h.rep.inv.linked_lt hc
  have hord : (t.nodes f).pfx.bits ++ [(t.nodes c).key.bit p.length] <+: (t.nodes c).pfx.bits := by
    rw [h.node]
    exact prefix_snoc hp hlt
  have hb := h.storeChild hmem hclt hord
  rw [if_pos rfl] at hb
  have hf := frame_storeChild h.rep.inv hmem ((t.nodes c).key.bit p.length) (some c)
  obtain ⟨hM, hr⟩ := hb.ready_parent (by rw [hf.load h.at_slot.slot, hl])
    (by rw [hf.nodes c hc]; exact hlt)
  exact ⟨⟨b, h.content, hb.rep, hM, hr⟩, .privChild h.rep.inv hmem hclt hord,
    by simp [insertMeasure]⟩

theorem insert_newBranch {e : Nat} {k : {k // k ≤ w.bits}}
    (h : InsertInv M p v t (.newBranch b s e k)) : InsertOk M p v t (.newBranch b s e k) := by
  obtain ⟨h, hl, hd⟩ := h
  have hf := frame_newNode h.rep.inv (.make p.address k k.2)
  refine ⟨⟨h.newNode _, by rw [hf.load h.at_slot.slot, hl],
    hf.diverge (h.at_slot.linked hl) hd, ?_⟩, .newNode h.rep.inv, by simp [insertMeasure]⟩
  rw [nodes_newNode, if_pos rfl]

theorem insert_newBranchLeaf {e br : Nat} {k : {k // k ≤ w.bits}}
    (h : InsertInv M p v t (.newBranchLeaf b s e k br)) :
    InsertOk M p v t (.newBranchLeaf b s e k br) := by
  obtain ⟨h, hl, hd, hn⟩ := h
  have hf := frame_newNode h.rep.inv p
  have hbr : br < t.nextNode := (h.rep.inv.priv_unlinked br (List.mem_singleton_self br)).1
  refine ⟨⟨h.newNode p, by rw [hf.load h.at_slot.slot, hl], hf.diverge (h.at_slot.linked hl) hd,
    hbr.ne', ?_, ?_⟩, .newNode h.rep.inv, by simp [insertMeasure]⟩
  · rw [nodes_newNode, if_neg hbr.ne, hn]
  · rw [nodes_newNode, if_pos rfl]

theorem insert_branchLeafValue {e br lf : Nat} {k : {k // k ≤ w.bits}}
    (h : InsertInv M p v t (.branchLeafValue b s e k br lf)) :
    InsertOk M p v t (.branchLeafValue b s e k br lf) := by
  obtain ⟨h, hl, hd, hne, hbr, hlf⟩ := h
  have hmem : lf ∈ [lf, br] := List.mem_cons_self ..
  have hf := frame_storeValue h.rep.inv hmem (some b)
  refine ⟨⟨b, h.storeValue hmem hlf, by rw [hf.load h.at_slot.slot, hl],
    hf.diverge (h.at_slot.linked hl) hd, hne, ?_⟩, .privValue h.rep.inv hmem h.box,
    by simp [insertMeasure]⟩
  rw [nodes_storeValue, if_neg hne.symm, hbr]

/-- The branch node's key ends where the two keys part ways. -/
theorem Diverge.branch_prefix {e k : Nat} (h : t.Diverge e p k) (hk : k ≤ w.bits) :
    (Prefix.make p.address k hk).bits ++ [(t.nodes e).key.bit k] <+: (t.nodes e).pfx.bits ∧
      (Prefix.make p.address k hk).bits ++ [!(t.nodes e).key.bit k] <+: p.bits := by
  have hp : (!(t.nodes e).key.bit k) = p.address.bit k := by
    have := h.differ
    cases he : (t.nodes e).key.bit k <;> cases hpb : p.address.bit k <;> simp_all
  have he : (Prefix.make p.address k hk).bits <+: (t.nodes e).pfx.bits := by
    rw [Prefix.bits_make, ← h.agree]
    exact List.take_prefix_take_left h.lt_key.le
  rw [hp]
  refine ⟨?_, ?_⟩
  · exact prefix_snoc he h.lt_key
  · refine prefix_snoc ?_ h.lt_length
    rw [Prefix.bits_make]
    exact List.take_prefix_take_left h.lt_length.le

theorem insert_branchExisting {e br lf : Nat} {k : {k // k ≤ w.bits}}
    (h : InsertInv M p v t (.branchExisting s e k br lf)) :
    InsertOk M p v t (.branchExisting s e k br lf) := by
  obtain ⟨b, h, hl, hd, hne, hbr⟩ := h
  have hmem : br ∈ [lf, br] := by simp
  have he := h.at_slot.linked hl
  have helt := h.rep.inv.linked_lt he
  have hord : (t.nodes br).pfx.bits ++ [(t.nodes e).key.bit k] <+: (t.nodes e).pfx.bits := by
    rw [hbr]; exact (hd.branch_prefix k.2).1
  have hf := frame_storeChild h.rep.inv hmem ((t.nodes e).key.bit k) (some e)
  have hb := h.storeChild hmem helt hord
  rw [if_neg hne] at hb
  refine ⟨⟨b, hb, by rw [hf.load h.at_slot.slot, hl], hf.diverge he hd, hne, ?_⟩,
    .privChild h.rep.inv hmem helt hord, by simp [insertMeasure]⟩
  rw [nodes_storeChild, if_pos rfl, hbr, hf.nodes e he]

theorem insert_branchLeaf {e br lf : Nat} {k : {k // k ≤ w.bits}}
    (h : InsertInv M p v t (.branchLeaf s e k br lf)) :
    InsertOk M p v t (.branchLeaf s e k br lf) := by
  obtain ⟨b, h, hl, hd, hne, hbr⟩ := h
  have hmem : br ∈ [lf, br] := by simp
  have he := h.at_slot.linked hl
  have hllt : lf < t.nextNode := (h.rep.inv.priv_unlinked lf (List.mem_cons_self ..)).1
  have hord : (t.nodes br).pfx.bits ++ [!(t.nodes e).key.bit k] <+: (t.nodes lf).pfx.bits := by
    rw [hbr, h.node]; exact (hd.branch_prefix k.2).2
  have hf := frame_storeChild h.rep.inv hmem (!(t.nodes e).key.bit k) (some lf)
  have hb := h.storeChild hmem hllt hord
  rw [if_neg hne] at hb
  obtain ⟨hM, hr⟩ := hb.ready_branch (k := k) (by rw [hf.load h.at_slot.slot, hl])
    (hf.diverge he hd) hne (by rw [nodes_storeChild, if_pos rfl, hbr, hf.nodes e he])
  exact ⟨⟨b, h.content, hb.rep, hM, hr⟩, .privChild h.rep.inv hmem hllt hord,
    by simp [insertMeasure]⟩

theorem insert_publish {f : Nat} (h : InsertInv M p v t (.publish s f)) :
    InsertOk M p v t (.publish s f) := by
  obtain ⟨b, hc, hrep, hM, hr⟩ := h
  exact ⟨⟨⟨b, hc, hrep.publish hr hM⟩, hM⟩,
    .publish hrep.inv hr (by rw [hrep.table_eq]; exact hM), by simp [insertMeasure]⟩

theorem insert_publishBranch {br lf : Nat} (h : InsertInv M p v t (.publishBranch s br lf)) :
    InsertOk M p v t (.publishBranch s br lf) := by
  obtain ⟨b, hc, hrep, hM, hr⟩ := h
  exact ⟨⟨⟨b, hc, hrep.publish hr hM⟩, hM⟩,
    .publish hrep.inv hr (by rw [hrep.table_eq]; exact hM), by simp [insertMeasure]⟩

theorem insert_exchange {c : Nat} (h : InsertInv M p v t (.exchange b c)) :
    InsertOk M p v t (.exchange b c) := by
  obtain ⟨hrep, hc, hfresh, hlink, rfl⟩ := h
  have hv : ∀ u, some b = some u → t.Detached u := fun u hu => Option.some.inj hu ▸ hfresh
  have hrep' := hrep.exchange hlink hv
  have hM : M (t.nodes c).pfx = (t.nodes c).value := by
    rw [← hrep.table_eq]; exact hrep.inv.table_at hlink
  have hev : t.Evolves [] (t.storeValue c (some b)) [] := .exchange hrep.inv hlink hv
  cases hval : (t.nodes c).value with
  | none =>
    simp only [InsertOk, insertStep, hval]
    refine ⟨⟨⟨b, hc, ?_⟩, hM.trans hval⟩, hev, by simp [insertMeasure]⟩
    simpa [weight, hval] using hrep'
  | some old =>
    simp only [InsertOk, insertStep, hval]
    refine ⟨⟨⟨b, hc, ?_⟩, hM.trans hval, hrep.inv.box_lt c old hval, fun n u hu => ?_⟩, hev,
      by simp [insertMeasure]⟩
    · simpa [weight, hval] using hrep'
    · -- the old box was attached to `c` alone, and `c` now carries the fresh one
      rw [value_storeValue] at hu
      split at hu
      · obtain rfl := Option.some.inj hu
        exact fun he => hfresh.2 c old hval he.symm
      · next hn => exact fun he => hn (hrep.inv.box_unique n c u old hu hval he)

theorem insert_retireOld {old : Box V} (h : InsertInv M p v t (.retireOld old)) :
    InsertOk M p v t (.retireOld old) := by
  obtain ⟨⟨b, hc, hrep⟩, hM, -⟩ := h
  exact ⟨⟨⟨b, hc, hrep⟩, by simp [hM]⟩, .refl hrep.inv, by simp [insertMeasure]⟩

theorem insert_addNodes {count : Nat} (h : InsertInv M p v t (.addNodes count)) :
    InsertOk M p v t (.addNodes count) := by
  obtain ⟨⟨b, hc, hrep⟩, hM⟩ := h
  refine ⟨⟨⟨b, hc, hrep.quiet (by rfl) (by rfl) (by rfl) (by exact le_rfl) (by rfl) ?_⟩, hM⟩,
    .quiet hrep.inv (by rfl) (by rfl) (by rfl) (by exact le_rfl), by simp [insertMeasure]⟩
  push_cast; omega

theorem insert_addSize (h : InsertInv M p v t .addSize) : InsertOk M p v t .addSize := by
  obtain ⟨⟨b, hc, hrep⟩, hM⟩ := h
  refine ⟨⟨⟨b, hc, hrep.quiet (by rfl) (by rfl) (by rfl) (by exact le_rfl) ?_ (by rfl)⟩, by simp [hM]⟩,
    .quiet hrep.inv (by rfl) (by rfl) (by rfl) (by exact le_rfl), by simp [insertMeasure]⟩
  push_cast; omega

theorem insert_step {pc : InsertPc w V} (h : InsertInv M p v t pc) : InsertOk M p v t pc := by
  cases pc with
  | box => exact insert_box h
  | load => exact insert_load h
  | newLeaf => exact insert_newLeaf h
  | leafValue => exact insert_leafValue h
  | newBranch => exact insert_newBranch h
  | newBranchLeaf => exact insert_newBranchLeaf h
  | branchLeafValue => exact insert_branchLeafValue h
  | branchExisting => exact insert_branchExisting h
  | branchLeaf => exact insert_branchLeaf h
  | publishBranch => exact insert_publishBranch h
  | exchange => exact insert_exchange h
  | retireOld => exact insert_retireOld h
  | newParent => exact insert_newParent h
  | parentValue => exact insert_parentValue h
  | parentChild => exact insert_parentChild h
  | publish => exact insert_publish h
  | addNodes => exact insert_addNodes h
  | addSize => exact insert_addSize h
  | ret => exact ⟨rfl, h.1, h.2⟩

/-! ### Where it returns and what it retires -/

theorem insert_done {pc : InsertPc w V} {r : Bool} (h : insertStep p t pc = .done t' r) :
    pc = .ret r ∧ t' = t := by
  cases pc with
  | load b s =>
    simp only [insertStep] at h
    split at h
    · cases h
    · repeat (split at h; · cases h)
      cases h
  | exchange b c => simp only [insertStep] at h; split at h <;> cases h
  | ret => cases h; exact ⟨rfl, rfl⟩
  | _ => cases h

/-- `insert` retires the value it has replaced. -/
theorem insert_call {pc pc' : InsertPc w V} {e : Retired V} (h : insertStep p t pc = .call t' e pc') :
    t' = t ∧ ∃ old, pc = .retireOld old ∧ e = .value old ∧ pc' = .ret false := by
  cases pc with
  | load b s =>
    simp only [insertStep] at h
    split at h
    · cases h
    · repeat (split at h; · cases h)
      cases h
  | exchange b c => simp only [insertStep] at h; split at h <;> cases h
  | retireOld old => cases h; exact ⟨rfl, old, rfl, rfl, rfl⟩
  | _ => cases h

/-- `insert` alone makes progress and ends with the new value in the table. -/
theorem insert_total {pc : InsertPc w V} (h : InsertInv M p v t pc) :
    (insertStep p t pc).Sat
      (fun t' pc' => InsertInv M p v t' pc' ∧ insertMeasure t' pc' < insertMeasure t pc)
      (fun t' r => t'.Switched M p v 0 0 ∧ r = (M p).isNone) := by
  have hok := insert_step h
  unfold InsertOk at hok
  cases ho : insertStep p t pc with
  | next t' pc' => rw [ho] at hok; exact ⟨hok.1, hok.2.2⟩
  | call t' e pc' => rw [ho] at hok; exact ⟨hok.1, hok.2.2⟩
  | done t' r => rw [ho] at hok; exact hok.1 ▸ hok.2

end RadixTrie

end RcuFib

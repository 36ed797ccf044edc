import RcuFib.Trie.Descent
import RcuFib.Library.Routine

/-! `radix_trie::erase` and `prune`, one atomic access at a time.

    As for `insert`: a position just before each access, its annotation, and one theorem for each
    step. `parent` carries the two locals `parent` and `parent_slot`, which are null together. -/

namespace RcuFib
open SearchGraph Routine

namespace RadixTrie
variable {w : Width} {V : Type*}

inductive ErasePc (V : Type*) where
  /-- `current = slot->load`, before the loop and at its end -/
  | load (slot : Slot Nat) (parent : Option (Nat × Slot Nat))
  /-- `current->value.exchange(nullptr)` -/
  | exchange (current : Nat) (slot : Slot Nat) (parent : Option (Nat × Slot Nat))
  | retireValue (old : Box V) (current : Nat) (slot : Slot Nat) (parent : Option (Nat × Slot Nat))
  | subSize (current : Nat) (slot : Slot Nat) (parent : Option (Nat × Slot Nat))
  /-- `prune`: `left = current->child[0].load` -/
  | loadLeft (current : Nat) (slot : Slot Nat) (parent : Option (Nat × Slot Nat))
  | loadRight (left : Option Nat) (current : Nat) (slot : Slot Nat) (parent : Option (Nat × Slot Nat))
  /-- `slot->store(survivor)` -/
  | unlink (survivor : Option Nat) (current : Nat) (slot : Slot Nat)
      (parent : Option (Nat × Slot Nat))
  | retireNode (current : Nat) (parent : Option (Nat × Slot Nat))
  | subNodes (parent : Option (Nat × Slot Nat))
  /-- `parent->value.load` -/
  | parentValue (parent : Nat) (parentSlot : Slot Nat)
  | parentLeft (parent : Nat) (parentSlot : Slot Nat)
  | parentRight (parentLeft : Option Nat) (parent : Nat) (parentSlot : Slot Nat)
  /-- `parent_slot->store(only)` -/
  | collapse (only : Option Nat) (parent : Nat) (parentSlot : Slot Nat)
  | retireParent (parent : Nat)
  | subParent
  | ret (erased : Bool)

/-- One step of `erase(prefix)`. -/
def eraseStep (p : Prefix w) (t : RadixTrie w V) :
    ErasePc V → Outcome (RadixTrie w V) (ErasePc V) (Retired V) Bool
  | .load slot parent =>
    match t.loadSlot slot with
    | none => .next t (.ret false)
    | some current =>
      let keyLength := (t.nodes current).keyLength
      if p.length < keyLength then .next t (.ret false)
      else if !(t.nodes current).key.matchesTo p.address keyLength then .next t (.ret false)
      else if keyLength = p.length then .next t (.exchange current slot parent)
      else .next t (.load (.child current (p.address.bit keyLength)) (some (current, slot)))
  | .exchange current slot parent =>
    match (t.nodes current).value with
    | none => .next (t.storeValue current none) (.ret false)
    | some old => .next (t.storeValue current none) (.retireValue old current slot parent)
  | .retireValue old current slot parent => .call t (.value old) (.subSize current slot parent)
  | .subSize current slot parent =>
    .next { t with size := t.size - 1 } (.loadLeft current slot parent)
  | .loadLeft current slot parent =>
    .next t (.loadRight ((t.nodes current).child false) current slot parent)
  | .loadRight left current slot parent =>
    let right := (t.nodes current).child true
    if left.isSome && right.isSome then .next t (.ret true)
    else .next t (.unlink (if left.isSome then left else right) current slot parent)
  | .unlink survivor current slot parent =>
    .next (t.storeSlot slot survivor) (.retireNode current parent)
  | .retireNode current parent => .call t (.node current) (.subNodes parent)
  | .subNodes parent =>
    let t := { t with nodeCount := t.nodeCount - 1 }
    match parent with
    | none => .next t (.ret true)
    | some (parent, parentSlot) => .next t (.parentValue parent parentSlot)
  | .parentValue parent parentSlot =>
    if (t.nodes parent).value.isSome then .next t (.ret true)
    else .next t (.parentLeft parent parentSlot)
  | .parentLeft parent parentSlot =>
    .next t (.parentRight ((t.nodes parent).child false) parent parentSlot)
  | .parentRight left parent parentSlot =>
    let right := (t.nodes parent).child true
    if left.isSome && right.isSome then .next t (.ret true)
    else .next t (.collapse (if left.isSome then left else right) parent parentSlot)
  | .collapse only parent parentSlot => .next (t.storeSlot parentSlot only) (.retireParent parent)
  | .retireParent parent => .call t (.node parent) .subParent
  | .subParent => .next { t with nodeCount := t.nodeCount - 1 } (.ret true)
  | .ret erased => .done t erased

variable {t t' t₀ : RadixTrie w V} {M : Table w V} {p : Prefix w} {s : Slot Nat} {n : Nat}
  {parent : Option (Nat × Slot Nat)}

/-! ### The annotation of each position -/

/-- `slot` is a linked place that holds `n`. -/
structure Holds (t : RadixTrie w V) (s : Slot Nat) (n : Nat) : Prop where
  slot : t.graph.SlotLinked s
  load : t.loadSlot s = some n

/-- `parent_slot` holds `parent`, if there is one. -/
def ParentHeld (t : RadixTrie w V) (parent : Option (Nat × Slot Nat)) : Prop :=
  ∀ x ∈ parent, t.Holds x.2 x.1

/-- Where the node to prune hangs. -/
structure Hangs (t : RadixTrie w V) (n : Nat) (s : Slot Nat) (parent : Option (Nat × Slot Nat)) :
    Prop where
  held : t.Holds s n
  side : ∀ x ∈ parent, ∃ d, s = .child x.1 d
  parent : t.ParentHeld parent

/-- The value of `p` is gone from the table, and some counters still have to follow. -/
def Erased (t : RadixTrie w V) (M : Table w V) (p : Prefix w) (ds dn : Int) : Prop :=
  t.Rep [] (Function.update M p none) ds dn ∧ (M p).isSome

/-- A node that has been cut off, as the reclaimer gets it. -/
def CutOff (t : RadixTrie w V) (n : Nat) : Prop := n < t.nextNode ∧ ¬ t.Linked n

def EraseInv (t₀ : RadixTrie w V) (M : Table w V) (p : Prefix w) (t : RadixTrie w V) :
    ErasePc V → Prop
  | .load s parent => t = t₀ ∧ t.Rep [] M 0 0 ∧ t.At s p ∧ t.ParentHeld parent ∧
      ∀ x ∈ parent, ∃ d, s = .child x.1 d
  | .exchange c s parent => t = t₀ ∧ t.Rep [] M 0 0 ∧ (t.nodes c).pfx = p ∧ t.Hangs c s parent
  | .retireValue old c s parent => t.Erased M p (-1) 0 ∧ t.Hangs c s parent ∧
      (t.nodes c).value = none ∧ t.Detached old
  | .subSize c s parent => t.Erased M p (-1) 0 ∧ t.Hangs c s parent ∧ (t.nodes c).value = none
  | .loadLeft c s parent => t.Erased M p 0 0 ∧ t.Hangs c s parent ∧ (t.nodes c).value = none
  | .loadRight left c s parent => t.Erased M p 0 0 ∧ t.Hangs c s parent ∧
      (t.nodes c).value = none ∧ (t.nodes c).child false = left
  | .unlink survivor c s parent => t.Erased M p 0 0 ∧ t.Hangs c s parent ∧
      t.Prunable s c survivor
  | .retireNode c parent => t.Erased M p 0 (-1) ∧ t.ParentHeld parent ∧ t.CutOff c
  | .subNodes parent => t.Erased M p 0 (-1) ∧ t.ParentHeld parent
  | .parentValue n s => t.Erased M p 0 0 ∧ t.Holds s n
  | .parentLeft n s => t.Erased M p 0 0 ∧ t.Holds s n ∧ (t.nodes n).value = none
  | .parentRight left n s => t.Erased M p 0 0 ∧ t.Holds s n ∧ (t.nodes n).value = none ∧
      (t.nodes n).child false = left
  | .collapse only n s => t.Erased M p 0 0 ∧ t.Prunable s n only
  | .retireParent n => t.Erased M p 0 (-1) ∧ t.CutOff n
  | .subParent => t.Erased M p 0 (-1)
  | .ret erased => t.Rep [] (Function.update M p none) 0 0 ∧ erased = (M p).isSome ∧
      (erased = false → t = t₀)

/-- Before its first step `erase` has nothing to show. -/
theorem EraseInv.start (h : t.Rep [] M 0 0) (p : Prefix w) : EraseInv t M p t (.load .root none) :=
  ⟨rfl, h, ⟨trivial, List.nil_prefix⟩, nofun, nofun⟩

/-- Steps that remain, at most. -/
def eraseMeasure (t : RadixTrie w V) : ErasePc V → Nat
  | .load s _ => 15 + (w.bits + 1 - (t.graph.span s).length)
  | .exchange .. => 14
  | .retireValue .. => 13
  | .subSize .. => 12
  | .loadLeft .. => 11
  | .loadRight .. => 10
  | .unlink .. => 9
  | .retireNode .. => 8
  | .subNodes _ => 7
  | .parentValue .. => 6
  | .parentLeft .. => 5
  | .parentRight .. => 4
  | .collapse .. => 3
  | .retireParent _ => 2
  | .subParent => 1
  | .ret _ => 0

/-- What a step of `erase` guarantees. -/
def EraseOk (t₀ : RadixTrie w V) (M : Table w V) (p : Prefix w) (t : RadixTrie w V)
    (pc : ErasePc V) : Prop :=
  (eraseStep p t pc).Sat
    (fun t' pc' => EraseInv t₀ M p t' pc' ∧ t.Evolves [] t' [] ∧
      eraseMeasure t' pc' < eraseMeasure t pc)
    (fun t' r => t' = t ∧ t.Rep [] (Function.update M p none) 0 0 ∧ r = (M p).isSome ∧
      (r = false → t = t₀))

/-! ### The descent -/

theorem Holds.linked (h : t.Holds s n) : t.Linked n :=
  Graph.linked_of_slot h.slot (reach_get h.load)

theorem update_of_none {p : Prefix w} (h : M p = none) : Function.update M p none = M := by
  rw [← h, Function.update_eq_self]

theorem erase_absent (hrep : t.Rep [] M 0 0) (hM : M p = none) :
    EraseInv t M p t (.ret false) :=
  ⟨by rwa [update_of_none hM], by simp [hM], fun _ => rfl⟩

theorem erase_load (h : EraseInv t₀ M p t (.load s parent)) : EraseOk t₀ M p t (.load s parent) := by
  obtain ⟨rfl, hrep, hat, hpar, hside⟩ := h
  have hev : t.Evolves [] t [] := .refl hrep.inv
  have hret : eraseMeasure t (.ret false) < eraseMeasure t (.load s parent) := by
    simp only [eraseMeasure]; omega
  have habsent : t.table p = none → EraseInv t M p t (.ret false) := fun hM =>
    erase_absent hrep (by rw [← hrep.table_eq]; exact hM)
  cases hl : t.loadSlot s with
  | none =>
    simp only [EraseOk, eraseStep, hl]
    refine ⟨habsent (table_eq_none_of_slot hrep.inv hat fun m hm => ?_), hev, hret⟩
    rw [hl] at hm; exact absurd hm Graph.not_reach_none
  | some c =>
    simp only [EraseOk, eraseStep, hl]
    split
    · next hlt =>
      refine ⟨habsent (hat.table_eq_none hrep.inv hl fun hpre => ?_), hev, hret⟩
      have hle := hpre.length_le
      rw [Prefix.length_bits, Prefix.length_bits] at hle
      exact absurd hle (Nat.not_le.mpr hlt)
    · next hle =>
      have hle : (t.nodes c).pfx.length ≤ p.length := Nat.not_lt.mp hle
      split
      · next hm =>
        refine ⟨habsent (hat.table_eq_none hrep.inv hl fun hpre => ?_), hev, hret⟩
        rw [← Prefix.matchesTo_address_iff hle] at hpre
        have hm : (!(t.nodes c).pfx.address.matchesTo p.address (t.nodes c).pfx.length) = true := hm
        rw [hpre] at hm; cases hm
      · next hm =>
        have hm : ¬ (!(t.nodes c).pfx.address.matchesTo p.address (t.nodes c).pfx.length) = true := hm
        rw [Bool.not_eq_true, Bool.not_eq_false', Prefix.matchesTo_address_iff hle] at hm
        split
        · next heq =>
          refine ⟨⟨rfl, hrep, ?_, ⟨hat.slot, hl⟩, hside, hpar⟩, hev,
            by simp only [eraseMeasure]; omega⟩
          exact Prefix.bits_injective (hm.eq_of_length (by simpa [Node.keyLength] using heq))
        · next hne =>
          have hlt : (t.nodes c).pfx.length < p.length := lt_of_le_of_ne hle hne
          refine ⟨⟨rfl, hrep, ⟨hat.linked hl, prefix_snoc hm hlt⟩, fun x hx => ?_, fun x hx => ?_⟩,
            hev, ?_⟩
          · obtain rfl := Option.some.inj hx; exact ⟨hat.slot, hl⟩
          · obtain rfl := Option.some.inj hx; exact ⟨_, rfl⟩
          · have hspan := (At.span_load hrep.inv hl).length_le
            have hp := p.length_le
            rw [Prefix.length_bits] at hspan
            have hnext : (t.graph.span (.child c (p.address.bit (t.nodes c).keyLength))).length =
                (t.nodes c).pfx.length + 1 := by simp [Graph.span]
            simp only [eraseMeasure]
            omega

/-! ### Taking the value out -/

theorem Holds.of_graph (hg : t'.graph = t.graph) (h : t.Holds s n) : t'.Holds s n :=
  ⟨by rw [hg]; exact h.slot, by rw [← get_graph, hg, get_graph]; exact h.load⟩

theorem Hangs.of_graph (hg : t'.graph = t.graph) (h : t.Hangs n s parent) : t'.Hangs n s parent :=
  ⟨h.held.of_graph hg, h.side, fun x hx => (h.parent x hx).of_graph hg⟩

theorem erase_exchange {c : Nat} (h : EraseInv t₀ M p t (.exchange c s parent)) :
    EraseOk t₀ M p t (.exchange c s parent) := by
  obtain ⟨rfl, hrep, rfl, hh⟩ := h
  have hlink := hh.held.linked
  have hM : M (t.nodes c).pfx = (t.nodes c).value := by
    rw [← hrep.table_eq]; exact hrep.inv.table_at hlink
  have hv : ∀ b, (none : Option (Box V)) = some b → t.Detached b := nofun
  have hev : t.Evolves [] (t.storeValue c none) [] := .exchange hrep.inv hlink hv
  have hrep' := hrep.exchange hlink hv
  cases hval : (t.nodes c).value with
  | none =>
    have hsame : t.storeValue c none = t := by
      have : (t.nodes c).setValue none = t.nodes c := by rw [Node.setValue, ← hval]
      rw [storeValue, this, Function.update_eq_self]
    simp only [EraseOk, eraseStep, hval]
    rw [hsame] at hev ⊢
    exact ⟨erase_absent hrep (hM.trans hval), hev, by simp [eraseMeasure]⟩
  | some old =>
    simp only [EraseOk, eraseStep, hval]
    refine ⟨⟨⟨?_, by rw [hM, hval]; rfl⟩, hh.of_graph (graph_storeValue ..),
      by rw [value_storeValue, if_pos rfl],
      hrep.inv.box_lt c old hval, fun n u hu he => ?_⟩, hev, by simp [eraseMeasure]⟩
    · simpa [weight, hval] using hrep'
    · rw [value_storeValue] at hu
      split at hu
      · cases hu
      · next hn => exact hn (hrep.inv.box_unique n c u old hu hval he)

theorem erase_retireValue {old : Box V} {c : Nat}
    (h : EraseInv t₀ M p t (.retireValue old c s parent)) :
    EraseOk t₀ M p t (.retireValue old c s parent) := by
  obtain ⟨he, hh, hval, -⟩ := h
  exact ⟨⟨he, hh, hval⟩, .refl he.1.inv, by simp [eraseMeasure]⟩

theorem erase_subSize {c : Nat} (h : EraseInv t₀ M p t (.subSize c s parent)) :
    EraseOk t₀ M p t (.subSize c s parent) := by
  obtain ⟨he, hh, hval⟩ := h
  have hsize := he.1.size_eq
  refine ⟨⟨⟨he.1.quiet (by rfl) (by rfl) (by rfl) (by exact le_rfl) ?_ (by rfl), he.2⟩,
    hh.of_graph (by rfl), hval⟩, .quiet he.1.inv (by rfl) (by rfl) (by rfl) (by exact le_rfl),
    by simp [eraseMeasure]⟩
  push_cast [show 1 ≤ t.size by omega]
  omega

/-! ### Pruning -/

/-- The two loads of a node's children: unless both are there, the node may be cut off. -/
theorem prunable_of_children {left : Option Nat} (hh : t.Holds s n) (hv : (t.nodes n).value = none)
    (hl : (t.nodes n).child false = left)
    (hnot : ¬ (left.isSome && ((t.nodes n).child true).isSome) = true) :
    t.Prunable s n (if left.isSome then left else (t.nodes n).child true) := by
  subst hl
  refine ⟨hh.slot, hh.load, hv, fun m => ?_, fun c hc => ?_⟩
  · rw [reach_node]
    cases hf : (t.nodes n).child false <;> cases ht : (t.nodes n).child true <;>
      simp_all [Graph.not_reach_none]
  · split at hc
    exacts [⟨false, hc⟩, ⟨true, hc⟩]

theorem Prunable.cutOff {q : Option Nat} (h : t.Inv []) (hu : t.Prunable s n q) :
    (t.storeSlot s q).CutOff n := by
  refine ⟨by rw [nextNode_storeSlot]; exact h.linked_lt hu.linked, fun hl => ?_⟩
  exact ((linked_unlink h hu n).mp hl).2 rfl

/-- Cutting off a node leaves its parent where it was. -/
theorem Hangs.parent_unlink {q : Option Nat} (h : t.Inv []) (hh : t.Hangs n s parent)
    (hu : t.Prunable s n q) : (t.storeSlot s q).ParentHeld parent := by
  intro x hx
  have hp := hh.parent x hx
  obtain ⟨d, rfl⟩ := hh.side x hx
  have hlt : (t.graph.key x.1).length < (t.graph.key n).length :=
    Graph.key_lt_of_child h.ordered (b := d) (Graph.reach_of_eq hu.load)
  obtain ⟨m, ps⟩ := x
  cases ps with
  | root => exact ⟨trivial, hp.load⟩
  | child k e =>
    have hklt : (t.graph.key k).length < (t.graph.key m).length :=
      Graph.key_lt_of_child h.ordered (b := e) (Graph.reach_of_eq hp.load)
    have hkm : k ≠ m := by rintro rfl; exact absurd hklt (lt_irrefl _)
    have hkn : k ≠ n := by rintro rfl; exact absurd hlt (Nat.not_lt.mpr hklt.le)
    refine ⟨(linked_unlink h hu k).mpr ⟨hp.slot, hkn⟩, ?_⟩
    rw [loadSlot, child_storeChild_of_ne hkm]
    exact hp.load

theorem erase_loadLeft {c : Nat} (h : EraseInv t₀ M p t (.loadLeft c s parent)) :
    EraseOk t₀ M p t (.loadLeft c s parent) :=
  ⟨⟨h.1, h.2.1, h.2.2, rfl⟩, .refl h.1.1.inv, by simp [eraseMeasure]⟩

theorem erase_loadRight {left : Option Nat} {c : Nat}
    (h : EraseInv t₀ M p t (.loadRight left c s parent)) :
    EraseOk t₀ M p t (.loadRight left c s parent) := by
  obtain ⟨he, hh, hval, hl⟩ := h
  simp only [EraseOk, eraseStep]
  split
  · exact ⟨⟨he.1, he.2.symm, nofun⟩, .refl he.1.inv, by simp [eraseMeasure]⟩
  · next hnot =>
    exact ⟨⟨he, hh, prunable_of_children hh.held hval hl hnot⟩, .refl he.1.inv,
      by simp [eraseMeasure]⟩

theorem erase_unlink {q : Option Nat} {c : Nat} (h : EraseInv t₀ M p t (.unlink q c s parent)) :
    EraseOk t₀ M p t (.unlink q c s parent) := by
  obtain ⟨he, hh, hu⟩ := h
  exact ⟨⟨⟨he.1.unlink hu, he.2⟩, hh.parent_unlink he.1.inv hu, hu.cutOff he.1.inv⟩,
    .unlink he.1.inv hu, by simp [eraseMeasure]⟩

theorem erase_retireNode {c : Nat} (h : EraseInv t₀ M p t (.retireNode c parent)) :
    EraseOk t₀ M p t (.retireNode c parent) :=
  ⟨⟨h.1, h.2.1⟩, .refl h.1.1.inv, by simp [eraseMeasure]⟩

/-- `nodes_.fetch_sub(1)` after a node has been cut off. -/
theorem Erased.subNodes (h : t.Erased M p 0 (-1)) :
    Erased { t with nodeCount := t.nodeCount - 1 } M p 0 0 := by
  have hcount := h.1.nodes_eq
  refine ⟨h.1.quiet (by rfl) (by rfl) (by rfl) (by exact le_rfl) (by rfl) ?_, h.2⟩
  push_cast [show 1 ≤ t.nodeCount by omega]
  omega

theorem erase_subNodes (h : EraseInv t₀ M p t (.subNodes parent)) :
    EraseOk t₀ M p t (.subNodes parent) := by
  obtain ⟨he, hp⟩ := h
  have hev : t.Evolves [] { t with nodeCount := t.nodeCount - 1 } [] :=
    .quiet he.1.inv rfl rfl rfl le_rfl
  cases parent with
  | none => exact ⟨⟨he.subNodes.1, he.2.symm, nofun⟩, hev, by simp [eraseMeasure]⟩
  | some x => exact ⟨⟨he.subNodes, (hp x rfl).of_graph (by rfl)⟩, hev, by simp [eraseMeasure]⟩

theorem erase_parentValue (h : EraseInv t₀ M p t (.parentValue n s)) :
    EraseOk t₀ M p t (.parentValue n s) := by
  obtain ⟨he, hh⟩ := h
  simp only [EraseOk, eraseStep]
  split
  · exact ⟨⟨he.1, he.2.symm, nofun⟩, .refl he.1.inv, by simp [eraseMeasure]⟩
  · next hv => exact ⟨⟨he, hh, by simpa using hv⟩, .refl he.1.inv, by simp [eraseMeasure]⟩

theorem erase_parentLeft (h : EraseInv t₀ M p t (.parentLeft n s)) :
    EraseOk t₀ M p t (.parentLeft n s) :=
  ⟨⟨h.1, h.2.1, h.2.2, rfl⟩, .refl h.1.1.inv, by simp [eraseMeasure]⟩

theorem erase_parentRight {left : Option Nat} (h : EraseInv t₀ M p t (.parentRight left n s)) :
    EraseOk t₀ M p t (.parentRight left n s) := by
  obtain ⟨he, hh, hval, hl⟩ := h
  simp only [EraseOk, eraseStep]
  split
  · exact ⟨⟨he.1, he.2.symm, nofun⟩, .refl he.1.inv, by simp [eraseMeasure]⟩
  · next hnot =>
    exact ⟨⟨he, prunable_of_children hh hval hl hnot⟩, .refl he.1.inv, by simp [eraseMeasure]⟩

theorem erase_collapse {q : Option Nat} (h : EraseInv t₀ M p t (.collapse q n s)) :
    EraseOk t₀ M p t (.collapse q n s) := by
  obtain ⟨he, hu⟩ := h
  exact ⟨⟨⟨he.1.unlink hu, he.2⟩, hu.cutOff he.1.inv⟩, .unlink he.1.inv hu, by simp [eraseMeasure]⟩

theorem erase_step {pc : ErasePc V} (h : EraseInv t₀ M p t pc) : EraseOk t₀ M p t pc := by
  cases pc with
  | load => exact erase_load h
  | exchange => exact erase_exchange h
  | retireValue => exact erase_retireValue h
  | subSize => exact erase_subSize h
  | loadLeft => exact erase_loadLeft h
  | loadRight => exact erase_loadRight h
  | unlink => exact erase_unlink h
  | retireNode => exact erase_retireNode h
  | subNodes => exact erase_subNodes h
  | parentValue => exact erase_parentValue h
  | parentLeft => exact erase_parentLeft h
  | parentRight => exact erase_parentRight h
  | collapse => exact erase_collapse h
  | retireParent => exact ⟨h.1, .refl h.1.1.inv, by simp [eraseMeasure]⟩
  | subParent =>
    exact ⟨⟨(Erased.subNodes h).1, h.2.symm, nofun⟩, .quiet h.1.inv rfl rfl rfl le_rfl,
      by simp [eraseMeasure]⟩
  | ret => exact ⟨rfl, h⟩

/-! ### Where it returns and what it retires -/

theorem erase_done {pc : ErasePc V} {r : Bool} (h : eraseStep p t pc = .done t' r) :
    pc = .ret r ∧ t' = t := by
  cases pc with
  | load s parent =>
    simp only [eraseStep] at h
    split at h
    · cases h
    · repeat (split at h; · cases h)
      cases h
  | exchange c s parent => simp only [eraseStep] at h; split at h <;> cases h
  | loadRight l c s parent => simp only [eraseStep] at h; split at h <;> cases h
  | subNodes parent => simp only [eraseStep] at h; split at h <;> cases h
  | parentValue n s => simp only [eraseStep] at h; split at h <;> cases h
  | parentRight l n s => simp only [eraseStep] at h; split at h <;> cases h
  | ret => cases h; exact ⟨rfl, rfl⟩
  | _ => cases h

/-- `erase` retires the value, its node and the node's parent. -/
theorem erase_call {pc pc' : ErasePc V} {e : Retired V} (h : eraseStep p t pc = .call t' e pc') :
    t' = t ∧
      ((∃ old c s parent, pc = .retireValue old c s parent ∧ e = .value old ∧
          pc' = .subSize c s parent) ∨
        (∃ c parent, pc = .retireNode c parent ∧ e = .node c ∧ pc' = .subNodes parent) ∨
        ∃ n, pc = .retireParent n ∧ e = .node n ∧ pc' = .subParent) := by
  cases pc with
  | load s parent =>
    simp only [eraseStep] at h
    split at h
    · cases h
    · repeat (split at h; · cases h)
      cases h
  | exchange c s parent => simp only [eraseStep] at h; split at h <;> cases h
  | retireValue old c s parent => cases h; exact ⟨rfl, .inl ⟨old, c, s, parent, rfl, rfl, rfl⟩⟩
  | loadRight l c s parent => simp only [eraseStep] at h; split at h <;> cases h
  | retireNode c parent => cases h; exact ⟨rfl, .inr (.inl ⟨c, parent, rfl, rfl, rfl⟩)⟩
  | subNodes parent => simp only [eraseStep] at h; split at h <;> cases h
  | parentValue n s => simp only [eraseStep] at h; split at h <;> cases h
  | parentRight l n s => simp only [eraseStep] at h; split at h <;> cases h
  | retireParent n => cases h; exact ⟨rfl, .inr (.inr ⟨n, rfl, rfl, rfl⟩)⟩
  | _ => cases h

/-- `erase` alone makes progress and ends with the prefix out of the table. -/
theorem erase_total {pc : ErasePc V} (h : EraseInv t₀ M p t pc) :
    (eraseStep p t pc).Sat
      (fun t' pc' => EraseInv t₀ M p t' pc' ∧ eraseMeasure t' pc' < eraseMeasure t pc)
      (fun t' r => t'.Rep [] (Function.update M p none) 0 0 ∧ r = (M p).isSome ∧
        (r = false → t' = t₀)) := by
  have hok := erase_step h
  unfold EraseOk at hok
  cases ho : eraseStep p t pc with
  | next t' pc' => rw [ho] at hok; exact ⟨hok.1, hok.2.2⟩
  | call t' e pc' => rw [ho] at hok; exact ⟨hok.1, hok.2.2⟩
  | done t' r => rw [ho] at hok; exact hok.1 ▸ hok.2

end RadixTrie

end RcuFib

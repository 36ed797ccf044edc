import RcuFib.Trie.Descent
import RcuFib.Library.Routine

/-! `radix_trie::insert` (`insert_boxed`, `split`), one atomic access at a time.

    A position of `InsertPc` is a point of the source just before a load, a store, an allocation or
    a call of the reclaimer, with the locals that are live there. `InsertInv` is the annotation of
    each position; `insert_step` checks one step and gives, with it, what readers may rely on and a
    bound on the steps that remain. -/

namespace RcuFib
open SearchGraph Routine

namespace RadixTrie
variable {w : Width} {V : Type*}

inductive InsertPc (w : Width) (V : Type*) where
  /-- `new Value(std::move(value))` -/
  | box (value : V)
  /-- head of the `for (;;)` of `insert_boxed`: `slot->load` -/
  | load (boxed : Box V) (slot : Slot Nat)
  | newLeaf (boxed : Box V) (slot : Slot Nat)
  | leafValue (boxed : Box V) (slot : Slot Nat) (fresh : Nat)
  /-- `split`: `new node(prefix.address(), shared)` -/
  | newBranch (boxed : Box V) (slot : Slot Nat) (existing : Nat) (shared : {k // k ≤ w.bits})
  | newBranchLeaf (boxed : Box V) (slot : Slot Nat) (existing : Nat) (shared : {k // k ≤ w.bits})
      (branch : Nat)
  | branchLeafValue (boxed : Box V) (slot : Slot Nat) (existing : Nat) (shared : {k // k ≤ w.bits})
      (branch leaf : Nat)
  /-- `branch->child[existing_bit].store(existing)` -/
  | branchExisting (slot : Slot Nat) (existing : Nat) (shared : {k // k ≤ w.bits})
      (branch leaf : Nat)
  /-- `branch->child[!existing_bit].store(leaf)` -/
  | branchLeaf (slot : Slot Nat) (existing : Nat) (shared : {k // k ≤ w.bits}) (branch leaf : Nat)
  /-- `slot->store(branch)` -/
  | publishBranch (slot : Slot Nat) (branch leaf : Nat)
  /-- `current->value.exchange(boxed)` -/
  | exchange (boxed : Box V) (current : Nat)
  | retireOld (old : Box V)
  | newParent (boxed : Box V) (slot : Slot Nat) (current : Nat)
  | parentValue (boxed : Box V) (slot : Slot Nat) (current fresh : Nat)
  | parentChild (slot : Slot Nat) (current fresh : Nat)
  /-- `slot->store(fresh)` of the leaf and of the new parent -/
  | publish (slot : Slot Nat) (fresh : Nat)
  | addNodes (count : Nat)
  | addSize
  | ret (created : Bool)

/-- `current->key.common_prefix_length(prefix.address())`. -/
def sharedLength (t : RadixTrie w V) (current : Nat) (p : Prefix w) : {k // k ≤ w.bits} :=
  ⟨(t.nodes current).key.commonPrefixLength p.address, (Address.commonPrefixLength_spec _ _).le⟩

/-- One step of `insert(prefix, value)`. -/
def insertStep (p : Prefix w) (t : RadixTrie w V) :
    InsertPc w V → Outcome (RadixTrie w V) (InsertPc w V) (Retired V) Bool
  | .box value => .next t.newBox (.load ⟨t.nextBox, value⟩ .root)
  | .load boxed slot =>
    match t.loadSlot slot with
    | none => .next t (.newLeaf boxed slot)
    | some current =>
      let keyLength := (t.nodes current).keyLength
      let shared := t.sharedLength current p
      let usable := min keyLength p.length
      if shared.val < usable then .next t (.newBranch boxed slot current shared)
      else if keyLength = p.length then .next t (.exchange boxed current)
      else if keyLength < p.length then
        .next t (.load boxed (.child current (p.address.bit keyLength)))
      else .next t (.newParent boxed slot current)
  | .newLeaf boxed slot => .next (t.newNode p) (.leafValue boxed slot t.nextNode)
  | .leafValue boxed slot fresh => .next (t.storeValue fresh (some boxed)) (.publish slot fresh)
  | .newBranch boxed slot existing shared =>
    .next (t.newNode (.make p.address shared shared.2))
      (.newBranchLeaf boxed slot existing shared t.nextNode)
  | .newBranchLeaf boxed slot existing shared branch =>
    .next (t.newNode p) (.branchLeafValue boxed slot existing shared branch t.nextNode)
  | .branchLeafValue boxed slot existing shared branch leaf =>
    .next (t.storeValue leaf (some boxed)) (.branchExisting slot existing shared branch leaf)
  | .branchExisting slot existing shared branch leaf =>
    let existingBit := (t.nodes existing).key.bit shared
    .next (t.storeSlot (.child branch existingBit) (some existing))
      (.branchLeaf slot existing shared branch leaf)
  | .branchLeaf slot existing shared branch leaf =>
    let existingBit := (t.nodes existing).key.bit shared
    .next (t.storeSlot (.child branch !existingBit) (some leaf)) (.publishBranch slot branch leaf)
  | .publishBranch slot branch _ => .next (t.storeSlot slot (some branch)) (.addNodes 2)
  | .exchange boxed current =>
    match (t.nodes current).value with
    | none => .next (t.storeValue current (some boxed)) .addSize
    | some old => .next (t.storeValue current (some boxed)) (.retireOld old)
  | .retireOld old => .call t (.value old) (.ret false)
  | .newParent boxed slot current =>
    .next (t.newNode p) (.parentValue boxed slot current t.nextNode)
  | .parentValue boxed slot current fresh =>
    .next (t.storeValue fresh (some boxed)) (.parentChild slot current fresh)
  | .parentChild slot current fresh =>
    .next (t.storeSlot (.child fresh ((t.nodes current).key.bit p.length)) (some current))
      (.publish slot fresh)
  | .publish slot fresh => .next (t.storeSlot slot (some fresh)) (.addNodes 1)
  | .addNodes count => .next { t with nodeCount := t.nodeCount + count } .addSize
  | .addSize => .next { t with size := t.size + 1 } (.ret true)
  | .ret created => .done t created

/-- The nodes the writer has allocated and not yet published. -/
def InsertPc.priv : InsertPc w V → List Nat
  | .leafValue _ _ fresh | .parentValue _ _ _ fresh | .parentChild _ _ fresh
  | .publish _ fresh => [fresh]
  | .newBranchLeaf _ _ _ _ branch => [branch]
  | .branchLeafValue _ _ _ _ branch leaf | .branchExisting _ _ _ branch leaf
  | .branchLeaf _ _ _ branch leaf | .publishBranch _ branch leaf => [leaf, branch]
  | _ => []

variable {t t' : RadixTrie w V} {priv : List Nat} {M : Table w V} {p : Prefix w} {v : V}
  {b : Box V} {s : Slot Nat}

/-! ### Where two keys part ways -/

/-- `e`'s key and `p` part ways at bit `k`, inside both. -/
structure Diverge (t : RadixTrie w V) (e : Nat) (p : Prefix w) (k : Nat) : Prop where
  lt_key : k < (t.nodes e).keyLength
  lt_length : k < p.length
  agree : (t.nodes e).key.bits.take k = p.address.bits.take k
  differ : (t.nodes e).key.bit k ≠ p.address.bit k

theorem Frame.diverge (hf : t.Frame t') {e k : Nat} (he : t.Linked e) (hd : t.Diverge e p k) :
    t'.Diverge e p k := by
  have hn := hf.nodes e he
  exact ⟨hn ▸ hd.lt_key, hd.lt_length, hn ▸ hd.agree, hn ▸ hd.differ⟩

/-- The three ways to go on once the two keys agree as far as both reach. -/
theorem agree_of_not_lt {n : Nat}
    (h : ¬ (t.sharedLength n p).val < min (t.nodes n).keyLength p.length) :
    (t.nodes n).key.bits.take (min (t.nodes n).keyLength p.length) =
      p.address.bits.take (min (t.nodes n).keyLength p.length) := by
  have hle : min (t.nodes n).keyLength p.length ≤ w.bits := (Nat.min_le_right _ _).trans p.length_le
  exact (Address.le_commonPrefixLength_iff_take hle).mp (Nat.not_lt.mp h)

theorem diverge_of_lt {n : Nat}
    (h : (t.sharedLength n p).val < min (t.nodes n).keyLength p.length) :
    t.Diverge n p (t.sharedLength n p) := by
  have hspec := Address.commonPrefixLength_spec (t.nodes n).key p.address
  have hp := p.length_le
  refine ⟨by omega, by omega, ?_, hspec.differ ?_⟩
  · exact (Address.le_commonPrefixLength_iff_take (t.sharedLength n p).2).mp le_rfl
  · exact lt_of_lt_of_le (lt_of_lt_of_le h (Nat.min_le_right _ _)) hp

/-! ### The annotation of each position -/

/-- Descending with a fresh box. -/
structure Seeking (t : RadixTrie w V) (priv : List Nat) (M : Table w V) (p : Prefix w) (v : V)
    (b : Box V) (s : Slot Nat) : Prop where
  rep : t.Rep priv M 0 0
  content : b.content = v
  box : t.Detached b
  at_slot : t.At s p

/-- The value has been attached to the private node `leaf`. -/
structure Building (t : RadixTrie w V) (priv : List Nat) (M : Table w V) (p : Prefix w) (v : V)
    (b : Box V) (s : Slot Nat) (leaf : Nat) (child : Bool → Option Nat) : Prop where
  rep : t.Rep priv M 0 0
  content : b.content = v
  at_slot : t.At s p
  node : t.nodes leaf = ⟨p, some b, child⟩

/-- The table now maps `p` to the new box. -/
def Switched (t : RadixTrie w V) (M : Table w V) (p : Prefix w) (v : V) (ds dn : Int) : Prop :=
  ∃ b : Box V, b.content = v ∧ t.Rep [] (Function.update M p (some b)) ds dn

def InsertInv (M : Table w V) (p : Prefix w) (v : V) (t : RadixTrie w V) : InsertPc w V → Prop
  | .box value => t.Rep [] M 0 0 ∧ value = v
  | .load b s => t.Seeking [] M p v b s
  | .newLeaf b s => t.Seeking [] M p v b s ∧ t.loadSlot s = none
  | .leafValue b s f => t.Seeking [f] M p v b s ∧ t.loadSlot s = none ∧ t.nodes f = .fresh p
  | .newBranch b s e k => t.Seeking [] M p v b s ∧ t.loadSlot s = some e ∧ t.Diverge e p k
  | .newBranchLeaf b s e k br => t.Seeking [br] M p v b s ∧ t.loadSlot s = some e ∧
      t.Diverge e p k ∧ t.nodes br = .fresh (.make p.address k k.2)
  | .branchLeafValue b s e k br lf => t.Seeking [lf, br] M p v b s ∧ t.loadSlot s = some e ∧
      t.Diverge e p k ∧ lf ≠ br ∧ t.nodes br = .fresh (.make p.address k k.2) ∧
      t.nodes lf = .fresh p
  | .branchExisting s e k br lf => ∃ b, t.Building [lf, br] M p v b s lf (fun _ => none) ∧
      t.loadSlot s = some e ∧ t.Diverge e p k ∧ lf ≠ br ∧
      t.nodes br = .fresh (.make p.address k k.2)
  | .branchLeaf s e k br lf => ∃ b, t.Building [lf, br] M p v b s lf (fun _ => none) ∧
      t.loadSlot s = some e ∧ t.Diverge e p k ∧ lf ≠ br ∧
      t.nodes br = (Node.fresh (.make p.address k k.2)).setChild ((t.nodes e).key.bit k) (some e)
  | .publishBranch s br lf => ∃ b : Box V, b.content = v ∧ t.Rep [lf, br] M 0 0 ∧ M p = none ∧
      t.Ready [lf, br] s br p b
  | .exchange b c => t.Rep [] M 0 0 ∧ b.content = v ∧ t.Detached b ∧ t.Linked c ∧
      (t.nodes c).pfx = p
  | .retireOld old => t.Switched M p v 0 0 ∧ M p = some old ∧ t.Detached old
  | .newParent b s c => t.Seeking [] M p v b s ∧ t.loadSlot s = some c ∧
      p.bits <+: (t.nodes c).pfx.bits ∧ p.length < (t.nodes c).keyLength
  | .parentValue b s c f => t.Seeking [f] M p v b s ∧ t.loadSlot s = some c ∧
      p.bits <+: (t.nodes c).pfx.bits ∧ p.length < (t.nodes c).keyLength ∧ t.nodes f = .fresh p
  | .parentChild s c f => ∃ b, t.Building [f] M p v b s f (fun _ => none) ∧
      t.loadSlot s = some c ∧ p.bits <+: (t.nodes c).pfx.bits ∧ p.length < (t.nodes c).keyLength
  | .publish s f => ∃ b : Box V, b.content = v ∧ t.Rep [f] M 0 0 ∧ M p = none ∧ t.Ready [f] s f p b
  | .addNodes count => t.Switched M p v 1 count ∧ M p = none
  | .addSize => t.Switched M p v 1 0 ∧ M p = none
  | .ret created => t.Switched M p v 0 0 ∧ created = (M p).isNone

/-- Before its first step `insert` has nothing to show. -/
theorem InsertInv.start (h : t.Rep [] M 0 0) (p : Prefix w) (v : V) : InsertInv M p v t (.box v) :=
  ⟨h, rfl⟩

/-- Steps that remain, at most. -/
def insertMeasure (t : RadixTrie w V) : InsertPc w V → Nat
  | .box _ => w.bits + 14
  | .load _ s => 12 + (w.bits + 1 - (t.graph.span s).length)
  | .newLeaf .. => 6
  | .leafValue .. => 5
  | .newBranch .. => 11
  | .newBranchLeaf .. => 10
  | .branchLeafValue .. => 9
  | .branchExisting .. => 8
  | .branchLeaf .. => 7
  | .publishBranch .. => 4
  | .exchange .. => 3
  | .retireOld _ => 2
  | .newParent .. => 7
  | .parentValue .. => 6
  | .parentChild .. => 5
  | .publish .. => 4
  | .addNodes _ => 2
  | .addSize => 1
  | .ret _ => 0

end RadixTrie

end RcuFib

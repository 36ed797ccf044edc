import RcuFib.Prefix
import RcuFib.Library.SearchGraph

/-! The memory of a `radix_trie` (`include/rcufib/trie.hpp`).

    Nodes live at addresses handed out by a counter and are never reused, so a node that has been
    unlinked stays where it is, with the pointers it had; whether its memory may be freed is the
    reclaimer's business and is settled elsewhere. A boxed value is an address together with the
    immutable content it was created with. `root_`, the two `child` slots and `value` are the atomic
    locations; `storeSlot` and `storeValue` are the stores to them. -/

namespace RcuFib
open SearchGraph

/-- `Value*` to an object created by `new Value(..)`. -/
structure Box (V : Type*) where
  address : Nat
  content : V
  deriving DecidableEq

/-- `radix_trie::node`. `pfx` holds `key` and `key_length`, immutable once constructed. -/
structure Node (w : Width) (V : Type*) where
  pfx : Prefix w
  value : Option (Box V)
  child : Bool → Option Nat

namespace Node
variable {w : Width} {V : Type*}

def key (n : Node w V) : Address w := n.pfx.address
def keyLength (n : Node w V) : Nat := n.pfx.length

/-- `node(k, length)`: no value, no children. -/
def fresh (pfx : Prefix w) : Node w V := ⟨pfx, none, fun _ => none⟩

def setChild (n : Node w V) (b : Bool) (p : Option Nat) : Node w V :=
  { n with child := Function.update n.child b p }
def setValue (n : Node w V) (v : Option (Box V)) : Node w V := { n with value := v }

end Node

/-- What the trie hands to its `Reclaimer`. -/
inductive Retired (V : Type*) where
  | value (b : Box V)
  | node (n : Nat)
  deriving DecidableEq

structure RadixTrie (w : Width) (V : Type*) where
  root : Option Nat
  nodes : Nat → Node w V
  size : Nat
  nodeCount : Nat
  /-- Addresses from here on have not been allocated. -/
  nextNode : Nat
  nextBox : Nat

namespace RadixTrie
variable {w : Width} {V : Type*}

def empty : RadixTrie w V where
  root := none
  nodes := fun _ => .fresh (.make (.zero w) 0 (Nat.zero_le _))
  size := 0
  nodeCount := 0
  nextNode := 0
  nextBox := 0

def loadSlot (t : RadixTrie w V) : Slot Nat → Option Nat
  | .root => t.root
  | .child n b => (t.nodes n).child b

def storeSlot (t : RadixTrie w V) : Slot Nat → Option Nat → RadixTrie w V
  | .root, p => { t with root := p }
  | .child n b, p =>
    { t with nodes := Function.update t.nodes n ((t.nodes n).setChild b p) }

def storeValue (t : RadixTrie w V) (n : Nat) (v : Option (Box V)) : RadixTrie w V :=
  { t with nodes := Function.update t.nodes n ((t.nodes n).setValue v) }

/-- `new node(k, length)`; the address is `t.nextNode`. -/
def newNode (t : RadixTrie w V) (pfx : Prefix w) : RadixTrie w V :=
  { t with nodes := Function.update t.nodes t.nextNode (.fresh pfx), nextNode := t.nextNode + 1 }

/-- `new Value(..)`; the address is `t.nextBox`. -/
def newBox (t : RadixTrie w V) : RadixTrie w V := { t with nextBox := t.nextBox + 1 }

/-- The search graph of the nodes, keyed by the bits each node represents. -/
def graph (t : RadixTrie w V) : Graph Nat where
  root := t.root
  key := fun n => (t.nodes n).pfx.bits
  child := fun n => (t.nodes n).child

abbrev Linked (t : RadixTrie w V) (n : Nat) : Prop := t.graph.Linked n

variable {t : RadixTrie w V}

@[simp] theorem get_graph (s : Slot Nat) : t.graph.get s = t.loadSlot s := by cases s <;> rfl

theorem reach_get {s : Slot Nat} {n : Nat} (h : t.loadSlot s = some n) :
    t.graph.Reach (t.graph.get s) n :=
  Graph.reach_of_eq ((get_graph s).trans h)

@[simp] theorem key_graph (n : Nat) : t.graph.key n = (t.nodes n).pfx.bits := rfl

@[simp] theorem pfx_storeSlot (s : Slot Nat) (p : Option Nat) (n : Nat) :
    ((t.storeSlot s p).nodes n).pfx = (t.nodes n).pfx := by
  cases s with
  | root => rfl
  | child k b => by_cases h : n = k <;> simp [storeSlot, Node.setChild, h]

@[simp] theorem value_storeSlot (s : Slot Nat) (p : Option Nat) (n : Nat) :
    ((t.storeSlot s p).nodes n).value = (t.nodes n).value := by
  cases s with
  | root => rfl
  | child k b => by_cases h : n = k <;> simp [storeSlot, Node.setChild, h]

@[simp] theorem nextNode_storeSlot (s : Slot Nat) (p : Option Nat) :
    (t.storeSlot s p).nextNode = t.nextNode := by cases s <;> rfl
@[simp] theorem nextBox_storeSlot (s : Slot Nat) (p : Option Nat) :
    (t.storeSlot s p).nextBox = t.nextBox := by cases s <;> rfl
@[simp] theorem size_storeSlot (s : Slot Nat) (p : Option Nat) :
    (t.storeSlot s p).size = t.size := by cases s <;> rfl
@[simp] theorem nodeCount_storeSlot (s : Slot Nat) (p : Option Nat) :
    (t.storeSlot s p).nodeCount = t.nodeCount := by cases s <;> rfl

/-- A slot store is a store into the search graph. -/
theorem graph_storeSlot (s : Slot Nat) (p : Option Nat) :
    (t.storeSlot s p).graph = t.graph.set s p := by
  cases s with
  | root => rfl
  | child k b =>
    simp only [graph, Graph.set, SearchGraph.Graph.mk.injEq]
    refine ⟨rfl, funext fun n => by simp, funext fun n => ?_⟩
    by_cases h : n = k
    · subst h; simp [storeSlot, Node.setChild]
    · simp [storeSlot, Node.setChild, h]

@[simp] theorem pfx_storeValue (n m : Nat) (v : Option (Box V)) :
    ((t.storeValue n v).nodes m).pfx = (t.nodes m).pfx := by
  by_cases h : m = n <;> simp [storeValue, Node.setValue, h]

@[simp] theorem child_storeValue (n m : Nat) (v : Option (Box V)) :
    ((t.storeValue n v).nodes m).child = (t.nodes m).child := by
  by_cases h : m = n <;> simp [storeValue, Node.setValue, h]

theorem value_storeValue (n m : Nat) (v : Option (Box V)) :
    ((t.storeValue n v).nodes m).value = if m = n then v else (t.nodes m).value := by
  by_cases h : m = n <;> simp [storeValue, Node.setValue, h]

@[simp] theorem graph_storeValue (n : Nat) (v : Option (Box V)) :
    (t.storeValue n v).graph = t.graph := by
  simp only [graph, SearchGraph.Graph.mk.injEq]
  exact ⟨rfl, funext fun m => by simp, funext fun m => by simp⟩

theorem nodes_storeValue (k n : Nat) (v : Option (Box V)) :
    (t.storeValue k v).nodes n = if n = k then (t.nodes k).setValue v else t.nodes n := by
  by_cases h : n = k <;> simp [storeValue, h]

theorem nodes_storeChild (k n : Nat) (b : Bool) (p : Option Nat) :
    (t.storeSlot (.child k b) p).nodes n = if n = k then (t.nodes k).setChild b p else t.nodes n := by
  by_cases h : n = k <;> simp [storeSlot, h]

theorem nodes_newNode (pfx : Prefix w) (n : Nat) :
    (t.newNode pfx).nodes n = if n = t.nextNode then .fresh pfx else t.nodes n := by
  by_cases h : n = t.nextNode <;> simp [newNode, h]

end RadixTrie

end RcuFib

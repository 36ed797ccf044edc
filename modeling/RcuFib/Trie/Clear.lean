import RcuFib.Trie.Publish
import RcuFib.Library.Routine

/-! `radix_trie::clear`: the root is taken out in one exchange, and `retire_subtree` then walks the
    old nodes bottom-up. Its recursion is an explicit stack of what is still to be done at each node
    on the way. The walk ends because keys grow along every pointer and are at most `w.bits` long. -/

namespace RcuFib
open SearchGraph Routine

namespace RadixTrie
variable {w : Width} {V : Type*}

/-- What an activation of `retire_subtree` still has to do. -/
inductive Pending where
  | left (n : Nat)
  | right (n : Nat)
  | retire (n : Nat)
  deriving DecidableEq

/-- `retire_subtree(p)` on top of the stack; it returns at once for a null pointer. -/
def enter (p : Option Nat) (stack : List Pending) : List Pending :=
  match p with
  | none => stack
  | some n => .left n :: stack

inductive ClearPc where
  /-- `root_.exchange(nullptr)` -/
  | exchangeRoot
  | retireSubtree (stack : List Pending)
  | storeSize
  | storeNodes
  | ret

def clearStep (t : RadixTrie w V) : ClearPc → Outcome (RadixTrie w V) ClearPc (Retired V) Unit
  | .exchangeRoot => .next { t with root := none } (.retireSubtree (enter t.root []))
  | .retireSubtree [] => .next t .storeSize
  | .retireSubtree (.left n :: stack) =>
    .next t (.retireSubtree (enter ((t.nodes n).child false) (.right n :: stack)))
  | .retireSubtree (.right n :: stack) =>
    .next t (.retireSubtree (enter ((t.nodes n).child true) (.retire n :: stack)))
  | .retireSubtree (.retire n :: stack) => .call t (.node n) (.retireSubtree stack)
  | .storeSize => .next { t with size := 0 } .storeNodes
  | .storeNodes => .next { t with nodeCount := 0 } .ret
  | .ret => .done t ()

variable {t t' : RadixTrie w V} {M : Table w V}

/-! ### The walk ends -/

/-- How much deeper than `n` a key can get. -/
def room (t : RadixTrie w V) (n : Nat) : Nat := w.bits - (t.nodes n).keyLength

def pendingCost (t : RadixTrie w V) : Pending → Nat
  | .left n => 5 * 5 ^ t.room n
  | .right n => 3 * 5 ^ t.room n
  | .retire _ => 1

def stackCost (t : RadixTrie w V) (stack : List Pending) : Nat := (stack.map t.pendingCost).sum

/-- A child costs no more than one fifth of its parent. -/
theorem stackCost_enter (h : t.graph.Ordered) {n : Nat} {b : Bool} (stack : List Pending) :
    t.stackCost (enter ((t.nodes n).child b) stack) ≤ 5 ^ t.room n + t.stackCost stack := by
  cases hc : (t.nodes n).child b with
  | none => exact Nat.le_add_left _ _
  | some c =>
    have hlt : (t.nodes n).pfx.length < (t.nodes c).pfx.length := by
      have := (h n b c hc).length_le
      simp only [key_graph, List.length_append, Prefix.length_bits, List.length_singleton] at this
      omega
    have hle := (t.nodes c).pfx.length_le
    have hroom : t.room c + 1 ≤ t.room n := by simp only [room, Node.keyLength]; omega
    have hcost : 5 * 5 ^ t.room c ≤ 5 ^ t.room n := by
      rw [mul_comm, ← pow_succ]; exact Nat.pow_le_pow_right (by decide) hroom
    simp only [enter, stackCost, List.map_cons, List.sum_cons, pendingCost]
    omega

def clearMeasure (t : RadixTrie w V) : ClearPc → Nat
  | .exchangeRoot => t.stackCost (enter t.root []) + 4
  | .retireSubtree stack => t.stackCost stack + 3
  | .storeSize => 2
  | .storeNodes => 1
  | .ret => 0

/-! ### The annotation of each position -/

theorem Inv.dropRoot (h : t.Inv []) : Inv { t with root := none } [] :=
  ⟨h.ordered, nofun, h.child_lt, nofun, nofun, h.box_lt, h.box_unique⟩

def ClearInv (M : Table w V) (t : RadixTrie w V) : ClearPc → Prop
  | .exchangeRoot => t.Rep [] M 0 0
  | .retireSubtree _ => t.Inv [] ∧ t.root = none
  | .storeSize => t.Inv [] ∧ t.root = none
  | .storeNodes => t.Inv [] ∧ t.root = none ∧ t.size = 0
  | .ret => t.Rep [] (fun _ => none) 0 0

theorem clear_step {pc : ClearPc} (h : ClearInv M t pc) :
    (clearStep t pc).Sat (fun t' pc' => ClearInv M t' pc' ∧ clearMeasure t' pc' < clearMeasure t pc)
      (fun t' _ => t'.Rep [] (fun _ => none) 0 0) := by
  cases pc with
  | exchangeRoot =>
    have h : t.Rep [] M 0 0 := h
    exact ⟨⟨h.inv.dropRoot, rfl⟩, by simp only [clearMeasure]; exact Nat.lt_succ_self _⟩
  | retireSubtree stack =>
    obtain ⟨hi, hr⟩ := h
    cases stack with
    | nil => exact ⟨⟨hi, hr⟩, by simp [clearMeasure]⟩
    | cons top stack =>
      cases top with
      | left n =>
        refine ⟨⟨hi, hr⟩, ?_⟩
        have hc := stackCost_enter hi.ordered (n := n) (b := false) (.right n :: stack)
        have hpos : 0 < 5 ^ t.room n := Nat.pow_pos (by decide)
        simp only [clearMeasure, stackCost, List.map_cons, List.sum_cons, pendingCost] at hc ⊢
        omega
      | right n =>
        refine ⟨⟨hi, hr⟩, ?_⟩
        have hc := stackCost_enter hi.ordered (n := n) (b := true) (.retire n :: stack)
        have hpos : 0 < 5 ^ t.room n := Nat.pow_pos (by decide)
        simp only [clearMeasure, stackCost, List.map_cons, List.sum_cons, pendingCost] at hc ⊢
        omega
      | retire n =>
        refine ⟨⟨hi, hr⟩, ?_⟩
        simp only [clearMeasure, stackCost, List.map_cons, List.sum_cons, pendingCost]
        omega
  | storeSize =>
    obtain ⟨hi, hr⟩ := h
    exact ⟨⟨hi.quiet (by rfl) (by rfl) (by rfl) (by exact le_rfl), hr, rfl⟩, by simp [clearMeasure]⟩
  | storeNodes =>
    obtain ⟨hi, hr, hs⟩ := h
    have hi' : Inv { t with nodeCount := 0 } [] := hi.quiet rfl rfl rfl le_rfl
    refine ⟨?_, by simp [clearMeasure]⟩
    have := rep_of_root_none hi' hr
    simpa [ClearInv, hs] using this
  | ret => exact h

end RadixTrie

end RcuFib

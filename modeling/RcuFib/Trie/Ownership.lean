import RcuFib.Trie.History
import RcuFib.Trie.Writer
import RcuFib.Library.Custody
import RcuFib.Library.SearchTree

/-! Who owns the memory of the trie.

    A node is allocated by `insert` and is private until it is published; from then on it belongs to
    the trie, until a call hands it to the reclaimer together with the value it still carries. A value
    that is replaced or erased is handed over alone. `Kept` is what has not been handed over at some
    point of a call: what hangs from the nodes the trie or the running call owns, the box the call has
    in hand, and the addresses that are still free. -/

namespace RcuFib
open SearchGraph Routine

namespace RadixTrie
variable {w : Width} {V : Type*}

/-- What `new` returned: a node or a boxed value. -/
inductive Object where
  | node (n : Nat)
  | box (address : Nat)
  deriving DecidableEq

/-- The node's value is the box at `a`. -/
def Carries (t : RadixTrie w V) (n a : Nat) : Prop := (t.nodes n).value.map Box.address = some a

def Object.Allocated (t : RadixTrie w V) : Object → Prop
  | node n => n < t.nextNode
  | box a => a < t.nextBox

/-- Reachable from the root. -/
def Object.Linked (t : RadixTrie w V) : Object → Prop
  | node n => t.Linked n
  | box a => ∃ n, t.Linked n ∧ t.Carries n a

/-- What the reclaimer is handed: a retired node takes its value along. -/
def hands (t : RadixTrie w V) : Retired V → Object → Bool
  | .node n, .node m => m == n
  | .node n, .box a => (t.nodes n).value.map Box.address == some a
  | .value b, .box a => a == b.address
  | .value _, .node _ => false

/-- Not handed over yet, while the nodes `owned` and the box `inHand` are in good hands. -/
def Kept (t : RadixTrie w V) (owned : Nat → Prop) (inHand : Option (Box V)) : Object → Prop
  | .node n => owned n ∨ t.nextNode ≤ n
  | .box a => (∃ n, owned n ∧ t.Carries n a) ∨ inHand.map Box.address = some a ∨ t.nextBox ≤ a

/-- Between calls the trie owns the linked nodes. -/
def AtRest (t : RadixTrie w V) (x : Object) : Prop := t.Kept t.Linked none x

variable {t t' t₀ : RadixTrie w V} {M : Table w V} {p : Prefix w} {v : V} {b : Box V}
  {owned owned' : Nat → Prop} {inHand inHand' : Option (Box V)}

/-! ### What one access does to the books -/

theorem kept_congr (hown : ∀ n, owned' n ↔ owned n)
    (hv : ∀ n, owned n → (t'.nodes n).value = (t.nodes n).value) (hn : t'.nextNode = t.nextNode)
    (hb : t'.nextBox = t.nextBox) (x : Object) : t'.Kept owned' inHand x ↔ t.Kept owned inHand x := by
  cases x with
  | node n => simp only [Kept, hown, hn]
  | box a =>
    simp only [Kept, hown, hb]
    refine or_congr_left (exists_congr fun n => and_congr_right fun hn => ?_)
    rw [Carries, Carries, hv n hn]

theorem kept_newBox (hb : inHand'.map Box.address = some t.nextBox) (x : Object) :
    t.newBox.Kept owned inHand' x ↔ t.Kept owned none x := by
  cases x with
  | node n => rfl
  | box a =>
    simp only [Kept, hb, newBox, Option.map_none, reduceCtorEq, false_or, Option.some.injEq]
    refine or_congr_right ?_
    omega

theorem kept_newNode {q : Prefix w} (hown : ∀ n, owned' n ↔ owned n ∨ n = t.nextNode)
    (hlt : ∀ n, owned n → n < t.nextNode) (x : Object) :
    (t.newNode q).Kept owned' inHand x ↔ t.Kept owned inHand x := by
  cases x with
  | node n =>
    simp only [Kept, hown, newNode, or_assoc]
    refine or_congr_right ?_
    omega
  | box a =>
    simp only [Kept, hown]
    refine or_congr (exists_congr fun n => ?_) .rfl
    rw [Carries, nodes_newNode]
    rcases eq_or_ne n t.nextNode with rfl | hne
    · simp only [if_true, Node.fresh, Option.map_none, reduceCtorEq, and_false, false_iff, not_and]
      exact fun hn => absurd (hlt _ hn) (lt_irrefl _)
    · rw [if_neg hne, Carries]
      simp only [hne, or_false]

theorem or_swap_inside {r c h u h' z : Prop} (hs : u ∨ h' ↔ c ∨ h) :
    (r ∨ u) ∨ h' ∨ z ↔ (r ∨ c) ∨ h ∨ z := by
  tauto

/-- Boxes that move between the hand and the value of an owned node. -/
theorem kept_storeValue {k : Nat} {u : Option (Box V)} (hown : ∀ n, owned' n ↔ owned n) (hk : owned k)
    (hswap : ∀ a : Nat, u.map Box.address = some a ∨ inHand'.map Box.address = some a ↔
      t.Carries k a ∨ inHand.map Box.address = some a) (x : Object) :
    (t.storeValue k u).Kept owned' inHand' x ↔ t.Kept owned inHand x := by
  cases x with
  | node n => simp only [Kept, hown]; rfl
  | box a =>
    have hsplit : ∀ s : RadixTrie w V, (∃ n, owned n ∧ s.Carries n a) ↔
        (∃ n, n ≠ k ∧ owned n ∧ s.Carries n a) ∨ s.Carries k a := by
      intro s
      constructor
      · rintro ⟨n, hn, hc⟩
        rcases eq_or_ne n k with rfl | hne
        exacts [.inr hc, .inl ⟨n, hne, hn, hc⟩]
      · rintro (⟨n, -, hn, hc⟩ | hc)
        exacts [⟨n, hn, hc⟩, ⟨k, hk, hc⟩]
    have hother : (∃ n, n ≠ k ∧ owned n ∧ (t.storeValue k u).Carries n a) ↔
        ∃ n, n ≠ k ∧ owned n ∧ t.Carries n a :=
      exists_congr fun n => and_congr_right fun hne => by
        rw [Carries, value_storeValue, if_neg hne, Carries]
    have hat : (t.storeValue k u).Carries k a ↔ u.map Box.address = some a := by
      rw [Carries, value_storeValue, if_pos rfl]
    simp only [Kept, hown]
    rw [hsplit t, hsplit (t.storeValue k u), hother, hat]
    exact or_swap_inside (hswap a)

/-- Handing over the box in hand. -/
theorem kept_retireValue (hown : ∀ n, owned' n ↔ owned n) (hd : t.Detached b) (x : Object) :
    (t.hands (.value b) x = true → t.Kept owned (some b) x) ∧
      (t.Kept owned' none x ↔ t.Kept owned (some b) x ∧ t.hands (.value b) x = false) := by
  cases x with
  | node n => simp [Kept, hands, hown]
  | box a =>
    have hnot : ∀ n, t.Carries n a → a ≠ b.address := by
      rintro n hc rfl
      obtain ⟨u, hu, he⟩ := Option.map_eq_some_iff.mp hc
      exact hd.2 n u hu he
    have hlt := hd.1
    simp only [Kept, hands, hown, Option.map_some, Option.some.injEq, Option.map_none, reduceCtorEq,
      false_or, beq_iff_eq, beq_eq_false_iff_ne]
    refine ⟨fun he => .inr (.inl he.symm), ?_, ?_⟩
    · rintro (⟨n, hn, hc⟩ | hle)
      · exact ⟨.inl ⟨n, hn, hc⟩, hnot n hc⟩
      · exact ⟨.inr (.inr hle), by omega⟩
    · rintro ⟨hc | he | hle, hne⟩
      exacts [.inl hc, absurd he.symm hne, .inr hle]

/-- Handing over an owned node, and with it the value it carries. -/
theorem kept_retireNode {priv : List Nat} {n : Nat} (h : t.Inv priv) (hn : owned n) (hlt : n < t.nextNode)
    (hown : ∀ m, owned' m ↔ owned m ∧ m ≠ n) (x : Object) :
    (t.hands (.node n) x = true → t.Kept owned none x) ∧
      (t.Kept owned' none x ↔ t.Kept owned none x ∧ t.hands (.node n) x = false) := by
  cases x with
  | node m =>
    simp only [Kept, hands, hown, beq_iff_eq, beq_eq_false_iff_ne]
    refine ⟨fun he => .inl (he ▸ hn), ?_⟩
    have : t.nextNode ≤ m → m ≠ n := by omega
    tauto
  | box a =>
    simp only [Kept, hands, hown, Option.map_none, reduceCtorEq, false_or, beq_iff_eq,
      beq_eq_false_iff_ne]
    refine ⟨fun hc => .inl ⟨n, hn, hc⟩, ?_, ?_⟩
    · rintro (⟨m, ⟨hm, hne⟩, hc⟩ | hle)
      · refine ⟨.inl ⟨m, hm, hc⟩, fun hc' => hne ?_⟩
        obtain ⟨u, hu, rfl⟩ := Option.map_eq_some_iff.mp hc
        obtain ⟨u', hu', he⟩ := Option.map_eq_some_iff.mp hc'
        exact h.box_unique m n u u' hu hu' he.symm
      · refine ⟨.inr hle, fun hc => ?_⟩
        obtain ⟨u, hu, rfl⟩ := Option.map_eq_some_iff.mp hc
        exact absurd (h.box_lt n u hu) (Nat.not_lt.mpr hle)
    · rintro ⟨⟨m, hm, hc⟩ | hle, hne⟩
      · refine .inl ⟨m, ⟨hm, ?_⟩, hc⟩
        rintro rfl
        exact hne hc
      · exact .inr hle

/-! ### `insert` -/

/-- The box the writer has created and not attached yet, or taken off and not retired yet. -/
def InsertPc.hand : InsertPc w V → Option (Box V)
  | .retireOld old => some old
  | pc => pc.boxed

def InsertPc.own (t : RadixTrie w V) (pc : InsertPc w V) (n : Nat) : Prop := t.Linked n ∨ n ∈ pc.priv

def insertKept (t : RadixTrie w V) (pc : InsertPc w V) : Object → Prop := t.Kept (pc.own t) pc.hand

theorem InsertInv.own_lt {pc : InsertPc w V} (h : InsertInv M p v t pc) {n : Nat} (hn : pc.own t n) :
    n < t.nextNode :=
  hn.elim h.inv.linked_lt fun hp => (h.inv.priv_unlinked n hp).1

/-- Allocating a private node. -/
theorem insert_kept_newNode {pc pc' : InsertPc w V} {q : Prefix w} (h : InsertInv M p v t pc)
    (hpriv : pc'.priv = t.nextNode :: pc.priv) (hhand : pc'.hand = pc.hand) (x : Object) :
    insertKept (t.newNode q) pc' x ↔ insertKept t pc x := by
  rw [insertKept, insertKept, hhand]
  refine kept_newNode (fun n => ?_) (fun n => h.own_lt) x
  rw [InsertPc.own, InsertPc.own, hpriv, linked_newNode h.inv, List.mem_cons, or_assoc, or_comm (a := n = _)]

/-- Attaching the new box to a private node without a value. -/
theorem insert_kept_value {pc pc' : InsertPc w V} {k : Nat}
    (hk : k ∈ pc.priv) (hn : (t.nodes k).value = none) (hpriv : pc'.priv = pc.priv)
    (hhand : pc.hand = some b) (hhand' : pc'.hand = none) (x : Object) :
    insertKept (t.storeValue k (some b)) pc' x ↔ insertKept t pc x := by
  refine kept_storeValue (fun n => ?_) (.inr hk) (fun a => ?_) x
  · rw [InsertPc.own, InsertPc.own, hpriv, linked_storeValue]
  · rw [hhand, hhand', Carries, hn]
    simp

/-- A store to a private child slot. -/
theorem insert_kept_child {pc pc' : InsertPc w V} {k : Nat} {d : Bool} {c : Option Nat}
    (h : InsertInv M p v t pc) (hk : k ∈ pc.priv) (hpriv : pc'.priv = pc.priv)
    (hhand : pc'.hand = pc.hand) (x : Object) :
    insertKept (t.storeSlot (.child k d) c) pc' x ↔ insertKept t pc x := by
  rw [insertKept, insertKept, hhand]
  refine kept_congr (fun n => ?_) (fun n _ => value_storeSlot ..) (by rfl) (by rfl) x
  rw [InsertPc.own, InsertPc.own, hpriv, (frame_storeChild h.inv hk d c).linked]

/-- The private nodes become linked. -/
theorem insert_kept_publish {priv : List Nat} {pc pc' : InsertPc w V} {s : Slot Nat} {top : Nat}
    (hi : t.Inv priv) (hr : t.Ready priv s top p b) (hpriv : pc.priv = priv) (hpriv' : pc'.priv = [])
    (hhand : pc'.hand = pc.hand) (x : Object) :
    insertKept (t.storeSlot s (some top)) pc' x ↔ insertKept t pc x := by
  rw [insertKept, insertKept, hhand]
  refine kept_congr (fun n => ?_) (fun n _ => value_storeSlot ..) (by simp) (by simp) x
  rw [InsertPc.own, InsertPc.own, hpriv, hpriv', linked_publish hi hr]
  simp

/-- The new box takes the place of whatever the node carried. -/
theorem insert_kept_exchange {pc pc' : InsertPc w V} {k : Nat} (hk : t.Linked k)
    (hpriv : pc'.priv = pc.priv) (hhand : pc.hand = some b) (hhand' : pc'.hand = (t.nodes k).value)
    (x : Object) : insertKept (t.storeValue k (some b)) pc' x ↔ insertKept t pc x := by
  refine kept_storeValue (fun n => ?_) (.inl hk) (fun a => ?_) x
  · rw [InsertPc.own, InsertPc.own, hpriv, linked_storeValue]
  · rw [hhand, hhand', Carries, or_comm]

theorem insert_conserves {pc : InsertPc w V} (h : InsertInv M p v t pc) :
    (insertStep p t pc).Conserves hands insertKept AtRest (insertKept t pc) := by
  cases pc with
  | box value => exact kept_newBox rfl
  | load b s =>
    simp only [insertStep]
    split
    · exact fun _ => .rfl
    · split
      · exact fun _ => .rfl
      · split
        · exact fun _ => .rfl
        · split <;> exact fun _ => .rfl
  | newLeaf => exact insert_kept_newNode h rfl rfl
  | leafValue b s f =>
    exact insert_kept_value (List.mem_singleton_self f) (by rw [h.2.2]; rfl) rfl rfl rfl
  | newBranch => exact insert_kept_newNode h rfl rfl
  | newBranchLeaf => exact insert_kept_newNode h rfl rfl
  | branchLeafValue b s e k br lf =>
    obtain ⟨-, -, -, -, -, hlf⟩ := h
    exact insert_kept_value (List.mem_cons_self ..) (by rw [hlf]; rfl) rfl rfl rfl
  | branchExisting s e k br lf => exact insert_kept_child h (by simp [InsertPc.priv]) rfl rfl
  | branchLeaf s e k br lf => exact insert_kept_child h (by simp [InsertPc.priv]) rfl rfl
  | publishBranch s br lf =>
    obtain ⟨b, -, hrep, -, hr⟩ := h
    exact insert_kept_publish hrep.inv hr rfl rfl rfl
  | exchange b c =>
    obtain ⟨-, -, -, hc, -⟩ := h
    simp only [insertStep]
    split
    · next hv => exact insert_kept_exchange hc rfl rfl hv.symm
    · next old hv => exact insert_kept_exchange hc rfl rfl hv.symm
  | retireOld old =>
    exact kept_retireValue (fun n => by simp [InsertPc.own, InsertPc.priv]) h.2.2
  | newParent => exact insert_kept_newNode h rfl rfl
  | parentValue b s c f =>
    obtain ⟨-, -, -, -, hf⟩ := h
    exact insert_kept_value (List.mem_singleton_self f) (by rw [hf]; rfl) rfl rfl rfl
  | parentChild s c f => exact insert_kept_child h (List.mem_singleton_self f) rfl rfl
  | publish s f =>
    obtain ⟨b, -, hrep, -, hr⟩ := h
    exact insert_kept_publish hrep.inv hr rfl rfl rfl
  | addNodes => exact fun _ => .rfl
  | addSize => exact fun _ => .rfl
  | ret => exact fun x => kept_congr (fun n => by simp [InsertPc.own, InsertPc.priv]) (fun _ _ => rfl) rfl rfl x

/-! ### `erase` -/

/-- A node that has been cut off is `erase`'s until it is retired. -/
def ErasePc.cut : ErasePc V → Option Nat
  | .retireNode current _ => some current
  | .retireParent parent => some parent
  | _ => none

def ErasePc.hand : ErasePc V → Option (Box V)
  | .retireValue old _ _ _ => some old
  | _ => none

def ErasePc.own (t : RadixTrie w V) (pc : ErasePc V) (n : Nat) : Prop := t.Linked n ∨ pc.cut = some n

def eraseKept (t : RadixTrie w V) (pc : ErasePc V) : Object → Prop := t.Kept (pc.own t) pc.hand

/-- Cutting a node off puts it into `erase`'s hands. -/
theorem erase_kept_unlink {pc pc' : ErasePc V} {s : Slot Nat} {n : Nat} {q : Option Nat} (hi : t.Inv [])
    (hu : t.Prunable s n q) (hcut : pc.cut = none) (hcut' : pc'.cut = some n)
    (hhand : pc'.hand = pc.hand) (x : Object) :
    eraseKept (t.storeSlot s q) pc' x ↔ eraseKept t pc x := by
  rw [eraseKept, eraseKept, hhand]
  refine kept_congr (fun m => ?_) (fun m _ => value_storeSlot ..) (by simp) (by simp) x
  rw [ErasePc.own, ErasePc.own, hcut, hcut', linked_unlink hi hu, Option.some.injEq]
  rcases eq_or_ne m n with rfl | hne
  · simp [hu.linked]
  · simp [hne, hne.symm]

theorem erase_kept_retire {pc pc' : ErasePc V} {n : Nat} (hi : t.Inv []) (hn : t.CutOff n)
    (hcut : pc.cut = some n) (hcut' : pc'.cut = none) (hhand : pc.hand = none) (hhand' : pc'.hand = none)
    (x : Object) :
    (t.hands (.node n) x = true → eraseKept t pc x) ∧
      (eraseKept t pc' x ↔ eraseKept t pc x ∧ t.hands (.node n) x = false) := by
  rw [eraseKept, eraseKept, hhand, hhand']
  refine kept_retireNode hi (.inr hcut) hn.1 (fun m => ?_) x
  rw [ErasePc.own, ErasePc.own, hcut, hcut', Option.some.injEq]
  rcases eq_or_ne m n with rfl | hne
  · simp [hn.2]
  · simp [hne, hne.symm]

theorem erase_conserves {pc : ErasePc V} (h : EraseInv t₀ M p t pc) :
    (eraseStep p t pc).Conserves hands eraseKept AtRest (eraseKept t pc) := by
  cases pc with
  | load s parent =>
    simp only [eraseStep]
    split
    · exact fun _ => .rfl
    · split
      · exact fun _ => .rfl
      · split
        · exact fun _ => .rfl
        · split <;> exact fun _ => .rfl
  | exchange c s parent =>
    obtain ⟨-, -, -, hh⟩ := h
    have hown : ∀ n, (t.storeValue c none).Linked n ∨ none = some n ↔ t.Linked n ∨ none = some n :=
      fun n => by rw [linked_storeValue]
    simp only [eraseStep]
    split
    · next hv =>
      refine kept_storeValue hown (.inl hh.held.linked) fun a => ?_
      rw [Carries, hv]
      simp [ErasePc.hand]
    · next old hv =>
      refine kept_storeValue hown (.inl hh.held.linked) fun a => ?_
      rw [Carries, hv]
      simp [ErasePc.hand]
  | retireValue old c s parent => exact kept_retireValue (fun _ => .rfl) h.2.2.2
  | loadRight left c s parent =>
    simp only [eraseStep]
    split <;> exact fun _ => .rfl
  | unlink q c s parent =>
    obtain ⟨he, -, hu⟩ := h
    exact erase_kept_unlink he.1.inv hu rfl rfl rfl
  | retireNode c parent => exact erase_kept_retire h.1.1.inv h.2.2 rfl rfl rfl rfl
  | subNodes parent => cases parent <;> exact fun _ => .rfl
  | parentValue n s =>
    simp only [eraseStep]
    split <;> exact fun _ => .rfl
  | parentRight left n s =>
    simp only [eraseStep]
    split <;> exact fun _ => .rfl
  | collapse q n s =>
    obtain ⟨he, hu⟩ := h
    exact erase_kept_unlink he.1.inv hu rfl rfl rfl
  | retireParent n => exact erase_kept_retire h.1.1.inv h.2 rfl rfl rfl rfl
  | ret => exact kept_congr (fun n => by simp [ErasePc.own, ErasePc.cut]) (fun _ _ => rfl) rfl rfl
  | _ => exact fun _ => .rfl

/-! ### `clear` -/

/-- The nodes an activation of `retire_subtree` still has to retire. -/
def Pending.Covers (t : RadixTrie w V) : Pending → Nat → Prop
  | .left n, m => t.graph.Reach (some n) m
  | .right n, m => m = n ∨ t.graph.Reach ((t.nodes n).child true) m
  | .retire n, m => m = n

def ClearPc.stack : ClearPc → List Pending
  | .retireSubtree stack => stack
  | _ => []

def Covered (t : RadixTrie w V) (stack : List Pending) (n : Nat) : Prop := ∃ x ∈ stack, x.Covers t n

def clearKept (t : RadixTrie w V) (pc : ClearPc) : Object → Prop :=
  t.Kept (fun n => t.Linked n ∨ t.Covered pc.stack n) none

/-- No node is on the stack twice. -/
structure ClearStack (t : RadixTrie w V) (stack : List Pending) : Prop where
  apart : stack.Pairwise fun x y => ∀ m, x.Covers t m → ¬ y.Covers t m
  lt : ∀ m, t.Covered stack m → m < t.nextNode

theorem clearStack_nil : t.ClearStack [] := ⟨.nil, fun _ ⟨_, hm, _⟩ => nomatch hm⟩

theorem covered_cons {top : Pending} {stack : List Pending} {m : Nat} :
    t.Covered (top :: stack) m ↔ top.Covers t m ∨ t.Covered stack m := by
  simp [Covered]

theorem covered_enter {q : Option Nat} {stack : List Pending} {m : Nat} :
    t.Covered (enter q stack) m ↔ t.graph.Reach q m ∨ t.Covered stack m := by
  cases q with
  | none => simp [enter, Graph.not_reach_none]
  | some n => exact covered_cons

theorem ne_of_reach_child (ho : t.graph.Ordered) {n m : Nat} {d : Bool}
    (h : t.graph.Reach ((t.nodes n).child d) m) : m ≠ n := by
  rintro rfl
  exact absurd (Graph.key_lt_of_child ho h) (lt_irrefl _)

/-- What is below the left child is neither the node nor below the right child. -/
theorem reach_left_apart (ho : t.graph.Ordered) {n m : Nat}
    (h : t.graph.Reach ((t.nodes n).child false) m) : ¬ (Pending.right n).Covers t m := by
  rintro (rfl | h')
  · exact ne_of_reach_child ho h rfl
  · exact not_both_sides (Graph.span_of_reach ho (s := .child n false) h)
      (Graph.span_of_reach ho (s := .child n true) h')

/-- Entering a child moves part of what its parent covers to an activation of its own. -/
theorem ClearStack.enter {q : Option Nat} {top top' : Pending} {stack : List Pending}
    (h : t.ClearStack (top :: stack))
    (hsplit : ∀ m, t.graph.Reach q m ∨ top'.Covers t m ↔ top.Covers t m)
    (hapart : ∀ m, t.graph.Reach q m → ¬ top'.Covers t m) :
    t.ClearStack (enter q (top' :: stack)) ∧
      ∀ m, t.Covered (RadixTrie.enter q (top' :: stack)) m ↔ t.Covered (top :: stack) m := by
  have hcov : ∀ m, t.Covered (RadixTrie.enter q (top' :: stack)) m ↔ t.Covered (top :: stack) m :=
    fun m => by rw [covered_enter, covered_cons, covered_cons, ← or_assoc, hsplit]
  obtain ⟨htop, hrest⟩ := List.pairwise_cons.mp h.apart
  have hmoved : (top' :: stack).Pairwise fun x y => ∀ m, x.Covers t m → ¬ y.Covers t m :=
    List.pairwise_cons.mpr ⟨fun y hy m hm => htop y hy m ((hsplit m).mp (.inr hm)), hrest⟩
  refine ⟨⟨?_, fun m hm => h.lt m ((hcov m).mp hm)⟩, hcov⟩
  cases q with
  | none => exact hmoved
  | some c =>
    refine List.pairwise_cons.mpr ⟨fun y hy m hm => ?_, hmoved⟩
    rcases List.mem_cons.mp hy with rfl | hy
    · exact hapart m hm
    · exact htop y hy m ((hsplit m).mp (.inl hm))

def ClearOwned (M : Table w V) (t : RadixTrie w V) (pc : ClearPc) : Prop :=
  ClearInv M t pc ∧ t.ClearStack pc.stack

theorem clear_enter {q : Option Nat} {top : Pending} (top' : Pending) {stack : List Pending}
    (h : t.ClearStack (top :: stack)) (hsplit : ∀ m, t.graph.Reach q m ∨ top'.Covers t m ↔ top.Covers t m)
    (hapart : ∀ m, t.graph.Reach q m → ¬ top'.Covers t m) :
    t.ClearStack (enter q (top' :: stack)) ∧ ∀ x, clearKept t (.retireSubtree (enter q (top' :: stack))) x ↔
      clearKept t (.retireSubtree (top :: stack)) x := by
  obtain ⟨h', hcov⟩ := h.enter hsplit hapart
  exact ⟨h', kept_congr (fun m => or_congr_right (hcov m)) (fun _ _ => rfl) rfl rfl⟩

theorem not_linked_of_root (hr : t.root = none) (n : Nat) : ¬ t.Linked n := fun hn => by
  have hn : t.graph.Reach t.root n := hn
  rw [hr] at hn
  exact Graph.not_reach_none hn

theorem clear_owned {pc : ClearPc} (h : ClearOwned M t pc) :
    (clearStep t pc).Sat (ClearOwned M) (fun _ _ => True) ∧
      (clearStep t pc).Conserves hands clearKept AtRest (clearKept t pc) := by
  obtain ⟨hinv, hst⟩ := h
  have hsat := clear_step hinv
  cases pc with
  | exchangeRoot =>
    have hrep : t.Rep [] M 0 0 := hinv
    have hcov : ∀ m, Covered { t with root := none } (enter t.root []) m ↔ t.Linked m := fun m => by
      rw [covered_enter]
      have hreach : Graph.Reach (graph { t with root := none }) t.root m ↔ t.graph.Reach t.root m :=
        Graph.reach_congr_iff fun _ _ => rfl
      rw [hreach]
      simp [Covered, Linked, Graph.Linked, graph]
    refine ⟨⟨hsat.1, ⟨?_, fun m hm => hrep.inv.linked_lt ((hcov m).mp hm)⟩⟩,
      kept_congr (fun m => ?_) (fun _ _ => rfl) rfl rfl⟩
    · cases t.root with
      | none => exact .nil
      | some r => exact List.pairwise_singleton ..
    · have hnot := not_linked_of_root (t := { t with root := none }) rfl m
      show _ ∨ Covered _ (enter t.root []) m ↔ _ ∨ t.Covered [] m
      rw [hcov]
      simp [hnot, Covered]
  | retireSubtree stack =>
    obtain ⟨hi, hr⟩ := hinv
    have hnot := not_linked_of_root hr
    cases stack with
    | nil => exact ⟨⟨hsat.1, hst⟩, fun _ => .rfl⟩
    | cons top stack =>
      cases top with
      | left n =>
        obtain ⟨hst', hk⟩ := clear_enter (.right n) hst
          (fun m => by rw [Pending.Covers, Pending.Covers, reach_node, or_left_comm])
          (fun m hm => reach_left_apart hi.ordered hm)
        exact ⟨⟨hsat.1, hst'⟩, hk⟩
      | right n =>
        obtain ⟨hst', hk⟩ := clear_enter (.retire n) hst
          (fun m => by rw [Pending.Covers, Pending.Covers, or_comm])
          (fun m hm => ne_of_reach_child hi.ordered hm)
        exact ⟨⟨hsat.1, hst'⟩, hk⟩
      | retire n =>
        obtain ⟨hlt, hrest⟩ := List.pairwise_cons.mp hst.apart
        have hn : t.Covered (.retire n :: stack) n := covered_cons.mpr (.inl rfl)
        refine ⟨⟨hsat.1, ⟨hrest, fun m hm => hst.lt m (covered_cons.mpr (.inr hm))⟩⟩,
          kept_retireNode hi (.inr hn) (hst.lt n hn) fun m => ?_⟩
        show t.Linked m ∨ t.Covered stack m ↔ (t.Linked m ∨ t.Covered (.retire n :: stack) m) ∧ m ≠ n
        rw [covered_cons]
        constructor
        · rintro (hm | ⟨y, hy, hm⟩)
          · exact absurd hm (hnot m)
          · exact ⟨.inr (.inr ⟨y, hy, hm⟩), fun he => hlt y hy m he hm⟩
        · rintro ⟨hm | hm | hm, hne⟩
          exacts [.inl hm, absurd hm hne, .inr hm]
  | storeSize => exact ⟨⟨hsat.1, clearStack_nil⟩, fun _ => .rfl⟩
  | storeNodes => exact ⟨⟨hsat.1, clearStack_nil⟩, fun _ => .rfl⟩
  | ret => exact ⟨trivial, kept_congr (fun n => by simp [Covered, ClearPc.stack]) (fun _ _ => rfl) rfl rfl⟩

/-! ### What is handed over is out of reach -/

def OutOfReach (t : RadixTrie w V) (e : Retired V) : Prop :=
  ∀ x : Object, t.hands e x = true → x.Allocated t ∧ ¬ x.Linked t

theorem outOfReach_value (h : t.Detached b) : t.OutOfReach (.value b) := by
  intro x hx
  cases x with
  | node n => cases hx
  | box a =>
    obtain rfl := eq_of_beq hx
    refine ⟨h.1, ?_⟩
    rintro ⟨n, -, hc⟩
    obtain ⟨u, hu, he⟩ := Option.map_eq_some_iff.mp hc
    exact h.2 n u hu he

theorem outOfReach_node {priv : List Nat} {n : Nat} (h : t.Inv priv) (hn : t.CutOff n) :
    t.OutOfReach (.node n) := by
  intro x hx
  cases x with
  | node m =>
    obtain rfl := eq_of_beq hx
    exact hn
  | box a =>
    obtain ⟨u, hu, rfl⟩ := Option.map_eq_some_iff.mp (eq_of_beq hx)
    refine ⟨h.box_lt n u hu, ?_⟩
    rintro ⟨m, hm, hc⟩
    obtain ⟨u', hu', he⟩ := Option.map_eq_some_iff.mp hc
    rw [h.box_unique m n u' u hu' hu he] at hm
    exact hn.2 hm

theorem insert_outOfReach {pc pc' : InsertPc w V} {e : Retired V} (h : InsertInv M p v t pc)
    (hc : insertStep p t pc = .call t' e pc') : t'.OutOfReach e := by
  obtain ⟨rfl, old, rfl, rfl, -⟩ := insert_call hc
  exact outOfReach_value h.2.2

theorem erase_outOfReach {pc pc' : ErasePc V} {e : Retired V} (h : EraseInv t₀ M p t pc)
    (hc : eraseStep p t pc = .call t' e pc') : t'.OutOfReach e := by
  obtain ⟨rfl, ⟨old, c, s, parent, rfl, rfl, -⟩ | ⟨c, parent, rfl, rfl, -⟩ | ⟨n, rfl, rfl, -⟩⟩ :=
    erase_call hc
  · exact outOfReach_value h.2.2.2
  · exact outOfReach_node h.1.1.inv h.2.2
  · exact outOfReach_node h.1.1.inv h.2

theorem clear_outOfReach {pc pc' : ClearPc} {e : Retired V} (h : ClearOwned M t pc)
    (hc : clearStep t pc = .call t' e pc') : t'.OutOfReach e := by
  obtain ⟨hinv, hst⟩ := h
  cases pc with
  | retireSubtree stack =>
    cases stack with
    | nil => cases hc
    | cons top stack =>
      cases top with
      | left => cases hc
      | right => cases hc
      | retire n =>
        cases hc
        exact outOfReach_node hinv.1
          ⟨hst.lt n (covered_cons.mpr (.inl rfl)), not_linked_of_root hinv.2 n⟩
  | exchangeRoot | storeSize | storeNodes | ret => cases hc

/-! ### Whole histories -/

/-- What an operation hands to the reclaimer, each with the trie at that moment. -/
def Op.calls (fuel : Nat) (t : RadixTrie w V) : Op w V → List (RadixTrie w V × Retired V)
  | insert p value => Routine.calls (insertStep p) fuel t (.box value)
  | erase p => Routine.calls (eraseStep p) fuel t (.load .root none)
  | clear => Routine.calls clearStep fuel t .exchangeRoot

def handedOver (fuel : Nat) (t : RadixTrie w V) : List (Op w V) → List (RadixTrie w V × Retired V)
  | [] => []
  | op :: ops => op.calls fuel t ++ (op.run fuel t).elim [] fun x => handedOver fuel x.1 ops

/-- The books are in order, and nothing was handed over within reach of the root. -/
structure Owned (t : RadixTrie w V) (log : List (RadixTrie w V × Retired V)) : Prop where
  accounted : ∀ x, Accounted (t.AtRest x) (handed hands log x)
  outOfReach : ∀ c ∈ log, c.1.OutOfReach c.2

variable {log : List (RadixTrie w V × Retired V)}

theorem owned_empty : (empty : RadixTrie w V).Owned [] := by
  refine ⟨fun x => .inl ⟨?_, rfl⟩, nofun⟩
  cases x with
  | node n => exact .inr (Nat.zero_le n)
  | box a => exact .inr (.inr (Nat.zero_le a))

/-- An operation that conserves keeps the books in order. -/
theorem Owned.run {ι ρ : Type*} {step : RadixTrie w V → ι → Outcome (RadixTrie w V) ι (Retired V) ρ}
    {P : RadixTrie w V → ι → Prop} {K : RadixTrie w V → ι → Object → Prop}
    (hstep : ∀ s i, P s i → (step s i).Sat P (fun _ _ => True))
    (hcons : ∀ s i, P s i → (step s i).Conserves hands K AtRest (K s i))
    (hcall : ∀ s i s' e i', P s i → step s i = .call s' e i' → s'.OutOfReach e)
    {fuel : Nat} {i : ι} {es : List (Retired V)} {r : ρ} (h : t.Owned log) (hp : P t i)
    (hstart : ∀ x, t.AtRest x ↔ K t i x) (hrun : Routine.run step fuel t i = some (t', es, r)) :
    t'.Owned (log ++ Routine.calls step fuel t i) := by
  constructor
  · intro x
    rw [handed_append]
    refine run_accounted hstep hcons hp hrun ?_
    rw [Accounted, ← hstart x]
    exact h.accounted x
  · intro c hc
    rcases List.mem_append.mp hc with hc | hc
    · exact h.outOfReach c hc
    · exact calls_forall hstep hcall hp c hc

theorem Op.run_owned {R : Reference w V} (hrep : t.Represents R) (h : t.Owned log) {fuel : Nat}
    {op : Op w V} {r : Option Bool} (hrun : op.run fuel t = some (t', r)) :
    t'.Owned (log ++ op.calls fuel t) := by
  obtain ⟨T, hrep, -⟩ := hrep
  cases op with
  | insert p v =>
    obtain ⟨⟨t₁, es, x⟩, hx, he⟩ := Option.map_eq_some_iff.mp hrun
    cases he
    exact h.run (fun _ _ hi => (insert_total hi).mono (fun _ _ h => h.1) fun _ _ _ => trivial)
      (fun _ _ hi => insert_conserves hi) (fun _ _ _ _ _ hi hc => insert_outOfReach hi hc)
      (i := .box v) ⟨hrep, rfl⟩
      (kept_congr (fun n => by simp [InsertPc.own, InsertPc.priv]) (fun _ _ => rfl) rfl rfl) hx
  | erase p =>
    obtain ⟨⟨t₁, es, x⟩, hx, he⟩ := Option.map_eq_some_iff.mp hrun
    cases he
    exact h.run (fun _ _ hi => (erase_total hi).mono (fun _ _ h => h.1) fun _ _ _ => trivial)
      (fun _ _ hi => erase_conserves hi) (fun _ _ _ _ _ hi hc => erase_outOfReach hi hc)
      (EraseInv.start hrep p)
      (kept_congr (fun n => by simp [ErasePc.own, ErasePc.cut]) (fun _ _ => rfl) rfl rfl) hx
  | clear =>
    obtain ⟨⟨t₁, es, x⟩, hx, he⟩ := Option.map_eq_some_iff.mp hrun
    cases he
    exact h.run (fun _ _ hi => (clear_owned hi).1) (fun _ _ hi => (clear_owned hi).2)
      (fun _ _ _ _ _ hi hc => clear_outOfReach hi hc) (i := .exchangeRoot)
      ⟨hrep, clearStack_nil⟩
      (kept_congr (fun n => by simp [Covered, ClearPc.stack]) (fun _ _ => rfl) rfl rfl) hx

theorem exec_owned (ops : List (Op w V)) : ∀ {t : RadixTrie w V} {R : Reference w V}, t.Represents R →
    ∃ (t' : RadixTrie w V) (fuel₀ : Nat), ∀ fuel > fuel₀, exec fuel t ops = some t' ∧
      ∀ log, t.Owned log → t'.Owned (log ++ handedOver fuel t ops) := by
  induction ops with
  | nil =>
    intro t R _
    refine ⟨t, 0, fun fuel _ => ⟨rfl, fun log h => ?_⟩⟩
    rwa [handedOver, List.append_nil]
  | cons op ops ih =>
    intro t R hrep
    obtain ⟨t₁, f₁, hrep₁, hrun₁⟩ := op_spec hrep op
    obtain ⟨t₂, f₂, hexec₂⟩ := ih hrep₁
    refine ⟨t₂, max f₁ f₂, fun fuel hf => ?_⟩
    obtain ⟨hf₁, hf₂⟩ := max_lt_iff.mp hf
    have hrun := hrun₁ fuel hf₁
    obtain ⟨hexec, howned⟩ := hexec₂ fuel hf₂
    refine ⟨by rw [exec, hrun, Option.bind_some, hexec], fun log h => ?_⟩
    rw [handedOver, hrun, ← List.append_assoc]
    exact howned _ (Op.run_owned hrep h hrun)

/-- After any history every node and every box is reachable from the root and was never handed over,
    or is not reachable and was handed over once; and whatever was handed over was out of reach. -/
theorem ownership_after_history (ops : List (Op w V)) :
    ∃ (t : RadixTrie w V) (fuel₀ : Nat), ∀ fuel > fuel₀, exec fuel .empty ops = some t ∧
      (∀ x : Object, x.Allocated t →
        x.Linked t ∧ handed hands (handedOver fuel .empty ops) x = 0 ∨
          ¬ x.Linked t ∧ handed hands (handedOver fuel .empty ops) x = 1) ∧
      (∀ x : Object, ¬ x.Allocated t →
        ¬ x.Linked t ∧ handed hands (handedOver fuel .empty ops) x = 0) ∧
      ∀ c ∈ handedOver fuel .empty ops, ∀ x : Object, c.1.hands c.2 x = true →
        x.Allocated c.1 ∧ ¬ x.Linked c.1 := by
  obtain ⟨t, f, hexec⟩ := exec_owned ops represents_empty
  obtain ⟨t', f', ⟨T, hrep, -⟩, hexec'⟩ := exec_reference (w := w) (V := V) ops
  refine ⟨t, max f f', fun fuel hf => ?_⟩
  obtain ⟨hf, hf'⟩ := max_lt_iff.mp hf
  obtain ⟨hrun, howned⟩ := hexec fuel hf
  obtain rfl : t = t' := Option.some.inj (hrun.symm.trans (hexec' fuel hf'))
  have h := howned [] owned_empty
  rw [List.nil_append] at h
  have hkept : ∀ x, t.AtRest x ↔ x.Linked t ∨ ¬ x.Allocated t := by
    intro x
    cases x with
    | node n => simp [AtRest, Kept, Object.Linked, Object.Allocated]
    | box a => simp [AtRest, Kept, Object.Linked, Object.Allocated]
  have hlt : ∀ x : Object, x.Linked t → x.Allocated t := by
    intro x hx
    cases x with
    | node n => exact hrep.inv.linked_lt hx
    | box a =>
      obtain ⟨n, -, hc⟩ := hx
      obtain ⟨u, hu, rfl⟩ := Option.map_eq_some_iff.mp hc
      exact hrep.inv.box_lt n u hu
  refine ⟨hrun, fun x hx => ?_, fun x hx => ?_, h.outOfReach⟩
  · have := h.accounted x
    rw [hkept, or_iff_left (not_not.mpr hx)] at this
    exact this
  · refine ⟨fun hl => hx (hlt x hl), ?_⟩
    rcases h.accounted x with ⟨-, hc⟩ | ⟨hn, -⟩
    · exact hc
    · exact absurd ((hkept x).mpr (.inr hx)) hn

end RadixTrie

end RcuFib

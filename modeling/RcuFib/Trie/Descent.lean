import RcuFib.Trie.Publish

/-! What a writer's descent for a prefix knows about the slot it has reached, shared by `insert` and
    `erase`, and what survives the writer's own stores to nodes nobody else can see. -/

namespace RcuFib
open SearchGraph

namespace RadixTrie
variable {w : Width} {V : Type*} {t t' : RadixTrie w V} {priv : List Nat} {p : Prefix w}
  {b : Box V} {s : Slot Nat}

/-- The descent for `p` may continue at slot `s`. -/
structure At (t : RadixTrie w V) (s : Slot Nat) (p : Prefix w) : Prop where
  slot : t.graph.SlotLinked s
  span : t.graph.span s <+: p.bits

/-- The linked part of the heap is untouched. -/
structure Frame (t t' : RadixTrie w V) : Prop where
  root : t'.root = t.root
  nodes : ∀ x, t.Linked x → t'.nodes x = t.nodes x

namespace Frame
variable (hf : t.Frame t')
include hf

theorem linked (n : Nat) : t'.Linked n ↔ t.Linked n :=
  linked_of_child hf.root (fun x hx => by rw [hf.nodes x hx]) n

theorem load (hs : t.graph.SlotLinked s) : t'.loadSlot s = t.loadSlot s := by
  cases s with
  | root => exact hf.root
  | child n d => simp only [loadSlot, hf.nodes n hs]

theorem atSlot (ha : t.At s p) : t'.At s p := by
  cases s with
  | root => exact ⟨trivial, List.nil_prefix⟩
  | child n d =>
    refine ⟨(hf.linked n).mpr ha.slot, ?_⟩
    have hk : t'.graph.key n = t.graph.key n := by simp [hf.nodes n ha.slot]
    have := ha.span
    simpa only [Graph.span, hk] using this

end Frame

theorem frame_newNode (h : t.Inv priv) (q : Prefix w) : t.Frame (t.newNode q) :=
  ⟨rfl, fun x hx => by rw [nodes_newNode, if_neg (h.linked_lt hx).ne]⟩

theorem frame_storeValue (h : t.Inv priv) {k : Nat} (hk : k ∈ priv) (u : Option (Box V)) :
    t.Frame (t.storeValue k u) :=
  ⟨rfl, fun x hx => by
    have : x ≠ k := by rintro rfl; exact h.linked_not_priv hx hk
    simp [storeValue, this]⟩

theorem frame_storeChild (h : t.Inv priv) {k : Nat} (hk : k ∈ priv) (d : Bool) (c : Option Nat) :
    t.Frame (t.storeSlot (.child k d) c) :=
  ⟨rfl, fun x hx => by
    have : x ≠ k := by rintro rfl; exact h.linked_not_priv hx hk
    simp [storeSlot, this]⟩

theorem At.linked (ha : t.At s p) {e : Nat} (hl : t.loadSlot s = some e) : t.Linked e :=
  Graph.linked_of_slot ha.slot (reach_get hl)

theorem At.span_load (h : t.Inv priv) {e : Nat} (hl : t.loadSlot s = some e) :
    t.graph.span s <+: (t.nodes e).pfx.bits :=
  Graph.span_of_reach h.ordered (s := s) (m := e) (reach_get hl)

theorem At.span_le (ha : t.At s p) : (t.graph.span s).length ≤ p.length := by
  simpa using ha.span.length_le

theorem prefix_snoc {c p : Prefix w} (h : c.bits <+: p.bits) (hl : c.length < p.length) :
    c.bits ++ [p.address.bit c.length] <+: p.bits := by
  obtain ⟨r, hr⟩ := h
  cases r with
  | nil =>
    have := congrArg List.length hr
    simp at this; omega
  | cons x r =>
    have hx : p.bits[c.length]? = some x := by rw [← hr]; simp
    rw [Prefix.getElem?_bits p hl] at hx
    exact ⟨r, by rw [← hr, ← Option.some.inj hx]; simp⟩

/-- Nothing below the slot has the bits of `p`, so `p` is not in the table. -/
theorem table_eq_none_of_slot (h : t.Inv priv) (ha : t.At s p)
    (hne : ∀ m, t.graph.Reach (t.loadSlot s) m → (t.nodes m).pfx ≠ p) : t.table p = none := by
  refine h.table_eq_none.mpr fun n hn hp => ?_
  refine absurd hp (hne n ?_)
  rw [← get_graph]
  exact Graph.reach_of_span h.ordered ha.slot hn (by rw [key_graph, hp]; exact ha.span)

/-- Neither is it when the node in the slot is no prefix of `p`. -/
theorem At.table_eq_none (h : t.Inv priv) (ha : t.At s p) {c : Nat} (hl : t.loadSlot s = some c)
    (hnp : ¬ (t.nodes c).pfx.bits <+: p.bits) : t.table p = none := by
  refine table_eq_none_of_slot h ha fun m hm hp => hnp ?_
  rw [hl] at hm
  have hkey := Graph.key_of_reach h.ordered hm
  rwa [key_graph, key_graph, hp] at hkey

theorem reach_node {n m : Nat} : t.graph.Reach (some n) m ↔
    m = n ∨ t.graph.Reach ((t.nodes n).child false) m ∨ t.graph.Reach ((t.nodes n).child true) m := by
  rw [Graph.reach_some, Bool.exists_bool]; rfl

/-- A node under construction has children `c₀` on side `d` and `c₁` on the other. -/
theorem reach_two {n m : Nat} {d : Bool} {c₀ c₁ : Option Nat} (h₀ : (t.nodes n).child d = c₀)
    (h₁ : (t.nodes n).child (!d) = c₁) :
    t.graph.Reach (some n) m ↔ m = n ∨ t.graph.Reach c₀ m ∨ t.graph.Reach c₁ m := by
  rw [reach_node, ← h₀, ← h₁]
  cases d
  · rfl
  · rw [Bool.not_true, or_comm (a := t.graph.Reach ((t.nodes n).child true) m)]

end RadixTrie

end RcuFib

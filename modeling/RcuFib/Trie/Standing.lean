import RcuFib.Trie.Lookup
import RcuFib.Trie.Ownership

/-! What a reader can get at, and what the writer can no longer put in its way.

    A node that has been unlinked keeps its pointers, and its children may be unlinked after it. From
    a node a reader stands on, a step of the writer makes nothing reachable that is not linked
    (`Evolves.reach`), and what has been retired is never linked again (`Gone`): what was out of the
    reader's way when it was retired stays out of it. -/

namespace RcuFib
open SearchGraph Routine

namespace RadixTrie
variable {w : Width} {V : Type*}

/-- `current` -/
def LookupPc.node : LookupPc V → Option Nat
  | .root => none
  | .value current _ | .child current _ => some current

/-- `best` -/
def LookupPc.best : LookupPc V → Option (Box V)
  | .root => none
  | .value _ best | .child _ best => best

/-- What can be got at from a node and from values at hand. -/
def Reached (t : RadixTrie w V) (node : Option Nat) (values : List (Box V)) : Object → Prop
  | .node n => t.graph.Reach node n
  | .box a => (∃ b ∈ values, b.address = a) ∨ ∃ n, t.graph.Reach node n ∧ t.Carries n a

/-- Out of the way of a reader that holds `node` and `values`. -/
def Aside (t : RadixTrie w V) (node : Option Nat) (values : List (Box V)) : Retired V → Prop
  | .node n => ¬ t.graph.Reach node n
  | .value b => ∀ u ∈ values, u.address ≠ b.address

variable {t t' : RadixTrie w V} {pc pc' : Option (WriterPc w V)} {e : Retired V} {node : Option Nat}
  {values : List (Box V)} {a : Address w}

/-! ### What is out of the way stays so -/

theorem aside_nothing (e : Retired V) : t.Aside none [] e := by
  cases e with
  | node n => exact Graph.not_reach_none
  | value b => exact fun u hu => absurd hu List.not_mem_nil

theorem Aside.turn (hc : t.Aside node values e) (h : t.Turn pc t' pc')
    (hk : ∀ n ∈ node, t.Known (privOf pc) n) (hg : Gone t pc e) : t'.Aside node values e := by
  cases e with
  | value b => exact hc
  | node n =>
    intro hr
    cases node with
    | none => exact Graph.not_reach_none hr
    | some c =>
      rcases h.evolves.reach c n (hk c rfl) hr with hold | hl
      · exact hc hold
      · exact (h.gone _ hg).1.2 hl

/-- A lookup stays on the nodes a reader may stand on. -/
theorem node_step {K : Nat → Prop} (hv : t.Visible K) {lpc : LookupPc V} (hk : ∀ n ∈ lpc.node, K n) :
    (lookupStep a t lpc).Sat (fun _ lpc' => ∀ n ∈ lpc'.node, K n) (fun _ _ => True) := by
  have hloop : ∀ (c : Option Nat) best, (∀ n ∈ c, K n) →
      (lookupLoop t c best).Sat (fun _ lpc' => ∀ n ∈ lpc'.node, K n) (fun _ _ => True) := by
    intro c best hc
    cases c with
    | none => trivial
    | some c => exact hc
  cases lpc with
  | root => exact hloop t.root none hv.root
  | value c best =>
    simp only [lookupStep]
    split
    · trivial
    · split
      · trivial
      · exact hk
  | child c best =>
    refine hloop _ best ?_
    intro n hn
    exact hv.child c _ n (hk c rfl) hn

/-- A load brings nothing into a reader's way: what it finds is linked, or below where it stood. -/
theorem aside_step (hg : Gone t pc e) {lpc : LookupPc V}
    (hc : t.Aside lpc.node (lpc.best.toList ++ values) e) :
    (lookupStep a t lpc).Sat (fun _ lpc' => t.Aside lpc'.node (lpc'.best.toList ++ values) e)
      (fun _ entry => t.Aside none (entry.toList ++ values) e) := by
  cases e with
  | value b =>
    have hloop : ∀ (c : Option Nat) (best : Option (Box V)),
        (∀ u ∈ best.toList ++ values, u.address ≠ b.address) → (lookupLoop t c best).Sat
          (fun _ lpc' => ∀ u ∈ lpc'.best.toList ++ values, u.address ≠ b.address)
          (fun _ entry => ∀ u ∈ entry.toList ++ values, u.address ≠ b.address) := by
      intro c best hbest
      cases c with
      | none => exact hbest
      | some c => exact hbest
    cases lpc with
    | root => exact hloop t.root none hc
    | value c best =>
      have hnew : ∀ u ∈ (if (t.nodes c).value.isSome then (t.nodes c).value else best).toList ++ values,
          u.address ≠ b.address := by
        intro u hu
        split at hu
        · rcases List.mem_append.mp hu with hv | hu
          · exact hg.1.2 c u (Option.mem_toList.mp hv)
          · exact hc u (List.mem_append_right _ hu)
        · exact hc u hu
      simp only [lookupStep]
      split
      · exact hc
      · split
        · exact hnew
        · exact hnew
    | child c best => exact hloop _ best hc
  | node n =>
    have hloop : ∀ (c : Option Nat) (best : Option (Box V)), ¬ t.graph.Reach c n →
        (lookupLoop t c best).Sat (fun _ lpc' => ¬ t.graph.Reach lpc'.node n)
          (fun _ _ => ¬ t.graph.Reach none n) := by
      intro c best hn
      cases c with
      | none => exact hn
      | some c => exact hn
    cases lpc with
    | root => exact hloop t.root none hg.1.2
    | value c best =>
      simp only [lookupStep]
      split
      · exact Graph.not_reach_none
      · split
        · exact Graph.not_reach_none
        · exact hc
    | child c best =>
      refine hloop _ best ?_
      intro hr
      exact hc (.down _ hr)

/-- A deleter run on what is out of the way touches nothing that can be got at. -/
theorem Aside.spares (hc : t.Aside node values e) (hg : Gone t pc e) (hs : t.Silent (privOf pc))
    {o : Object} (ho : t.Reached node values o) : t.hands e o = false := by
  refine Bool.eq_false_iff.mpr fun hh => ?_
  cases e with
  | node n =>
    cases o with
    | node m =>
      obtain rfl := beq_iff_eq.mp hh
      exact hc ho
    | box a =>
      -- an unlinked node carries no value any more
      have hnone := hs n hg.1.2 hg.2
      simp [hands, hnone] at hh
  | value b =>
    cases o with
    | node m => cases hh
    | box a =>
      obtain rfl := beq_iff_eq.mp hh
      rcases ho with ⟨u, hu, he⟩ | ⟨m, -, hm⟩
      · exact hc u hu he
      · obtain ⟨u, hu, he⟩ := Option.map_eq_some_iff.mp hm
        exact hg.1.2 m u hu he

end RadixTrie

end RcuFib

import RcuFib.Trie.Shape
import RcuFib.PrefixOrder

/-! `radix_trie::for_each`: the order of the dump is never computed by comparison, it comes from the
    shape of the tree. -/

namespace RcuFib
open SearchGraph Routine

namespace RadixTrie
variable {w : Width} {V : Type*} {t : RadixTrie w V} {M : Reference w V}

/-- `walk(current, fn)`, as the list of its calls of `fn`; `fuel` bounds the depth of the recursion. -/
def walk (t : RadixTrie w V) : (fuel : Nat) → Option Nat → Option (List (Prefix w × V))
  | 0, _ => none
  | _ + 1, none => some []
  | fuel + 1, some current => do
    let n := t.nodes current
    let here := match n.value with
      | some value => [(Prefix.make n.key n.keyLength n.pfx.length_le, value.content)]
      | none => []
    let left ← walk t fuel (n.child false)
    let right ← walk t fuel (n.child true)
    return here ++ (left ++ right)

/-- `for_each(fn)` -/
def forEach (fuel : Nat) (t : RadixTrie w V) : Option (List (Prefix w × V)) := walk t fuel t.root

theorem make_key (p : Prefix w) : Prefix.make p.address p.length p.length_le = p :=
  Prefix.bits_injective (by rw [Prefix.bits_make]; rfl)

/-- The walk visits the entries of the tree below it. -/
theorem walk_entries {p : Option Nat} {u : BinaryTree Nat} (hu : t.graph.Unfolds p u) :
    ∀ fuel > u.height, walk t fuel p = some (entries (u.map t.label)) := by
  induction hu with
  | nil =>
    intro fuel hf
    obtain ⟨fuel, rfl⟩ := Nat.exists_eq_succ_of_ne_zero (Nat.ne_of_gt (Nat.zero_lt_of_lt hf))
    rfl
  | @node n l r hl hr ihl ihr =>
    intro fuel hf
    obtain ⟨fuel, rfl⟩ := Nat.exists_eq_succ_of_ne_zero (Nat.ne_of_gt (Nat.zero_lt_of_lt hf))
    have hmax : max l.height r.height < fuel := Nat.lt_of_succ_lt_succ hf
    have hleft := ihl fuel ((le_max_left _ _).trans_lt hmax)
    have hright := ihr fuel ((le_max_right _ _).trans_lt hmax)
    have hchild : ∀ d, t.graph.child n d = (t.nodes n).child d := fun _ => rfl
    rw [hchild] at hleft hright
    rw [walk, hleft, hright]
    have hmake : Prefix.make (t.nodes n).key (t.nodes n).keyLength (t.nodes n).pfx.length_le =
        (t.nodes n).pfx := make_key _
    cases hv : (t.nodes n).value <;> simp [BinaryTree.map, label, entries_node, hv, hmake]

/-- After any history `for_each` visits each stored prefix once, with its value and in strictly
    increasing order. -/
theorem for_each_after_history (ops : List (Op w V)) :
    ∃ (t : RadixTrie w V) (l : List (Prefix w × V)) (fuel₀ : Nat),
      (∀ fuel > fuel₀, exec fuel .empty ops = some t ∧ forEach fuel t = some l) ∧
      (∀ p v, (p, v) ∈ l ↔ (reference ops).lookup p = some v) ∧ (l.map Prod.fst).Nodup ∧
      l.Pairwise fun e e' => e.1.compare e'.1 = .lt := by
  obtain ⟨t, f, hsound, hexec⟩ := exec_sound ops
  obtain ⟨u, hu, hsorted, -, hentries, -⟩ := hsound.tree
  have hpair := hsorted.pairwise
  refine ⟨t, entries (u.map t.label), max f u.height, fun fuel hf => ?_, hentries, ?_,
    hpair.imp Prefix.compare_lt⟩
  · obtain ⟨hf₁, hf₂⟩ := max_lt_iff.mp hf
    exact ⟨hexec fuel hf₁, walk_entries hu fuel hf₂⟩
  · rw [List.nodup_iff_pairwise_ne, List.pairwise_map]
    refine hpair.imp fun hlt he => ?_
    rw [he] at hlt
    exact List.lt_irrefl _ hlt

/-- 10.0.0.0/8 comes before 10.0.0.0/16, and 9.0.0.0/8 before both. -/
example : (exec 60 .empty [.insert (.make (.fromV4 0x0a000000) 16 (by decide)) 1,
    .insert (.make (.fromV4 0x0a000000) 8 (by decide)) 2,
    .insert (.make (.fromV4 0x09000000) 8 (by decide)) 3]).bind
      (fun t => (forEach 60 t).map (·.map Prod.snd)) = some [3, 2, 1] := by rfl

end RadixTrie

end RcuFib

import RcuFib.Trie.Concurrent
import RcuFib.Trie.History

/-! Can a lookup report "no route" while the address is routed?

    A prefix that stays, or one that gives way to a longer one, is never missed: the reader is above
    the longer prefix or holds the shorter one's value. A prefix that gives way to a shorter one can
    be: a reader that is past the place where the shorter one is put in finds the longer one gone. -/

namespace RcuFib
open SearchGraph Routine Trace

namespace RadixTrie
variable {w : Width} {V : Type*} {t : RadixTrie w V} {priv : List Nat} {a : Address w}
  {p : Prefix w}

/-! ### Reading the table off a heap -/

/-- What a lone lookup finds is stored, also while nodes are under construction. -/
theorem covered_of_lookup (h : t.Inv priv)
    (hb : ∃ b, lookup (2 * w.bits + 4) t a = some (some b)) :
    ∃ p : Prefix w, p.contains a ∧ t.table p ≠ none := by
  obtain ⟨b, hb⟩ := hb
  obtain ⟨_, _, r, ⟨-, hr⟩, hrun⟩ := run_lookup h a
  rw [lookup, hrun _ (Nat.lt_succ_self _)] at hb
  obtain rfl : r = some b := Option.some.inj hb
  obtain ⟨q, hq, hqa, -⟩ := hr
  exact ⟨q, hqa, by rw [hq]; exact Option.some_ne_none _⟩

theorem stored_of_findExact (h : t.Inv priv)
    (hb : ∃ b, findExact (w.bits + 3) t p = some (some b)) : t.table p ≠ none := by
  obtain ⟨b, hb⟩ := hb
  obtain ⟨_, _, r, ⟨-, hr⟩, hrun⟩ := run_findExact h p
  rw [findExact, hrun _ (Nat.lt_succ_self _)] at hb
  rw [← hr, show r = some b from Option.some.inj hb]
  exact Option.some_ne_none _

namespace Shared
variable {r : Nat → Shared w V} {n i₀ : Nat} {result : Option (Box V)}

/-! ### When the lookup cannot miss -/

/-- While the address stays routed by prefixes that never get shorter, the lookup finds one. -/
theorem lookup_never_blind (h : Run act init r n) (hs : LookupSpan r a i₀ n result)
    {p : Nat → Prefix w}
    (hp : ∀ i, i₀ ≤ i → i ≤ n → (p i).contains a ∧ (r i).trie.table (p i) ≠ none)
    (hle : ∀ i, i₀ ≤ i → i < n → (p i).length ≤ (p (i + 1)).length) :
    ∃ b, result = some b := by
  have hstored : ∀ i, i₀ ≤ i → i ≤ n → (p i).contains a ∧ ∃ b, (r i).trie.Stored (p i) b := by
    intro i h₀ hi
    obtain ⟨hpa, hne⟩ := hp i h₀ hi
    obtain ⟨b, hb⟩ := Option.ne_none_iff_exists'.mp hne
    exact ⟨hpa, b, (inv_run h i hi).writer.inv.table_eq_some.mp hb⟩
  obtain ⟨b, hb, -⟩ := toward_run h hs (fun _ _ _ => Nat.zero_le _) hstored hle
  exact ⟨b, hb⟩

/-- The default route, and a route inside it. -/
def anywhere : Prefix .ipv4 := .make (.zero .ipv4) 0 Width.zero_le_ipv4
def inside : Prefix .ipv4 := .make (.fromV4 0x0A000000) 8 Width.eight_le_ipv4

/-- With a reader on the default route's node, a longer route takes over from it. -/
def takeover : List (Action .ipv4 Nat) :=
  .update (.add anywhere 1) :: List.replicate 8 .writer ++
  [.lookup (.fromV4 0x0A000001), .reader, .update (.add inside 2)] ++ List.replicate 9 .writer ++
  .update (.withdraw anywhere) :: List.replicate 2 .writer ++ List.replicate 4 .reader

theorem lookup_never_blind_takeover : ∃ b,
    (play act init takeover 10).reader = .running (.fromV4 0x0A000001) .root ∧
    (play act init takeover 28).reader = .returned (.fromV4 0x0A000001) (some b) := by
  have hrun : Run act init (play act init takeover) takeover.length := run_play (by rfl)
  have hspan : LookupSpan (play act init takeover) (.fromV4 0x0A000001) 10 28 (some ⟨1, 2⟩) := by
    refine ⟨by decide, by rfl, ?_, by rfl⟩
    intro i h₀ hi
    interval_cases i <;> exact ⟨_, rfl⟩
  have hcovers : ∀ i, 10 ≤ i → i ≤ 28 →
      (if i < 22 then anywhere else inside).contains (.fromV4 0x0A000001) ∧
        (play act init takeover i).trie.table (if i < 22 then anywhere else inside) ≠ none := by
    intro i h₀ hi
    refine ⟨?_, stored_of_findExact (inv_run hrun i hi).writer.inv ?_⟩
    · split <;> decide
    · interval_cases i <;> exact ⟨_, rfl⟩
  have hlonger : ∀ i, 10 ≤ i → i < 28 → (if i < 22 then anywhere else inside).length ≤
      (if i + 1 < 22 then anywhere else inside).length := by
    intro i h₀ hi
    interval_cases i <;> decide
  obtain ⟨b, hb⟩ := lookup_never_blind (n := 28) hrun hspan hcovers hlonger
  rw [hb] at hspan
  exact ⟨b, hspan.start, hspan.finish⟩

/-! ### When it can -/

/-- With a reader on the longer route's node, the default route is put in above it and takes over. -/
def handover : List (Action .ipv4 Nat) :=
  .update (.add inside 1) :: List.replicate 8 .writer ++
  [.lookup (.fromV4 0x0A000001), .reader, .update (.add anywhere 2)] ++ List.replicate 9 .writer ++
  .update (.withdraw inside) :: List.replicate 3 .writer ++ List.replicate 2 .reader

/-- That the address is routed in every state does not keep a lookup from missing: one that stands
    on the node of a longer route while a shorter one takes over reports "no route". -/
theorem lookup_blind_handover : ¬ ∀ (w : Width) (V : Type) (r : Nat → Shared w V) (n i₀ : Nat)
    (a : Address w) (result : Option (Box V)),
    Run act init r n → LookupSpan r a i₀ n result →
    (∀ i, i₀ ≤ i → i ≤ n → ∃ p : Prefix w, p.contains a ∧ (r i).trie.table p ≠ none) →
    ∃ b, result = some b := by
  intro hall
  have hrun : Run act init (play act init handover) handover.length := run_play (by rfl)
  have hspan : LookupSpan (play act init handover) (.fromV4 0x0A000001) 10 27 none := by
    refine ⟨by decide, by rfl, ?_, by rfl⟩
    intro i h₀ hi
    interval_cases i <;> exact ⟨_, rfl⟩
  obtain ⟨b, hb⟩ := hall .ipv4 Nat _ 27 10 _ none hrun hspan fun i h₀ hi => by
    refine covered_of_lookup (inv_run hrun i hi).writer.inv ?_
    interval_cases i <;> exact ⟨_, rfl⟩
  cases hb

end Shared

end RadixTrie

end RcuFib

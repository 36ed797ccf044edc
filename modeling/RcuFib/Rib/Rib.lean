import RcuFib.Fib.Route
import Mathlib.Data.List.AList
import Mathlib.Data.List.Sort

/-! The RIB (`include/rcufib/rib.hpp`): every route every protocol has offered, the winner first.

    The counters are unbounded here. `best` and `changed` are what the forwarding table depends on:
    an operation that reports no change leaves the hop and the source of the winner as they were. -/

namespace RcuFib

variable {w : Width}

structure RibEntry (w : Width) where
  routes : List (Route w)
  deriving DecidableEq

/-- What the forwarding table keeps of a route. -/
def Route.decision (r : Route w) : NextHop × Protocol := (r.hop, r.source)

namespace RibEntry

def empty : RibEntry w := ⟨[]⟩

def best (e : RibEntry w) : Option (Route w) := e.routes.head?

/-- `std::stable_sort` by `preferred_over`. -/
def sort (e : RibEntry w) : RibEntry w :=
  ⟨e.routes.insertionSort fun a b => b.preferredOver a = false⟩

def changed (e : RibEntry w) (previous : Option (Route w)) : Bool :=
  let now := e.best
  if previous.isSome ≠ now.isSome then true
  else
    match now, previous with
    | some now, some previous => now.source ≠ previous.source || !(now.hop = previous.hop)
    | _, _ => false

/-- Insert or replace this protocol's offering; true when the winner changed. -/
def offer (e : RibEntry w) (candidate : Route w) : RibEntry w × Bool :=
  let previous := e.best
  let routes :=
    match e.routes.findIdx? fun r => r.source = candidate.source with
    | some i => e.routes.set i candidate
    | none => e.routes ++ [candidate]
  let e := (⟨routes⟩ : RibEntry w).sort
  (e, e.changed previous)

/-- Remove this protocol's offering; true when the winner changed. -/
def withdraw (e : RibEntry w) (source : Protocol) : RibEntry w × Bool :=
  let previous := e.best
  let routes := e.routes.filter fun r => r.source ≠ source
  let removed := e.routes.length - routes.length
  let e : RibEntry w := ⟨routes⟩
  if removed = 0 then (e, false) else (e, e.changed previous)

end RibEntry

structure RibStats where
  routesOffered : Nat
  routesWithdrawn : Nat
  bestPathChanges : Nat
  deriving DecidableEq

structure Rib (w : Width) where
  table : AList fun _ : Prefix w => RibEntry w
  stats : RibStats

namespace Rib

def empty : Rib w := ⟨∅, 0, 0, 0⟩

def noteChange (stats : RibStats) (changed : Bool) : RibStats :=
  if changed then { stats with bestPathChanges := stats.bestPathChanges + 1 } else stats

/-- `add(candidate)`. `table_[prefix]` makes an empty entry where there is none. -/
def add (r : Rib w) (candidate : Route w) : Rib w × Bool :=
  let stats := { r.stats with routesOffered := r.stats.routesOffered + 1 }
  let entry := (r.table.lookup candidate.pfx).getD .empty
  let (entry, changed) := entry.offer candidate
  (⟨r.table.insert candidate.pfx entry, noteChange stats changed⟩, changed)

/-- `remove(prefix, source)`. An entry without routes is erased. -/
def remove (r : Rib w) (p : Prefix w) (source : Protocol) : Rib w × Bool :=
  match r.table.lookup p with
  | none => (r, false)
  | some entry =>
    let stats := { r.stats with routesWithdrawn := r.stats.routesWithdrawn + 1 }
    let (entry, changed) := entry.withdraw source
    let table := if entry.routes.isEmpty then r.table.erase p else r.table.insert p entry
    (⟨table, noteChange stats changed⟩, changed)

def best (r : Rib w) (p : Prefix w) : Option (Route w) := (r.table.lookup p).bind RibEntry.best

def size (r : Rib w) : Nat := r.table.keys.length

end Rib

/-! ### What `changed` reports -/

section changed
variable {e : RibEntry w} {previous : Option (Route w)}

/-- `changed` compares the decisions. -/
theorem RibEntry.changed_eq (e : RibEntry w) (previous : Option (Route w)) :
    e.changed previous = decide (e.best.map Route.decision ≠ previous.map Route.decision) := by
  rw [Bool.eq_iff_iff, decide_eq_true_iff]
  cases hnow : e.best with
  | none => cases previous <;> simp [changed, hnow]
  | some now =>
    cases previous with
    | none => simp [changed, hnow]
    | some previous =>
      simp only [changed, hnow, Option.isSome_some, ne_eq, not_true_eq_false, if_false,
        Option.map_some, Option.some.injEq, Route.decision, Prod.mk.injEq, Bool.or_eq_true,
        decide_eq_true_eq, Bool.not_eq_true', decide_eq_false_iff_not]
      tauto

theorem RibEntry.withdraw_changed (e : RibEntry w) (source : Protocol) :
    (e.withdraw source).2 =
      decide ((e.withdraw source).1.best.map Route.decision ≠ e.best.map Route.decision) := by
  simp only [withdraw]
  split
  · next hnone =>
    -- nothing was removed, so the filter kept every route
    have hle := List.length_filter_le (fun r : Route w => decide (r.source ≠ source)) e.routes
    have hall : e.routes.filter (fun r => decide (r.source ≠ source)) = e.routes :=
      List.filter_sublist.eq_of_length (by omega)
    rw [hall]
    simp
  · exact changed_eq _ _

end changed

/-- After an offer there is a route. -/
theorem RibEntry.routes_offer_ne_nil (e : RibEntry w) (candidate : Route w) :
    (e.offer candidate).1.routes ≠ [] := by
  intro hnil
  have hlen := (List.perm_insertionSort (fun a b : Route w => b.preferredOver a = false)
    (match e.routes.findIdx? fun r => r.source = candidate.source with
      | some i => e.routes.set i candidate
      | none => e.routes ++ [candidate])).length_eq
  rw [show List.insertionSort _ _ = [] from hnil] at hlen
  cases hfind : e.routes.findIdx? fun r => r.source = candidate.source with
  | none => simp [hfind] at hlen
  | some i =>
    obtain ⟨hi, -⟩ := List.findIdx?_eq_some_iff_getElem.mp hfind
    simp only [hfind, List.length_nil, List.length_set] at hlen
    omega

namespace Rib
variable {r : Rib w} {p q : Prefix w} {candidate : Route w} {source : Protocol}

/-- An operation reports whether the decision for its prefix has changed, and touches no other. -/
structure Reports (r r' : Rib w) (p : Prefix w) (changed : Bool) : Prop where
  own : changed = decide ((r'.best p).map Route.decision ≠ (r.best p).map Route.decision)
  others : ∀ q, q ≠ p → r'.table.lookup q = r.table.lookup q

theorem add_reports (r : Rib w) (candidate : Route w) :
    r.Reports (r.add candidate).1 candidate.pfx (r.add candidate).2 := by
  refine ⟨?_, fun q hq => AList.lookup_insert_ne hq⟩
  have hold : r.best candidate.pfx = ((r.table.lookup candidate.pfx).getD .empty).best := by
    rw [best]
    cases r.table.lookup candidate.pfx <;> rfl
  have hnew : (r.add candidate).1.best candidate.pfx =
      (((r.table.lookup candidate.pfx).getD .empty).offer candidate).1.best := by
    simp only [best, add, AList.lookup_insert, Option.bind_some]
  rw [hold, hnew]
  exact RibEntry.changed_eq _ _

theorem remove_reports (r : Rib w) (p : Prefix w) (source : Protocol) :
    r.Reports (r.remove p source).1 p (r.remove p source).2 := by
  rw [remove]
  cases hp : r.table.lookup p with
  | none => exact ⟨by simp, fun _ _ => rfl⟩
  | some entry =>
    have hreport := entry.withdraw_changed source
    refine ⟨?_, fun q hq => ?_⟩
    · simp only [best, hp, Option.bind_some]
      split
      · next hempty =>
        rw [AList.lookup_erase]
        rw [List.isEmpty_iff] at hempty
        rwa [show (entry.withdraw source).1.best = none by rw [RibEntry.best, hempty]; rfl] at hreport
      · rwa [AList.lookup_insert]
    · dsimp only
      split
      · exact AList.lookup_erase_ne hq
      · exact AList.lookup_insert_ne hq

/-- Only prefixes with a route are in the table. -/
def Kept (r : Rib w) : Prop := ∀ p e, r.table.lookup p = some e → e.routes ≠ []

theorem Kept.mem_iff (h : r.Kept) : p ∈ r.table ↔ r.best p ≠ none := by
  rw [← AList.lookup_isSome, best]
  cases hp : r.table.lookup p with
  | none => simp
  | some e => simpa [RibEntry.best] using h p e hp

theorem kept_empty : (empty : Rib w).Kept := by
  intro p e he
  cases he

theorem Kept.add (h : r.Kept) (candidate : Route w) : (r.add candidate).1.Kept := by
  intro p e he
  rcases eq_or_ne p candidate.pfx with rfl | hp
  · rw [Rib.add, AList.lookup_insert] at he
    obtain rfl := Option.some.inj he
    exact RibEntry.routes_offer_ne_nil _ _
  · rw [(r.add_reports candidate).others p hp] at he
    exact h p e he

theorem Kept.remove (h : r.Kept) (p : Prefix w) (source : Protocol) :
    (r.remove p source).1.Kept := by
  intro q e he
  rcases eq_or_ne q p with rfl | hq
  · rw [Rib.remove] at he
    cases hp : r.table.lookup q with
    | none => rw [hp] at he; exact h q e (hp.trans (hp ▸ he))
    | some entry =>
      simp only [hp] at he
      split at he
      · rw [AList.lookup_erase] at he
        cases he
      · next hne =>
        rw [AList.lookup_insert] at he
        obtain rfl := Option.some.inj he
        simpa [List.isEmpty_iff] using hne
  · rw [(r.remove_reports p source).others q hq] at he
    exact h q e he

end Rib

end RcuFib

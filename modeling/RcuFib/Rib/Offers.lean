import RcuFib.Rib.Rib

/-! What the RIB is for: the latest route of each protocol that is not withdrawn, per prefix.

    `outstanding` is that map. An entry holds what the map says of its prefix, sorted so that nothing
    is preferred over what stands before it. `preferred_over` is only a weak order: which of two tied
    routes wins is decided by the stability of the sort. -/

namespace RcuFib

variable {w : Width}

/-! ### The preference -/

namespace Route
variable {a b c : Route w}

theorem preferredOver_iff : a.preferredOver b = true ↔
    a.distance < b.distance ∨ (a.distance = b.distance ∧ a.metric < b.metric) := by
  rw [preferredOver]
  by_cases h : a.distance = b.distance
  · rw [if_neg (not_not.mpr h), decide_eq_true_iff]
    simp [h, UInt8.lt_irrefl]
  · rw [if_pos h, decide_eq_true_iff]
    simp [h]

/-- `a` may stand before `b`. -/
theorem not_preferredOver_iff : b.preferredOver a = false ↔
    a.distance.toNat < b.distance.toNat ∨
      (a.distance.toNat = b.distance.toNat ∧ a.metric.toNat ≤ b.metric.toNat) := by
  rw [← Bool.not_eq_true, preferredOver_iff, UInt8.lt_iff_toNat_lt, UInt32.lt_iff_toNat_lt,
    ← UInt8.toNat_inj]
  omega

instance : Std.Total fun a b : Route w => b.preferredOver a = false where
  total a b := by
    rw [not_preferredOver_iff, not_preferredOver_iff]
    omega

instance : IsTrans (Route w) fun a b => b.preferredOver a = false where
  trans a b c := by
    rw [not_preferredOver_iff, not_preferredOver_iff, not_preferredOver_iff]
    omega

end Route

/-! ### One entry -/

/-- What a prefix has been offered and not withdrawn. -/
abbrev Offers (w : Width) := Protocol → Option (Route w)

namespace RibEntry
variable {e : RibEntry w} {M : Offers w} {b c : Route w} {source : Protocol}

/-- The entry holds the offers, losers included, one for each protocol and the preferred ones first. -/
structure Holds (e : RibEntry w) (M : Offers w) : Prop where
  mem : ∀ source c, M source = some c ↔ c ∈ e.routes ∧ c.source = source
  sources : (e.routes.map Route.source).Nodup
  sorted : e.routes.Pairwise fun a b => b.preferredOver a = false

theorem holds_empty : (empty : RibEntry w).Holds fun _ => none :=
  ⟨by simp [empty], List.nodup_nil, List.Pairwise.nil⟩

theorem mem_sort {routes : List (Route w)} : c ∈ (sort ⟨routes⟩).routes ↔ c ∈ routes :=
  List.mem_insertionSort _

theorem sources_sort {routes : List (Route w)} :
    ((sort ⟨routes⟩).routes.map Route.source).Perm (routes.map Route.source) :=
  (List.perm_insertionSort _ _).map _

theorem sorted_sort (e : RibEntry w) : e.sort.routes.Pairwise fun a b => b.preferredOver a = false :=
  List.pairwise_insertionSort _ _

/-- The sort is stable: a route that nothing is preferred over stays in front. -/
theorem best_sort {routes : List (Route w)} (h : ∀ x ∈ routes, x.preferredOver b = false) :
    (sort ⟨b :: routes⟩).best = some b := by
  rw [best, sort, List.insertionSort_cons_of_forall_rel _ h]
  rfl

/-- The candidate is put in the place of its protocol's route, or else at the end, before the sort. -/
theorem offer_eq (hsources : (e.routes.map Route.source).Nodup) (c : Route w) :
    ∃ u old v, e.routes = u ++ (old ++ v) ∧ (e.offer c).1 = sort ⟨u ++ c :: v⟩ ∧
      (∀ x ∈ old, x.source = c.source) ∧ (∀ x ∈ u ++ v, x.source ≠ c.source) ∧
      (old = [] → v = []) := by
  obtain ⟨l⟩ := e
  dsimp only [offer] at hsources ⊢
  cases hfind : l.findIdx? fun r => decide (r.source = c.source) with
  | none =>
    rw [List.findIdx?_eq_none_iff] at hfind
    refine ⟨l, [], [], by simp, rfl, by simp, fun x hx => ?_, fun _ => rfl⟩
    rw [List.append_nil] at hx
    simpa using hfind x hx
  | some i =>
    obtain ⟨hi, hsame, -⟩ := List.findIdx?_eq_some_iff_getElem.mp hfind
    have hsplit : l = l.take i ++ l[i] :: l.drop (i + 1) := by
      rw [← List.drop_eq_getElem_cons hi, List.take_append_drop]
    have hsame : l[i].source = c.source := of_decide_eq_true hsame
    refine ⟨l.take i, [l[i]], l.drop (i + 1), hsplit, ?_, by simpa using hsame, ?_, nofun⟩
    · dsimp only
      rw [List.set_eq_take_append_cons_drop, if_pos hi]
    · rw [hsplit, List.map_append, List.map_cons, List.nodup_middle, hsame, ← List.map_append,
        List.nodup_cons] at hsources
      intro x hx hxs
      exact hsources.1 (List.mem_map.mpr ⟨x, hx, hxs⟩)

/-- An offer replaces its protocol's route. -/
theorem Holds.offer (h : e.Holds M) (c : Route w) :
    (e.offer c).1.Holds (Function.update M c.source (some c)) := by
  obtain ⟨u, old, v, hl, he, hold, hrest, -⟩ := offer_eq h.sources c
  rw [he]
  refine ⟨fun source x => ?_, ?_, sorted_sort _⟩
  · rw [mem_sort, List.mem_append, List.mem_cons]
    rcases eq_or_ne source c.source with rfl | hs
    · rw [Function.update_self]
      constructor
      · intro hx
        obtain rfl := Option.some.inj hx
        exact ⟨.inr (.inl rfl), rfl⟩
      · rintro ⟨hx | rfl | hx, hxs⟩
        · exact absurd hxs (hrest x (List.mem_append_left _ hx))
        · rfl
        · exact absurd hxs (hrest x (List.mem_append_right _ hx))
    · rw [Function.update_of_ne hs, h.mem, hl, List.mem_append, List.mem_append]
      constructor
      · rintro ⟨hx | hx | hx, rfl⟩
        · exact ⟨.inl hx, rfl⟩
        · exact absurd (hold x hx) hs
        · exact ⟨.inr (.inr hx), rfl⟩
      · rintro ⟨hx | rfl | hx, rfl⟩
        · exact ⟨.inl hx, rfl⟩
        · exact absurd rfl hs
        · exact ⟨.inr (.inr hx), rfl⟩
  · have hkept : ((u ++ v).map Route.source).Nodup := by
      have hnodup := h.sources
      rw [hl] at hnodup
      refine hnodup.sublist (List.Sublist.map _ ?_)
      exact (List.sublist_append_right old v).append_left u
    rw [sources_sort.nodup_iff, List.map_append, List.map_cons, List.nodup_middle, ← List.map_append,
      List.nodup_cons]
    refine ⟨fun hmem => ?_, hkept⟩
    obtain ⟨x, hx, hxs⟩ := List.mem_map.mp hmem
    exact hrest x hx hxs

theorem withdraw_routes (e : RibEntry w) (source : Protocol) :
    (e.withdraw source).1.routes = e.routes.filter fun r => r.source ≠ source := by
  simp only [withdraw]
  split <;> rfl

/-- A withdrawal takes its protocol's route away. -/
theorem Holds.withdraw (h : e.Holds M) (source : Protocol) :
    (e.withdraw source).1.Holds (Function.update M source none) := by
  refine ⟨fun s c => ?_, ?_, ?_⟩
  · rw [withdraw_routes, List.mem_filter, decide_eq_true_iff]
    rcases eq_or_ne s source with rfl | hs
    · rw [Function.update_self]
      constructor
      · intro hc
        cases hc
      · rintro ⟨⟨-, hne⟩, hc⟩
        exact absurd hc hne
    · rw [Function.update_of_ne hs, h.mem]
      constructor
      · rintro ⟨hc, rfl⟩
        exact ⟨⟨hc, hs⟩, rfl⟩
      · rintro ⟨⟨hc, -⟩, rfl⟩
        exact ⟨hc, rfl⟩
  · rw [withdraw_routes]
    exact h.sources.sublist (List.filter_sublist.map _)
  · rw [withdraw_routes]
    exact h.sorted.filter _

theorem Holds.best_none (h : e.Holds M) : e.best = none ↔ ∀ source, M source = none := by
  rw [best, List.head?_eq_none_iff]
  constructor
  · intro hnil source
    cases hM : M source with
    | none => rfl
    | some c =>
      have := ((h.mem source c).mp hM).1
      rw [hnil] at this
      cases this
  · intro hall
    refine List.eq_nil_iff_forall_not_mem.mpr fun c hc => ?_
    have := (h.mem c.source c).mpr ⟨hc, rfl⟩
    rw [hall] at this
    cases this

/-- Nothing in the entry is preferred over its best route. -/
theorem Holds.best_first (h : e.Holds M) (hb : e.best = some b) :
    ∃ rest, e.routes = b :: rest ∧ ∀ x ∈ rest, x.preferredOver b = false := by
  obtain ⟨rest, hl⟩ := List.head?_eq_some_iff.mp hb
  have hsorted := h.sorted
  rw [hl] at hsorted
  exact ⟨rest, hl, (List.pairwise_cons.mp hsorted).1⟩

/-- The best route is an offer that no other is preferred over. -/
theorem Holds.best_some (h : e.Holds M) (hb : e.best = some b) :
    M b.source = some b ∧ ∀ source c, M source = some c → c.preferredOver b = false := by
  obtain ⟨rest, hl, hrest⟩ := h.best_first hb
  refine ⟨(h.mem _ _).mpr ⟨hl ▸ List.mem_cons_self, rfl⟩, fun source c hc => ?_⟩
  have hmem := ((h.mem source c).mp hc).1
  rw [hl] at hmem
  rcases List.mem_cons.mp hmem with rfl | hmem
  · rw [Route.not_preferredOver_iff]
    omega
  · exact hrest c hmem

/-! ### Ties -/

/-- An offer of another protocol that is not preferred over the best route leaves it in place. -/
theorem Holds.best_offer (h : e.Holds M) (hb : e.best = some b) (hs : c.source ≠ b.source)
    (hc : c.preferredOver b = false) : (e.offer c).1.best = some b := by
  obtain ⟨rest, hroutes, hrest⟩ := h.best_first hb
  obtain ⟨u, old, v, hl, he, hold, -, hend⟩ := offer_eq h.sources c
  rw [hroutes] at hl
  cases u with
  | nil =>
    -- the candidate would stand before the best route only in its place
    exfalso
    cases old with
    | nil =>
      rw [hend rfl] at hl
      cases hl
    | cons x old =>
      obtain ⟨rfl, -⟩ := List.cons.inj hl
      exact hs (hold b List.mem_cons_self).symm
  | cons x u =>
    obtain ⟨rfl, rfl⟩ := List.cons.inj hl
    rw [he]
    refine best_sort fun x hx => ?_
    rcases List.mem_append.mp hx with hx | hx
    · exact hrest x (List.mem_append_left _ hx)
    · rcases List.mem_cons.mp hx with rfl | hx
      · exact hc
      · exact hrest x (List.mem_append_right _ (List.mem_append_right _ hx))

theorem best_withdraw (hb : e.best = some b) (hs : source ≠ b.source) :
    (e.withdraw source).1.best = some b := by
  obtain ⟨rest, hl⟩ := List.head?_eq_some_iff.mp hb
  rw [best, withdraw_routes, hl, List.filter_cons_of_pos (by simpa using hs.symm)]
  rfl

inductive Op (w : Width) where
  | offer (candidate : Route w)
  | withdraw (source : Protocol)

def act (e : RibEntry w) : Op w → RibEntry w
  | .offer candidate => (e.offer candidate).1
  | .withdraw source => (e.withdraw source).1

/-- The entry after operations on an empty one. -/
def run (ops : List (Op w)) : RibEntry w := ops.foldl act empty

theorem holds_run (ops : List (Op w)) : ∃ M, (run ops).Holds M := by
  induction ops using List.reverseRecOn with
  | nil => exact ⟨_, holds_empty⟩
  | append_singleton ops op ih =>
    obtain ⟨M, hM⟩ := ih
    rw [run, List.foldl_append]
    cases op with
    | offer candidate => exact ⟨_, hM.offer candidate⟩
    | withdraw source => exact ⟨_, hM.withdraw source⟩

/-- The winning protocol changes only through a candidate that is strictly preferred, or when the
    winner's own route is replaced or withdrawn; a tie leaves the winner's route in place. -/
theorem no_flapping (ops : List (Op w)) :
    (∀ b op, (run ops).best = some b →
      ((run ops).act op).best.map Route.source ≠ some b.source →
      (∃ c, op = .offer c ∧ (c.preferredOver b = true ∨ c.source = b.source)) ∨
        op = .withdraw b.source) ∧
    ∀ b c, (run ops).best = some b → c.source ≠ b.source → c.distance = b.distance →
      c.metric = b.metric → ((run ops).act (.offer c)).best = some b := by
  obtain ⟨M, hM⟩ := holds_run ops
  refine ⟨fun b op hb hchange => ?_, fun b c hb hs hdistance hmetric => ?_⟩
  · cases op with
    | offer c =>
      left
      refine ⟨c, rfl, ?_⟩
      by_contra hno
      rw [not_or, Bool.not_eq_true] at hno
      rw [act, hM.best_offer hb hno.2 hno.1] at hchange
      exact hchange rfl
    | withdraw source =>
      right
      by_contra hno
      have hs : source ≠ b.source := by
        rintro rfl
        exact hno rfl
      rw [act, best_withdraw hb hs] at hchange
      exact hchange rfl
  · refine hM.best_offer hb hs ?_
    rw [Route.not_preferredOver_iff, hdistance, hmetric]
    omega

end RibEntry

/-! ### The whole RIB -/

inductive RibOp (w : Width) where
  | add (candidate : Route w)
  | remove (p : Prefix w) (source : Protocol)

namespace RibOp

def pfx : RibOp w → Prefix w
  | add candidate => candidate.pfx
  | remove p _ => p

/-- What an operation does to the offers for its prefix. -/
def revise (M : Offers w) : RibOp w → Offers w
  | add candidate => Function.update M candidate.source (some candidate)
  | remove _ source => Function.update M source none

/-- What an operation does to the offers outstanding. -/
def effect (M : Prefix w → Offers w) (op : RibOp w) : Prefix w → Offers w :=
  Function.update M op.pfx (op.revise (M op.pfx))

end RibOp

/-- The latest route of each protocol for each prefix, unless it was withdrawn since. -/
def outstanding (ops : List (RibOp w)) : Prefix w → Offers w :=
  ops.foldl RibOp.effect fun _ _ => none

namespace Rib
variable {r : Rib w} {M : Prefix w → Offers w} {p : Prefix w}

def act (r : Rib w) : RibOp w → Rib w × Bool
  | .add candidate => r.add candidate
  | .remove p source => r.remove p source

/-- The RIB after operations on an empty one. -/
def run (ops : List (RibOp w)) : Rib w := ops.foldl (fun r op => (r.act op).1) empty

/-- What the table holds for a prefix. -/
def entry (r : Rib w) (p : Prefix w) : RibEntry w := (r.table.lookup p).getD .empty

/-- The RIB refines the map of outstanding offers. -/
structure Refines (r : Rib w) (M : Prefix w → Offers w) : Prop where
  kept : r.Kept
  entries : ∀ p, (r.entry p).Holds (M p)

theorem best_entry (r : Rib w) (p : Prefix w) : r.best p = (r.entry p).best := by
  rw [best, entry]
  cases r.table.lookup p <;> rfl

theorem refines_empty : (empty : Rib w).Refines fun _ _ => none :=
  ⟨kept_empty, fun _ => RibEntry.holds_empty⟩

theorem entry_add (r : Rib w) (candidate : Route w) :
    (r.add candidate).1.entry candidate.pfx = ((r.entry candidate.pfx).offer candidate).1 := by
  rw [entry, add, AList.lookup_insert]
  rfl

theorem entry_remove (r : Rib w) (p : Prefix w) (source : Protocol) :
    (r.remove p source).1.entry p = ((r.entry p).withdraw source).1 := by
  rw [entry, entry, remove]
  cases hp : r.table.lookup p with
  | none =>
    dsimp only
    rw [hp]
    rfl
  | some e =>
    dsimp only
    split
    · next hnil =>
      rw [AList.lookup_erase, Option.getD_none, Option.getD_some]
      rw [List.isEmpty_iff] at hnil
      cases hw : (e.withdraw source).1
      rw [hw] at hnil
      exact congrArg RibEntry.mk hnil.symm
    · rw [AList.lookup_insert]
      rfl

theorem act_reports (r : Rib w) (op : RibOp w) : r.Reports (r.act op).1 op.pfx (r.act op).2 := by
  cases op with
  | add candidate => exact r.add_reports candidate
  | remove p source => exact r.remove_reports p source

theorem Refines.act (h : r.Refines M) (op : RibOp w) : (r.act op).1.Refines (op.effect M) := by
  have hothers : ∀ q, q ≠ op.pfx → (r.act op).1.entry q = r.entry q := by
    intro q hq
    rw [entry, (r.act_reports op).others q hq, entry]
  refine ⟨?_, fun q => ?_⟩
  · cases op with
    | add candidate => exact h.kept.add candidate
    | remove p source => exact h.kept.remove p source
  · rcases eq_or_ne q op.pfx with rfl | hq
    · rw [RibOp.effect, Function.update_self]
      cases op with
      | add candidate =>
        have hheld := (h.entries candidate.pfx).offer candidate
        rwa [← entry_add] at hheld
      | remove p source =>
        have hheld := (h.entries p).withdraw source
        rwa [← entry_remove] at hheld
    · rw [hothers q hq, RibOp.effect, Function.update_of_ne hq]
      exact h.entries q

theorem refines_run (ops : List (RibOp w)) : (run ops).Refines (outstanding ops) := by
  induction ops using List.reverseRecOn with
  | nil => exact refines_empty
  | append_singleton ops op ih =>
    rw [run, outstanding, List.foldl_append, List.foldl_append]
    exact ih.act op

/-- After any operations the RIB holds the outstanding offers: each entry all of its prefix's, sorted,
    `best` one that no other is preferred over, `size` the prefixes that have any; and an operation
    reports whether it changed the decision for its prefix, and touches no other. -/
theorem rib_refines (ops : List (RibOp w)) :
    (∀ p, ((run ops).entry p).Holds (outstanding ops p)) ∧
    (∀ p, (run ops).best p = none ↔ ∀ source, outstanding ops p source = none) ∧
    (∀ p b, (run ops).best p = some b → outstanding ops p b.source = some b ∧
      ∀ source c, outstanding ops p source = some c → c.preferredOver b = false) ∧
    (∃ ps : List (Prefix w), ps.Nodup ∧ (∀ p, p ∈ ps ↔ ∃ source c, outstanding ops p source = some c) ∧
      (run ops).size = ps.length) ∧
    ∀ op, (run ops).Reports ((run ops).act op).1 op.pfx ((run ops).act op).2 := by
  have h := refines_run ops
  refine ⟨h.entries, fun p => ?_, fun p b hb => ?_, ⟨(run ops).table.keys, ?_, fun p => ?_, rfl⟩,
    (run ops).act_reports⟩
  · rw [best_entry]
    exact (h.entries p).best_none
  · rw [best_entry] at hb
    exact (h.entries p).best_some hb
  · exact (run ops).table.nodupKeys
  · rw [← AList.mem_keys, h.kept.mem_iff, best_entry, ne_eq, (h.entries p).best_none]
    simp only [not_forall, Option.ne_none_iff_exists']

end Rib

end RcuFib

import RcuFib.Rib.Convergence
import RcuFib.Fib.Visits

/-! From the RIB to a packet: the control plane on one thread, its table read by others meanwhile.

    The control plane is looked at without its table here, with the batches it has flushed to it. So it
    runs ahead of the table by as many batches as it likes, none included, and what the readers find is
    told by `Visit`. A reader forwards as the RIB has said at some moment; for a prefix that was up to date
    when it started, at a moment since; and with nothing on its way as the RIB says (`forwarding`). -/

namespace RcuFib
open RadixTrie Trace Synchroniser Monitor

variable {w : Width}

/-- The control plane, and the batches it has called `fib_.apply` with. -/
structure Feed (w : Width) where
  rib : Rib w
  sync : Synchroniser w
  /-- The prefix a RIB operation has reported and nobody has marked yet. -/
  owed : Option (Prefix w)
  sent : List (List (FibUpdate w))

namespace Feed

/-- `flush_all(batch_size)` is as many flushes as it takes. -/
inductive Action (w : Width) where
  | add (candidate : Route w)
  | remove (p : Prefix w) (source : Protocol)
  /-- `order` is how the set is enumerated after an insertion. -/
  | markDirty (p : Prefix w) (order : List (Prefix w))
  | flush (limit : Nat)

def init : Feed w := ⟨.empty, .fresh, none, []⟩

def act (s : Feed w) : Action w → Option (Feed w)
  | .add candidate =>
    if s.owed.isNone then
      let (rib, changed) := s.rib.add candidate
      some { s with rib, owed := ControlPlane.owes candidate.pfx changed }
    else none
  | .remove p source =>
    if s.owed.isNone then
      let (rib, changed) := s.rib.remove p source
      some { s with rib, owed := ControlPlane.owes p changed }
    else none
  | .markDirty p order =>
    (s.sync.markDirty p order).map fun sync =>
      { s with sync, owed := if s.owed = some p then none else s.owed }
  | .flush limit =>
    let (sync, batch) := s.sync.flushBatch s.rib limit
    some { s with sync, sent := s.sent ++ batch.toList }

/-- The calls of the table. -/
def calls (s : Feed w) : List (FibCall w) := s.sent.map .apply

/-- No change of the prefix is on its way from the RIB. -/
def Clean (s : Feed w) (p : Prefix w) : Prop := p ∉ s.sync.dirty ∧ s.owed ≠ some p

/-- A prefix on the table and in the RIB. -/
def Agrees (C : Prefix w → Option FibEntry) (rib : Rib w) (p : Prefix w) : Prop :=
  (C p).map FibEntry.decision = (rib.best p).map Route.decision

/-! ### One step -/

variable {s s' : Feed w} {rib : Rib w} {p q : Prefix w} {changed : Bool} {C : Prefix w → Option FibEntry}

/-- What a step does, as far as the table is concerned. -/
inductive Move (s s' : Feed w) : Prop
  | reports (p : Prefix w) (changed : Bool) : s.owed = none → s.rib.Reports s'.rib p changed → (s.rib.Kept → s'.rib.Kept) →
      s'.owed = ControlPlane.owes p changed → s'.sync = s.sync → s'.sent = s.sent → Move s s'
  | marks : s'.rib = s.rib → (∀ p, s'.Clean p → s.Clean p) → s'.sent = s.sent → Move s s'
  | flushes (batch : List (FibUpdate w)) : s'.rib = s.rib → (∀ u ∈ batch, Resolves s.rib u) →
      (∀ p, s'.Clean p → p ∉ batch.map FibUpdate.pfx → s.Clean p) →
      s'.calls.flatMap FibCall.updates =
        s.calls.flatMap FibCall.updates ++ batch.map FibUpdate.update → s.sent <+: s'.sent → Move s s'

theorem move_of_act {x : Action w} (hx : act s x = some s') : Move s s' := by
  cases x with
  | add candidate =>
    simp only [act] at hx
    split at hx
    · next hn =>
      cases hx
      exact .reports _ _ (Option.isNone_iff_eq_none.mp hn) (s.rib.add_reports candidate)
        (fun h => h.add candidate) rfl rfl rfl
    · cases hx
  | remove p source =>
    simp only [act] at hx
    split at hx
    · next hn =>
      cases hx
      exact .reports _ _ (Option.isNone_iff_eq_none.mp hn) (s.rib.remove_reports p source)
        (fun h => h.remove p source) rfl rfl rfl
    · cases hx
  | markDirty p order =>
    obtain ⟨sync, hsync, rfl⟩ := Option.map_eq_some_iff.mp hx
    obtain ⟨hsub, hmem⟩ := Synchroniser.markDirty_spec hsync
    refine .marks rfl (fun q hq => ⟨fun hd => hq.1 (hsub q hd), fun ho => ?_⟩) rfl
    -- `q` was owed, so it is not `p`, and is owed still
    have hqp : q ≠ p := by
      rintro rfl
      exact hq.1 hmem
    refine hq.2 ?_
    dsimp only
    rw [if_neg fun hp => hqp (Option.some.inj (ho.symm.trans hp)), ho]
  | flush limit =>
    obtain ⟨hdirty, hpfx, hall⟩ := Synchroniser.flushBatch_spec s.rib s.sync limit
    have heq : { s with
      sync := (s.sync.flushBatch s.rib limit).1
      sent := s.sent ++ (s.sync.flushBatch s.rib limit).2.toList } = s' := Option.some.inj hx
    generalize s.sync.flushBatch s.rib limit = f at hdirty hpfx hall heq
    subst heq
    refine .flushes (f.2.getD []) rfl hall (fun p hp hnot => ⟨fun hmem => ?_, hp.2⟩) ?_
      (List.prefix_append ..)
    · rw [← List.take_append_drop (s.sync.takes limit) s.sync.dirty, List.mem_append, ← hpfx,
        ← hdirty] at hmem
      exact hmem.elim hnot hp.1
    · cases hf : f.2 with
      | none => simp [calls]
      | some batch => simp [calls, FibCall.updates]

theorem agrees_of_owes (h : s.rib.Reports rib p changed) (hclean : ControlPlane.owes p changed ≠ some q)
    (hq : Agrees C s.rib q) : Agrees C rib q := by
  refine Eq.trans hq ?_
  rcases eq_or_ne q p with rfl | hne
  · cases changed with
    | true => exact absurd rfl hclean
    | false => exact (not_not.mp (of_decide_eq_false h.own.symm)).symm
  · rw [Rib.best, Rib.best, h.others q hne]

/-- What part of a batch makes of a table. -/
theorem agrees_part {batch : List (FibUpdate w)} {part : List (Update w FibEntry)}
    (hall : ∀ u ∈ batch, Resolves rib u) (hpart : part <+: batch.map FibUpdate.update) (p : Prefix w) :
    Agrees (part.foldl (fun C u => u.effect C) C) rib p ∨
      (part.foldl (fun C u => u.effect C) C p).map FibEntry.decision = (C p).map FibEntry.decision := by
  have hpart : part = (batch.take part.length).map FibUpdate.update := by
    rw [List.map_take]
    exact List.prefix_iff_eq_take.mp hpart
  have htake : ∀ u ∈ batch.take part.length, Programs rib u :=
    fun u hu => (hall u (List.mem_of_mem_take hu)).programs
  have heffect := effect_batch htake p C
  rw [FibCall.effect, FibCall.updates, ← hpart] at heffect
  split at heffect
  · exact .inl heffect
  · exact .inr heffect

/-- A prefix of which no change is on its way is on the table as it is in the RIB, once the calls are. -/
structure Inv (s : Feed w) : Prop where
  kept : s.rib.Kept
  agrees : ∀ p, s.Clean p → Agrees (programmed s.calls) s.rib p

theorem inv_init : (init : Feed w).Inv := ⟨Rib.kept_empty, fun _ _ => rfl⟩

theorem Inv.step {x : Action w} (h : s.Inv) (hx : act s x = some s') : s'.Inv := by
  cases move_of_act hx with
  | reports p changed hnone hreports hkept howed hsync hsent =>
    refine ⟨hkept h.kept, fun q hq => ?_⟩
    rw [calls, hsent]
    refine agrees_of_owes hreports (howed ▸ hq.2) (h.agrees q ⟨hsync ▸ hq.1, ?_⟩)
    rw [hnone]
    exact (Option.some_ne_none q).symm
  | marks hrib hclean hsent =>
    refine ⟨hrib ▸ h.kept, fun q hq => ?_⟩
    rw [calls, hsent, hrib]
    exact h.agrees q (hclean q hq)
  | flushes batch hrib hall hclean hcalls _ =>
    refine ⟨hrib ▸ h.kept, fun q hq => ?_⟩
    have heffect := effect_batch (fun u hu => (hall u hu).programs) q (programmed s.calls)
    rw [hrib, programmed_eq_made, hcalls, made_append, ← programmed_eq_made]
    refine Eq.trans heffect ?_
    split
    · rfl
    · next hnot => exact h.agrees q (hclean q hq hnot)

/-! ### Whole runs -/

section runs
variable {r : Nat → Feed w} {n m : Nat}

theorem inv_run (h : Run act init r n) : ∀ i ≤ n, (r i).Inv :=
  h.invariant inv_init fun _ _ _ hs hx => hs.step hx

theorem sent_mono (h : Run act init r n) {i j : Nat} (hij : i ≤ j) (hj : j ≤ n) :
    (r i).sent <+: (r j).sent := by
  refine h.along (Q := fun _ s => (r i).sent <+: s.sent) List.prefix_rfl ?_ j hij hj
  intro k x _ _ hk hx
  refine hk.trans ?_
  cases move_of_act hx with
  | reports _ _ _ _ _ _ _ hsent => rw [hsent]
  | marks _ _ hsent => rw [hsent]
  | flushes _ _ _ _ _ hsent => exact hsent

/-- Whatever part of the updates has been made by then: what the table has under a prefix the RIB has
    said at some moment, and since `m`, if nothing was on its way then. -/
theorem decided (h : Run act init r n) (hclean : (r m).Clean p) {i : Nat} (hm : m ≤ i) (hi : i ≤ n) :
    ∀ before, (r m).calls.flatMap FibCall.updates <+: before →
      before <+: (r i).calls.flatMap FibCall.updates →
      ∃ j, m ≤ j ∧ j ≤ i ∧ Agrees (made before) (r j).rib p := by
  refine h.along (Q := fun i s => ∀ before, (r m).calls.flatMap FibCall.updates <+: before →
    before <+: s.calls.flatMap FibCall.updates →
    ∃ j, m ≤ j ∧ j ≤ i ∧ Agrees (made before) (r j).rib p) ?_ ?_ i hm hi
  · intro before hlo hhi
    have hagrees := (inv_run h m (hm.trans hi)).agrees p hclean
    rw [programmed_eq_made, hlo.eq_of_length_le hhi.length_le] at hagrees
    exact ⟨m, le_rfl, le_rfl, hagrees⟩
  · intro i x hm hi ih hx before hlo hhi
    have hlater : (∃ j, m ≤ j ∧ j ≤ i ∧ Agrees (made before) (r j).rib p) →
        ∃ j, m ≤ j ∧ j ≤ i + 1 ∧ Agrees (made before) (r j).rib p := by
      rintro ⟨j, hmj, hji, hj⟩
      exact ⟨j, hmj, Nat.le_succ_of_le hji, hj⟩
    cases move_of_act hx with
    | reports _ _ _ _ _ _ _ hsent =>
      rw [calls, hsent] at hhi
      exact hlater (ih before hlo hhi)
    | marks _ _ hsent =>
      rw [calls, hsent] at hhi
      exact hlater (ih before hlo hhi)
    | flushes batch _ hall _ hcalls _ =>
      rw [hcalls] at hhi
      rcases List.prefix_or_prefix_of_prefix hhi (List.prefix_append _ _) with hhi | hmore
      · exact hlater (ih before hlo hhi)
      · -- the flush is under way: the prefix is in the part that has been made of its batch, or as before
        obtain ⟨part, rfl⟩ := hmore
        rw [List.prefix_append_right_inj] at hhi
        have hups : (r m).calls.flatMap FibCall.updates <+: (r i).calls.flatMap FibCall.updates :=
          ((sent_mono h hm hi.le).map _).flatMap _
        rw [made_append]
        rcases agrees_part hall hhi p with hagrees | hsame
        · exact ⟨i, hm, Nat.le_succ i, hagrees⟩
        · obtain ⟨j, hmj, hji, hj⟩ := ih _ hups List.prefix_rfl
          exact ⟨j, hmj, Nat.le_succ_of_le hji, hsame.trans hj⟩

theorem clean_init (p : Prefix w) : (init : Feed w).Clean p := ⟨List.not_mem_nil, (Option.some_ne_none p).symm⟩

/-- From the RIB to a packet, through any of the four tables and any interleaving of its threads.
    What a visit is handed the RIB has had as the best route for a prefix of the address; if nothing was
    on its way for that prefix when the visit started, it has since. If no batch comes in meanwhile,
    and nothing is on its way for any prefix of the address, the RIB's longest prefix decides. -/
theorem forwarding (h : Run act init r n) (hm : m ≤ n) {T : Type} [DecidableEq T] {a : Address w}
    {entry : Option FibEntry} (hv : Visit T a (r m).calls (r n).calls entry) :
    (∀ e, entry = some e → ∃ (q : Prefix w) (best : Route w) (j : Nat), q.contains a ∧ j ≤ n ∧
      (r j).rib.best q = some best ∧ e.hop = best.hop ∧ e.source = best.source ∧
      ((r m).Clean q → m ≤ j)) ∧
    ((r m).sent = (r n).sent → ∀ k, m ≤ k → k ≤ n →
      (∀ p : Prefix w, p.contains a → (r k).Clean p) → ControlPlane.Resolved (r k).rib a entry) := by
  obtain ⟨hgenuine, hexact⟩ := hv.answer
  refine ⟨fun e he => ?_, fun hsent k hmk hk hclean => ?_⟩
  · obtain ⟨q, before, hqa, hearly, hbefore, hmade⟩ := hgenuine e he
    have hsays : ∀ {j}, Agrees (made before) (r j).rib q → ∃ best, (r j).rib.best q = some best ∧
        e.hop = best.hop ∧ e.source = best.source := by
      intro j hj
      rw [Agrees, hmade, Option.map_some] at hj
      obtain ⟨best, hbest, heq⟩ := Option.map_eq_some_iff.mp hj.symm
      obtain ⟨hhop, hsource⟩ := Prod.mk.inj heq
      exact ⟨best, hbest, hhop.symm, hsource.symm⟩
    by_cases hclean : (r m).Clean q
    · obtain ⟨j, hmj, hj, hagrees⟩ := decided h hclean hm le_rfl before hearly hbefore
      obtain ⟨best, hbest, hhop, hsource⟩ := hsays hagrees
      exact ⟨q, best, j, hqa, hj, hbest, hhop, hsource, fun _ => hmj⟩
    · have hstart : (r 0).Clean q := by
        rw [h.start]
        exact clean_init q
      have hnone : (r 0).calls.flatMap FibCall.updates <+: before := by
        rw [h.start]
        exact List.nil_prefix
      obtain ⟨j, -, hj, hagrees⟩ := decided h hstart (Nat.zero_le n) le_rfl before hnone hbefore
      obtain ⟨best, hbest, hhop, hsource⟩ := hsays hagrees
      exact ⟨q, best, j, hqa, hj, hbest, hhop, hsource, fun hq => absurd hq hclean⟩
  · have hcalls : (r m).calls = (r n).calls := by rw [calls, calls, hsent]
    have hsame : (r k).calls = (r n).calls := by
      have hlo := sent_mono h hmk hk
      have hhi := sent_mono h hk le_rfl
      rw [hsent] at hlo
      rw [calls, calls, hhi.eq_of_length_le hlo.length_le]
    have hinv := inv_run h k hk
    have hmatch := hexact hcalls
    rw [← hsame] at hmatch
    exact ControlPlane.resolved_of_decisions hinv.kept (fun p hp => hinv.agrees p (hclean p hp)) hmatch

end runs

/-- A route is announced and flushed; a better one is on its way. -/
def announced : List (Action .ipv4) :=
  let p : Prefix .ipv4 := .make (.fromV4 0x0A000000) 8 Width.eight_le_ipv4
  [.add ⟨p, ⟨1, 1, 0, 0⟩, .bgp, 5⟩, .markDirty p [p], .flush 1,
    .add ⟨p, ⟨2, 1, 0, 0⟩, .staticRoute, 0⟩, .markDirty p [p]]

/-- The batch, and a visit that comes after it. -/
def delivered : Nat → LockedFib Bool .ipv4 :=
  play (System.act (Locking.mutex.calls .ipv4)) (System.init .empty) <|
  [.call false (.apply ((play act init announced 3).sent.flatten)), .lock false] ++
  List.replicate 9 (.step false) ++
  [.unlock false, .call true (.visit (.fromV4 0x0A000001)), .lock true] ++
  List.replicate 3 (.step true) ++ [.unlock true]

theorem forwarding_delivered :
    (∃ (q : Prefix .ipv4) (best : Route .ipv4) (j : Nat), q.contains (.fromV4 0x0A000001) ∧ j ≤ 5 ∧
      (play act init announced j).rib.best q = some best ∧ (⟨1, 1, 0, 0⟩ : NextHop) = best.hop ∧
      .bgp = best.source ∧ ((play act init announced 3).Clean q → 3 ≤ j)) ∧
    ControlPlane.Resolved (play act init announced 3).rib (.fromV4 0x0A000001)
      (some ⟨⟨1, 1, 0, 0⟩, .bgp, 1⟩) := by
  have hrun : Run act (init : Feed .ipv4) (play act init announced) 5 := run_play (by rfl)
  have htable : Run (System.act (Locking.mutex.calls .ipv4)) (System.init .empty) delivered 18 :=
    run_play (by rfl)
  have hspan : System.CallSpan delivered true (.visit (.fromV4 0x0A000001))
      (.visited (some ⟨0, ⟨⟨1, 1, 0, 0⟩, .bgp, 1⟩⟩)) 13 18 := by
    refine ⟨by decide, by rfl, ?_, by rfl⟩
    intro i hlo hhi
    interval_cases i <;> rfl
  have hvisit : Visit Bool (.fromV4 0x0A000001) (play act init announced 3).calls
      (play act init announced 5).calls (some ⟨⟨1, 1, 0, 0⟩, .bgp, 1⟩) :=
    Visit.locked htable (by rfl) (by rfl) hspan
  have hclean : ∀ p, (play act (init : Feed .ipv4) announced 3).Clean p :=
    fun p => ⟨List.not_mem_nil, (Option.some_ne_none p).symm⟩
  obtain ⟨hgenuine, hexact⟩ := forwarding hrun (by decide : 3 ≤ 5) hvisit
  exact ⟨hgenuine _ rfl, hexact (by rfl) 3 le_rfl (by decide) fun p _ => hclean p⟩

end Feed

end RcuFib

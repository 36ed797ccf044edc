import RcuFib.Fib.Progress
import RcuFib.Fib.Immediate
import RcuFib.Trie.Destroy
import RcuFib.Epoch.Ledger
import RcuFib.Library.Simulation

/-! The end of `rcu_fib` and of its domain.

    At any moment a node or an entry that has been allocated is in the trie's keeping, or has been handed
    to the domain, once. The domain frees each thing it is handed once, some of it only in its
    destructor; the trie's destructor deletes what the trie still keeps. So between them, and whatever the
    threads have been doing, everything is deleted, and nothing twice. -/

namespace RcuFib
open SearchGraph Routine Trace Tally RadixTrie

variable {T : Type*} {w : Width} {V : Type*}

namespace RadixTrie

/-- In the keeping of the trie and of the update under way. -/
def keeps (t : RadixTrie w V) : Option (WriterPc w V) → Object → Prop
  | none => t.AtRest
  | some pc => t.writerKept pc

variable {t t' : RadixTrie w V} {pc pc' : Option (WriterPc w V)} {e : Retired V}

/-- What is gone takes no value along, then as now. -/
theorem hands_gone (h : t.Turn pc t' pc') (hs : t.Silent (privOf pc)) (hg : Gone t pc e) (x : Object) :
    t'.hands e x = t.hands e x := by
  cases e with
  | value b => cases x <;> rfl
  | node n =>
    have hg' := h.gone _ hg
    have hs' := h.evolves.silent hs
    cases x with
    | node m => rfl
    | box a => rw [hands, hands, hs n hg.1.2 hg.2, hs' n hg'.1.2 hg'.2]

theorem keeps_start (t : RadixTrie w V) {pc : Option (WriterPc w V)}
    (h : pc = none ∨ ∃ u : Update w V, pc = some u.start) (x : Object) : t.keeps pc x ↔ t.AtRest x := by
  rcases h with rfl | ⟨u, rfl⟩
  · rfl
  · exact writerKept_start t u x

end RadixTrie

namespace Rcu
variable [DecidableEq T] {s s' : Rcu T w} {τ : T}

/-- What the domain has been handed. -/
def given (s : Rcu T w) : List (Retired FibEntry) := s.epoch.dom.issued.map Retiree.payload

/-- An action as the writer's trie sees it. -/
inductive Stage (s s' : Rcu T w) : Prop
  | same : s'.trie = s.trie → s'.update = s.update → s'.given = s.given → Stage s s'
  | begin : s.update = none → s'.trie = s.trie →
      (s'.update = none ∨ ∃ u : Update w FibEntry, s'.update = some u.start) → s'.given = s.given →
      Stage s s'
  | next {pc pc'} : s.update = some pc → writerStep s.trie pc = .next s'.trie pc' →
      s'.update = some pc' → s'.given = s.given → Stage s s'
  | retire {pc e pc'} : s.update = some pc → writerStep s.trie pc = .call s'.trie e pc' →
      s'.update = some pc' → s'.given = e :: s.given → Stage s s'
  | done {pc r} : s.update = some pc → writerStep s.trie pc = .done s'.trie r →
      (s'.update = none ∨ ∃ u : Update w FibEntry, s'.update = some u.start) → s'.given = s.given →
      Stage s s'

theorem given_settle (s : Rcu T w) (τ : T) : (s.settle τ).given = s.given := by
  unfold settle
  split <;> rfl

theorem current_proceed (updates : List (Update w FibEntry)) (applied : Nat) :
    (CallPc.proceed updates applied).current = none ∨
      ∃ u : Update w FibEntry, (CallPc.proceed updates applied).current = some u.start := by
  cases updates with
  | nil => exact .inl rfl
  | cons u rest => exact .inr ⟨u, rfl⟩

/-- Only `retire` hands something to the domain. -/
theorem given_act {x : EpochSystem.Action T (Retired FibEntry)} {e : EpochSystem T (Retired FibEntry)}
    (he : EpochSystem.act s.epoch x = some e) :
    e.dom.issued.map Retiree.payload = s.given ∧ (∀ σ p, x ≠ .call σ (.retire (some p))) ∨
      ∃ σ p, x = .call σ (.retire (some p)) ∧ e.dom.issued.map Retiree.payload = p :: s.given := by
  obtain ⟨τ, y, rfl, ⟨c, rfl, -, hc⟩ | ⟨weak, pc, rfl, -, rfl⟩⟩ := EpochSystem.act_cases he
  · rcases (EpochDomain.called hc).issued with ⟨hsame, hnot⟩ | ⟨p, rfl, hnew⟩
    · refine .inl ⟨congrArg (List.map Retiree.payload) hsame, fun σ p hx => ?_⟩
      cases hx
      exact hnot p rfl
    · exact .inr ⟨τ, p, rfl, congrArg (List.map Retiree.payload) hnew⟩
  · refine .inl ⟨congrArg (List.map Retiree.payload) (s.epoch.dom.noted_step τ weak pc).issued,
      fun σ p hx => ?_⟩
    cases hx

theorem stage_act {a : Action T w} (ha : s.act a = some s') : Stage s s' := by
  have hreads : ∀ {b : Address w} {lpc : LookupPc FibEntry} {t : RadixTrie w FibEntry},
      (∀ lpc', lookupStep b s.trie lpc = .next t lpc' → t = s.trie) ∧
      ∀ entry, lookupStep b s.trie lpc = .done t entry → t = s.trie := by
    intro b lpc t
    have hsame : (lookupStep b s.trie lpc).Sat (fun t' _ => t' = s.trie) (fun t' _ => t' = s.trie) :=
      lookup_trie lpc
    refine ⟨fun lpc' ho => ?_, fun entry ho => ?_⟩
    · rwa [ho] at hsame
    · rwa [ho] at hsame
  cases move_of_act ha with
  | @domain τ c e hc hretire he =>
    refine .same (trie_settle _ τ) ((update_settle _ τ).trans rfl) ((given_settle _ τ).trans ?_)
    rcases given_act he with ⟨hsame, -⟩ | ⟨σ, p, hx, -⟩
    · exact hsame
    · cases hx
      exact absurd rfl (hretire (some p))
  | @step τ weak e he =>
    refine .same (trie_settle _ τ) ((update_settle _ τ).trans rfl) ((given_settle _ τ).trans ?_)
    rcases given_act he with ⟨hsame, -⟩ | ⟨σ, p, hx, -⟩
    · exact hsame
    · cases hx
  | @lookup τ a hc hopen => exact .same rfl rfl rfl
  | @read τ a lpc t lpc' hc ho => exact .same (hreads.1 lpc' ho) rfl rfl
  | @found τ a lpc t entry hc ho => exact .same (hreads.2 entry ho) rfl rfl
  | @call τ c hc => exact .same rfl rfl rfl
  | @lock τ c hc hw =>
    refine .begin ?_ rfl (current_proceed c.updates 0) rfl
    rw [update, hw]
    rfl
  | @write τ pc rest applied t pc' hw ho =>
    have hpc : s.update = some pc := by
      rw [update, hw]
      rfl
    exact .next hpc ho rfl rfl
  | @retire τ pc rest applied t x pc' e hw ho he =>
    have hpc : s.update = some pc := by
      rw [update, hw]
      rfl
    refine .retire hpc ho rfl ?_
    rcases given_act he with ⟨-, hnot⟩ | ⟨σ, p, hx, hnew⟩
    · exact absurd rfl (hnot τ x)
    · cases hx
      exact hnew
  | @updated τ pc rest applied t r hw ho =>
    have hpc : s.update = some pc := by
      rw [update, hw]
      rfl
    exact .done hpc ho (current_proceed rest _) rfl
  | @unlock τ applied hw =>
    refine .same rfl ?_ rfl
    rw [update, update, hw]
    rfl

/-- The books of the trie and its domain: what has been handed over is gone, and each thing is kept or
    has been handed over once. -/
structure Booked (s : Rcu T w) : Prop where
  gone : ∀ e ∈ s.given, Gone s.trie s.update e
  accounted : ∀ x : Object,
    Accounted (s.trie.keeps s.update x) (s.given.countP fun e => s.trie.hands e x)

omit [DecidableEq T] in
theorem booked_init : (init : Rcu T w).Booked := by
  refine ⟨?_, fun x => .inl ⟨(atRest_iff _ x).mpr (.inr ?_), rfl⟩⟩
  · intro e he
    cases he
  cases x with
  | node n => exact Nat.not_lt_zero n
  | box a => exact Nat.not_lt_zero a

theorem Booked.step {a : Action T w} (h : s.Booked) (hs : s.Walks) (ha : s.act a = some s') :
    s'.Booked := by
  have hturn := hs.turn ha
  have hsame : ∀ x, s.given.countP (fun e => s'.trie.hands e x) =
      s.given.countP fun e => s.trie.hands e x := fun x =>
    List.countP_congr fun e he => by rw [hands_gone hturn hs.silent (h.gone e he) x]
  have hquiet : s'.given = s.given → (∀ x, s'.trie.keeps s'.update x ↔ s.trie.keeps s.update x) →
      s'.Booked := by
    intro hg hk
    refine ⟨fun e he => hturn.gone e (h.gone e (hg ▸ he)), fun x => ?_⟩
    rw [hg, hsame]
    exact (h.accounted x).congr (hk x)
  cases stage_act ha with
  | same ht hu hg => exact hquiet hg fun x => by rw [ht, hu]
  | begin hnone ht hu hg =>
    refine hquiet hg fun x => ?_
    rw [keeps_start s'.trie hu, ht, hnone]
    rfl
  | @next pc pc' hpc ho hu hg =>
    have hcons := writer_conserves (hpc ▸ hs.writer)
    rw [ho] at hcons
    refine hquiet hg fun x => ?_
    rw [hu, hpc]
    exact hcons x
  | @retire pc e pc' hpc ho hu hg =>
    have hcons := writer_conserves (hpc ▸ hs.writer)
    have hgone := gone_of_call (hpc ▸ hs.writer) ho
    rw [ho] at hcons
    refine ⟨fun e' he' => ?_, fun x => ?_⟩
    · rw [hg] at he'
      rcases List.mem_cons.mp he' with rfl | he'
      · rw [hgone.1, hu]
        exact hgone.2
      · exact hturn.gone e' (h.gone e' he')
    · have hbooks := h.accounted x
      rw [hpc] at hbooks
      rw [hg, hu, List.countP_cons, hsame]
      exact hbooks.hand (hcons x).1 (hcons x).2
  | @done pc r hpc ho hu hg =>
    have hcons := writer_conserves (hpc ▸ hs.writer)
    rw [ho] at hcons
    refine hquiet hg fun x => ?_
    rw [keeps_start s'.trie hu, hpc]
    exact hcons x

theorem booked_run {r : Nat → Rcu T w} {n : Nat} (h : Run act init r n) : ∀ i ≤ n, (r i).Booked :=
  fun i hi => (h.invariant (P := fun s => s.Booked ∧ s.Walks) ⟨booked_init, walks_init⟩
    (fun _ _ _ hs ha => ⟨hs.1.step hs.2 ha, hs.2.step ha⟩) i hi).1

/-! ### The domain's part -/

/-- The domain of a run has made a run of its own. -/
theorem epoch_run {r : Nat → Rcu T w} {n : Nat} (h : Run act init r n) :
    ∃ r' k, Run EpochSystem.act .init r' k ∧ r' k = (r n).epoch := by
  have hfollows : ∃ r' m, Run EpochSystem.act .init r' (m n) ∧
      Follows (fun s e => s.epoch = e) (fun _ _ => True) r n r' m := by
    refine h.follows rfl fun i _ a y ha hy => ?_
    subst hy
    rcases epoch_act ha with hsame | ⟨τ, x, -, -, hx⟩
    · exact .stay hsame
    · exact .step hx trivial (.stay rfl)
  obtain ⟨r', m, hrun, hm⟩ := hfollows
  exact ⟨r', m n, hrun, (hm.related n le_rfl).symm⟩

/-- Between calls, what the domain has been handed is what it has freed and what its destructor frees. -/
theorem given_count {r : Nat → Rcu T w} {n : Nat} (h : Run act init r n)
    (hidle : ∀ τ, (r n).epoch.pc τ = none) (f : Retired FibEntry → Bool) :
    (r n).given.countP f = ((r n).epoch.dom.freed.map Retiree.payload).countP f +
      ((r n).epoch.dom.destroy.map Retiree.payload).countP f := by
  obtain ⟨r', k, hrun, hk⟩ := epoch_run h
  have hstock : EpochDomain.stock (fun x => if f x.payload then 1 else 0) (r n).epoch.dom = 0 := by
    rw [← hk]
    refine (EpochSystem.balanced_run hrun (fun _ _ => rfl) k le_rfl).idle fun τ => ?_
    rw [hk]
    exact hidle τ
  have hworth : ∀ l : List (Retiree (Retired FibEntry)),
      EpochDomain.worth (fun x => if f x.payload then 1 else 0) l =
        ((l.map Retiree.payload).countP f : ℤ) := by
    intro l
    induction l with
    | nil => rfl
    | cons x l ih =>
      rw [EpochDomain.worth_cons, ih, List.map_cons, List.countP_cons]
      split <;> push_cast <;> ring
  rw [EpochDomain.stock, hworth, hworth, hworth] at hstock
  have hgiven : (r n).given = (r n).epoch.dom.issued.map Retiree.payload := rfl
  rw [hgiven]
  omega

/-! ### The end -/

/-- What `~rcu_fib` and then `~epoch_domain` delete. -/
def teardown (fuel : Nat) (s : Rcu T w) : Option (List (Retired FibEntry)) :=
  (s.trie.destroyed fuel).map fun es => es ++ s.epoch.dom.destroy.map Retiree.payload

theorem placed_idle {position : Option (CallPc w)} {dpc : Option (Pc (Retired FibEntry))}
    (h : Placed .idle position dpc) : position = none ∧ dpc = none := by
  cases h
  exact ⟨rfl, rfl⟩

/-- Whatever readers, writers and reclaiming threads have done, and whether or not threads have ended: once
    all are out of their calls, the two destructors delete exactly what has not been deleted. Over the whole
    life of the table everything that was allocated is deleted once, and nothing else is. -/
theorem torn_down_once {r : Nat → Rcu T w} {n : Nat} (h : Run act init r n)
    (hidle : ∀ τ, (r n).client τ = .idle) :
    ∃ es fuel₀, (∀ fuel > fuel₀, (r n).teardown fuel = some es) ∧ ∀ x : Object,
      (x.Allocated (r n).trie →
        ((r n).epoch.dom.freed.map Retiree.payload ++ es).countP (fun e => (r n).trie.hands e x) = 1) ∧
      (¬ x.Allocated (r n).trie →
        ((r n).epoch.dom.freed.map Retiree.payload ++ es).countP (fun e => (r n).trie.hands e x) = 0) := by
  have hplaced := fun τ => placed_idle (hidle τ ▸ placed_run h n le_rfl τ)
  have hpc : ∀ τ, (r n).epoch.pc τ = none := fun τ => (hplaced τ).2
  have hupdate : (r n).update = none := by
    cases hw : (r n).writer with
    | none =>
      rw [update, hw]
      rfl
    | some x =>
      have hnone := (hplaced x.1).1
      rw [position_eq.mpr hw] at hnone
      cases hnone
  have hwriter := (walks_run h n le_rfl).writer
  rw [hupdate] at hwriter
  obtain ⟨M, hrep⟩ := hwriter
  obtain ⟨es, fuel₀, hes, honce⟩ := destroyed_once hrep
  refine ⟨es ++ (r n).epoch.dom.destroy.map Retiree.payload, fuel₀, fun fuel hfuel => ?_, fun x => ?_⟩
  · rw [teardown, hes fuel hfuel, Option.map_some]
  · have hbooks := (booked_run h n le_rfl).accounted x
    rw [hupdate] at hbooks
    have hend := honce x _ hbooks
    rw [given_count h hpc] at hend
    have hsum : ((r n).epoch.dom.freed.map Retiree.payload ++
        (es ++ (r n).epoch.dom.destroy.map Retiree.payload)).countP (fun e => (r n).trie.hands e x) =
        ((r n).epoch.dom.freed.map Retiree.payload).countP (fun e => (r n).trie.hands e x) +
          ((r n).epoch.dom.destroy.map Retiree.payload).countP (fun e => (r n).trie.hands e x) +
          es.countP fun e => (r n).trie.hands e x := by
      rw [List.countP_append, List.countP_append]
      omega
    rw [hsum]
    rcases hend with ⟨hfree, hzero⟩ | ⟨hnot, hone⟩
    · exact ⟨fun hx => absurd hx hfree, fun _ => hzero⟩
    · exact ⟨fun _ => hone, fun hx => absurd hx hnot⟩

/-- One thread of two stores a route, takes it back, frees what it has retired and stores the route again. -/
def settled : List (Action Bool .ipv4) := List.flatten
  [[.call true (.insert tenSlashEight .zero), .lock true], List.replicate 9 .write,
    [.call true (.erase tenSlashEight), .lock true], List.replicate 3 .write,
    List.replicate 9 (.step true false), List.replicate 5 .write, List.replicate 4 (.step true false),
    List.replicate 3 .write,
    [.domain true .tryReclaim], List.replicate 10 (.step true false),
    [.domain true .tryReclaim], List.replicate 13 (.step true false),
    [.call true (.insert tenSlashEight .zero), .lock true], List.replicate 9 .write]

theorem torn_down_once_settled :
    (play act init settled 73).epoch.dom.freed.map Retiree.payload = [.node 0, .value ⟨0, .zero⟩] ∧
    ∃ es fuel₀, (∀ fuel > fuel₀, (play act init settled 73).teardown fuel = some es) ∧
      ((play act init settled 73).epoch.dom.freed.map Retiree.payload ++ es).countP
        (fun e => (play act init settled 73).trie.hands e (.box 1)) = 1 := by
  have hexec : (exec act (init : Rcu Bool .ipv4) settled).isSome := by rfl
  have hidle : ∀ τ, (play act init settled settled.length).client τ = .idle :=
    Bool.forall_bool.mpr ⟨by rfl, by rfl⟩
  have hboxes : (play act init settled settled.length).trie.nextBox = 2 := by rfl
  obtain ⟨es, fuel₀, hes, honce⟩ := torn_down_once (run_play hexec) hidle
  exact ⟨by rfl, es, fuel₀, hes, (honce (.box 1)).1 (lt_of_lt_of_eq Nat.one_lt_two hboxes.symm)⟩

end Rcu

end RcuFib

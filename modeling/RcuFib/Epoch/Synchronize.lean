import RcuFib.Epoch.Grace

/-! What `synchronize` frees.

    It frees the bags of the thread that calls it and the orphans. What another live thread has
    retired stays in that thread's bags: the objects retired before the call are all freed when it
    returns, provided none of them is then still with another thread. -/

namespace RcuFib

open Trace Tally

variable {T α : Type*}

/-- `take_orphans` has swapped the orphans out. -/
def Pc.swapped : Pc α → Prop
  | .unlockOrphans _ _ _ | .free _ _ .adopted _ _ | .countReclaimed _ _ .adopted _ => True
  | _ => False

namespace EpochDomain
variable {s : EpochDomain T α} {τ : T} {r : Nat} {pc pc' : Pc α}

theorem not_swapped_resume (k : After α) : ¬(s.resume r k).swapped := by
  cases k with
  | task task => cases task <;> exact id
  | _ => exact id

theorem not_swapped_localRecord (k : After α) : ¬(s.localRecord τ k).swapped := by
  unfold localRecord
  split
  · exact not_swapped_resume k
  · exact id

theorem not_swapped_advanced (task : Task) : ¬(s.advanced τ task).swapped := by
  cases task with
  | reclaim => exact not_swapped_localRecord _
  | synchronize =>
    simp only [advanced]
    split
    · exact id
    · exact not_swapped_localRecord _

/-- Freed, or in the batch in hand. -/
def Within (s : EpochDomain T α) (pc : Pc α) (b : Nat) : Prop :=
  (∃ x ∈ s.freed, x.stamp = b) ∨ ∃ x ∈ pc.adopted, x.stamp = b

/-- What a step of `synchronize` does with the batch it has adopted. -/
structure Draining (s : EpochDomain T α) (pc : Pc α) (x : EpochDomain T α × Option (Pc α)) : Prop where
  goes : ∀ pc' ∈ x.2, pc'.swapped → (∃ task r, pc = .swapOrphans task r) ∧ pc'.adopted = s.orphans ∨
    pc.swapped ∧ ∀ y ∈ pc.adopted, y ∈ pc'.adopted ∨ y ∈ x.1.freed
  returns : x.2 = none → pc.swapped ∧ pc.adopted = []

theorem Draining.skip {s' : EpochDomain T α} (hn : ¬pc'.swapped) : s.Draining pc (s', some pc') :=
  ⟨fun _ hp hs => by cases hp; exact absurd hs hn, nofun⟩

theorem Draining.drain {s' : EpochDomain T α} (hw : pc.swapped)
    (h : ∀ y ∈ pc.adopted, y ∈ pc'.adopted ∨ y ∈ s'.freed) : s.Draining pc (s', some pc') :=
  ⟨fun _ hp _ => by cases hp; exact .inr ⟨hw, h⟩, nofun⟩

theorem Draining.done {s' : EpochDomain T α} (hs : pc.swapped) (ha : pc.adopted = []) :
    s.Draining pc (s', none) :=
  ⟨nofun, fun _ => ⟨hs, ha⟩⟩

theorem Draining.afterFree {s' : EpochDomain T α} {task : Task} {source : Source}
    (hs : source = .adopted → pc.swapped) (ha : source = .adopted → pc.adopted = []) :
    s.Draining pc (s'.afterFree r task source) := by
  cases source with
  | adopted => exact .done (hs rfl) (ha rfl)
  | bag k =>
    cases task with
    | reclaim => exact .skip id
    | synchronize =>
      refine .skip ?_
      split <;> exact id

variable [DecidableEq T]

theorem draining_free {task : Task} {source : Source} {bag : List (Retiree α)} {i : Nat}
    {weak : Bool} : s.Draining (.free task r source bag i)
      (s.step τ weak (.free task r source bag i)) := by
  simp only [step]
  split
  · next x hx =>
    cases source with
    | bag => exact .skip id
    | adopted =>
      refine .drain trivial fun y hy => ?_
      obtain ⟨hi, rfl⟩ := List.getElem?_eq_some_iff.mp hx
      simp only [Pc.adopted, List.drop_eq_getElem_cons hi] at hy ⊢
      rcases List.mem_cons.mp hy with rfl | hy
      · exact .inr (List.mem_cons_self ..)
      · exact .inl hy
  · next hx =>
    have hempty : source = .adopted → (Pc.free task r source bag i).adopted = [] := by
      rintro rfl
      exact List.drop_eq_nil_of_le (List.getElem?_eq_none_iff.mp hx)
    split
    · cases source with
      | bag => exact .skip id
      | adopted =>
        refine .drain trivial fun y hy => ?_
        rw [hempty rfl] at hy
        cases hy
    · exact .afterFree (by rintro rfl; trivial) hempty

theorem draining_step (s : EpochDomain T α) (τ : T) (weak : Bool) {before : List Nat}
    (hb : pc.before = some before) : s.Draining pc (s.step τ weak pc) := by
  cases pc with
  | loadRecords | newRecord | tryAdvance | scanHead => exact .skip id
  | claim k cs =>
    cases cs with
    | nil => exact .skip id
    | cons c rest =>
      simp only [step]
      split
      · exact .skip id
      · exact .skip (not_swapped_resume k)
  | publish => simp only [step]; split <;> exact .skip id
  | countThread k r => exact .skip (not_swapped_resume k)
  | scan task e rest =>
    cases rest with
    | nil =>
      simp only [step]
      split
      · exact .skip id
      · exact .skip (not_swapped_advanced task)
    | cons c rest =>
      simp only [step]
      split
      · exact .skip id
      · split <;> exact .skip id
  | countFailed task =>
    cases task with
    | reclaim => exact absurd hb Task.not_before
    | synchronize => exact .skip id
  | countAdvance task => exact .skip (not_swapped_advanced task)
  | free => exact draining_free
  | countReclaimed task r source count =>
    exact .afterFree (by rintro rfl; trivial) (by rintro rfl; rfl)
  | lockOrphans => simp only [step]; split <;> exact .skip id
  | swapOrphans task r =>
    refine ⟨fun pc' hp _ => .inl ⟨⟨task, r, rfl⟩, ?_⟩, nofun⟩
    cases hp
    rfl
  | unlockOrphans task r adopted =>
    simp only [step]
    split
    · next he => exact .done trivial (List.isEmpty_iff.mp he)
    · exact .drain trivial fun y hy => .inl hy
  | reclaimEpoch => exact absurd hb Task.not_before
  | _ => cases hb

end EpochDomain

namespace EpochSystem
variable [DecidableEq T] {s s' : EpochSystem T α} {a : Action T α} {r : Nat → EpochSystem T α}
  {n : Nat}

/-- The object is still with a thread other than `τ`: in one of its bags or in a batch it frees. -/
def Elsewhere (s : EpochSystem T α) (τ : T) (x : Retiree α) : Prop :=
  (∃ r k, s.dom.slot τ ≠ some r ∧ x ∈ (s.dom.record r).bags k ∧ x ∉ s.dom.freed) ∨
    ∃ σ pc, σ ≠ τ ∧ s.pc σ = some pc ∧ x ∈ pc.adopted

/-- If the action adopts the orphans for `synchronize`, no other thread keeps an object that was
    retired before that call. -/
def Sole (s : EpochSystem T α) : Action T α → Prop
  | .call _ _ => True
  | .step τ _ => ∀ before rotation r, s.pc τ = some (.swapOrphans (.synchronize before rotation) r) →
      ∀ x, x.stamp ∈ before → ¬s.Elsewhere τ x

/-- Where a retired object is once its `retire` call has returned. -/
theorem whereabouts (h : Run act init r n) {b : Nat} (hb : b ∈ (r n).dom.completed) :
    ∃ x, x.stamp = b ∧ (x ∈ (r n).dom.freed ∨ x ∈ (r n).dom.destroy ∨
      ∃ σ pc, (r n).pc σ = some pc ∧ x ∈ pc.adopted) := by
  classical
  have hbooks := balanced_run h (f := fun x => if x.stamp ≠ b then 0 else 1) (fun _ _ => rfl) n le_rfl
  by_contra hno
  have hnot : ∀ x, x.stamp = b → x ∉ (r n).dom.freed ∧ x ∉ (r n).dom.destroy ∧
      ∀ σ pc, (r n).pc σ = some pc → x ∉ pc.adopted := fun x hx =>
    ⟨fun hf => hno ⟨x, hx, .inl hf⟩, fun hd => hno ⟨x, hx, .inr (.inl hd)⟩,
      fun σ pc hpc ha => hno ⟨x, hx, .inr (.inr ⟨σ, pc, hpc, ha⟩)⟩⟩
  have hcalls := calls_run h n le_rfl
  -- the object is on the books, so some thread has it in hand
  have hissued : 0 < EpochDomain.worth (fun x => if x.stamp ≠ b then 0 else 1) (r n).dom.issued := by
    obtain ⟨x, hx, hxb⟩ := (numbered_run h n le_rfl).all b (hcalls.completed_lt b hb)
    refine lt_of_le_of_ne (EpochDomain.worth_nonneg _) fun hz => ?_
    exact EpochDomain.worth_eq_zero.mp hz.symm x hx hxb
  have hstock : 0 < (r n).dom.stock fun x => if x.stamp ≠ b then 0 else 1 := by
    have hfreed : EpochDomain.worth (fun x => if x.stamp ≠ b then 0 else 1) (r n).dom.freed = 0 :=
      EpochDomain.worth_eq_zero.mpr fun x hx hxb => (hnot x hxb).1 hx
    have hdestroy : EpochDomain.worth (fun x => if x.stamp ≠ b then 0 else 1) (r n).dom.destroy = 0 :=
      EpochDomain.worth_eq_zero.mpr fun x hx hxb => (hnot x hxb).2.1 hx
    rw [EpochDomain.stock, hfreed, hdestroy]
    omega
  obtain ⟨σ, pc, hpc, hshare⟩ := hbooks.debtor hstock
  have hpassed := EpochDomain.worth_nonneg (P := fun x => x.stamp ≠ b) pc.passed
  obtain ⟨x, hx, hxb⟩ : ∃ x ∈ pc.held, x.stamp = b := by
    by_contra hnone
    have hheld : EpochDomain.worth (fun x => if x.stamp ≠ b then 0 else 1) pc.held = 0 :=
      EpochDomain.worth_eq_zero.mpr fun x hx hxb => hnone ⟨x, hx, hxb⟩
    rw [EpochDomain.share, hheld] at hshare
    omega
  rcases Pc.held_cases hx with hadopted | hnumber
  · exact (hnot x hxb).2.2 σ pc hpc hadopted
  · exact (hcalls.number σ pc b hpc (hxb ▸ hnumber)).2 hb

theorem logs_act (h : act s a = some s') : (∀ b ∈ s.dom.completed, b ∈ s'.dom.completed) ∧
    ∀ x ∈ s.dom.freed, x ∈ s'.dom.freed := by
  refine ⟨fun b hb => ?_, fun x hx => ?_⟩
  · obtain ⟨τ, x, rfl, ⟨c, -, -, hc⟩ | ⟨weak, pc, -, -, rfl⟩⟩ := act_cases h
    · rw [(EpochDomain.called hc).completed]
      exact hb
    · have hnoted := s.dom.noted_step τ weak pc
      cases hx : (s.dom.step τ weak pc).2 with
      | none =>
        rw [hnoted.returns hx]
        exact List.mem_append_right _ hb
      | some pc' =>
        rw [(hnoted.goes pc' hx).2]
        exact hb
  · rcases freed_act h with he | ⟨-, -, y, -, -, he⟩
    · rw [he]; exact hx
    · rw [he]; exact List.mem_cons_of_mem _ hx

/-- The call of `synchronize` that waits for the calls `before`, from its start to its end. -/
structure Syncing (s : EpochSystem T α) (τ : T) (before : List Nat) (pc : Pc α) : Prop where
  at_pc : s.pc τ = some pc
  waits : pc.before = some before
  completed : ∀ b ∈ before, b ∈ s.dom.completed
  within : pc.swapped → ∀ b ∈ before, s.dom.Within pc b

/-- At the swap everything retired before the call is freed or among the orphans. -/
theorem swap_within (h : Run act init r n) {τ : T} {before : List Nat} {task : Task} {rec : Nat}
    (hs : (r n).Syncing τ before (.swapOrphans task rec))
    (hsole : ∀ x, x.stamp ∈ before → ¬(r n).Elsewhere τ x) {b : Nat} (hb : b ∈ before) :
    (∃ x ∈ (r n).dom.freed, x.stamp = b) ∨ ∃ x ∈ (r n).dom.orphans, x.stamp = b := by
  obtain ⟨x, hxb, hx⟩ := whereabouts h (hs.completed b hb)
  have hnot := hsole x (hxb ▸ hb)
  have hinv := inv_run h n le_rfl
  obtain ⟨hslot, -, hempty⟩ := hinv.ok τ _ hs.at_pc
  rcases hx with hfreed | hdestroy | ⟨σ, pc, hpc, hadopted⟩
  · exact .inl ⟨x, hfreed, hxb⟩
  · rcases List.mem_append.mp hdestroy with hbag | horphan
    · obtain ⟨r', hr', hbag⟩ := List.mem_flatMap.mp hbag
      obtain ⟨k, -, hk⟩ := List.mem_flatMap.mp hbag
      rcases eq_or_ne r' rec with rfl | hne
      · -- the bags of the thread itself are empty by now
        cases task with
        | reclaim => exact absurd hs.waits Task.not_before
        | synchronize before' rotation =>
          rw [hempty k] at hk
          cases hk
      · by_cases hf : x ∈ (r n).dom.freed
        · exact .inl ⟨x, hf, hxb⟩
        · refine absurd (.inl ⟨r', k, fun he => ?_, hk, hf⟩) hnot
          rw [hslot] at he
          exact hne (Option.some.inj he).symm
    · exact .inr ⟨x, horphan, hxb⟩
  · rcases eq_or_ne σ τ with rfl | hσ
    · rw [hs.at_pc] at hpc
      cases hpc
      cases hadopted
    · exact absurd (.inr ⟨σ, pc, hσ, hpc, hadopted⟩) hnot

theorem syncing_step (h : Run act init r n) {τ : T} {before : List Nat} {pc : Pc α}
    (hs : (r n).Syncing τ before pc) (ha : act (r n) a = some s') (hsole : (r n).Sole a)
    (hbusy : s'.pc τ ≠ none) : ∃ pc', s'.Syncing τ before pc' := by
  obtain ⟨hcompleted, hfreed⟩ := logs_act ha
  have hwithin : ∀ {b}, (r n).dom.Within pc b → s'.dom.Within pc b := by
    rintro b (⟨x, hx, hxb⟩ | hadopted)
    · exact .inl ⟨x, hfreed x hx, hxb⟩
    · exact .inr hadopted
  have hother : ∀ {σ} {x : EpochDomain T α × Option (Pc α)}, s' = ⟨x.1, Function.update (r n).pc σ x.2⟩ → τ ≠ σ →
      ∃ pc', s'.Syncing τ before pc' := by
    rintro σ x rfl hσ
    refine ⟨pc, ?_, hs.waits, fun b hb => hcompleted b (hs.completed b hb),
      fun hsw b hb => hwithin (hs.within hsw b hb)⟩
    simp only [Function.update_of_ne hσ]
    exact hs.at_pc
  obtain ⟨σ, x, rfl, ⟨c, -, hidle, -⟩ | ⟨weak, pc', rfl, hpc', rfl⟩⟩ := act_cases ha
  · refine hother rfl ?_
    rintro rfl
    rw [hs.at_pc] at hidle
    cases hidle
  · rcases eq_or_ne τ σ with rfl | hσ
    · obtain rfl := Option.some.inj (hs.at_pc.symm.trans hpc')
      simp only [Function.update_self] at hbusy
      obtain ⟨next, hnext⟩ := Option.ne_none_iff_exists'.mp hbusy
      have hdrain := (r n).dom.draining_step τ weak hs.waits
      have hbefore : next.before = pc.before :=
        congrArg Kind.before (((r n).dom.noted_step τ weak pc).goes next hnext).1
      refine ⟨next, by simp only [Function.update_self]; exact hnext, hbefore.trans hs.waits,
        fun b hb => hcompleted b (hs.completed b hb), fun hsw b hb => ?_⟩
      rcases hdrain.goes next hnext hsw with ⟨⟨task, rec, rfl⟩, horphans⟩ | ⟨hsw', hkept⟩
      · have hnow := swap_within h hs (fun x hx => ?_) hb
        · rcases hnow with ⟨x, hx, hxb⟩ | ⟨x, hx, hxb⟩
          · exact .inl ⟨x, hfreed x hx, hxb⟩
          · exact .inr ⟨x, horphans ▸ hx, hxb⟩
        · cases task with
          | reclaim => exact absurd hs.waits Task.not_before
          | synchronize before' rotation =>
            obtain rfl := Option.some.inj hs.waits
            exact hsole before' rotation rec hs.at_pc x hx
      · rcases hs.within hsw' b hb with ⟨x, hx, hxb⟩ | ⟨x, hx, hxb⟩
        · exact .inl ⟨x, hfreed x hx, hxb⟩
        · rcases hkept x hx with hx | hx
          · exact .inr ⟨x, hx, hxb⟩
          · exact .inl ⟨x, hx, hxb⟩
    · exact hother rfl hσ

/-- When a call of `synchronize` returns, what was retired before it began has been freed, as long as
    no other thread kept any of it past the adoption of the orphans. -/
theorem synchronize_frees (h : Run act init r n)
    (hsole : ∀ m < n, ∃ a, act (r m) a = some (r (m + 1)) ∧ (r m).Sole a)
    {τ : T} {i j : Nat} (hij : i < j) (hj : j < n)
    (hcall : act (r i) (.call τ .synchronize) = some (r (i + 1)))
    (hbusy : ∀ m, i < m → m ≤ j → (r m).pc τ ≠ none) (hreturn : (r (j + 1)).pc τ = none) :
    ∀ b ∈ (r i).dom.completed, ∃ x ∈ (r (j + 1)).dom.freed, x.stamp = b := by
  have hrun : ∀ m ≤ n, Run act init r m := fun m hm =>
    ⟨h.start, fun k hk => h.step k (hk.trans_le hm)⟩
  have hstart : ∃ pc, (r (i + 1)).Syncing τ (r i).dom.completed pc := by
    obtain ⟨σ, x, he, ⟨c, hact, -, hc⟩ | ⟨weak, pc, hact, -, -⟩⟩ := act_cases hcall
    · cases hact
      cases hc
      refine ⟨.tryAdvance (.synchronize (r i).dom.completed 0), ?_, rfl, (logs_act hcall).1, nofun⟩
      rw [he]
      simp only [Function.update_self]
    · cases hact
  have hsyncing : ∀ m, i + 1 ≤ m → m ≤ j → ∃ pc, (r m).Syncing τ (r i).dom.completed pc := by
    intro m hm
    induction m, hm using Nat.le_induction with
    | base => exact fun _ => hstart
    | succ m hm ih =>
      intro hmj
      obtain ⟨pc, hs⟩ := ih (Nat.le_of_succ_le hmj)
      obtain ⟨a, ha, hsole⟩ := hsole m (by omega)
      exact syncing_step (hrun m (by omega)) hs ha hsole (hbusy (m + 1) (by omega) hmj)
  obtain ⟨pc, hs⟩ := hsyncing j hij le_rfl
  obtain ⟨a, ha⟩ := h.step j hj
  intro b hb
  obtain ⟨σ, x, he, ⟨c, -, hidle, -⟩ | ⟨weak, pc', -, hpc', rfl⟩⟩ := act_cases ha
  · rw [he] at hreturn
    rcases eq_or_ne τ σ with rfl | hσ
    · rw [hs.at_pc] at hidle
      cases hidle
    · simp only [Function.update_of_ne hσ, hs.at_pc] at hreturn
      cases hreturn
  · have hpc := hreturn
    rw [he] at hpc
    rcases eq_or_ne τ σ with rfl | hσ
    · obtain rfl := Option.some.inj (hs.at_pc.symm.trans hpc')
      simp only [Function.update_self] at hpc
      obtain ⟨hsw, hempty⟩ := ((r j).dom.draining_step τ weak hs.waits).returns hpc
      rcases hs.within hsw b hb with ⟨x, hx, hxb⟩ | ⟨x, hx, -⟩
      · exact ⟨x, (logs_act ha).2 x hx, hxb⟩
      · rw [hempty] at hx
        cases hx
    · simp only [Function.update_of_ne hσ, hs.at_pc] at hpc
      cases hpc

/-- A thread retires an object and ends; another synchronizes. -/
def lateSynchronize : List (Action Bool Nat) :=
  .call false (.retire (some 7)) :: List.replicate 9 (.step false false) ++
    .call false .exit :: List.replicate 7 (.step false false) ++
    .call true .synchronize :: List.replicate 31 (.step true false)

theorem synchronize_frees_late : 0 ∈ (play act init lateSynchronize 18).dom.completed ∧
    ∀ b ∈ (play act init lateSynchronize 18).dom.completed,
      ∃ x ∈ (play act init lateSynchronize 50).dom.freed, x.stamp = b := by
  have hstep : ∀ m (hm : m < lateSynchronize.length), act (play act init lateSynchronize m)
      lateSynchronize[m] = some (play act init lateSynchronize (m + 1)) :=
    fun m hm => act_play (by rfl) hm
  -- at the swap the orphan is the only object anywhere
  have hswap : ∀ x, ¬(play act init lateSynchronize 45).Elsewhere true x := by
    rintro x (⟨r, k, hr, hx, -⟩ | ⟨σ, pc, hσ, hpc, -⟩)
    · rcases r with _ | r
      · exact hr rfl
      · cases hx
    · rcases σ with _ | _
      · cases hpc
      · exact hσ rfl
  have hsole : ∀ m (hm : m < lateSynchronize.length),
      (play act init lateSynchronize m).Sole lateSynchronize[m] := by
    intro m hm
    have hlt : m < 50 := hm
    rcases eq_or_ne m 45 with rfl | hne
    · exact fun _ _ _ _ x _ => hswap x
    · interval_cases m <;> first | exact trivial | exact absurd rfl hne | exact nofun
  have hbusy : ∀ m < 50, 18 < m → ((play act init lateSynchronize m).pc true).isSome := by
    decide +kernel
  refine ⟨by decide, ?_⟩
  refine synchronize_frees (run_play (by rfl)) (fun m hm => ⟨_, hstep m hm, hsole m hm⟩)
    (i := 18) (j := 49) (τ := true) (by decide) (by decide) (hstep 18 (by decide)) ?_ rfl
  exact fun m h₁ h₂ => Option.isSome_iff_ne_none.mp (hbusy m (Nat.lt_succ_of_le h₂) h₁)

/-- A thread retires an object and lives on; another synchronizes, and the object is still there. -/
def earlySynchronize : List (Action Bool Nat) :=
  .call false (.retire (some 7)) :: List.replicate 9 (.step false false) ++
    .call true .synchronize :: List.replicate 32 (.step true false)

theorem synchronize_leaves : Run act init (play act init earlySynchronize) 43 ∧
    act (play act init earlySynchronize 10) (.call true .synchronize) =
      some (play act init earlySynchronize 11) ∧
    (∀ m, 10 < m → m ≤ 42 → (play act init earlySynchronize m).pc true ≠ none) ∧
    (play act init earlySynchronize 43).pc true = none ∧
    0 ∈ (play act init earlySynchronize 10).dom.completed ∧
    (play act init earlySynchronize 43).dom.freed = [] := by
  have hrun : Run act init (play act init earlySynchronize) earlySynchronize.length :=
    run_play (by rfl)
  have hbusy : ∀ m < 43, 10 < m → ((play act init earlySynchronize m).pc true).isSome := by
    decide +kernel
  refine ⟨hrun, by rfl, ?_, by rfl, by decide, by rfl⟩
  exact fun m h₁ h₂ => Option.isSome_iff_ne_none.mp (hbusy m (Nat.lt_succ_of_le h₂) h₁)

end EpochSystem

end RcuFib

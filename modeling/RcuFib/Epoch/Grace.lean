import RcuFib.Epoch.Ledger
import Mathlib.Tactic.IntervalCases

/-! When a deleter runs.

    `free_bag` on a bag of the thread's own frees what no reader can see. `take_orphans` frees
    whatever it finds, and an orphan may have been retired a moment ago: in the runs where every batch
    it adopts has been through a grace period, no deleter runs under a guard that is older than the
    retirement. -/

namespace RcuFib

open Trace Tally

variable {T α : Type*}

namespace EpochDomain
variable {s s' : EpochDomain T α} {τ : T} {r : Nat} {x : Retiree α} {pc : Pc α}

/-- A grace period has passed since the object was retired: the epoch has advanced twice, or every
    thread that is pinned announced a later one. -/
def Covered (s : EpochDomain T α) (x : Retiree α) : Prop :=
  x.tag + 2 ≤ s.globalEpoch ∨ ∀ r a, (s.record r).state = some a → x.tag < a

theorem Covered.safe (hc : s.Covered x) (h : s.Inv) (hx : s.Settled x) : s.Safe x := by
  rcases hc with hadv | hlater
  · exact hx.safe h hadv
  · exact hx.safe_of_later h hlater

theorem mem_destroy {k : Fin 3} (hr : r ∈ s.records) (hx : x ∈ (s.record r).bags k) :
    x ∈ s.destroy := by
  refine List.mem_append_left _ (List.mem_flatMap.mpr ⟨r, hr, ?_⟩)
  exact List.mem_flatMap.mpr ⟨k, List.mem_finRange k, hx⟩

/-- The next object to free is from an adopted batch, or waits in a bag and is safe to free. -/
theorem next_cases (h : s.Inv) (hok : s.Ok τ pc) (hx : pc.next = some x) :
    x ∈ pc.adopted ∨ x ∈ s.destroy ∧ s.Safe x := by
  cases pc with
  | free task r source bag i =>
    obtain ⟨hs, hbag, -⟩ := hok
    obtain ⟨hi, rfl⟩ := List.getElem?_eq_some_iff.mp hx
    have hdrop : bag[i] ∈ bag.drop i := by
      rw [List.drop_eq_getElem_cons hi]
      exact List.mem_cons_self ..
    cases source with
    | adopted => exact .inl hdrop
    | bag k =>
      obtain ⟨rfl, hsafe, -⟩ := hbag k rfl
      exact .inr ⟨mem_destroy (h.slot τ r hs).2 (List.getElem_mem hi), hsafe _ hdrop⟩
  | _ => cases hx

theorem adopted_held (hx : x ∈ pc.adopted) : x ∈ pc.held := by
  cases pc with
  | unlockOrphans => exact hx
  | free task r source bag i => cases source <;> exact hx
  | _ => cases hx

theorem passed_freed (hok : s.Ok τ pc) (hx : x ∈ pc.passed) : x ∈ s.freed := by
  cases pc with
  | free task r source bag i =>
    cases source with
    | bag k => exact (hok.2.1 k rfl).2.2 x hx
    | adopted => cases hx
  | _ => cases hx

/-! ### What is freed has been retired -/

/-- The object is one of those handed to `retire`, up to its tag. -/
def Known (s : EpochDomain T α) (x : Retiree α) : Prop :=
  ∃ y ∈ s.issued, y.stamp = x.stamp ∧ y.born = x.born

theorem Known.mono (hi : ∀ y ∈ s.issued, y ∈ s'.issued) (h : s.Known x) : s'.Known x := by
  obtain ⟨y, hy, hyx⟩ := h
  exact ⟨y, hi y hy, hyx⟩

section count
variable {P : Retiree α → Prop} [DecidablePred P]

theorem worth_nonneg (l : List (Retiree α)) : 0 ≤ worth (fun x => if P x then 0 else 1) l := by
  induction l with
  | nil => simp
  | cons x l ih =>
    rw [worth_cons]
    split <;> omega

theorem worth_eq_zero {l : List (Retiree α)} :
    worth (fun x => if P x then 0 else 1) l = 0 ↔ ∀ x ∈ l, P x := by
  induction l with
  | nil => simp
  | cons x l ih =>
    have hl := worth_nonneg (P := P) l
    rw [worth_cons, List.forall_mem_cons, ← ih]
    split
    · next hx => simp [hx]
    · next hx =>
      refine ⟨fun h => by omega, fun h => absurd h.1 hx⟩

end count

end EpochDomain

namespace EpochSystem
variable [DecidableEq T] {s s' : EpochSystem T α} {a : Action T α} {r : Nat → EpochSystem T α}
  {n : Nat}

/-- `P` holds of everything freed, kept in the domain or in the hands of its threads. -/
structure Throughout (s : EpochSystem T α) (P : Retiree α → Prop) : Prop where
  freed : ∀ x ∈ s.dom.freed, P x
  destroy : ∀ x ∈ s.dom.destroy, P x
  held : ∀ τ pc, s.pc τ = some pc → ∀ x ∈ pc.held, P x

section throughout
variable {P P' : Retiree α → Prop}

/-- By the books, a step that frees only objects with `P'` leaves only such objects. -/
theorem Throughout.after {τ : T} {x : EpochDomain T α × Option (Pc α)} (hk : s.Throughout P)
    (h : s.Inv) (hok : s.dom.StepOk τ x) (hmono : ∀ y, P y → P' y)
    (htag : ∀ (y : Retiree α) e, P' { y with tag := e } ↔ P' y) (hold : ∀ y ∈ s.dom.issued, P y)
    (hissued : ∀ y ∈ x.1.issued, P' y) (hfreed : ∀ y ∈ x.1.freed, P' y)
    (htally : ∀ f : Retiree α → ℤ, (∀ y e, f { y with tag := e } = f y) →
      x.1.stock f + shareOf (EpochDomain.share f) x.2 =
        s.dom.stock f + shareOf (EpochDomain.share f) (s.pc τ)) :
    Throughout (⟨x.1, Function.update s.pc τ x.2⟩ : EpochSystem T α) P' := by
  classical
  have hzero : ∀ {l : List (Retiree α)}, (∀ y ∈ l, P' y) →
      EpochDomain.worth (fun y => if P' y then 0 else 1) l = 0 :=
    EpochDomain.worth_eq_zero.mpr
  have hbefore : shareOf (EpochDomain.share fun y => if P' y then (0 : ℤ) else 1) (s.pc τ) = 0 := by
    cases hpc : s.pc τ with
    | none => rfl
    | some pc =>
      rw [shareOf_some, EpochDomain.share, hzero fun y hy => ?_, hzero fun y hy => ?_, sub_zero]
      · exact hmono y (hk.held τ pc hpc y hy)
      · exact hmono y (hk.freed y (EpochDomain.passed_freed (h.ok τ pc hpc) hy))
  have hafter : shareOf (EpochDomain.share fun y => if P' y then (0 : ℤ) else 1) x.2 =
      -shareOf (fun pc => EpochDomain.worth (fun y => if P' y then 0 else 1) pc.held) x.2 := by
    cases hx : x.2 with
    | none => rfl
    | some pc =>
      rw [shareOf_some, shareOf_some, EpochDomain.share, hzero fun y hy => ?_, zero_sub]
      exact hfreed y (EpochDomain.passed_freed (hok.2 pc hx) hy)
  have hbooks := htally (fun y => if P' y then 0 else 1) fun y e => by simp only [htag]
  simp only [EpochDomain.stock] at hbooks
  rw [hbefore, hafter, hzero hissued, hzero hfreed, hzero fun y hy => hmono y (hold y hy),
    hzero fun y hy => hmono y (hk.freed y hy),
    hzero fun y hy => hmono y (hk.destroy y hy)] at hbooks
  have hdestroy := EpochDomain.worth_nonneg (P := P') x.1.destroy
  have hheld : 0 ≤ shareOf (fun pc : Pc α =>
      EpochDomain.worth (fun y => if P' y then 0 else 1) pc.held) x.2 := by
    cases x.2 with
    | none => exact le_rfl
    | some pc => exact EpochDomain.worth_nonneg _
  have hd : EpochDomain.worth (fun y => if P' y then 0 else 1) x.1.destroy = 0 := by omega
  refine ⟨hfreed, EpochDomain.worth_eq_zero.mp hd, fun σ pc hpc y hy => ?_⟩
  rcases eq_or_ne σ τ with rfl | hσ
  · simp only [Function.update_self] at hpc
    rw [hpc, shareOf_some] at hbooks hheld
    have hp : EpochDomain.worth (fun y => if P' y then 0 else 1) pc.held = 0 := by omega
    exact EpochDomain.worth_eq_zero.mp hp y hy
  · simp only [Function.update_of_ne hσ] at hpc
    exact hmono y (hk.held σ pc hpc y hy)

theorem throughout_act (hk : s.Throughout P) (h : s.Inv) (ha : act s a = some s')
    (hmono : ∀ y, P y → P' y) (htag : ∀ (y : Retiree α) e, P' { y with tag := e } ↔ P' y)
    (hold : ∀ y ∈ s.dom.issued, P y) (hissued : ∀ y ∈ s'.dom.issued, P' y) :
    s'.Throughout P' := by
  obtain ⟨τ, x, rfl, ⟨c, -, hpc, hc⟩ | ⟨weak, pc, -, hpc, rfl⟩⟩ := act_cases ha
  · have hcalled := EpochDomain.called hc
    refine hk.after h (EpochDomain.call_ok h.dom hc) hmono htag hold hissued (fun y hy => ?_)
      fun f _ => ?_
    · rw [hcalled.freed] at hy
      exact hmono y (hk.freed y hy)
    · rw [hpc]
      exact EpochDomain.tally_call hc
  · have hok := h.ok τ pc hpc
    refine hk.after h (EpochDomain.step_ok h.dom hok) hmono htag hold hissued (fun y hy => ?_)
      fun f hf => ?_
    · -- the object just freed comes from an adopted batch or from a bag
      rcases (s.dom.noted_step τ weak pc).freed with he | ⟨z, hz, he⟩
      · rw [he] at hy
        exact hmono y (hk.freed y hy)
      · rw [he] at hy
        rcases List.mem_cons.mp hy with rfl | hy
        · rcases EpochDomain.next_cases h.dom hok hz with ha | ⟨hd, -⟩
          · exact hmono y (hk.held τ pc hpc y (EpochDomain.adopted_held ha))
          · exact hmono y (hk.destroy y hd)
        · exact hmono y (hk.freed y hy)
    · rw [hpc]
      exact EpochDomain.tally_step hf h.dom hok

end throughout

theorem issued_mono (ha : act s a = some s') : ∀ y ∈ s.dom.issued, y ∈ s'.dom.issued := by
  intro y hy
  rcases issued_act ha with he | ⟨p, he⟩
  · rw [he]; exact hy
  · rw [he]; exact List.mem_cons_of_mem _ hy

/-- Only known objects are about. -/
theorem known_run (h : Run act init r n) : ∀ i ≤ n, (r i).Throughout (r i).dom.Known := by
  refine fun i hi => (h.invariant (P := fun s => s.Inv ∧ s.Throughout s.dom.Known)
    ⟨inv_init, nofun, nofun, nofun⟩ (fun s a s' hs ha => ⟨inv_act hs.1 ha, ?_⟩) i hi).2
  exact throughout_act hs.2 hs.1 ha (fun _ hy => hy.mono (issued_mono ha)) (fun _ _ => .rfl)
    (fun y hy => ⟨y, hy, rfl, rfl⟩) fun y hy => ⟨y, hy, rfl, rfl⟩

/-! ### Grace periods -/

/-- If the action adopts the orphans, each has been through its grace period. -/
def Graced (s : EpochSystem T α) : Action T α → Prop
  | .call _ _ => True
  | .step τ _ => ∀ task r, s.pc τ = some (.swapOrphans task r) →
      ∀ x ∈ s.dom.orphans, s.dom.Covered x

/-- What has been adopted is safe to free. -/
def Cleared (s : EpochSystem T α) : Prop :=
  ∀ τ pc, s.pc τ = some pc → ∀ x ∈ pc.adopted, s.dom.Safe x

theorem cleared_act (h : s.Inv) (hc : s.Cleared) (hg : s.Graced a) (ha : act s a = some s') :
    s'.Cleared := by
  intro σ pc' hpc' y hy
  obtain ⟨τ, x, rfl, ⟨c, -, hpc, hcall⟩ | ⟨weak, pc, rfl, hpc, rfl⟩⟩ := act_cases ha
  · have hkeeps := (EpochDomain.call_ok h.dom hcall).1.keeps
    rcases eq_or_ne σ τ with rfl | hσ
    · simp only [Function.update_self] at hpc'
      rw [(EpochDomain.called hcall).adopted pc' hpc'] at hy
      cases hy
    · simp only [Function.update_of_ne hσ] at hpc'
      exact hkeeps.safe y (hc σ pc' hpc' y hy)
  · have hkeeps : s.dom.Keeps (s.dom.step τ weak pc).1 :=
      (EpochDomain.step_ok h.dom (h.ok τ pc hpc)).1.keeps
    refine hkeeps.safe y ?_
    rcases eq_or_ne σ τ with rfl | hσ
    · simp only [Function.update_self] at hpc'
      rcases (s.dom.noted_step σ weak pc).adopted pc' hpc' y hy with hold | ⟨⟨task, r, rfl⟩, ho⟩
      · exact hc σ pc hpc y hold
      · exact (hg task r hpc y ho).safe h.dom (h.dom.orphans y ho)
    · simp only [Function.update_of_ne hσ] at hpc'
      exact hc σ pc' hpc' y hy

theorem cleared_run (h : Run act init r n)
    (hgrace : ∀ m < n, ∃ a, act (r m) a = some (r (m + 1)) ∧ (r m).Graced a) :
    ∀ i ≤ n, (r i).Cleared
  | 0, _ => by rw [h.start]; exact nofun
  | i + 1, hi => by
    obtain ⟨a, ha, hg⟩ := hgrace i hi
    exact cleared_act (inv_run h i (Nat.le_of_succ_le hi))
      (cleared_run h hgrace i (Nat.le_of_succ_le hi)) hg ha

/-- In a run that adopts no orphan before its grace period is over, a deleter runs under no guard
    that was open when the retirement of its object began. -/
theorem freed_after_guards (h : Run act init r n)
    (hgrace : ∀ m < n, ∃ a, act (r m) a = some (r (m + 1)) ∧ (r m).Graced a)
    {i j : Nat} (hij : i < j) (hj : j < n) {x y : Retiree α}
    (hretire : (r (i + 1)).dom.issued = x :: (r i).dom.issued)
    (hfree : (r (j + 1)).dom.freed = y :: (r j).dom.freed) (hxy : y.stamp = x.stamp) :
    ∀ σ, ∀ g ∈ (r i).dom.guards σ, g ∉ (r j).dom.guards σ := by
  intro σ g hg hg'
  have hinv := inv_run h
  have hsafe : (r j).dom.Safe y := by
    obtain ⟨a, ha⟩ := h.step j hj
    rcases freed_act ha with he | ⟨τ, pc, z, hpc, hz, he⟩
    · rw [he] at hfree
      exact absurd hfree (List.cons_ne_self _ _).symm
    · rw [he] at hfree
      obtain ⟨rfl, -⟩ := List.cons.inj hfree
      rcases EpochDomain.next_cases (hinv j hj.le).dom ((hinv j hj.le).ok τ pc hpc) hz with
        hadopted | ⟨-, hsafe⟩
      · exact cleared_run h hgrace j hj.le τ pc hpc z hadopted
      · exact hsafe
  -- the entry of the freed object in the log is the one made at step `i`
  have hmono : ∀ m, i + 1 ≤ m → m ≤ n → x ∈ (r m).dom.issued :=
    h.along (Q := fun _ s => x ∈ s.dom.issued) (by rw [hretire]; exact List.mem_cons_self ..)
      fun m a _ _ hm ha => issued_mono ha x hm
  have hborn : x.born = y.born := by
    obtain ⟨z, hz, hzs, hzb⟩ := (known_run h (j + 1) hj).freed y
      (by rw [hfree]; exact List.mem_cons_self ..)
    have hzx : z = x := List.inj_on_of_nodup_map (numbered_run h (j + 1) hj).nodup hz
      (hmono (j + 1) (by omega) hj) (hzs.trans hxy)
    rw [← hzb, hzx]
  have hnext : x.born = (r i).dom.nextGuard := by
    obtain ⟨a, ha⟩ := h.step i (hij.trans hj)
    rcases issued_act ha with he | ⟨p, he⟩
    · rw [he] at hretire
      exact absurd hretire (List.cons_ne_self _ _).symm
    · rw [he] at hretire
      rw [← (List.cons.inj hretire).1]
  have hlt := (hinv i (hij.trans hj).le).dom.guard_lt σ g hg
  have hle := hsafe.2 σ g hg'
  omega

/-- A guard is open while another thread retires an object, and closes before the object is freed. -/
def patientRetirement : List (Action Nat Nat) :=
  .call 0 .enter :: List.replicate 7 (.step 0 false) ++
    .call 1 (.retire (some 7)) :: List.replicate 10 (.step 1 false) ++
    .call 0 .leave :: .call 1 .synchronize :: List.replicate 25 (.step 1 false)

theorem freed_after_guards_patient : (play act init patientRetirement 8).dom.guards 0 ≠ [] ∧
    ∀ σ, ∀ g ∈ (play act init patientRetirement 8).dom.guards σ,
      g ∉ (play act init patientRetirement 45).dom.guards σ := by
  have hstep : ∀ m (hm : m < patientRetirement.length), act (play act init patientRetirement m)
      patientRetirement[m] = some (play act init patientRetirement (m + 1)) :=
    fun m hm => act_play (by rfl) hm
  have hgrace : ∀ m (hm : m < patientRetirement.length),
      (play act init patientRetirement m).Graced patientRetirement[m] := by
    intro m hm
    have hlt : m < 46 := hm
    interval_cases m <;> first | exact trivial | exact nofun
  refine ⟨by decide, ?_⟩
  exact freed_after_guards (run_play (by rfl)) (fun m hm => ⟨_, hstep m hm, hgrace m hm⟩)
    (by decide) (by decide) (x := ⟨7, 0, 1, 0⟩) (y := ⟨7, 0, 1, 0⟩) (by rfl) (by rfl) rfl

/-- A thread retires an object and ends under an open guard; the next `try_reclaim` frees it. -/
def hastyAdoption : List (Action Nat Nat) :=
  .call 0 .enter :: List.replicate 7 (.step 0 false) ++
    .call 1 (.retire (some 7)) :: List.replicate 10 (.step 1 false) ++
    .call 1 .exit :: List.replicate 7 (.step 1 false) ++
    .call 2 .tryReclaim :: List.replicate 14 (.step 2 false)

theorem freed_under_guard : Run act init (play act init hastyAdoption) 42 ∧
    ∃ x y : Retiree Nat, ∃ g, y.stamp = x.stamp ∧
      (play act init hastyAdoption 9).dom.issued = x :: (play act init hastyAdoption 8).dom.issued ∧
      (play act init hastyAdoption 42).dom.freed = y :: (play act init hastyAdoption 41).dom.freed ∧
      g ∈ (play act init hastyAdoption 8).dom.guards 0 ∧
      g ∈ (play act init hastyAdoption 41).dom.guards 0 := by
  have hrun : Run act init (play act init hastyAdoption) hastyAdoption.length := run_play (by rfl)
  refine ⟨hrun, ⟨7, 0, 1, 0⟩, ⟨7, 0, 1, 0⟩, ⟨0, true⟩, rfl, ?_⟩
  exact ⟨by rfl, by rfl, by decide, by decide⟩

end EpochSystem

end RcuFib

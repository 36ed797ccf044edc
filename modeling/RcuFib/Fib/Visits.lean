import RcuFib.Fib.Lookups
import RcuFib.Fib.Locked
import RcuFib.Fib.Seqlock
import RcuFib.Fib.Variants

/-! What a visit says about the calls that have been made of the table, whichever of the four it is.

    Behind a lock or a sequence counter a visit is a snapshot: it returns the longest match of what some
    first calls have made of the table. In `rcu_fib` it may meet several tables on its way down, but
    what it returns is from one of them, and with no call in between all of them are one (`answer`). -/

namespace RcuFib
open SearchGraph Routine Trace RadixTrie Monitor

variable {w : Width} {a : Address w} {n i₀ : Nat}

section seqlock
variable {T : Type*} [DecidableEq T] {τ : T} {r : Nat → Seqlock T w} {entry : Option (Box FibEntry)}

theorem Seqlock.log_mono (h : Run Seqlock.act .init r n) {i j : Nat}
    (hij : i ≤ j) (hj : j ≤ n) : (r i).log <+: (r j).log := by
  have hnoted : ∀ (log : List (FibCall w)) c pc, log <+: Seqlock.noted log c pc := by
    intro log c pc
    cases pc with
    | lower => exact List.prefix_append ..
    | _ => exact List.prefix_rfl
  refine h.along (Q := fun _ s => (r i).log <+: s.log) List.prefix_rfl ?_ j hij hj
  intro k x _ _ hk hx
  refine hk.trans ?_
  rcases Seqlock.act_cases hx with ⟨c, -, -, he⟩ | ⟨c, pc, -, -, -, hlog, -⟩ |
    ⟨σ, b, -, -, he⟩ |
    ⟨σ, b, pc, -, -, ho⟩
  · rw [he]
  · rw [hlog]
    exact hnoted _ c pc
  · rw [he]
  · cases hv : visitStep b (r k).fib pc with
    | next fib pc' => rw [hv] at ho; rw [ho]
    | call fib e => exact e.elim
    | done fib entry => rw [hv] at ho; rw [ho]

/-- `seqlock_fib`: the calls of a moment of the visit. -/
theorem Seqlock.snapshot (h : Run Seqlock.act .init r n)
    (hwrap : (r n).fib.sequence < (r i₀).fib.sequence + 2 ^ 64) (hs : Seqlock.VisitSpan r τ a i₀ n entry) :
    ∃ i, i₀ ≤ i ∧ i ≤ n ∧ (r i).fib.trie.contents = programmed (r i).log ∧
      Matched (r i).fib.trie.contents a (entry.map Box.content) := by
  have hvisit : ∀ i, i₀ ≤ i → i ≤ n → Seqlock.VisitInv r i₀ i a ((r i).visitor τ) := by
    refine h.along (Q := fun i s => Seqlock.VisitInv r i₀ i a (s.visitor τ)) ?_ fun i x h₀ hi hv hx => ?_
    · rw [hs.start]
      exact rfl
    · obtain ⟨pc, hpc⟩ := hs.during i h₀ hi
      rw [hpc] at hv
      exact Seqlock.visitInv_act h h₀ hi hwrap hx hpc hv
  have hfin := hvisit n hs.le le_rfl
  rw [hs.finish] at hfin
  obtain ⟨-, i, hlo, hi, heven, hmatch⟩ := hfin
  have hinv := Seqlock.inv_run h i hi
  have hclosed : ((r i).writer.any fun x => x.2.isOpen) = false := by
    have hparity := hinv.parity
    rw [heven] at hparity
    split at hparity
    · cases hparity
    · next hc => exact Bool.eq_false_of_not_eq_true hc
  exact ⟨i, hlo, hi, (hinv.settled hclosed).contents, hmatch.matched⟩

end seqlock

/-! ### Behind the locks -/

namespace LockedCall

/-- The call, if it is one that changes the table. -/
def mutation? : LockedCall w → Option (FibCall w)
  | insert p entry => some (.insert p entry)
  | erase p => some (.erase p)
  | apply updates => some (.apply updates)
  | _ => none

theorem lookup_after (us : List (Update w FibEntry)) (M : Reference w FibEntry) :
    (fun p => (Update.after M us).lookup p) = us.foldl (fun C u => u.effect C) fun p => M.lookup p := by
  induction us generalizing M with
  | nil => rfl
  | cons u us ih =>
    have hu : (fun p => (u.op.apply M).lookup p) = u.effect fun p => M.lookup p := by
      funext p
      cases u with
      | add q entry =>
        change (M.insert q entry).lookup p = Function.update (fun p => M.lookup p) q (some entry) p
        rcases eq_or_ne p q with rfl | hne
        · rw [AList.lookup_insert, Function.update_self]
        · rw [AList.lookup_insert_ne hne, Function.update_of_ne hne]
      | withdraw q =>
        change (M.erase q).lookup p = Function.update (fun p => M.lookup p) q none p
        rcases eq_or_ne p q with rfl | hne
        · rw [AList.lookup_erase, Function.update_self]
        · rw [AList.lookup_erase_ne hne, Function.update_of_ne hne]
    rw [List.foldl_cons, ← hu]
    exact ih (u.op.apply M)

theorem lookup_post (c : LockedCall w) (M : Reference w FibEntry) :
    (fun p => (c.post M).lookup p) = match c.mutation? with
      | some call => call.effect fun p => M.lookup p
      | none => fun p => M.lookup p := by
  cases c with
  | insert p entry => exact lookup_after [.add p entry] M
  | erase p => exact lookup_after [.withdraw p] M
  | apply updates => exact lookup_after (updates.map FibUpdate.update) M
  | visit | lookup | size => rfl

end LockedCall

section locked
variable {T : Type*} {τ : T}

/-- The calls in the log that change the table. -/
def mutations (log : List (T × LockedCall w × Answer)) : List (FibCall w) :=
  log.filterMap fun e => e.2.1.mutation?

theorem lookup_value (l : Locking) (log : List (T × LockedCall w × Answer)) :
    (fun p => ((l.contract w).value ∅ log).lookup p) = programmed (mutations log) := by
  induction log using List.reverseRecOn with
  | nil => rfl
  | append_singleton log e ih =>
    have hpost := LockedCall.lookup_post e.2.1 ((l.contract w).value ∅ log)
    rw [Contract.value_snoc, mutations, List.filterMap_append, ← mutations]
    refine hpost.trans ?_
    cases he : e.2.1.mutation? with
    | none =>
      simp only [List.filterMap_cons, he, List.filterMap_nil, List.append_nil]
      exact ih
    | some c =>
      simp only [List.filterMap_cons, he, List.filterMap_nil]
      rw [programmed_snoc, ← ih]

variable [DecidableEq T] {l : Locking} {r : Nat → LockedFib T w} {entry : Option (Box FibEntry)}

theorem mutations_mono (h : Run (System.act (l.calls w)) (System.init .empty) r n) {i j : Nat}
    (hij : i ≤ j) (hj : j ≤ n) : mutations (r i).log <+: mutations (r j).log := by
  have hlog := System.log_prefix h hij hj
  exact hlog.filterMap _

/-- `mutex_fib` and `shared_mutex_fib`: the calls of a moment of the visit. -/
theorem Locking.snapshot (h : Run (System.act (l.calls w)) (System.init .empty) r n)
    (hs : System.CallSpan r τ (.visit a) (.visited entry) i₀ n) :
    ∃ i, i₀ ≤ i ∧ i ≤ n ∧ Matched (programmed (mutations (r i).log)) a (entry.map Box.content) := by
  obtain ⟨-, i, hlo, hi, -, hanswer, -⟩ :=
    System.linearization_point (K := l.contract w) h represents_empty hs
  have hmatch := referenceLookup_matched (List.Perm.refl _) a
    (M := (l.contract w).value ∅ (r i).log)
  rw [lookup_value] at hmatch
  have hanswer : entry.map Box.content =
    referenceLookup ((l.contract w).value ∅ (r i).log).entries a := hanswer
  rw [← hanswer] at hmatch
  exact ⟨i, hlo, hi.le, hmatch⟩

end locked

/-! ### All four -/

/-- A visit of `a` to one of the four tables and what it comes back with, in a run in which the calls `early`
    are over when it starts and `calls` are all there have been when it ends. The counter of `seqlock_fib`
    does not come round meanwhile. -/
inductive Visit (T : Type) [DecidableEq T] (a : Address w) (early calls : List (FibCall w)) :
    Option FibEntry → Prop
  | rcu {r : Nat → Rcu T w} {τ n i₀ result} : Run Rcu.act .init r n →
      Rcu.finished r i₀ = early → Rcu.taken r n = calls → Rcu.LookupSpan r τ a i₀ n result →
      Visit T a early calls (result.map Box.content)
  | seqlock {r : Nat → Seqlock T w} {τ n i₀ entry} : Run Seqlock.act .init r n →
      (r i₀).log = early → (r n).log = calls → (r n).fib.sequence < (r i₀).fib.sequence + 2 ^ 64 →
      Seqlock.VisitSpan r τ a i₀ n entry → Visit T a early calls (entry.map Box.content)
  | locked {l : Locking} {r : Nat → LockedFib T w} {τ n i₀ entry} :
      Run (System.act (l.calls w)) (System.init .empty) r n →
      mutations (r i₀).log = early → mutations (r n).log = calls →
      System.CallSpan r τ (.visit a) (.visited entry) i₀ n → Visit T a early calls (entry.map Box.content)

section visits
variable {T : Type} [DecidableEq T] {early calls : List (FibCall w)} {entry : Option FibEntry}

/-- The entry is in what some of the updates have made of the table, all of the early ones among them. -/
def Genuine (early calls : List (FibCall w)) (a : Address w) (entry : FibEntry) : Prop :=
  ∃ (q : Prefix w) (before : List (Update w FibEntry)), q.contains a ∧
    early.flatMap FibCall.updates <+: before ∧ before <+: calls.flatMap FibCall.updates ∧
    made before q = some entry

/-- A snapshot. -/
theorem answer_of_matched {some_calls : List (FibCall w)} (hlo : early <+: some_calls)
    (hhi : some_calls <+: calls) (h : Matched (programmed some_calls) a entry) :
    (∀ e, entry = some e → Genuine early calls a e) ∧ (early = calls → Matched (programmed calls) a entry) := by
  refine ⟨?_, ?_⟩
  · rintro e rfl
    obtain ⟨q, hq, hqa, -⟩ := h
    rw [programmed_eq_made] at hq
    exact ⟨q, _, hqa, hlo.flatMap _, hhi.flatMap _, hq⟩
  · rintro rfl
    rwa [hlo.eq_of_length_le hhi.length_le]

theorem Visit.answer (h : Visit T a early calls entry) :
    (∀ e, entry = some e → Genuine early calls a e) ∧
      (early = calls → Matched (programmed calls) a entry) := by
  cases h with
  | @rcu r τ n i₀ result h hearly hcalls hs =>
    subst hearly hcalls
    refine ⟨?_, fun heq => ?_⟩
    · intro e he
      obtain ⟨b, rfl, rfl⟩ := Option.map_eq_some_iff.mp he
      obtain ⟨q, i, hlo, hi, hq, hqa⟩ := Rcu.genuine h hs b rfl
      obtain ⟨before, hearly, hbefore, hC⟩ := Rcu.made_between h hlo hi
      refine ⟨q, before, hqa, hearly, hbefore.trans ((Rcu.taken_mono r hi).flatMap _), ?_⟩
      rw [← hC, RadixTrie.contents, hq, Option.map_some]
    · -- the table is the same throughout
      have hsame : ∀ i, i₀ ≤ i → i ≤ n → (r i).trie.contents = programmed (Rcu.taken r n) := by
        intro i hlo hi
        obtain ⟨before, hearly, hbefore, hC⟩ := Rcu.made_between h hlo hi
        have hupper := hbefore.trans ((Rcu.taken_mono r hi).flatMap _)
        rw [heq] at hearly
        rw [hC, programmed_eq_made, hearly.eq_of_length_le hupper.length_le]
      obtain ⟨i, hlo, hi, hmatch⟩ := Rcu.exact_of_fixed h hs fun p _ i hlo hi => by
        have hp := congrFun ((hsame i hlo hi).trans (hsame i₀ le_rfl hs.le).symm) p
        rw [← not_iff_not, ← ne_eq, ← ne_eq, ← contents_ne_none, ← contents_ne_none, hp]
      rw [← hsame i hlo hi]
      exact hmatch.matched
  | @seqlock r τ n i₀ entry h hearly hcalls hwrap hs =>
    subst hearly hcalls
    obtain ⟨i, hlo, hi, hC, hmatch⟩ := Seqlock.snapshot h hwrap hs
    rw [hC] at hmatch
    exact answer_of_matched (Seqlock.log_mono h hlo hi) (Seqlock.log_mono h hi le_rfl) hmatch
  | @locked l r τ n i₀ entry h hearly hcalls hs =>
    subst hearly hcalls
    obtain ⟨i, hlo, hi, hmatch⟩ := Locking.snapshot h hs
    exact answer_of_matched (mutations_mono h hlo hi) (mutations_mono h hi le_rfl) hmatch

end visits

end RcuFib

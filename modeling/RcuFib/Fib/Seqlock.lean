import RcuFib.Fib.Route
import RcuFib.Trie.Alone
import RcuFib.Library.Trace
import Mathlib.Tactic.IntervalCases

/-! `seqlock_fib` (`include/rcufib/fib.hpp`): readers walk the trie without a lock and start over when
    the sequence counter tells that a writer was there.

    The counter is modelled by the number of increments it has seen; a load yields that number modulo
    `2 ^ 64`. Writers hold `writer_mutex_` for the whole of a call, so there is one position for the
    call under way. The `read_guard` of a visit and what the writer retires are left out: until the
    guard is gone nothing the reader can stand on is freed. -/

namespace RcuFib
open SearchGraph Routine Trace RadixTrie

variable {T : Type*} {w : Width}

structure SeqlockFib (w : Width) where
  /-- The increments of `sequence_` so far. -/
  sequence : Nat
  retries : Nat
  trie : RadixTrie w FibEntry

namespace SeqlockFib

def empty : SeqlockFib w := ⟨0, 0, .empty⟩

/-- `sequence_.load()`. -/
def load (s : SeqlockFib w) : Nat := s.sequence % 2 ^ 64

end SeqlockFib

/-! ### `visit` -/

inductive VisitPc where
  /-- `before = sequence_.load` -/
  | before
  /-- `retries_.fetch_add`: a writer is mid-update -/
  | busy
  | walk (before : Nat) (pc : LookupPc FibEntry)
  /-- `sequence_.load == before` -/
  | check (before : Nat) (entry : Option (Box FibEntry))
  /-- `retries_.fetch_add`: the sequence has moved -/
  | stale

/-- Back at the head of the loop, the visit has counted one retry. -/
def VisitPc.retried : VisitPc → Nat
  | before => 1
  | _ => 0

/-- One step of `visit(address, fn)`; the result is what `fn` is called with. -/
def visitStep (a : Address w) (s : SeqlockFib w) :
    VisitPc → Outcome (SeqlockFib w) VisitPc Empty (Option (Box FibEntry))
  | .before => if s.load % 2 ≠ 0 then .next s .busy else .next s (.walk s.load .root)
  | .busy => .next { s with retries := s.retries + 1 } .before
  | .walk before pc =>
    match lookupStep a s.trie pc with
    | .next t pc' => .next { s with trie := t } (.walk before pc')
    | .done t entry => .next { s with trie := t } (.check before entry)
  | .check before entry => if s.load = before then .done s entry else .next s .stale
  | .stale => .next { s with retries := s.retries + 1 } .before

/-! ### `insert`, `erase` and `apply` -/

/-- Where a call is, from the lock of `writer_mutex_` on. -/
inductive SectionPc (w : Width) where
  /-- `write_section(sequence_)`: `fetch_add` -/
  | raise (updates : List (Update w FibEntry))
  | update (pc : WriterPc w FibEntry) (rest : List (Update w FibEntry)) (applied : Nat)
  /-- `~write_section()`: `fetch_add` -/
  | lower (applied : Nat)
  /-- the end of `writer` -/
  | unlock (applied : Nat)

namespace SectionPc

/-- The loop of `apply` goes on to the next update. -/
def proceed : List (Update w FibEntry) → Nat → SectionPc w
  | [], applied => .lower applied
  | u :: rest, applied => .update u.start rest applied

/-- A write section is open: the counter has been raised and not been lowered. -/
def isOpen : SectionPc w → Bool
  | raise _ | unlock _ => false
  | update _ _ _ | lower _ => true

end SectionPc

/-- One step of a call; the result is the number of updates that took effect. -/
def sectionStep (s : SeqlockFib w) :
    SectionPc w → Outcome (SeqlockFib w) (SectionPc w) (Retired FibEntry) Nat
  | .raise updates => .next { s with sequence := s.sequence + 1 } (.proceed updates 0)
  | .update pc rest applied =>
    match writerStep s.trie pc with
    | .next t pc' => .next { s with trie := t } (.update pc' rest applied)
    | .call t e pc' => .call { s with trie := t } e (.update pc' rest applied)
    | .done t r => .next { s with trie := t } (.proceed rest (applied + r.toNat))
  | .lower applied => .next { s with sequence := s.sequence + 1 } (.unlock applied)
  | .unlock applied => .done s applied

/-! ### The system -/

inductive Visitor (w : Width) where
  | idle
  | visiting (a : Address w) (pc : VisitPc)
  /-- The callback has been handed `entry`. -/
  | visited (a : Address w) (entry : Option (Box FibEntry))

/-- The retries a visitor counts as it gets here. -/
def Visitor.retried : Visitor w → Nat
  | visiting _ pc => pc.retried
  | _ => 0

structure Seqlock (T : Type*) (w : Width) where
  fib : SeqlockFib w
  /-- The call that holds the mutex, with its position. -/
  writer : Option (FibCall w × SectionPc w)
  visitor : T → Visitor w
  /-- The calls that have closed their write section. Ghost. -/
  log : List (FibCall w)

namespace Seqlock

inductive Action (T : Type*) (w : Width) where
  | call (c : FibCall w)
  | write
  | visit (τ : T) (a : Address w)
  | read (τ : T)

def init : Seqlock T w := ⟨.empty, none, fun _ => .idle, []⟩

/-- The log takes note of a call as it lowers the counter. -/
def noted (log : List (FibCall w)) (c : FibCall w) : SectionPc w → List (FibCall w)
  | .lower _ => log ++ [c]
  | _ => log

def act [DecidableEq T] (s : Seqlock T w) : Action T w → Option (Seqlock T w)
  | .call c => if s.writer.isNone then some { s with writer := some (c, .raise c.updates) } else none
  | .write =>
    match s.writer with
    | none => none
    | some (c, pc) =>
      let log := noted s.log c pc
      match sectionStep s.fib pc with
      | .next fib pc' => some { s with fib := fib, writer := some (c, pc'), log := log }
      | .call fib _ pc' => some { s with fib := fib, writer := some (c, pc'), log := log }
      | .done fib _ => some { s with fib := fib, writer := none, log := log }
  | .visit τ a =>
    match s.visitor τ with
    | .visiting _ _ => none
    | _ => some { s with visitor := Function.update s.visitor τ (.visiting a .before) }
  | .read τ =>
    match s.visitor τ with
    | .visiting a pc =>
      match visitStep a s.fib pc with
      | .next fib pc' =>
        some { s with fib := fib, visitor := Function.update s.visitor τ (.visiting a pc') }
      | .done fib entry =>
        some { s with fib := fib, visitor := Function.update s.visitor τ (.visited a entry) }
    | _ => none

/-! ### The writers' side -/

variable {fib fib' : SeqlockFib w} {log : List (FibCall w)} {c : FibCall w} {pc : SectionPc w}

/-- No write section is open: the table holds what the calls so far have programmed. -/
structure Settled (fib : SeqlockFib w) (log : List (FibCall w)) : Prop where
  even : fib.sequence % 2 = 0
  idle : WriterInv fib.trie none
  contents : fib.trie.contents = programmed log

/-- The annotation of the call that holds the mutex. -/
def SectionInv (fib : SeqlockFib w) (log : List (FibCall w)) : Option (FibCall w × SectionPc w) → Prop
  | none => Settled fib log
  | some (c, .raise updates) => Settled fib log ∧ updates = c.updates
  | some (c, .update pc rest _) => fib.sequence % 2 = 1 ∧ ∃ past u, c.updates = past ++ u :: rest ∧
      fib.trie.Performing (past.foldl (fun C u => u.effect C) (programmed log)) u pc
  | some (c, .lower _) => fib.sequence % 2 = 1 ∧ WriterInv fib.trie none ∧
      fib.trie.contents = c.effect (programmed log)
  | some (_, .unlock _) => Settled fib log

/-- What a step may do to the counter: an even one that stays vouches for the trie. -/
structure Vouched (fib fib' : SeqlockFib w) : Prop where
  le : fib.sequence ≤ fib'.sequence
  same : fib.sequence % 2 = 0 → fib'.sequence = fib.sequence → fib'.trie = fib.trie

theorem Vouched.refl : Vouched fib fib := ⟨le_rfl, fun _ _ => rfl⟩

theorem SectionInv.parity {x : Option (FibCall w × SectionPc w)} (h : SectionInv fib log x) :
    fib.sequence % 2 = if x.any (fun y => y.2.isOpen) then 1 else 0 := by
  cases x with
  | none => exact h.even
  | some x =>
    obtain ⟨c, pc⟩ := x
    cases pc with
    | raise => exact h.1.even
    | update => exact h.1
    | lower => exact h.1
    | unlock => exact Settled.even h

/-- With no section open there are only whole calls in the table. -/
theorem SectionInv.settled {x : Option (FibCall w × SectionPc w)} (h : SectionInv fib log x)
    (hclosed : x.any (fun y => y.2.isOpen) = false) : Settled fib log := by
  cases x with
  | none => exact h
  | some x =>
    obtain ⟨c, pc⟩ := x
    cases pc with
    | raise => exact h.1
    | update => cases hclosed
    | lower => cases hclosed
    | unlock => exact h

/-- The loop of `apply` between two updates. -/
theorem proceed_inv (past : List (Update w FibEntry)) {rest : List (Update w FibEntry)} {applied : Nat}
    (hc : c.updates = past ++ rest) (hodd : fib.sequence % 2 = 1) (hidle : WriterInv fib.trie none)
    (hC : fib.trie.contents = past.foldl (fun C u => u.effect C) (programmed log)) :
    SectionInv fib log (some (c, .proceed rest applied)) := by
  cases rest with
  | nil =>
    rw [List.append_nil] at hc
    exact ⟨hodd, hidle, by rw [hC, FibCall.effect, hc]⟩
  | cons u rest => exact ⟨hodd, past, u, hc, hC ▸ .start hidle u⟩

theorem section_step (h : SectionInv fib log (some (c, pc))) :
    (sectionStep fib pc).Sat
      (fun fib' pc' => SectionInv fib' (noted log c pc) (some (c, pc')) ∧ Vouched fib fib')
      (fun fib' _ => SectionInv fib' (noted log c pc) none ∧ Vouched fib fib') := by
  cases pc with
  | raise updates =>
    obtain ⟨⟨heven, hidle, hC⟩, rfl⟩ := h
    have hodd : (fib.sequence + 1) % 2 = 1 := by omega
    exact ⟨proceed_inv [] rfl hodd hidle hC, Nat.le_succ _,
      fun _ he => absurd he (Nat.succ_ne_self _)⟩
  | update pc rest applied =>
    obtain ⟨hodd, past, u, hc, hu⟩ := h
    have hvouched : ∀ t, Vouched fib { fib with trie := t } := fun t =>
      ⟨le_rfl, fun heven => by rw [hodd] at heven; cases heven⟩
    have hstep := performing_step hu
    simp only [sectionStep]
    cases ho : writerStep fib.trie pc with
    | next t pc' => rw [ho] at hstep; exact ⟨⟨hodd, past, u, hc, hstep⟩, hvouched t⟩
    | call t e pc' => rw [ho] at hstep; exact ⟨⟨hodd, past, u, hc, hstep⟩, hvouched t⟩
    | done t r =>
      rw [ho] at hstep
      obtain ⟨hidle, hC⟩ := hstep
      refine ⟨proceed_inv (past ++ [u]) (by rw [hc]; simp) hodd hidle ?_, hvouched t⟩
      rw [List.foldl_append, List.foldl_cons, List.foldl_nil]
      exact hC
  | lower applied =>
    obtain ⟨hodd, hidle, hC⟩ := h
    have heven : (fib.sequence + 1) % 2 = 0 := by omega
    refine ⟨⟨heven, hidle, ?_⟩, Nat.le_succ _, fun _ he => absurd he (Nat.succ_ne_self _)⟩
    rw [noted, programmed_snoc, ← hC]
  | unlock applied => exact ⟨h, .refl⟩

/-! ### The system -/

/-- A step of a visit touches nothing but the retry counter, which it raises to start over. -/
theorem visit_step (fib : SeqlockFib w) (a : Address w) (pc : VisitPc) : (visitStep a fib pc).Sat
    (fun fib' pc' => fib' = { fib with retries := fib.retries + pc'.retried })
    (fun fib' _ => fib' = fib) := by
  cases pc with
  | before => simp only [visitStep]; split <;> rfl
  | busy => rfl
  | walk before pc =>
    have hsame : (lookupStep a fib.trie pc).Sat _ _ := lookup_trie pc
    simp only [visitStep]
    cases ho : lookupStep a fib.trie pc with
    | next t pc' =>
      rw [ho] at hsame
      rw [show t = fib.trie from hsame]
      rfl
    | call t e => exact e.elim
    | done t entry =>
      rw [ho] at hsame
      rw [show t = fib.trie from hsame]
      rfl
  | check before entry => simp only [visitStep]; split <;> rfl
  | stale => rfl

section system
variable [DecidableEq T] {s s' : Seqlock T w} {τ : T} {a : Address w}

def Inv (s : Seqlock T w) : Prop := SectionInv s.fib s.log s.writer

/-- What a step can do. -/
theorem act_cases {x : Action T w} (h : act s x = some s') :
    (∃ c, x = .call c ∧ s.writer = none ∧ s' = { s with writer := some (c, .raise c.updates) }) ∨
    (∃ c pc, x = .write ∧ s.writer = some (c, pc) ∧ s'.visitor = s.visitor ∧
      s'.log = noted s.log c pc ∧ (sectionStep s.fib pc).Sat
        (fun fib pc' => s'.fib = fib ∧ s'.writer = some (c, pc'))
        (fun fib _ => s'.fib = fib ∧ s'.writer = none)) ∨
    (∃ τ a, x = .visit τ a ∧ (∀ b pc, s.visitor τ ≠ .visiting b pc) ∧
      s' = { s with visitor := Function.update s.visitor τ (.visiting a .before) }) ∨
    (∃ τ a pc, x = .read τ ∧ s.visitor τ = .visiting a pc ∧ (visitStep a s.fib pc).Sat
      (fun fib pc' => s' = { s with
        fib := fib, visitor := Function.update s.visitor τ (.visiting a pc') })
      (fun fib entry => s' = { s with
        fib := fib, visitor := Function.update s.visitor τ (.visited a entry) })) := by
  cases x with
  | call c =>
    simp only [act] at h
    split at h
    · next hn => exact .inl ⟨c, rfl, Option.isNone_iff_eq_none.mp hn, (Option.some.inj h).symm⟩
    · cases h
  | write =>
    right; left
    simp only [act] at h
    split at h
    · cases h
    · next c pc hw =>
      refine ⟨c, pc, rfl, hw, ?_⟩
      cases ho : sectionStep s.fib pc with
      | next fib pc' => rw [ho] at h; cases h; exact ⟨rfl, rfl, rfl, rfl⟩
      | call fib e pc' => rw [ho] at h; cases h; exact ⟨rfl, rfl, rfl, rfl⟩
      | done fib r => rw [ho] at h; cases h; exact ⟨rfl, rfl, rfl, rfl⟩
  | visit τ a =>
    right; right; left
    simp only [act] at h
    split at h
    · cases h
    · next hn => exact ⟨τ, a, rfl, hn, (Option.some.inj h).symm⟩
  | read τ =>
    right; right; right
    simp only [act] at h
    split at h
    · next a pc hv =>
      refine ⟨τ, a, pc, rfl, hv, ?_⟩
      cases ho : visitStep a s.fib pc with
      | next fib pc' => rw [ho] at h; cases h; rfl
      | call fib e => exact e.elim
      | done fib entry => rw [ho] at h; cases h; rfl
    · cases h

omit [DecidableEq T] in
theorem inv_init : (init : Seqlock T w).Inv := by
  have hempty := rep_of_root_none (inv_empty (w := w) (V := FibEntry)) rfl
  refine ⟨rfl, ⟨_, hempty⟩, funext fun p => ?_⟩
  rw [init, SeqlockFib.empty, contents, hempty.table_eq]
  rfl

theorem Settled.retries (h : Settled fib log) (k : Nat) : Settled { fib with retries := k } log :=
  ⟨h.even, h.idle, h.contents⟩

/-- The retry counter is no concern of the writers'. -/
theorem SectionInv.retries {x : Option (FibCall w × SectionPc w)} (h : SectionInv fib log x)
    (k : Nat) : SectionInv { fib with retries := k } log x := by
  cases x with
  | none => exact Settled.retries h k
  | some x =>
    obtain ⟨c, pc⟩ := x
    cases pc with
    | raise => exact ⟨h.1.retries k, h.2⟩
    | update => exact h
    | lower => exact h
    | unlock => exact Settled.retries h k

theorem SectionInv.trie {x : Option (FibCall w × SectionPc w)} (h : SectionInv fib log x) :
    ∃ priv, fib.trie.Inv priv := by
  cases x with
  | none => exact ⟨_, h.idle.inv⟩
  | some x =>
    obtain ⟨c, pc⟩ := x
    cases pc with
    | raise => exact ⟨_, h.1.idle.inv⟩
    | update => obtain ⟨-, past, u, -, h⟩ := h; exact ⟨_, h.writerInv.inv⟩
    | lower => exact ⟨_, h.2.1.inv⟩
    | unlock => exact ⟨_, (Settled.idle h).inv⟩

theorem inv_act {x : Action T w} (h : s.Inv) (hx : act s x = some s') :
    s'.Inv ∧ Vouched s.fib s'.fib := by
  rcases act_cases hx with ⟨c, -, hw, rfl⟩ | ⟨c, pc, -, hw, -, hlog, ho⟩ | ⟨τ, a, -, -, rfl⟩ |
    ⟨τ, a, pc, -, -, ho⟩
  · rw [Inv, hw] at h
    exact ⟨⟨h, rfl⟩, .refl⟩
  · rw [Inv, hw] at h
    have hok := section_step h
    rw [← hlog] at hok
    cases hs : sectionStep s.fib pc with
    | next fib pc' =>
      rw [hs] at ho hok
      obtain ⟨rfl, hw'⟩ := ho
      exact ⟨by rw [Inv, hw']; exact hok.1, hok.2⟩
    | call fib e pc' =>
      rw [hs] at ho hok
      obtain ⟨rfl, hw'⟩ := ho
      exact ⟨by rw [Inv, hw']; exact hok.1, hok.2⟩
    | done fib r =>
      rw [hs] at ho hok
      obtain ⟨rfl, hw'⟩ := ho
      exact ⟨by rw [Inv, hw']; exact hok.1, hok.2⟩
  · exact ⟨h, .refl⟩
  · have hok := visit_step s.fib a pc
    cases hs : visitStep a s.fib pc with
    | next fib pc' =>
      rw [hs] at ho hok
      obtain rfl := hok
      obtain rfl := ho
      exact ⟨h.retries _, le_rfl, fun _ _ => rfl⟩
    | call fib e => exact e.elim
    | done fib entry =>
      rw [hs] at ho hok
      obtain rfl := hok
      obtain rfl := ho
      exact ⟨h, .refl⟩

theorem inv_run {r : Nat → Seqlock T w} {n : Nat} (h : Run act init r n) : ∀ i ≤ n, (r i).Inv :=
  h.invariant inv_init fun _ _ _ hs hx => (inv_act hs hx).1

/-! ### One visit -/

/-- The visit of `a` by `τ` that starts at `i₀` and hands `entry` to its callback at `n`. -/
structure VisitSpan (r : Nat → Seqlock T w) (τ : T) (a : Address w) (i₀ n : Nat)
    (entry : Option (Box FibEntry)) : Prop where
  le : i₀ ≤ n
  start : (r i₀).visitor τ = .visiting a .before
  during : ∀ i, i₀ ≤ i → i < n → ∃ pc, (r i).visitor τ = .visiting a pc
  finish : (r n).visitor τ = .visited a entry

/-- The attempt under way at `i` loaded its first counter value at a moment `j` without an open
    section. As long as the counter stays, `P` holds of the trie of that moment. -/
def Attempt (r : Nat → Seqlock T w) (i₀ i before : Nat) (P : RadixTrie w FibEntry → Prop) : Prop :=
  ∃ j, i₀ ≤ j ∧ j ≤ i ∧ (r j).fib.sequence % 2 = 0 ∧ (r j).fib.load = before ∧
    ((r i).fib.sequence = (r j).fib.sequence → P (r j).fib.trie)

/-- The annotation of the visit. -/
def VisitInv (r : Nat → Seqlock T w) (i₀ i : Nat) (a : Address w) : Visitor w → Prop
  | .idle => False
  | .visiting b (.walk before pc) => b = a ∧
      Attempt r i₀ i before fun t => LookupInv t a (r i).fib.trie pc
  | .visiting b (.check before entry) => b = a ∧
      Attempt r i₀ i before fun t => LongestMatch t.table a entry
  | .visiting b _ => b = a
  | .visited b entry => b = a ∧ ∃ j, i₀ ≤ j ∧ j ≤ i ∧ (r j).fib.sequence % 2 = 0 ∧
      LongestMatch (r j).fib.trie.table a entry

section span
variable {r : Nat → Seqlock T w} {n i₀ i before : Nat} {entry : Option (Box FibEntry)}

theorem sequence_mono (h : Run act init r n) {i j : Nat} (hij : i ≤ j) (hj : j ≤ n) :
    (r i).fib.sequence ≤ (r j).fib.sequence :=
  h.monotone (f := fun s => s.fib.sequence)
    (fun k _ hk hx => (inv_act (inv_run h k hk.le) hx).2.le) hij hj

/-- A step that leaves the visitor where it is leaves the attempt as good as it was. -/
theorem Attempt.wait (h : Run act init r n) (hi : i < n) {P Q : RadixTrie w FibEntry → Prop}
    (hP : Attempt r i₀ i before P) (hv : Vouched (r i).fib (r (i + 1)).fib)
    (hPQ : ∀ t, (r (i + 1)).fib.trie = (r i).fib.trie → P t → Q t) :
    Attempt r i₀ (i + 1) before Q := by
  obtain ⟨j, h₀, hj, heven, hload, hP⟩ := hP
  refine ⟨j, h₀, Nat.le_succ_of_le hj, heven, hload, fun he => ?_⟩
  -- the counter has stayed since the load, so it is even and vouches for the trie
  have hle := sequence_mono h hj hi.le
  have hsame : (r i).fib.sequence = (r j).fib.sequence := le_antisymm (he ▸ hv.le) hle
  exact hPQ _ (hv.same (hsame ▸ heven) (he.trans hsame.symm)) (hP hsame)

theorem VisitInv.wait (h : Run act init r n) (hi : i < n)
    (hvouch : Vouched (r i).fib (r (i + 1)).fib) {v : Visitor w} (hv : VisitInv r i₀ i a v) :
    VisitInv r i₀ (i + 1) a v := by
  cases v with
  | idle => exact hv
  | visiting b pc =>
    cases pc with
    | walk before pc =>
      refine ⟨hv.1, hv.2.wait h hi hvouch fun t hsame hP => ?_⟩
      rw [hsame]
      exact hP
    | check before entry => exact ⟨hv.1, hv.2.wait h hi hvouch fun _ _ hP => hP⟩
    | before => exact hv
    | busy => exact hv
    | stale => exact hv
  | visited b entry =>
    obtain ⟨hb, j, h₀, hj, hsnap⟩ := hv
    exact ⟨hb, j, h₀, Nat.le_succ_of_le hj, hsnap⟩

/-- The visitor's own step. -/
theorem visitInv_read (h : Run act init r n) (h₀ : i₀ ≤ i) (hi : i < n)
    (hwrap : (r n).fib.sequence < (r i₀).fib.sequence + 2 ^ 64) {pc : VisitPc}
    (hv : VisitInv r i₀ i a (.visiting a pc)) (hvouch : Vouched (r i).fib (r (i + 1)).fib) :
    (visitStep a (r i).fib pc).Sat
      (fun fib pc' => (r (i + 1)).fib = fib → VisitInv r i₀ (i + 1) a (.visiting a pc'))
      (fun fib entry => (r (i + 1)).fib = fib → VisitInv r i₀ (i + 1) a (.visited a entry)) := by
  cases pc with
  | before =>
    simp only [visitStep]
    split
    · exact fun _ => rfl
    · next heven =>
      refine fun hfib => ⟨rfl, i, h₀, Nat.le_succ i, ?_, rfl, fun _ => ?_⟩
      · rw [SeqlockFib.load] at heven
        omega
      · rw [hfib]
        exact lookupInv_root
  | busy => exact fun _ => rfl
  | walk before pc =>
    obtain ⟨-, hP⟩ := hv
    obtain ⟨priv, hinv⟩ := (inv_run h i hi.le).trie
    simp only [visitStep]
    cases ho : lookupStep a (r i).fib.trie pc with
    | next t' pc' =>
      refine fun hfib => ⟨rfl, hP.wait h hi hvouch fun t _ hlook => ?_⟩
      have hstep := lookup_step (hlook.1 ▸ hinv) hlook
      rw [ho] at hstep
      rw [hfib]
      exact hstep.1
    | call t' e => exact e.elim
    | done t' entry =>
      refine fun _ => ⟨rfl, hP.wait h hi hvouch fun t _ hlook => ?_⟩
      have hstep := lookup_step (hlook.1 ▸ hinv) hlook
      rw [ho] at hstep
      exact hstep.2
  | check before entry =>
    obtain ⟨-, j, hj₀, hj, heven, hload, hP⟩ := hv
    simp only [visitStep]
    split
    · next hsame =>
      refine fun _ => ⟨rfl, j, hj₀, Nat.le_succ_of_le hj, heven, hP ?_⟩
      -- equal loads are equal counts: the counter has not come full circle
      have hstart := sequence_mono h hj₀ (hj.trans hi.le)
      have hmid := sequence_mono h hj hi.le
      have hend := sequence_mono h hi.le le_rfl
      rw [← hload, SeqlockFib.load, SeqlockFib.load] at hsame
      omega
    · exact fun _ => rfl
  | stale => exact fun _ => rfl

theorem visitInv_act (h : Run act init r n) (h₀ : i₀ ≤ i) (hi : i < n)
    (hwrap : (r n).fib.sequence < (r i₀).fib.sequence + 2 ^ 64) {x : Action T w}
    (hx : act (r i) x = some (r (i + 1))) {pc : VisitPc} (hpc : (r i).visitor τ = .visiting a pc)
    (hv : VisitInv r i₀ i a (.visiting a pc)) : VisitInv r i₀ (i + 1) a ((r (i + 1)).visitor τ) := by
  have hvouch := (inv_act (inv_run h i hi.le) hx).2
  have hwait := hv.wait h hi hvouch
  rcases act_cases hx with ⟨c, -, -, he⟩ | ⟨c, pc', -, -, he, -⟩ | ⟨σ, b, -, hne, he⟩ |
    ⟨σ, b, pc', -, hσ, ho⟩
  · rw [he]
    rwa [hpc]
  · rwa [he, hpc]
  · have hστ : τ ≠ σ := by rintro rfl; exact hne _ _ hpc
    rw [he]
    simp only [Function.update_of_ne hστ]
    rwa [hpc]
  · rcases eq_or_ne τ σ with rfl | hστ
    · rw [hpc] at hσ
      obtain ⟨rfl, rfl⟩ := Visitor.visiting.inj hσ
      have hread := visitInv_read h h₀ hi hwrap hv hvouch
      cases hs : visitStep a (r i).fib pc with
      | next fib pc' =>
        rw [hs] at ho hread
        rw [ho] at hread ⊢
        simpa using hread
      | call fib e => exact e.elim
      | done fib entry =>
        rw [hs] at ho hread
        rw [ho] at hread ⊢
        simpa using hread
    · have hother : (r (i + 1)).visitor τ = (r i).visitor τ := by
        cases hs : visitStep b (r i).fib pc' with
        | next fib pc'' =>
          rw [hs] at ho
          rw [ho]
          exact Function.update_of_ne hστ _ _
        | call fib e => exact e.elim
        | done fib entry =>
          rw [hs] at ho
          rw [ho]
          exact Function.update_of_ne hστ _ _
      rwa [hother, hpc]

/-- What a visit hands to its callback is the longest match in a table that was there while it ran,
    with no write section open and nothing but whole calls in it. An attempt that is given up leaves
    one more retry behind, and no step of a visit leaves anything else. -/
theorem visit_snapshot (h : Run act init r n) (hs : VisitSpan r τ a i₀ n entry)
    (hwrap : (r n).fib.sequence < (r i₀).fib.sequence + 2 ^ 64) :
    (∃ i, i₀ ≤ i ∧ i ≤ n ∧ ((r i).writer.any fun x => x.2.isOpen) = false ∧
      LongestMatch (r i).fib.trie.table a entry ∧
      (r i).fib.trie.contents = programmed (r i).log) ∧
    ∀ i, i₀ ≤ i → i < n → ∀ s', act (r i) (.read τ) = some s' → ∃ v, s' = { r i with
      fib := { (r i).fib with retries := (r i).fib.retries + v.retried }
      visitor := Function.update (r i).visitor τ v } := by
  have hrun : ∀ i, i₀ ≤ i → i ≤ n → VisitInv r i₀ i a ((r i).visitor τ) := by
    refine h.along (Q := fun i s => VisitInv r i₀ i a (s.visitor τ)) ?_ fun i x h₀ hi hv hx => ?_
    · rw [hs.start]; exact rfl
    · obtain ⟨pc, hpc⟩ := hs.during i h₀ hi
      rw [hpc] at hv
      exact visitInv_act h h₀ hi hwrap hx hpc hv
  constructor
  · have hfin := hrun n hs.le le_rfl
    rw [hs.finish] at hfin
    obtain ⟨-, i, h₀, hi, heven, hmatch⟩ := hfin
    have hinv := inv_run h i hi
    have hclosed : ((r i).writer.any fun x => x.2.isOpen) = false := by
      have hpar := hinv.parity
      rw [heven] at hpar
      split at hpar
      · cases hpar
      · next hc => exact Bool.eq_false_of_not_eq_true hc
    exact ⟨i, h₀, hi, hclosed, hmatch, (hinv.settled hclosed).contents⟩
  · intro i h₀ hi s' hx
    obtain ⟨pc, hpc⟩ := hs.during i h₀ hi
    rcases act_cases hx with ⟨c, hc, -⟩ | ⟨c, pc', hc, -⟩ | ⟨σ, b, hc, -⟩ | ⟨σ, b, pc', hc, hσ, ho⟩
    · cases hc
    · cases hc
    · cases hc
    · obtain rfl := Action.read.inj hc
      have hok := visit_step (r i).fib b pc'
      cases hv : visitStep b (r i).fib pc' with
      | next fib pc'' =>
        rw [hv] at ho hok
        obtain rfl := hok
        exact ⟨.visiting b pc'', ho⟩
      | call fib e => exact e.elim
      | done fib entry =>
        rw [hv] at ho hok
        obtain rfl := hok
        exact ⟨.visited b entry, ho⟩

end span

end system

/-- A batch that programs the default route twice gets in the way of a visit, which gives up two
    attempts and sees the second entry. -/
def interrupted : List (Action Unit .ipv4) :=
  let route : Prefix .ipv4 := .make (.zero .ipv4) 0 Width.zero_le_ipv4
  [.visit () (.fromV4 10), .read (),
    .call (.apply [⟨route, .zero, .add⟩, ⟨route, { FibEntry.zero with generation := 1 }, .add⟩]),
    .write, .read (), .read (), .read (), .read (), .read ()] ++ List.replicate 15 .write ++
    List.replicate 5 (.read ())

theorem visit_snapshot_interrupted :
    (∃ i, 1 ≤ i ∧ i ≤ 29 ∧
      ((play act init interrupted i).writer.any fun x => x.2.isOpen) = false ∧
      LongestMatch (play act init interrupted i).fib.trie.table (.fromV4 10)
        (some ⟨1, { FibEntry.zero with generation := 1 }⟩) ∧
      (play act init interrupted i).fib.trie.contents =
        programmed (play act init interrupted i).log) ∧
    ∀ i, 1 ≤ i → i < 29 → ∀ s', act (play act init interrupted i) (.read ()) = some s' →
      ∃ v, s' = { play act init interrupted i with
        fib := { (play act init interrupted i).fib with
          retries := (play act init interrupted i).fib.retries + v.retried }
        visitor := Function.update (play act init interrupted i).visitor () v } := by
  have hrun : Run act init (play act init interrupted) interrupted.length := run_play (by rfl)
  have hspan : VisitSpan (play act init interrupted) () (.fromV4 10) 1 29
      (some ⟨1, { FibEntry.zero with generation := 1 }⟩) := by
    refine ⟨by decide, by rfl, ?_, by rfl⟩
    intro i h₀ hi
    interval_cases i <;> exact ⟨_, rfl⟩
  exact visit_snapshot hrun hspan (by decide)

end Seqlock

end RcuFib

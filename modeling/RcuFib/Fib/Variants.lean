import RcuFib.Fib.Seqlock
import RcuFib.Trie.Publication

/-! The four forwarding tables (`include/rcufib/fib.hpp`) in the hands of one thread.

    A call is run to its end, with `fuel` for its loops. Nobody else holds a lock or moves the
    sequence, and what the trie hands to its reclaimer does not come back to it, so three of the four
    do the same; the fourth raises and lowers its counter around a batch. `Fib` is what they have in
    common, with the facts a caller may rely on. -/

namespace RcuFib
open SearchGraph Routine RadixTrie

variable {w : Width} {V : Type*}

/-! ### The table a caller sees -/

/-- `r` is the content of the longest prefix of `a`, null if there is none. -/
def Matched (C : Prefix w → Option V) (a : Address w) : Option V → Prop
  | none => ∀ p : Prefix w, p.contains a → C p = none
  | some v => ∃ q : Prefix w, C q = some v ∧ q.contains a ∧
      ∀ p : Prefix w, p.contains a → C p ≠ none → p.length ≤ q.length

theorem RadixTrie.LongestMatch.matched {t : RadixTrie w V} {a : Address w} {r : Option (Box V)}
    (h : LongestMatch t.table a r) : Matched t.contents a (r.map Box.content) := by
  cases r with
  | none =>
    intro p hp
    rw [contents, h p hp]
    rfl
  | some b =>
    obtain ⟨q, hq, hqa, hmax⟩ := h
    refine ⟨q, by rw [contents, hq]; rfl, hqa, fun p hp hne => hmax p hp fun hn => hne ?_⟩
    rw [contents, hn]
    rfl

/-- The scan of a map finds the longest match in it. -/
theorem RadixTrie.referenceLookup_matched {entries : List (Sigma fun _ : Prefix w => V)}
    {M : Reference w V} (hperm : entries.Perm M.entries) (a : Address w) :
    Matched (fun p => M.lookup p) a (referenceLookup entries a) := by
  have hscan : Scanned a entries (entries.foldl (scanStep a) (-1, none)) := by
    have hnil : Scanned a [] ((-1 : Int), (none : Option V)) :=
      ⟨fun e he => absurd he List.not_mem_nil, (fun v hv => by cases hv), fun _ => rfl⟩
    simpa using scan_fold entries hnil
  have hmem : ∀ (q : Prefix w) (v : V), ⟨q, v⟩ ∈ entries ↔ M.lookup q = some v := by
    intro q v
    rw [hperm.mem_iff, ← Option.mem_def, AList.mem_lookup_iff]
  have hlongest : ∀ p : Prefix w, p.contains a → M.lookup p ≠ none →
      (p.length : Int) ≤ (entries.foldl (scanStep a) (-1, none)).1 := by
    intro p hpa hne
    obtain ⟨v, hv⟩ := Option.ne_none_iff_exists'.mp hne
    exact hscan.longest ⟨p, v⟩ ((hmem p v).mpr hv) hpa
  cases hv : referenceLookup entries a with
  | none =>
    intro p hpa
    by_contra hne
    have hlen := hlongest p hpa hne
    rw [hscan.none hv] at hlen
    omega
  | some v =>
    obtain ⟨q, hq, hqa, hlen⟩ := hscan.found v hv
    refine ⟨q, (hmem q v).mp hq, hqa, fun p hpa hne => ?_⟩
    have hle := hlongest p hpa hne
    omega

class Fib (F : Width → Type) where
  trie : ∀ {w}, F w → RadixTrie w FibEntry
  /-- No call is under way. -/
  AtRest : ∀ {w}, F w → Prop
  empty : ∀ {w}, F w
  apply : ∀ {w}, Nat → F w → List (FibUpdate w) → Option (F w × Nat)
  lookup : ∀ {w}, Nat → F w → Address w → Option (Option FibEntry)
  empty_spec : ∀ {w}, AtRest (empty : F w) ∧ (trie (empty : F w)).contents = fun _ => none
  /-- A batch ends, and has then been programmed in order. -/
  apply_spec : ∀ {w} {fib : F w}, AtRest fib → ∀ updates, ∃ fib' applied fuel₀, AtRest fib' ∧
    (trie fib').contents = (FibCall.apply updates).effect (trie fib).contents ∧
    ∀ fuel > fuel₀, apply fuel fib updates = some (fib', applied)
  /-- More fuel does not change what a batch does. -/
  apply_mono : ∀ {w} {fib : F w} {updates x} {fuel fuel' : Nat}, fuel ≤ fuel' →
    apply fuel fib updates = some x → apply fuel' fib updates = some x
  lookup_spec : ∀ {w} {fib : F w}, AtRest fib → ∀ a, ∃ r fuel₀, Matched (trie fib).contents a r ∧
    ∀ fuel > fuel₀, lookup fuel fib a = some r

/-! ### The trie alone -/

/-- The loop of `apply`. -/
def applyLoop (fuel : Nat) (t : RadixTrie w FibEntry) :
    List (FibUpdate w) → Nat → Option (RadixTrie w FibEntry × Nat)
  | [], applied => some (t, applied)
  | u :: updates, applied =>
    (u.update.run fuel t).bind fun x => applyLoop fuel x.1 updates (applied + x.2.toNat)

theorem update_spec {t : RadixTrie w V} (h : WriterInv t none) (u : Update w V) :
    ∃ t' r, WriterInv t' none ∧ t'.contents = u.effect t.contents ∧
      ∀ fuel > w.bits + 16, u.run fuel t = some (t', r) := by
  obtain ⟨M, h⟩ := h
  have hstart := writerMeasure_start t u
  cases u with
  | add p v =>
    obtain ⟨t', es, r, ⟨⟨b, hb, hrep⟩, -⟩, hrun⟩ :=
      run_of_measure (fun _ _ => insert_total) (InsertInv.start h p v)
    refine ⟨t', r, ⟨_, hrep⟩, ?_, fun fuel hf => ?_⟩
    · rw [hrep.contents_eq, h.contents_eq, map_update, Option.map_some, hb, Update.effect]
    · rw [Update.run, hrun fuel (lt_of_le_of_lt hstart hf)]
      rfl
  | withdraw p =>
    obtain ⟨t', es, r, ⟨hrep, -⟩, hrun⟩ :=
      run_of_measure (fun _ _ => erase_total) (EraseInv.start h p)
    refine ⟨t', r, ⟨_, hrep⟩, ?_, fun fuel hf => ?_⟩
    · rw [hrep.contents_eq, h.contents_eq, map_update, Option.map_none, Update.effect]
    · rw [Update.run, hrun fuel (lt_of_le_of_lt hstart hf)]
      rfl

theorem applyLoop_spec (updates : List (FibUpdate w)) :
    ∀ {t : RadixTrie w FibEntry} (applied : Nat), WriterInv t none →
      ∃ t' n, WriterInv t' none ∧ t'.contents = (FibCall.apply updates).effect t.contents ∧
        ∀ fuel > w.bits + 16, applyLoop fuel t updates applied = some (t', n) := by
  induction updates with
  | nil =>
    intro t applied h
    exact ⟨t, applied, h, rfl, fun _ _ => rfl⟩
  | cons u updates ih =>
    intro t applied h
    obtain ⟨t₁, r, h₁, hC₁, hrun₁⟩ := update_spec h u.update
    obtain ⟨t₂, n, h₂, hC₂, hrun₂⟩ := ih (applied + r.toNat) h₁
    refine ⟨t₂, n, h₂, by rw [hC₂, hC₁]; rfl, fun fuel hf => ?_⟩
    rw [applyLoop, hrun₁ fuel hf, Option.bind_some, hrun₂ fuel hf]

theorem update_run_mono {t : RadixTrie w V} {u : Update w V} {x : RadixTrie w V × Bool}
    {fuel fuel' : Nat} (hle : fuel ≤ fuel') (h : u.run fuel t = some x) : u.run fuel' t = some x := by
  cases u with
  | add p v =>
    obtain ⟨y, hy, rfl⟩ := Option.map_eq_some_iff.mp h
    rw [Update.run, run_mono hy hle]
    rfl
  | withdraw p =>
    obtain ⟨y, hy, rfl⟩ := Option.map_eq_some_iff.mp h
    rw [Update.run, run_mono hy hle]
    rfl

theorem applyLoop_mono {fuel fuel' : Nat} (hle : fuel ≤ fuel') (updates : List (FibUpdate w)) :
    ∀ {t : RadixTrie w FibEntry} {applied : Nat} {x : RadixTrie w FibEntry × Nat},
      applyLoop fuel t updates applied = some x → applyLoop fuel' t updates applied = some x := by
  induction updates with
  | nil => exact fun h => h
  | cons u updates ih =>
    intro t applied x h
    rw [applyLoop] at h ⊢
    obtain ⟨y, hy, hrest⟩ := Option.bind_eq_some_iff.mp h
    rw [update_run_mono hle hy, Option.bind_some]
    exact ih hrest

/-- A table that is a trie and nothing more. -/
@[reducible] def Fib.ofTrie (F : Width → Type) (trie : ∀ {w}, F w → RadixTrie w FibEntry)
    (mk : ∀ {w}, RadixTrie w FibEntry → F w) (hmk : ∀ {w} (t : RadixTrie w FibEntry), trie (mk t) = t) :
    Fib F where
  trie := trie
  AtRest fib := WriterInv (trie fib) none
  empty := mk .empty
  apply fuel fib updates := (applyLoop fuel (trie fib) updates 0).map fun x => (mk x.1, x.2)
  lookup fuel fib a := (RadixTrie.lookup fuel (trie fib) a).map (Option.map Box.content)
  empty_spec := fun {w} => by
    have hempty := rep_of_root_none (inv_empty (w := w) (V := FibEntry)) rfl
    rw [hmk]
    refine ⟨⟨_, hempty⟩, funext fun p => ?_⟩
    rw [contents, hempty.table_eq]
    rfl
  apply_spec := fun {w} {fib} h updates => by
    obtain ⟨t', n, h', hC, hrun⟩ := applyLoop_spec updates 0 h
    refine ⟨mk t', n, w.bits + 16, by rwa [hmk], by rw [hmk, hC], fun fuel hf => ?_⟩
    rw [hrun fuel hf]
    rfl
  apply_mono := fun hle h => by
    obtain ⟨y, hy, rfl⟩ := Option.map_eq_some_iff.mp h
    rw [applyLoop_mono hle _ hy]
    rfl
  lookup_spec := fun {w} {fib} h a => by
    obtain ⟨M, hrep⟩ := h
    obtain ⟨_, _, r, ⟨-, hr⟩, hrun⟩ := run_lookup hrep.inv a
    refine ⟨_, 2 * w.bits + 3, hr.matched, fun fuel hf => ?_⟩
    rw [RadixTrie.lookup, hrun fuel hf]
    rfl

/-! ### The variants -/

/-- `mutex_fib`: `apply` goes through `apply_locked`. -/
structure MutexFib (w : Width) where
  trie : RadixTrie w FibEntry

instance : Fib MutexFib := .ofTrie _ MutexFib.trie MutexFib.mk fun _ => rfl

structure SharedMutexFib (w : Width) where
  trie : RadixTrie w FibEntry

instance : Fib SharedMutexFib := .ofTrie _ SharedMutexFib.trie SharedMutexFib.mk fun _ => rfl

set_option linter.dupNamespace false in
/-- `rcu_fib`: a lookup opens and closes a `read_guard` around the walk. -/
structure RcuFib (w : Width) where
  trie : RadixTrie w FibEntry

instance : Fib RcuFib := .ofTrie _ RcuFib.trie RcuFib.mk fun _ => rfl

/-! ### `seqlock_fib` -/

namespace Seqlock

variable {fib : SeqlockFib w} {log : List (FibCall w)} {c : FibCall w} {a : Address w}

def sectionMeasure (s : SeqlockFib w) : SectionPc w → Nat
  | .raise updates => updates.length * (w.bits + 18) + 2
  | .update pc rest _ => rest.length * (w.bits + 18) + writerMeasure s.trie pc + 2
  | .lower _ => 1
  | .unlock _ => 0

theorem proceed_measure (s : SeqlockFib w) (updates : List (Update w FibEntry)) (applied : Nat) :
    sectionMeasure s (.proceed updates applied) ≤ updates.length * (w.bits + 18) + 1 := by
  cases updates with
  | nil => simp only [SectionPc.proceed, sectionMeasure]; omega
  | cons u rest =>
    have hstart := writerMeasure_start s.trie u
    simp only [SectionPc.proceed, sectionMeasure, List.length_cons, Nat.succ_mul]
    omega

theorem section_measure {pc : SectionPc w} (h : SectionInv fib log (some (c, pc))) :
    (sectionStep fib pc).Sat (fun fib' pc' => sectionMeasure fib' pc' < sectionMeasure fib pc)
      (fun _ _ => True) := by
  cases pc with
  | raise updates => exact Nat.lt_succ_of_le (proceed_measure _ updates 0)
  | update pc rest applied =>
    obtain ⟨-, past, u, -, hu⟩ := h
    have hmeas := writer_measure hu.writerInv
    simp only [sectionStep]
    cases ho : writerStep fib.trie pc with
    | next t pc' =>
      rw [ho] at hmeas
      simp only [Outcome.sat_next, sectionMeasure] at hmeas ⊢
      omega
    | call t e pc' =>
      rw [ho] at hmeas
      simp only [Outcome.sat_call, sectionMeasure] at hmeas ⊢
      omega
    | done t r =>
      have hle := proceed_measure { fib with trie := t } rest (applied + r.toNat)
      simp only [Outcome.sat_next, sectionMeasure] at hle ⊢
      omega
  | lower => exact Nat.zero_lt_one
  | unlock => trivial

/-- The log once the call has lowered the counter. -/
def closing (log : List (FibCall w)) (c : FibCall w) : SectionPc w → List (FibCall w)
  | .unlock _ => log ++ [c]
  | _ => log

theorem closing_step (pc : SectionPc w) : (sectionStep fib pc).Sat
    (fun _ pc' => noted (closing log c pc) c pc = closing log c pc')
    (fun _ _ => noted (closing log c pc) c pc = log ++ [c]) := by
  have hproceed : ∀ updates applied, closing log c (.proceed updates applied) = log := by
    rintro (_ | ⟨u, updates⟩) applied <;> rfl
  cases pc with
  | raise updates => exact (hproceed updates 0).symm
  | update pc rest applied =>
    simp only [sectionStep]
    cases writerStep fib.trie pc with
    | next => rfl
    | call => rfl
    | done => exact (hproceed rest _).symm
  | lower => rfl
  | unlock => rfl

/-- A call alone: it ends, with the whole of it programmed. -/
theorem run_section (h : Settled fib log) (c : FibCall w) :
    ∃ fib' es applied, Settled fib' (log ++ [c]) ∧
      ∀ fuel > sectionMeasure fib (.raise c.updates),
        run sectionStep fuel fib (.raise c.updates) = some (fib', es, applied) := by
  have hstep : ∀ (s : SeqlockFib w) pc, SectionInv s (closing log c pc) (some (c, pc)) →
      (sectionStep s pc).Sat
        (fun s' pc' => SectionInv s' (closing log c pc') (some (c, pc')) ∧
          sectionMeasure s' pc' < sectionMeasure s pc)
        (fun s' _ => Settled s' (log ++ [c])) := by
    intro s pc hpc
    have hclosing : (sectionStep s pc).Sat
        (fun _ pc' => noted (closing log c pc) c pc = closing log c pc')
        (fun _ _ => noted (closing log c pc) c pc = log ++ [c]) := closing_step pc
    refine ((hclosing.and (section_step hpc)).and (section_measure hpc)).mono ?_ ?_
    · rintro s' pc' ⟨⟨hlog, hinv, -⟩, hlt⟩
      exact ⟨hlog ▸ hinv, hlt⟩
    · rintro s' applied ⟨⟨hlog, hinv, -⟩, -⟩
      exact hlog ▸ hinv
  exact run_of_measure hstep (i := .raise c.updates) ⟨h, rfl⟩

/-- Where a visit alone is: it never gives up. -/
def AloneInv (fib₀ : SeqlockFib w) (a : Address w) (fib : SeqlockFib w) : VisitPc → Prop
  | .before => fib = fib₀
  | .walk before pc => fib = fib₀ ∧ before = fib₀.load ∧ LookupInv fib₀.trie a fib.trie pc
  | .check before entry => fib = fib₀ ∧ before = fib₀.load ∧
      LongestMatch fib₀.trie.table a entry
  | .busy => False
  | .stale => False

def visitMeasure (fib : SeqlockFib w) : VisitPc → Nat
  | .before => 2 * w.bits + 6
  | .walk _ pc => lookupMeasure fib.trie pc + 2
  | .check _ _ => 1
  | .busy => 0
  | .stale => 0

theorem run_visit (h : Settled fib log) (a : Address w) :
    ∃ fib' es entry, LongestMatch fib.trie.table a entry ∧
      ∀ fuel > 2 * w.bits + 6, run (visitStep a) fuel fib .before = some (fib', es, entry) := by
  have hstep : ∀ (s : SeqlockFib w) pc, AloneInv fib a s pc → (visitStep a s pc).Sat
      (fun s' pc' => AloneInv fib a s' pc' ∧ visitMeasure s' pc' < visitMeasure s pc)
      (fun _ entry => LongestMatch fib.trie.table a entry) := by
    intro s pc hpc
    cases pc with
    | before =>
      obtain rfl := hpc
      have heven : s.load % 2 = 0 := by
        have := h.even
        rw [SeqlockFib.load]
        omega
      simp only [visitStep, heven, ne_eq, not_true_eq_false, if_false]
      exact ⟨⟨rfl, rfl, lookupInv_root⟩, Nat.lt_succ_self _⟩
    | walk before pc =>
      obtain ⟨rfl, rfl, hlook⟩ := hpc
      have hok := lookup_step h.idle.inv hlook
      simp only [visitStep]
      cases ho : lookupStep a s.trie pc with
      | next t' pc' =>
        rw [ho] at hok
        obtain ⟨hlook', hlt⟩ := hok
        obtain rfl := hlook'.1
        exact ⟨⟨rfl, rfl, hlook'⟩, Nat.add_lt_add_right hlt 2⟩
      | call t' e => exact e.elim
      | done t' entry =>
        rw [ho] at hok
        obtain ⟨rfl, hmatch⟩ := hok
        exact ⟨⟨rfl, rfl, hmatch⟩, Nat.lt_add_left _ (Nat.lt_succ_self 1)⟩
    | check before entry =>
      obtain ⟨rfl, rfl, hmatch⟩ := hpc
      simp only [visitStep, if_true]
      exact hmatch
    | busy => exact hpc.elim
    | stale => exact hpc.elim
  exact run_of_measure hstep (i := .before) rfl

end Seqlock

open Seqlock in
instance : Fib SeqlockFib where
  trie := SeqlockFib.trie
  AtRest fib := ∃ log, Settled fib log
  empty := .empty
  apply fuel fib updates :=
    (run sectionStep fuel fib (.raise (FibCall.apply updates).updates)).map fun x => (x.1, x.2.2)
  lookup fuel fib a := (run (visitStep a) fuel fib .before).map fun x => x.2.2.map Box.content
  empty_spec := fun {w} => ⟨⟨[], inv_init (T := Unit)⟩, (inv_init (T := Unit)).contents⟩
  apply_spec := fun {w} {fib} ⟨log, h⟩ updates => by
    obtain ⟨fib', es, applied, h', hrun⟩ := run_section h (.apply updates)
    refine ⟨fib', applied, _, ⟨_, h'⟩, ?_, fun fuel hf => by rw [hrun fuel hf]; rfl⟩
    rw [h'.contents, programmed_snoc, h.contents]
  apply_mono := fun hle h => by
    obtain ⟨y, hy, rfl⟩ := Option.map_eq_some_iff.mp h
    rw [run_mono hy hle]
    rfl
  lookup_spec := fun {w} {fib} ⟨log, h⟩ a => by
    obtain ⟨fib', es, entry, hmatch, hrun⟩ := run_visit h a
    exact ⟨_, _, hmatch.matched, fun fuel hf => by rw [hrun fuel hf]; rfl⟩

end RcuFib

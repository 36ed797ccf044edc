import RcuFib.Fib.Route
import RcuFib.Trie.History
import RcuFib.Trie.Ownership
import RcuFib.Library.Sections
import Mathlib.Tactic.IntervalCases

/-! `mutex_fib` and `shared_mutex_fib` (`include/rcufib/fib.hpp`) in the hands of many threads.

    Every call of the two tables is one critical section around an operation of the trie, taken one
    access at a time; the second lets `visit`, `lookup` and `size` share the lock. Both are instances of
    one monitor. What a call does alone is told against a map of prefixes to entries. -/

namespace RcuFib
open SearchGraph Routine Trace RadixTrie Monitor

variable {w : Width}

inductive LockedCall (w : Width) where
  | visit (a : Address w)
  | lookup (a : Address w)
  | insert (p : Prefix w) (entry : FibEntry)
  | erase (p : Prefix w)
  | apply (updates : List (FibUpdate w))
  | size

inductive Answer where
  /-- what `visit` hands to its callback -/
  | visited (entry : Option (Box FibEntry))
  | found (entry : Option FibEntry)
  | changed (result : Bool)
  | applied (count : Nat)
  | counted (size : Nat)
  deriving DecidableEq

inductive LockedPc (w : Width) where
  /-- `trie_.lookup(address)` -/
  | walk (a : Address w) (pc : LookupPc FibEntry)
  /-- `return *entry` -/
  | copy (entry : Option (Box FibEntry))
  /-- `trie_.insert` or `trie_.erase` of the call of that name -/
  | single (pc : WriterPc w FibEntry)
  /-- an update of `apply` -/
  | batch (pc : WriterPc w FibEntry) (rest : List (Update w FibEntry)) (applied : Nat)
  /-- `return applied` -/
  | applied (count : Nat)
  /-- `trie_.size()` -/
  | size

namespace LockedPc

/-- The loop of `apply` goes on to the next update. -/
def proceed : List (Update w FibEntry) → Nat → LockedPc w
  | [], count => .applied count
  | u :: rest, count => .batch u.start rest count

end LockedPc

namespace LockedCall

def start : LockedCall w → LockedPc w
  | visit a | lookup a => .walk a .root
  | insert p entry => .single (Update.add p entry).start
  | erase p => .single (Update.withdraw p : Update w FibEntry).start
  | apply updates => .proceed (updates.map FibUpdate.update) 0
  | size => .size

def isLookup : LockedCall w → Bool
  | lookup _ => true
  | _ => false

/-- `shared_mutex_fib` takes a `std::shared_lock` for these. -/
def isReader : LockedCall w → Bool
  | visit _ | lookup _ | size => true
  | _ => false

/-- One access inside the lock. -/
def step (c : LockedCall w) (t : RadixTrie w FibEntry) :
    LockedPc w → Outcome (RadixTrie w FibEntry) (LockedPc w) (Retired FibEntry) Answer
  | .walk a pc =>
    match lookupStep a t pc with
    | .next t pc' => .next t (.walk a pc')
    | .done t entry => if c.isLookup then .next t (.copy entry) else .done t (.visited entry)
  | .copy entry => .done t (.found (entry.map Box.content))
  | .single pc =>
    match writerStep t pc with
    | .next t pc' => .next t (.single pc')
    | .call t x pc' => .call t x (.single pc')
    | .done t r => .done t (.changed r)
  | .batch pc rest count =>
    match writerStep t pc with
    | .next t pc' => .next t (.batch pc' rest count)
    | .call t x pc' => .call t x (.batch pc' rest count)
    | .done t r => .next t (.proceed rest (count + r.toNat))
  | .applied count => .done t (.applied count)
  | .size => .done t (.counted t.size)

end LockedCall

inductive Locking where
  | mutex | sharedMutex
  deriving DecidableEq

/-- `mutex_fib` or `shared_mutex_fib`. -/
def Locking.calls (l : Locking) (w : Width) :
    Calls (LockedCall w) (RadixTrie w FibEntry) (LockedPc w) (Retired FibEntry) Answer where
  start := LockedCall.start
  step := LockedCall.step
  shares c := decide (l = .sharedMutex) && c.isReader

abbrev LockedFib (T : Type*) (w : Width) :=
  System T (LockedCall w) (RadixTrie w FibEntry) (LockedPc w) (Retired FibEntry) Answer

/-! ### What the calls do to a map -/

namespace RadixTrie
variable {V : Type*}

def Update.op : Update w V → Op w V
  | add p value => .insert p value
  | withdraw p => .erase p

/-- What the update reports. -/
def Update.reports (M : Reference w V) : Update w V → Bool
  | add p _ => (M.lookup p).isNone
  | withdraw p => (M.lookup p).isSome

def Update.after (M : Reference w V) (us : List (Update w V)) : Reference w V :=
  us.foldl (fun M u => u.op.apply M) M

/-- How many updates of a batch report a change. -/
def Update.changes (M : Reference w V) : List (Update w V) → Nat
  | [] => 0
  | u :: us => (u.reports M).toNat + Update.changes (u.op.apply M) us

theorem Update.after_append (M : Reference w V) (us us' : List (Update w V)) :
    Update.after M (us ++ us') = Update.after (Update.after M us) us' := List.foldl_append ..

theorem Update.changes_append (us' : List (Update w V)) : ∀ (us : List (Update w V)) (M : Reference w V),
    Update.changes M (us ++ us') = Update.changes M us + Update.changes (Update.after M us) us' := by
  intro us
  induction us with
  | nil => intro M; simp [changes, after]
  | cons u us ih =>
    intro M
    rw [List.cons_append, changes, changes, ih, Nat.add_assoc]
    rfl

/-- The writer is at `pc` of the update `u`, which it began on a trie that held the map `M`. -/
def Applying (M : Reference w V) (u : Update w V) (t : RadixTrie w V) : WriterPc w V → Prop
  | .insert p pc => ∃ T v, u = .add p v ∧ InsertInv T p v t pc ∧
      ∀ q, (T q).map Box.content = M.lookup q
  | .erase p pc => ∃ T t₀, u = .withdraw p ∧ EraseInv t₀ T p t pc ∧
      ∀ q, (T q).map Box.content = M.lookup q

variable {t : RadixTrie w V} {M : Reference w V} {u : Update w V} {pc : WriterPc w V}

theorem Applying.start (h : t.Represents M) (u : Update w V) : Applying M u t u.start := by
  obtain ⟨T, hrep, hT⟩ := h
  cases u with
  | add p v => exact ⟨T, v, rfl, .start hrep p v, hT⟩
  | withdraw p => exact ⟨T, t, rfl, .start hrep p, hT⟩

theorem Applying.writerInv (h : Applying M u t pc) : WriterInv t (some pc) := by
  cases pc with
  | insert p pc => obtain ⟨T, v, -, h, -⟩ := h; exact ⟨T, v, h⟩
  | erase p pc => obtain ⟨T, t₀, -, h, -⟩ := h; exact ⟨T, t₀, h⟩

/-- An update under way ends with the map updated and says whether that changed it. -/
theorem applying_step (h : Applying M u t pc) : (writerStep t pc).Sat
    (fun t' pc' => Applying M u t' pc')
    (fun t' r => t'.Represents (u.op.apply M) ∧ r = u.reports M) := by
  cases pc with
  | insert p pc =>
    obtain ⟨T, v, rfl, h, hT⟩ := h
    rw [writerStep, Outcome.sat_map]
    refine (insert_total h).mono (fun t' pc' h => ⟨T, v, rfl, h.1, hT⟩) ?_
    rintro t' r ⟨⟨b, hb, hrep⟩, rfl⟩
    refine ⟨⟨_, hrep, lookup_update hT ?_ fun q hq => AList.lookup_insert_ne hq⟩, ?_⟩
    · rw [Option.map_some, hb]
      exact AList.lookup_insert _
    · rw [Update.reports, ← hT, Option.isNone_map]
  | erase p pc =>
    obtain ⟨T, t₀, rfl, h, hT⟩ := h
    rw [writerStep, Outcome.sat_map]
    refine (erase_total h).mono (fun t' pc' h => ⟨T, t₀, rfl, h.1, hT⟩) ?_
    rintro t' r ⟨hrep, rfl, -⟩
    refine ⟨⟨_, hrep, lookup_update hT ?_ fun q hq => AList.lookup_erase_ne hq⟩, ?_⟩
    · exact AList.lookup_erase _ _
    · exact isSome_table hT p

end RadixTrie

namespace LockedCall

def post : LockedCall w → Reference w FibEntry → Reference w FibEntry
  | insert p entry, M => M.insert p entry
  | erase p, M => M.erase p
  | apply updates, M => Update.after M (updates.map FibUpdate.update)
  | _, M => M

/-- `visit` and `lookup` get the entry of the longest prefix of the address; the others report how the
    map changes. -/
def Answers (M : Reference w FibEntry) : LockedCall w → Answer → Prop
  | visit a, .visited entry => entry.map Box.content = referenceLookup M.entries a
  | lookup a, .found entry => entry = referenceLookup M.entries a
  | insert p _, .changed r => r = (M.lookup p).isNone
  | erase p, .changed r => r = (M.lookup p).isSome
  | apply updates, .applied n => n = Update.changes M (updates.map FibUpdate.update)
  | size, .counted n => n = M.keys.length
  | _, _ => False

/-- The update of a call that makes one. -/
def update? : LockedCall w → Option (Update w FibEntry)
  | insert p entry => some (.add p entry)
  | erase p => some (.withdraw p)
  | _ => none

variable {c : LockedCall w} {M : Reference w FibEntry} {t : RadixTrie w FibEntry}

/-- Where a call that was begun on a trie holding `M` can be. -/
def At (c : LockedCall w) (M : Reference w FibEntry) (t : RadixTrie w FibEntry) : LockedPc w → Prop
  | .walk a pc => (c = .visit a ∨ c = .lookup a) ∧ t.Represents M ∧ LookupInv t a t pc
  | .copy entry => ∃ a, c = .lookup a ∧ t.Represents M ∧ LongestMatch t.table a entry
  | .single pc => ∃ u, c.update? = some u ∧ Applying M u t pc
  | .batch pc rest count => ∃ updates past u, c = .apply updates ∧
      updates.map FibUpdate.update = past ++ u :: rest ∧ count = Update.changes M past ∧
      Applying (Update.after M past) u t pc
  | .applied count => ∃ updates, c = .apply updates ∧
      t.Represents (Update.after M (updates.map FibUpdate.update)) ∧
      count = Update.changes M (updates.map FibUpdate.update)
  | .size => c = .size ∧ t.Represents M

theorem at_proceed {updates : List (FibUpdate w)} {past rest : List (Update w FibEntry)}
    (hsplit : updates.map FibUpdate.update = past ++ rest) (h : t.Represents (Update.after M past)) :
    At (.apply updates) M t (.proceed rest (Update.changes M past)) := by
  cases rest with
  | nil =>
    rw [List.append_nil] at hsplit
    exact ⟨updates, rfl, hsplit ▸ h, hsplit ▸ rfl⟩
  | cons u rest => exact ⟨updates, past, u, rfl, hsplit, rfl, .start h u⟩

theorem at_start (h : t.Represents M) (c : LockedCall w) : At c M t c.start := by
  cases c with
  | visit a => exact ⟨.inl rfl, h, lookupInv_root⟩
  | lookup a => exact ⟨.inr rfl, h, lookupInv_root⟩
  | insert p entry => exact ⟨_, rfl, .start h _⟩
  | erase p => exact ⟨_, rfl, .start h _⟩
  | apply updates =>
    have hnone : t.Represents (Update.after M []) := h
    exact at_proceed rfl hnone
  | size => exact ⟨rfl, h⟩

/-- The entry of the longest match is the one the scan of the map finds. -/
theorem content_of_longestMatch (h : t.Represents M) {a : Address w} {entry : Option (Box FibEntry)}
    (hm : LongestMatch t.table a entry) : entry.map Box.content = referenceLookup M.entries a := by
  obtain ⟨T, hrep, hT⟩ := h
  exact (referenceLookup_eq (List.Perm.refl _) hT (hrep.table_eq ▸ hm)).symm

theorem at_step {pc : LockedPc w} (h : At c M t pc) : (c.step t pc).Sat (fun t' pc' => At c M t' pc')
    (fun t' r => t'.Represents (c.post M) ∧ Answers M c r) := by
  cases pc with
  | walk a pc =>
    obtain ⟨hc, hrep, hlook⟩ := h
    obtain ⟨T, hr, hT⟩ := id hrep
    have hok := lookup_step hr.inv hlook
    simp only [step]
    cases ho : lookupStep a t pc with
    | next t' pc' =>
      rw [ho] at hok
      obtain ⟨hlook', -⟩ := hok
      obtain rfl := hlook'.1
      exact ⟨hc, hrep, hlook'⟩
    | call t' x => exact x.elim
    | done t' entry =>
      rw [ho] at hok
      obtain ⟨rfl, hmatch⟩ := hok
      rcases hc with rfl | rfl
      · exact ⟨hrep, content_of_longestMatch hrep hmatch⟩
      · exact ⟨a, rfl, hrep, hmatch⟩
  | copy entry =>
    obtain ⟨a, rfl, hrep, hmatch⟩ := h
    exact ⟨hrep, content_of_longestMatch hrep hmatch⟩
  | single pc =>
    obtain ⟨u, hu, happ⟩ := h
    have hok := applying_step happ
    simp only [step]
    cases ho : writerStep t pc with
    | next t' pc' => rw [ho] at hok; exact ⟨u, hu, hok⟩
    | call t' x pc' => rw [ho] at hok; exact ⟨u, hu, hok⟩
    | done t' r =>
      rw [ho] at hok
      obtain ⟨hrep, rfl⟩ := hok
      cases c with
      | insert p entry =>
        obtain rfl := Option.some.inj hu
        exact ⟨hrep, rfl⟩
      | erase p =>
        obtain rfl := Option.some.inj hu
        exact ⟨hrep, rfl⟩
      | visit | lookup | apply | size => cases hu
  | batch pc rest count =>
    obtain ⟨updates, past, u, rfl, hsplit, rfl, happ⟩ := h
    have hok := applying_step happ
    simp only [step]
    cases ho : writerStep t pc with
    | next t' pc' => rw [ho] at hok; exact ⟨updates, past, u, rfl, hsplit, rfl, hok⟩
    | call t' x pc' => rw [ho] at hok; exact ⟨updates, past, u, rfl, hsplit, rfl, hok⟩
    | done t' r =>
      rw [ho] at hok
      obtain ⟨hrep, rfl⟩ := hok
      have hafter : u.op.apply (Update.after M past) = Update.after M (past ++ [u]) := by
        rw [Update.after_append]
        rfl
      have hcount : Update.changes M past + (u.reports (Update.after M past)).toNat =
          Update.changes M (past ++ [u]) := by
        rw [Update.changes_append]
        simp [Update.changes]
      rw [Outcome.sat_next, hcount]
      refine at_proceed ?_ (hafter ▸ hrep)
      rw [hsplit, List.append_assoc, List.singleton_append]
  | applied count =>
    obtain ⟨updates, rfl, hrep, hcount⟩ := h
    exact ⟨hrep, hcount⟩
  | size =>
    obtain ⟨rfl, hrep⟩ := h
    exact ⟨hrep, size_spec hrep⟩

/-- A reader is at a position of a reader. -/
theorem at_reader {pc : LockedPc w} (hc : c.isReader = true) (h : At c M t pc) :
    t.Represents M ∧ (c.step t pc).effects = [] ∧
      (c.step t pc).Sat (fun t' _ => t' = t) (fun t' _ => t' = t) := by
  cases pc with
  | walk a pc =>
    obtain ⟨-, hrep, -⟩ := h
    have hsame : (lookupStep a t pc).Sat (fun t' _ => t' = t) (fun t' _ => t' = t) := lookup_trie pc
    refine ⟨hrep, ?_⟩
    simp only [step]
    cases ho : lookupStep a t pc with
    | next t' pc' => rw [ho] at hsame; exact ⟨rfl, hsame⟩
    | call t' x => exact x.elim
    | done t' entry =>
      rw [ho] at hsame
      simp only
      split
      · exact ⟨rfl, hsame⟩
      · exact ⟨rfl, hsame⟩
  | copy entry =>
    obtain ⟨a, -, hrep, -⟩ := h
    exact ⟨hrep, rfl, rfl⟩
  | single pc =>
    obtain ⟨u, hu, -⟩ := h
    cases c with
    | insert | erase | apply => cases hc
    | visit | lookup | size => cases hu
  | batch pc rest count =>
    obtain ⟨updates, past, u, rfl, -⟩ := h
    cases hc
  | applied count =>
    obtain ⟨updates, rfl, -⟩ := h
    cases hc
  | size => exact ⟨h.2, rfl, rfl⟩

theorem post_reader (hc : c.isReader = true) (M : Reference w FibEntry) : c.post M = M := by
  cases c with
  | insert | erase | apply => cases hc
  | visit | lookup | size => rfl

end LockedCall

/-- What the calls of both tables do, each alone. -/
def Locking.contract (l : Locking) (w : Width) : Contract (l.calls w) (Reference w FibEntry) where
  Rep := RadixTrie.Represents
  At := LockedCall.At
  post := LockedCall.post
  answers c M := LockedCall.Answers M c
  start h := LockedCall.at_start h _
  step h := LockedCall.at_step h
  shared hs h := by
    obtain ⟨-, hc⟩ := (Bool.and_eq_true ..).mp hs
    obtain ⟨hrep, hnone, hsame⟩ := LockedCall.at_reader hc h
    exact ⟨hrep, LockedCall.post_reader hc _, hnone, hsame⟩

/-! ### How long a call takes inside the lock -/

theorem lookupMeasure_le (t : RadixTrie w FibEntry) (pc : LookupPc FibEntry) :
    lookupMeasure t pc ≤ 2 * w.bits + 3 := by
  cases pc <;> simp only [lookupMeasure] <;> omega

theorem writerMeasure_le (t : RadixTrie w FibEntry) (pc : WriterPc w FibEntry) :
    writerMeasure t pc ≤ w.bits + 16 := by
  cases pc with
  | insert p pc => cases pc <;> simp only [writerMeasure, insertMeasure] <;> omega
  | erase p pc => cases pc <;> simp only [writerMeasure, eraseMeasure] <;> omega

namespace LockedCall

def steps (t : RadixTrie w FibEntry) : LockedPc w → Nat
  | .walk _ pc => lookupMeasure t pc + 1
  | .single pc => writerMeasure t pc
  | .batch pc rest _ => rest.length * (w.bits + 18) + writerMeasure t pc + 1
  | .copy _ | .applied _ | .size => 0

/-- The actions of a call from the lock to the unlock, at most. -/
def bound : LockedCall w → Nat
  | visit _ | lookup _ => 2 * w.bits + 6
  | insert _ _ | erase _ => w.bits + 18
  | apply updates => updates.length * (w.bits + 18) + 2
  | size => 2

variable {c : LockedCall w} {M : Reference w FibEntry} {t : RadixTrie w FibEntry} {pc : LockedPc w}

theorem steps_proceed (t : RadixTrie w FibEntry) (rest : List (Update w FibEntry)) (count : Nat) :
    steps t (.proceed rest count) ≤ rest.length * (w.bits + 18) := by
  cases rest with
  | nil => exact Nat.zero_le _
  | cons u rest =>
    have hstart := writerMeasure_start t u
    simp only [LockedPc.proceed, steps, List.length_cons, Nat.succ_mul]
    omega

theorem steps_step (h : At c M t pc) :
    (c.step t pc).Sat (fun t' pc' => steps t' pc' < steps t pc) (fun _ _ => True) := by
  cases pc with
  | walk a pc =>
    obtain ⟨-, ⟨T, hr, -⟩, hlook⟩ := h
    have hok := lookup_step hr.inv hlook
    simp only [step]
    cases ho : lookupStep a t pc with
    | next t' pc' => rw [ho] at hok; exact Nat.add_lt_add_right hok.2 1
    | call t' x => exact x.elim
    | done t' entry =>
      simp only
      split
      · exact Nat.succ_pos _
      · trivial
  | single pc =>
    obtain ⟨u, -, happ⟩ := h
    have hmeas := writer_measure happ.writerInv
    simp only [step]
    cases ho : writerStep t pc with
    | next t' pc' => rw [ho] at hmeas; exact hmeas
    | call t' x pc' => rw [ho] at hmeas; exact hmeas
    | done => trivial
  | batch pc rest count =>
    obtain ⟨updates, past, u, -, -, -, happ⟩ := h
    have hmeas := writer_measure happ.writerInv
    simp only [step]
    cases ho : writerStep t pc with
    | next t' pc' =>
      rw [ho] at hmeas
      simp only [Outcome.sat_next, steps] at hmeas ⊢
      omega
    | call t' x pc' =>
      rw [ho] at hmeas
      simp only [Outcome.sat_call, steps] at hmeas ⊢
      omega
    | done t' r =>
      have hle := steps_proceed t' rest (count + r.toNat)
      simp only [Outcome.sat_next, steps] at hle ⊢
      omega
  | copy | applied | size => trivial

/-- Wherever a call is, it has no more left than its bound. -/
theorem steps_le (h : At c M t pc) : steps t pc + 2 ≤ c.bound := by
  cases pc with
  | walk a pc =>
    have hle := lookupMeasure_le t pc
    obtain ⟨rfl | rfl, -, -⟩ := h
    · simp only [steps, bound]; omega
    · simp only [steps, bound]; omega
  | copy entry =>
    obtain ⟨a, rfl, -, -⟩ := h
    simp only [steps, bound]; omega
  | single pc =>
    have hle := writerMeasure_le t pc
    obtain ⟨u, hu, -⟩ := h
    cases c with
    | insert p entry => simp only [steps, bound]; omega
    | erase p => simp only [steps, bound]; omega
    | visit | lookup | apply | size => cases hu
  | batch pc rest count =>
    have hle := writerMeasure_le t pc
    obtain ⟨updates, past, u, rfl, hsplit, -, -⟩ := h
    have hlen := congrArg List.length hsplit
    simp only [List.length_map, List.length_append, List.length_cons] at hlen
    have hmul : (rest.length + 1) * (w.bits + 18) ≤ updates.length * (w.bits + 18) :=
      Nat.mul_le_mul_right _ (by omega)
    rw [Nat.succ_mul] at hmul
    simp only [steps, bound]
    omega
  | applied count =>
    obtain ⟨updates, rfl, -, -⟩ := h
    simp only [steps, bound]; omega
  | size =>
    obtain ⟨rfl, -⟩ := h
    simp only [steps, bound]; omega

end LockedCall

def Locking.measure (l : Locking) (w : Width) : System.Measure (l.contract w) where
  steps _ := LockedCall.steps
  step h := LockedCall.steps_step h

/-! ### Many threads -/

section threads
variable {T : Type*} [DecidableEq T] {l : Locking} {r : Nat → LockedFib T w} {n : Nat} {τ : T}

/-- Both tables are linearizable. In any run every call is entered into the log once, between its start
    and its return, with the answer that the map gives which the calls entered before it have made. -/
theorem locked_linearizable (h : Run (System.act (l.calls w)) (System.init .empty) r n)
    {c : LockedCall w} {x : Answer} {i₀ : Nat} (hs : System.CallSpan r τ c x i₀ n) :
    (l.contract w).Legal ∅ (r n).log ∧ (∀ i j, i ≤ j → j ≤ n → (r i).log <+: (r j).log) ∧
    ∃ k, i₀ ≤ k ∧ k < n ∧ (r (k + 1)).log = (r k).log ++ [(τ, c, x)] ∧
      LockedCall.Answers ((l.contract w).value ∅ (r k).log) c x ∧
      ∀ j, i₀ ≤ j → j < n → System.Enters r τ j → j = k := by
  obtain ⟨hlegal, hpoint⟩ := System.linearization_point (K := l.contract w) h represents_empty hs
  exact ⟨hlegal, fun i j hij hj => System.log_prefix h hij hj, hpoint⟩

/-- A default route is inserted while a lookup waits for the mutex. -/
def overtaken : Nat → LockedFib Bool .ipv4 :=
  play (System.act (Locking.mutex.calls .ipv4)) (System.init .empty) <|
  [.call false (.insert (.make (.zero .ipv4) 0 Width.zero_le_ipv4) .zero),
    .call true (.lookup (.fromV4 10)), .lock false] ++
  List.replicate 8 (.step false) ++ [.unlock false, .lock true] ++ List.replicate 4 (.step true) ++
  [.unlock true]

theorem locked_linearizable_overtaken :
    (Locking.mutex.contract .ipv4).Legal ∅ (overtaken 18).log ∧
    (∀ i j, i ≤ j → j ≤ 18 → (overtaken i).log <+: (overtaken j).log) ∧
    ∃ k, 2 ≤ k ∧ k < 18 ∧
      (overtaken (k + 1)).log = (overtaken k).log ++ [(true, .lookup (.fromV4 10), .found (some .zero))] ∧
      LockedCall.Answers ((Locking.mutex.contract .ipv4).value ∅ (overtaken k).log)
        (.lookup (.fromV4 10)) (.found (some .zero)) ∧
      ∀ j, 2 ≤ j → j < 18 → System.Enters overtaken true j → j = k := by
  refine locked_linearizable (n := 18) (run_play (by rfl)) ⟨by decide, by rfl, ?_, by rfl⟩
  intro i h₀ hi
  interval_cases i <;> rfl

/-- No call of the two tables is stuck. However the threads take turns, a thread that has the lock has
    returned after so many actions of its own; and a thread that waits for the lock can be served by
    actions of its own and of those that have it. -/
theorem locked_calls_return (h : Run (System.act (l.calls w)) (System.init .empty) r n) {i : Nat}
    (hi : i ≤ n) (c : LockedCall w) :
    (((r i).client τ).held = some c → ∀ as s', exec (System.act (l.calls w)) (r i) as = some s' →
      c.bound ≤ as.countP (fun a => a.thread = τ) →
      ∃ as₁ as₂ s₁ x, as = as₁ ++ as₂ ∧ exec (System.act (l.calls w)) (r i) as₁ = some s₁ ∧
        s₁.client τ = .returned c x) ∧
    ((r i).client τ = .waiting c → ∃ as s' x, exec (System.act (l.calls w)) (r i) as = some s' ∧
      s'.client τ = .returned c x ∧
      ∀ a ∈ as, a.thread = τ ∨ ∃ c', ((r i).client a.thread).held = some c') := by
  have hinv := System.inv_run (K := l.contract w) h represents_empty i hi
  constructor
  · intro hc as s' hexec hle
    refine System.section_ends (m := l.measure w) hinv hc hexec (Nat.le_trans ?_ hle)
    cases hτ : (r i).client τ with
    | inside c' pc =>
      rw [hτ] at hc
      obtain rfl := Option.some.inj hc
      simp only [System.left, hτ]
      exact LockedCall.steps_le (hinv.inside τ c' pc hτ)
    | leaving c' x =>
      simp only [System.left, hτ]
      cases c <;> simp only [LockedCall.bound] <;> omega
    | idle | waiting | returned => rw [hτ] at hc; cases hc
  · intro hc
    obtain ⟨as, s', x, hexec, hret, hwho⟩ := System.drain (l.measure w) _ le_rfl hinv hc
    refine ⟨as, s', x, hexec, hret, fun a ha => (hwho a ha).imp id fun hmem => ?_⟩
    exact hinv.held.mem_holders.mp hmem

/-- One thread has the mutex for `size`, another waits to look up. -/
def occupied : Nat → LockedFib Bool .ipv4 :=
  play (System.act (Locking.mutex.calls .ipv4)) (System.init .empty)
    [.call false .size, .call true (.lookup (.fromV4 10)), .lock false]

theorem locked_calls_return_occupied :
    (∃ as₁ as₂ s₁ x, [.step false, .unlock false] = as₁ ++ as₂ ∧
      exec (System.act (Locking.mutex.calls .ipv4)) (occupied 3) as₁ = some s₁ ∧
      s₁.client false = .returned .size x) ∧
    ∃ as s' x, exec (System.act (Locking.mutex.calls .ipv4)) (occupied 3) as = some s' ∧
      s'.client true = .returned (.lookup (.fromV4 10)) x ∧
      ∀ a ∈ as, a.thread = true ∨ ∃ c', ((occupied 3).client a.thread).held = some c' :=
  ⟨(locked_calls_return (n := 3) (run_play (by rfl)) le_rfl .size).1 rfl _ _ rfl (by decide),
    (locked_calls_return (n := 3) (run_play (by rfl)) le_rfl (.lookup (.fromV4 10))).2 rfl⟩

end threads

end RcuFib

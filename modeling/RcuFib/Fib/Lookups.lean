import RcuFib.Fib.Serial
import RcuFib.Trie.Concurrent
import RcuFib.Library.Simulation

/-! What the lookups of `rcu_fib` return.

    As far as one thread's lookup is concerned, the table with its domain, its mutex and all its other
    threads does what a trie does that has one writer and that one reader (`shows_act`). So what such a
    reader is promised the readers of `rcu_fib` get as well. Where the updates meanwhile replace entries,
    and the prefixes of the address that are routed stay the same, a lookup is exact. -/

namespace RcuFib
open SearchGraph Routine Trace RadixTrie

variable {T : Type*} {w : Width}

/-- The lookup under way, with its address. -/
def RadixTrie.Reader.running? {V : Type*} : Reader w V → Option (Address w × LookupPc V)
  | .running a pc => some (a, pc)
  | _ => none

namespace Client

def running? : Client w → Option (Address w × LookupPc FibEntry)
  | walking a pc => some (a, pc)
  | _ => none

theorem running?_resume (c : Client w) : c.resume.running? = c.running? := by cases c <;> rfl

end Client

namespace Rcu
variable [DecidableEq T] {s s' : Rcu T w} {τ σ : T} {a : Address w}
  {pc : LookupPc FibEntry} {x : Shared w FibEntry}

/-! ### The trie with one reader -/

/-- The bare trie is where the table is, and its reader where the lookup of `τ` is. -/
structure Glimpses (τ : T) (s : Rcu T w) (x : Shared w FibEntry) : Prop where
  trie : x.trie = s.trie
  reader : x.reader.running? = (s.client τ).running?

/-- Its writer is where the writer is, too. Between two updates of a batch it is not. -/
structure Shows (τ : T) (s : Rcu T w) (x : Shared w FibEntry) : Prop extends Glimpses τ s x where
  writer : x.writer = s.update

omit [DecidableEq T] in
theorem Glimpses.running (hx : Glimpses τ s x)
    (hc : s.client τ = .walking a pc) : x.reader = .running a pc := by
  have hr := hx.reader
  rw [hc] at hr
  cases hxr : x.reader with
  | running b lpc =>
    rw [hxr] at hr
    obtain ⟨rfl, rfl⟩ := Prod.mk.inj (Option.some.inj hr)
    rfl
  | idle => rw [hxr] at hr; cases hr
  | returned => rw [hxr] at hr; cases hr

theorem client_self (s : Rcu T w) (σ : T) (c : Client w) : (s.setClient σ c).client σ = c :=
  Function.update_self ..

theorem client_other (s : Rcu T w) (c : Client w) (hne : τ ≠ σ) :
    (s.setClient σ c).client τ = s.client τ :=
  Function.update_of_ne hne ..

theorem running?_setClient {c : Client w} (hc : c.running? = (s.client σ).running?) (τ : T) :
    ((s.setClient σ c).client τ).running? = (s.client τ).running? := by
  rcases eq_or_ne τ σ with rfl | hne
  · rw [client_self, hc]
  · rw [client_other s c hne]

theorem running?_settle (s : Rcu T w) (σ τ : T) :
    ((s.settle σ).client τ).running? = (s.client τ).running? := by
  unfold settle
  split
  · rfl
  · exact running?_setClient (Client.running?_resume _) τ

omit [DecidableEq T] in
/-- The writer goes on to the next update of a batch. -/
theorem shows_proceed {updates : List (Update w FibEntry)} {applied : Nat} (hx : Glimpses τ s' x)
    (hnone : x.writer = none) (hupdate : s'.update = (CallPc.proceed updates applied).current) :
    Passes Shared.act (Glimpses τ s') (Shows τ s') x := by
  cases updates with
  | nil => exact .stay ⟨hx, hnone.trans hupdate.symm⟩
  | cons u rest =>
    have hact : Shared.act x (.update u) = some { x with writer := some u.start } := by
      rw [Shared.act, hnone]
      rfl
    exact .step hact ⟨hx.trie, hx.reader⟩ (.stay ⟨⟨hx.trie, hx.reader⟩, hupdate.symm⟩)

omit [DecidableEq T] in
/-- The reader takes the step of the lookup. -/
theorem shows_read {b : Address w} {lpc : LookupPc FibEntry} (hx : Shows τ s x)
    (hc : s.client τ = .walking b lpc) (htrie : s'.trie = s.trie) (hupdate : s'.update = s.update)
    (hreader : (lookupStep b s.trie lpc).Sat (fun _ lpc' => (s'.client τ).running? = some (b, lpc'))
      (fun _ _ => (s'.client τ).running? = none)) :
    Passes Shared.act (Glimpses τ s') (Shows τ s') x := by
  have hrunning := hx.running hc
  have hsame := lookup_trie (a := b) (t := s.trie) lpc
  cases ho : lookupStep b s.trie lpc with
  | next t lpc' =>
    rw [ho] at hreader hsame
    obtain rfl : t = s.trie := hsame
    have hact : Shared.act x .reader = some { x with trie := s.trie, reader := .running b lpc' } := by
      rw [Shared.act, hrunning]
      simp only [hx.trie, ho]
    exact .step hact ⟨htrie.symm, hreader.symm⟩
      (.stay ⟨⟨htrie.symm, hreader.symm⟩, hx.writer.trans hupdate.symm⟩)
  | call t e => exact e.elim
  | done t entry =>
    rw [ho] at hreader hsame
    obtain rfl : t = s.trie := hsame
    have hact : Shared.act x .reader = some { x with trie := s.trie, reader := .returned b entry } := by
      rw [Shared.act, hrunning]
      simp only [hx.trie, ho]
    exact .step hact ⟨htrie.symm, hreader.symm⟩
      (.stay ⟨⟨htrie.symm, hreader.symm⟩, hx.writer.trans hupdate.symm⟩)

/-- Whoever takes a step of its lookup, the reader does so if it is `τ`. -/
theorem shows_turn {b : Address w} {lpc : LookupPc FibEntry} {c : Client w} (hx : Shows τ s x)
    (hc : s.client σ = .walking b lpc) (htrie : s'.trie = s.trie) (hupdate : s'.update = s.update)
    (hclient : s'.client = Function.update s.client σ c)
    (hreader : (lookupStep b s.trie lpc).Sat (fun _ lpc' => c.running? = some (b, lpc'))
      (fun _ _ => c.running? = none)) :
    Passes Shared.act (Glimpses τ s') (Shows τ s') x := by
  rcases eq_or_ne τ σ with rfl | hne
  · refine shows_read hx hc htrie hupdate ?_
    rw [hclient, Function.update_self]
    exact hreader
  · have hsame : s'.client τ = s.client τ := by
      rw [hclient, Function.update_of_ne hne]
    exact .stay ⟨⟨hx.trie.trans htrie.symm, by rw [hsame]; exact hx.reader⟩, hx.writer.trans hupdate.symm⟩

/-- What an action does to the trie and to the lookup of `τ` the bare trie and its reader can do. -/
theorem shows_act (hp : s.AllPlaced) {a : Action T w} (ha : s.act a = some s') (hx : Shows τ s x) :
    Passes Shared.act (Glimpses τ s') (Shows τ s') x := by
  have hwriter : ∀ {σ pc rest applied}, s.writer = some (σ, .update pc rest applied) →
      x.writer = some pc := by
    intro σ pc rest applied hw
    rw [hx.writer, update, hw]
    rfl
  have hnone : s.update = none → x.writer = none := fun hu => hx.writer.trans hu
  cases move_of_act ha with
  | @domain σ c e hc _ _ =>
    have hreader : ((((s.moved e).setClient σ .domain).settle σ).client τ).running? =
        (s.client τ).running? := by
      rw [running?_settle]
      exact running?_setClient (s := s.moved e) (by rw [moved, hc]; rfl) τ
    exact .stay ⟨⟨hx.trie.trans (trie_settle ((s.moved e).setClient σ .domain) σ).symm,
      hx.reader.trans hreader.symm⟩, hx.writer.trans (update_settle ((s.moved e).setClient σ .domain) σ).symm⟩
  | @step σ _ e _ =>
    have hreader := running?_settle (s.moved e) σ τ
    exact .stay ⟨⟨hx.trie.trans (trie_settle (s.moved e) σ).symm, hx.reader.trans hreader.symm⟩,
      hx.writer.trans (update_settle (s.moved e) σ).symm⟩
  | @lookup σ b hc _ =>
    rcases eq_or_ne τ σ with rfl | hne
    · have hr := hx.reader
      rw [hc] at hr
      have hact : Shared.act x (.lookup b) = some { x with reader := .running b .root } := by
        rw [Shared.act]
        cases hxr : x.reader with
        | running => rw [hxr] at hr; cases hr
        | idle => rfl
        | returned => rfl
      have hnew : Glimpses τ (s.setClient τ (.walking b .root)) { x with reader := .running b .root } :=
        ⟨hx.trie, by rw [client_self]; rfl⟩
      exact .step hact hnew (.stay ⟨hnew, hx.writer⟩)
    · exact .stay ⟨⟨hx.trie, by rw [client_other s _ hne]; exact hx.reader⟩, hx.writer⟩
  | @read σ b lpc t lpc' hc ho =>
    have hsame := lookup_trie (a := b) (t := s.trie) lpc
    rw [ho] at hsame
    obtain rfl : t = s.trie := hsame
    exact shows_turn hx hc rfl rfl rfl (by rw [ho]; exact rfl)
  | @found σ b lpc t entry hc ho =>
    have hsame := lookup_trie (a := b) (t := s.trie) lpc
    rw [ho] at hsame
    obtain rfl : t = s.trie := hsame
    exact shows_turn hx hc rfl rfl rfl (by rw [ho]; exact rfl)
  | @call σ c hc =>
    have hreader := running?_setClient (s := s) (σ := σ) (c := .locking c) (by rw [hc]; rfl) τ
    exact .stay ⟨⟨hx.trie, hx.reader.trans hreader.symm⟩, hx.writer⟩
  | @lock σ c hc hw =>
    have hreader := running?_setClient (s := s) (σ := σ) (c := .writing) (by rw [hc]; rfl) τ
    exact shows_proceed ⟨hx.trie, hx.reader.trans hreader.symm⟩ (hnone (by rw [update, hw]; rfl)) rfl
  | @write σ pc rest applied t pc' hw ho =>
    have hact : Shared.act x .writer = some { x with trie := t, writer := some pc' } := by
      rw [Shared.act, hwriter hw]
      simp only [hx.trie, ho]
    exact .step hact ⟨rfl, hx.reader⟩ (.stay ⟨⟨rfl, hx.reader⟩, rfl⟩)
  | @retire σ pc rest applied t y pc' e hw ho _ =>
    have hact : Shared.act x .writer = some { x with trie := t, writer := some pc' } := by
      rw [Shared.act, hwriter hw]
      simp only [hx.trie, ho]
    exact .step hact ⟨rfl, hx.reader⟩ (.stay ⟨⟨rfl, hx.reader⟩, rfl⟩)
  | @updated σ pc rest applied t r hw ho =>
    have hact : Shared.act x .writer = some { x with trie := t, writer := none } := by
      rw [Shared.act, hwriter hw]
      simp only [hx.trie, ho]
    exact .step hact ⟨rfl, hx.reader⟩ (shows_proceed ⟨rfl, hx.reader⟩ rfl rfl)
  | @unlock σ applied hw =>
    have hreader := running?_setClient (s := s) (σ := σ) (c := .idle)
      (by rw [(hp.of_unlock hw).1]; rfl) τ
    exact .stay ⟨⟨hx.trie, hx.reader.trans hreader.symm⟩, hnone (by rw [update, hw]; rfl)⟩

/-! ### Whole runs -/

/-- The lookup of `a` by `τ` that starts at `i₀`. The load it makes at `n` is its last, and `result` is what
    it returns. -/
structure LookupSpan (r : Nat → Rcu T w) (τ : T) (a : Address w) (i₀ n : Nat)
    (result : Option (Box FibEntry)) : Prop where
  le : i₀ ≤ n
  start : (r i₀).client τ = .walking a .root
  during : ∀ i, i₀ ≤ i → i ≤ n → ∃ pc, (r i).client τ = .walking a pc
  finish : ∃ pc t, (r n).client τ = .walking a pc ∧ lookupStep a (r n).trie pc = .done t result

/-- A lookup of `a` from `i₀` to `n` with this result is one of the bare trie, each moment of which is a
    moment of the lookup. -/
def BareLookup (r : Nat → Rcu T w) (a : Address w) (i₀ n : Nat) (result : Option (Box FibEntry)) : Prop :=
  ∃ (x : Nat → Shared w FibEntry) (k₀ k : Nat) (f : Nat → Nat), Run Shared.act Shared.init x k ∧
    Shared.LookupSpan x a k₀ k result ∧ Monotone f ∧
    ∀ j, k₀ ≤ j → j ≤ k → i₀ ≤ f j ∧ f j ≤ n ∧ (x j).trie = (r (f j)).trie

section runs
variable {r : Nat → Rcu T w} {n i₀ : Nat} {result : Option (Box FibEntry)}

theorem bare_lookup (h : Run act init r n) (hs : LookupSpan r τ a i₀ n result) :
    BareLookup r a i₀ n result := by
  have hinit : Shows τ (init : Rcu T w) Shared.init := ⟨⟨rfl, rfl⟩, rfl⟩
  obtain ⟨x, m, hrun, hm⟩ := h.follows (R := Shows τ) (V := Glimpses τ) hinit
    fun i hi a y ha hy => shows_act (placed_run h i hi.le) ha hy
  obtain ⟨f, hf, hmoment⟩ := hm.moment (fun _ _ hR => hR.toGlimpses) hs.le
  have hle : m i₀ ≤ m n := hm.mono i₀ n hs.le le_rfl
  -- the last load
  obtain ⟨pc, t, hc, ho⟩ := hs.finish
  have hlast := hm.related n le_rfl
  have hact : Shared.act (x (m n)) .reader = some { x (m n) with trie := t, reader := .returned a result } := by
    rw [Shared.act, hlast.running hc]
    simp only [hlast.trie, ho]
  have hsame := lookup_trie (a := a) (t := (r n).trie) pc
  rw [ho] at hsame
  obtain rfl : t = (r n).trie := hsame
  refine ⟨_, m i₀, m n + 1, fun j => f (min j (m n)), hrun.snoc hact, ⟨hle.trans (Nat.le_succ _), ?_, ?_, ?_⟩,
    ?_, ?_⟩
  · rw [joined_le _ hle]
    exact (hm.related i₀ hs.le).running hs.start
  · intro j h₀ hj
    have hj := Nat.le_of_lt_succ hj
    rw [joined_le _ hj]
    obtain ⟨hlo, hhi, hglimpse⟩ := hmoment j h₀ hj
    obtain ⟨lpc, hlpc⟩ := hs.during _ hlo hhi
    exact ⟨lpc, hglimpse.running hlpc⟩
  · rw [joined, if_neg (Nat.not_succ_le_self _)]
  · intro j k hjk
    exact hf (min_le_min_right _ hjk)
  · intro j h₀ hj
    obtain ⟨hlo, hhi, hglimpse⟩ := hmoment (min j (m n)) (le_min h₀ hle) (min_le_right _ _)
    refine ⟨hlo, hhi, ?_⟩
    rw [← hglimpse.trie]
    rcases Nat.le_succ_iff.mp hj with hle' | rfl
    · rw [joined_le _ hle', min_eq_left hle']
    · rw [joined, if_neg (Nat.not_succ_le_self _), min_eq_right (Nat.le_succ _)]
      exact hlast.trie.symm

/-- What a thread can get at has not been freed, in a run in which no thread that has retired memory
    ends. -/
theorem held_unfreed (h : Run act init r n) (hstay : ∀ m < n, ∃ a, act (r m) a = some (r (m + 1)) ∧
    ∀ σ, a = .domain σ .exit → (r m).retirer σ = false) {i : Nat} (hi : i ≤ n) {o : Object}
    (ho : (r i).Holds τ o) : ¬ (r i).Freed o := by
  rintro ⟨y, hy, hfree⟩
  have hinv := inv_run h hstay i hi
  obtain ⟨z, hz, hpayload, hborn⟩ := hinv.orderly.freed hy
  have haside := (hinv.reading τ).aside z hz fun g hg => hborn τ g (List.mem_of_getLast? hg)
  have hspares := haside.spares (hinv.gone z hz) hinv.silent ho
  rw [hpayload, hfree] at hspares
  cases hspares

/-- A value that a lookup returns was in the table, under a prefix of the address, while it ran. -/
theorem genuine (h : Run act init r n) (hs : LookupSpan r τ a i₀ n result) :
    ∀ b, result = some b → ∃ (q : Prefix w) (i : Nat), i₀ ≤ i ∧ i ≤ n ∧
      (r i).trie.table q = some b ∧ q.contains a := by
  rintro b rfl
  obtain ⟨x, k₀, k, f, hrun, hspan, -, hmoment⟩ := bare_lookup h hs
  have hfin := Shared.sighted_run hrun hspan k hspan.le le_rfl
  rw [hspan.finish] at hfin
  obtain ⟨q, ⟨j, h₀, hj, hq⟩, hqa⟩ := hfin.2 b rfl
  obtain ⟨hlo, hhi, htrie⟩ := hmoment j h₀ hj
  exact ⟨q, f j, hlo, hhi, htrie ▸ hq, hqa⟩

/-- While the address stays routed by prefixes that do not get shorter, a lookup finds one that is no
    shorter than the first of them. -/
theorem reaches (h : Run act init r n) (hs : LookupSpan r τ a i₀ n result) {p : Nat → Prefix w}
    (hp : ∀ i, i₀ ≤ i → i ≤ n → (p i).contains a ∧ (r i).trie.table (p i) ≠ none)
    (hle : ∀ i, i₀ ≤ i → i < n → (p i).length ≤ (p (i + 1)).length) :
    ∃ (b : Box FibEntry) (q : Prefix w) (i : Nat), result = some b ∧ i₀ ≤ i ∧ i ≤ n ∧
      (r i).trie.table q = some b ∧ q.contains a ∧ (p i₀).length ≤ q.length := by
  have hlength : ∀ {i j}, i₀ ≤ i → i ≤ j → j ≤ n → (p i).length ≤ (p j).length := by
    intro i j h₀ hij hj
    induction j, hij using Nat.le_induction with
    | base => exact le_rfl
    | succ j hij ih => exact (ih (Nat.le_of_succ_le hj)).trans (hle j (h₀.trans hij) hj)
  obtain ⟨x, k₀, k, f, hrun, hspan, hf, hmoment⟩ := bare_lookup h hs
  have hreaches : Reaches (Shared.Recorded x k₀ k) a (p i₀).length result := by
    refine Shared.toward_run hrun hspan (p := fun j => p (f j)) ?_ ?_ ?_
    · intro j h₀ hj
      obtain ⟨hlo, hhi, -⟩ := hmoment j h₀ hj
      exact hlength le_rfl hlo hhi
    · intro j h₀ hj
      obtain ⟨hlo, hhi, htrie⟩ := hmoment j h₀ hj
      obtain ⟨hpa, hne⟩ := hp _ hlo hhi
      obtain ⟨b, hb⟩ := Option.ne_none_iff_exists'.mp hne
      rw [← htrie] at hb
      exact ⟨hpa, b, (Shared.inv_run hrun j hj).writer.inv.table_eq_some.mp hb⟩
    · intro j h₀ hj
      obtain ⟨hlo, -, -⟩ := hmoment j h₀ hj.le
      obtain ⟨-, hhi, -⟩ := hmoment (j + 1) (Nat.le_succ_of_le h₀) hj
      exact hlength hlo (hf j.le_succ) hhi
  obtain ⟨b, hb, q, ⟨j, h₀, hj, hq⟩, hqa, hlen⟩ := hreaches
  obtain ⟨hlo, hhi, htrie⟩ := hmoment j h₀ hj
  exact ⟨b, q, f j, hb, hlo, hhi, htrie ▸ hq, hqa, hlen⟩

/-- A lookup of `rcu_fib`, among any updates by other threads and while they reclaim what these retire.
    Nothing it can get at is freed; what it returns was in the table while it ran; it does not miss an
    address that stays routed by prefixes that do not get shorter; and the bare trie's reader can make it
    too. -/
theorem lookup_answers (h : Run act init r n)
    (hstay : ∀ m < n, ∃ a, act (r m) a = some (r (m + 1)) ∧
      ∀ σ, a = .domain σ .exit → (r m).retirer σ = false)
    (hs : LookupSpan r τ a i₀ n result) :
    (∀ i, i₀ ≤ i → i ≤ n → ∀ o, (r i).Holds τ o → ¬ (r i).Freed o) ∧
    (∀ b, result = some b → ∃ (q : Prefix w) (i : Nat), i₀ ≤ i ∧ i ≤ n ∧
      (r i).trie.table q = some b ∧ q.contains a) ∧
    (∀ p : Nat → Prefix w,
      (∀ i, i₀ ≤ i → i ≤ n → (p i).contains a ∧ (r i).trie.table (p i) ≠ none) →
      (∀ i, i₀ ≤ i → i < n → (p i).length ≤ (p (i + 1)).length) →
      ∃ (b : Box FibEntry) (q : Prefix w) (i : Nat), result = some b ∧ i₀ ≤ i ∧ i ≤ n ∧
        (r i).trie.table q = some b ∧ q.contains a ∧ (p i₀).length ≤ q.length) ∧
    BareLookup r a i₀ n result :=
  ⟨fun _ _ hi _ => held_unfreed h hstay hi, genuine h hs, fun _ => reaches h hs, bare_lookup h hs⟩

theorem exact_of_fixed (h : Run act init r n) (hs : LookupSpan r τ a i₀ n result)
    (hfixed : ∀ p : Prefix w, p.contains a → ∀ i, i₀ ≤ i → i ≤ n →
      ((r i).trie.table p = none ↔ (r i₀).trie.table p = none)) :
    ∃ i, i₀ ≤ i ∧ i ≤ n ∧ LongestMatch (r i).trie.table a result := by
  -- what is routed at the start is routed throughout, the longest match of that moment among it
  obtain ⟨-, -, first, ⟨-, hfirst⟩, -⟩ := run_lookup (walks_run h i₀ hs.le).writer.inv a
  cases first with
  | none =>
    refine ⟨i₀, le_rfl, hs.le, ?_⟩
    cases result with
    | none => exact hfirst
    | some b =>
      obtain ⟨q, i, hlo, hhi, hq, hqa⟩ := genuine h hs b rfl
      rw [(hfixed q hqa i hlo hhi).mpr (hfirst q hqa)] at hq
      cases hq
  | some b₀ =>
    obtain ⟨p, hp, hpa, hlongest⟩ := hfirst
    have hkept : ∀ i, i₀ ≤ i → i ≤ n → p.contains a ∧ (r i).trie.table p ≠ none := by
      intro i hlo hhi
      refine ⟨hpa, fun hnone => ?_⟩
      rw [(hfixed p hpa i hlo hhi).mp hnone] at hp
      cases hp
    obtain ⟨b, q, i, rfl, hlo, hhi, hq, hqa, hlen⟩ := reaches h hs hkept fun _ _ _ => le_rfl
    refine ⟨i, hlo, hhi, q, hq, hqa, ?_⟩
    intro p' hpa' hne
    exact (hlongest p' hpa' fun hnone => hne ((hfixed p' hpa' i hlo hhi).mpr hnone)).trans hlen

end runs

/-- With a reader on its node, the entry of a route is replaced and the old one retired. -/
def refreshed : List (Action Nat .ipv4) := List.flatten
  [[.call 1 (.insert tenSlashEight .zero), .lock 1], List.replicate 9 .write,
    [.domain 0 .enter], List.replicate 7 (.step 0 false),
    [.lookup 0 (.fromV4 0x0A000001), .read 0,
      .call 1 (.insert tenSlashEight { FibEntry.zero with generation := 1 }), .lock 1],
    List.replicate 3 .write, [.read 0, .write, .read 0]]

theorem run_refreshed : Run act init (play act init refreshed) 28 := by
  have hrun : Run act init (play act init refreshed) 29 := run_play (by rfl)
  exact hrun.take (by decide)

theorem stay_refreshed : ∀ m < 28, ∃ a,
    act (play act init refreshed m) a = some (play act init refreshed (m + 1)) ∧
    ∀ σ, a = .domain σ .exit → (play act init refreshed m).retirer σ = false := by
  have hexec : (exec act (init : Rcu Nat .ipv4) refreshed).isSome := by rfl
  intro m hm
  have hlt : m < refreshed.length := Nat.lt_trans hm (by decide)
  refine ⟨refreshed[m], act_play hexec hlt, fun σ hσ => ?_⟩
  have hnone : ∀ a ∈ refreshed, ∀ σ, a ≠ .domain σ .exit := by
    simp [refreshed]
  exact absurd hσ (hnone _ (List.getElem_mem hlt) σ)

theorem span_refreshed : LookupSpan (play act init refreshed) 0 (.fromV4 0x0A000001) 20 28
    (some ⟨1, { FibEntry.zero with generation := 1 }⟩) := by
  refine ⟨by decide, by rfl, ?_, ⟨_, _, rfl, rfl⟩⟩
  intro i hlo hhi
  interval_cases i <;> exact ⟨_, rfl⟩

theorem lookup_answers_refreshed :
    (∀ i, 20 ≤ i → i ≤ 28 → ∀ o, (play act init refreshed i).Holds 0 o →
      ¬ (play act init refreshed i).Freed o) ∧
    (∀ b, some ⟨1, { FibEntry.zero with generation := 1 }⟩ = some b → ∃ (q : Prefix .ipv4) (i : Nat),
      20 ≤ i ∧ i ≤ 28 ∧ (play act init refreshed i).trie.table q = some b ∧
      q.contains (.fromV4 0x0A000001)) ∧
    (∀ p : Nat → Prefix .ipv4, (∀ i, 20 ≤ i → i ≤ 28 → (p i).contains (.fromV4 0x0A000001) ∧
      (play act init refreshed i).trie.table (p i) ≠ none) →
      (∀ i, 20 ≤ i → i < 28 → (p i).length ≤ (p (i + 1)).length) →
      ∃ (b : Box FibEntry) (q : Prefix .ipv4) (i : Nat),
        some ⟨1, { FibEntry.zero with generation := 1 }⟩ = some b ∧ 20 ≤ i ∧ i ≤ 28 ∧
        (play act init refreshed i).trie.table q = some b ∧ q.contains (.fromV4 0x0A000001) ∧
        (p 20).length ≤ q.length) ∧
    BareLookup (play act init refreshed) (.fromV4 0x0A000001) 20 28
      (some ⟨1, { FibEntry.zero with generation := 1 }⟩) :=
  lookup_answers run_refreshed stay_refreshed span_refreshed

end Rcu

end RcuFib

import RcuFib.Trie.Writer
import RcuFib.Trie.Lookup
import RcuFib.Library.Trace
import Mathlib.Tactic.IntervalCases

/-! One lookup among serialised updates, any interleaving of single loads and stores.

    Nothing is reclaimed here: a node or a box that is handed to the reclaimer keeps its contents.
    The reader's promise is carried by two facts about the writer: a value is never on a node that is
    neither linked nor still private (`Silent`), and a search under way, from a linked node or not,
    goes on leading to every node that stays linked (`Evolves.walk`). -/

namespace RcuFib
open SearchGraph Routine Trace

namespace RadixTrie
variable {w : Width} {V : Type*}

section reader
variable {t t' : RadixTrie w V} {priv priv' : List Nat} {a : Address w} {p p' : Prefix w} {c l : Nat}
  {b b' : Box V} {H H' : Prefix w → Box V → Prop} {pc : LookupPc V}

/-! ### The reader's way while the table changes -/

/-- A step of the writer leaves the search leading to a prefix that was stored before it. -/
theorem Leads.evolves (h : t.Inv priv) (hev : t.Evolves priv t' priv') (hc : t.Known priv c)
    (hp : t.Stored p b) (hpa : p.contains a) (hl : t.Leads a c p) : t'.Leads a c p := by
  obtain ⟨n, hn, rfl, hw⟩ := hl
  obtain ⟨m, hm, hmp, hmv⟩ := hp
  obtain rfl := h.linked_unique hm hn hmp
  have hn' := hev.stays m hn (by simp [hmv])
  have hpfx := hev.pfx m (h.linked_known hn)
  refine ⟨m, hn', hpfx, hev.walk a.bits c m hc hw hn' ?_⟩
  rw [hpfx]; exact Prefix.contains_iff.mp hpa

/-- A search that leads to a prefix of `a` leads on to every longer stored one. -/
theorem Leads.lengthen (h : t.Inv priv) (hpa : p.contains a) (hp' : t.Stored p' b)
    (hpa' : p'.contains a) (hle : p.length ≤ p'.length) (hl : t.Leads a c p) : t.Leads a c p' := by
  obtain ⟨n, hn, rfl, hw⟩ := hl
  obtain ⟨m, hm, rfl, -⟩ := hp'
  rw [Prefix.contains_iff] at hpa hpa'
  refine ⟨m, hm, rfl, hw.trans (Graph.walk_between h.ordered hn hm ?_ hpa')⟩
  exact List.prefix_of_prefix_length_le hpa hpa' (by simpa using hle)

theorem Toward.lengthen (h : t.Inv priv) (hpa : p.contains a) (hp' : t.Stored p' b)
    (hpa' : p'.contains a) (hle : p.length ≤ p'.length) (ht : Toward H t a l p pc) :
    Toward H t a l p' pc := by
  cases pc with
  | root => trivial
  | value c best => exact ht.imp id fun hl => hl.lengthen h hpa hp' hpa' hle
  | child c best =>
    refine ht.imp id fun ⟨hl, hne⟩ => ⟨hl.lengthen h hpa hp' hpa' hle, ?_⟩
    rintro rfl
    exact hne (Prefix.bits_injective ((hl.key h.ordered).eq_of_length_le (by simpa using hle)))

theorem Toward.record (hH : ∀ q b, H q b → H' q b) (ht : Toward H t a l p pc) :
    Toward H' t a l p pc := by
  cases pc with
  | root => trivial
  | value c best => exact ht.imp (fun ⟨b, hb, hf⟩ => ⟨b, hb, hf.record hH⟩) id
  | child c best => exact ht.imp (fun ⟨b, hb, hf⟩ => ⟨b, hb, hf.record hH⟩) id

theorem Toward.evolves (h : t.Inv priv) (hev : t.Evolves priv t' priv') (hp : t.Stored p b)
    (hpa : p.contains a) (hs : Sighted H (t.Known priv) t a pc) (ht : Toward H t a l p pc) :
    Toward H t' a l p pc := by
  cases pc with
  | root => trivial
  | value c best =>
    refine ht.imp (fun hf => ?_) fun hl => hl.evolves h hev hs.1 hp hpa
    rwa [Node.keyLength, hev.pfx c hs.1]
  | child c best =>
    refine ht.imp (fun hf => ?_) fun hl => ⟨hl.1.evolves h hev hs.1 hp hpa, ?_⟩
    · rwa [Node.keyLength, hev.pfx c hs.1]
    · rw [hev.pfx c hs.1]
      exact hl.2

/-- Across a step of the writer the reader's goal may move to a prefix that is no shorter: a step
    changes one key of the table, so the new goal was there before or the old one still is. -/
theorem Toward.follow (h : t.Inv priv) (h' : t'.Inv priv') (hev : t.Evolves priv t' priv')
    (hp : t.Stored p b) (hpa : p.contains a) (hp' : t'.Stored p' b') (hpa' : p'.contains a)
    (hle : p.length ≤ p'.length) (hs : Sighted H (t.Known priv) t a pc)
    (ht : Toward H t a l p pc) : Toward H t' a l p' pc := by
  obtain ⟨q, hq⟩ := hev.table
  by_cases hpq : p' = q
  · by_cases hpp : p = p'
    · rw [← hpp]; exact ht.evolves h hev hp hpa hs
    · refine (ht.evolves h hev hp hpa hs).lengthen h' hpa hp' hpa' hle
  · have hold : t.Stored p' b' := by
      rw [← h.table_eq_some, ← hq p' hpq, h'.table_eq_some]; exact hp'
    exact (ht.lengthen h hpa hold hpa' hle).evolves h hev hold hpa' hs

end reader

/-! ### The system -/

inductive Reader (w : Width) (V : Type*) where
  | idle
  | running (a : Address w) (pc : LookupPc V)
  | returned (a : Address w) (result : Option (Box V))

structure Shared (w : Width) (V : Type*) where
  trie : RadixTrie w V
  writer : Option (WriterPc w V)
  reader : Reader w V

inductive Shared.Action (w : Width) (V : Type*) where
  | update (u : Update w V)
  | writer
  | lookup (a : Address w)
  | reader

namespace Shared

def init : Shared w V := ⟨.empty, none, .idle⟩

/-- An update may be called when none is under way, a lookup when the reader is not in one. -/
def act (s : Shared w V) : Action w V → Option (Shared w V)
  | .update u => if s.writer.isNone then some { s with writer := some u.start } else none
  | .writer =>
    match s.writer with
    | none => none
    | some pc =>
      match writerStep s.trie pc with
      | .next t pc' => some { s with trie := t, writer := some pc' }
      | .call t _ pc' => some { s with trie := t, writer := some pc' }
      | .done t _ => some { s with trie := t, writer := none }
  | .lookup a =>
    match s.reader with
    | .running _ _ => none
    | _ => some { s with reader := .running a .root }
  | .reader =>
    match s.reader with
    | .running a pc =>
      match lookupStep a s.trie pc with
      | .next t pc' => some { s with trie := t, reader := .running a pc' }
      | .done t r => some { s with trie := t, reader := .returned a r }
    | _ => none

structure Inv (s : Shared w V) : Prop where
  writer : WriterInv s.trie s.writer
  silent : s.trie.Silent (privOf s.writer)

variable {s s' : Shared w V} {a : Address w} {H H' : Prefix w → Box V → Prop} {p p' : Prefix w}

theorem inv_init : (init : Shared w V).Inv :=
  ⟨⟨_, rep_of_root_none inv_empty rfl⟩, fun _ _ _ => rfl⟩

/-- What a step can do: the writer changes the trie, or the reader moves on. -/
theorem step_cases (h : s.Inv) {x : Action w V} (hx : s.act x = some s') :
    (s'.reader = s.reader ∧ s.trie.Turn s.writer s'.trie s'.writer) ∨
    (s'.trie = s.trie ∧ s'.writer = s.writer ∧
      ((∃ a, s'.reader = .running a .root ∧ ∀ b pc, s.reader ≠ .running b pc) ∨
      ∃ a pc, s.reader = .running a pc ∧ (lookupStep a s.trie pc).Sat
        (fun _ pc' => s'.reader = .running a pc') (fun _ r => s'.reader = .returned a r))) := by
  cases x with
  | update u =>
    simp only [act] at hx
    split at hx
    · next hn =>
      obtain rfl := Option.some.inj hx
      have hnone := Option.isNone_iff_eq_none.mp hn
      have hidle : s.trie.Turn s.writer s.trie none := hnone ▸ .refl h.writer
      exact .inl ⟨rfl, hidle.start u⟩
    · cases hx
  | writer =>
    simp only [act] at hx
    cases hw : s.writer with
    | none => rw [hw] at hx; cases hx
    | some pc =>
      simp only [hw] at hx
      have hinv := h.writer
      rw [hw] at hinv
      have hturn := turn_step hinv
      cases ho : writerStep s.trie pc with
      | next t pc' =>
        rw [ho] at hturn hx
        obtain rfl := Option.some.inj hx
        exact .inl ⟨rfl, hturn⟩
      | call t e pc' =>
        rw [ho] at hturn hx
        obtain rfl := Option.some.inj hx
        exact .inl ⟨rfl, hturn⟩
      | done t r =>
        rw [ho] at hturn hx
        obtain rfl := Option.some.inj hx
        exact .inl ⟨rfl, hturn⟩
  | lookup b =>
    simp only [act] at hx
    split at hx
    · cases hx
    · next hn =>
      obtain rfl := Option.some.inj hx
      exact .inr ⟨rfl, rfl, .inl ⟨b, rfl, fun b pc he => hn b pc he⟩⟩
  | reader =>
    simp only [act] at hx
    cases hr : s.reader with
    | running b pc =>
      simp only [hr] at hx
      have hsame : (lookupStep b s.trie pc).Sat (fun t _ => t = s.trie) (fun t _ => t = s.trie) :=
        lookup_trie _
      cases ho : lookupStep b s.trie pc with
      | next t pc' =>
        rw [ho] at hx hsame
        obtain rfl := hsame
        obtain rfl := Option.some.inj hx
        exact .inr ⟨rfl, rfl, .inr ⟨b, pc, rfl, by rw [ho]; rfl⟩⟩
      | call t e => exact e.elim
      | done t r =>
        rw [ho] at hx hsame
        obtain rfl := hsame
        obtain rfl := Option.some.inj hx
        exact .inr ⟨rfl, rfl, .inr ⟨b, pc, rfl, by rw [ho]; rfl⟩⟩
    | idle => rw [hr] at hx; cases hx
    | returned => rw [hr] at hx; cases hx

theorem inv_step (h : s.Inv) {x : Action w V} (hx : s.act x = some s') : s'.Inv := by
  rcases step_cases h hx with ⟨-, hturn⟩ | ⟨ht, hw, -⟩
  · exact ⟨hturn.inv, hturn.evolves.silent h.silent⟩
  · exact ⟨by rw [ht, hw]; exact h.writer, by rw [ht, hw]; exact h.silent⟩

theorem inv_run {r : Nat → Shared w V} {n : Nat} (h : Run act init r n) : ∀ i ≤ n, (r i).Inv :=
  h.invariant inv_init fun _ _ _ hi hx => inv_step hi hx

/-! ### The lookup -/

/-- The lookup of `a` is under way, with `P` of its position, or has just returned, with `Q` of its
    result. -/
def Looking (P : LookupPc V → Prop) (Q : Option (Box V) → Prop) (a : Address w) :
    Reader w V → Prop
  | .idle => False
  | .running b pc => b = a ∧ P pc
  | .returned b r => b = a ∧ Q r

/-- One step of the system during the lookup, as far as what the reader holds is concerned. -/
theorem sighted_act (h : s.Inv) {x : Action w V} (hx : s.act x = some s') {pc : LookupPc V}
    (hr : s.reader = .running a pc) (hH : ∀ q b, s.trie.Stored q b → H q b)
    (hH' : ∀ q b, H q b → H' q b)
    (hs : Sighted H (s.trie.Known (privOf s.writer)) s.trie a pc) :
    Looking (Sighted H' (s'.trie.Known (privOf s'.writer)) s'.trie a) (Genuine H' a) a s'.reader := by
  rcases step_cases h hx with ⟨hr', -, hev, -⟩ | ⟨ht, hw, hnew | ⟨b, pc', hb, hstep⟩⟩
  · rw [hr', hr]
    exact ⟨rfl, hs.mono hH' hev.known hev.pfx⟩
  · obtain ⟨b, -, hne⟩ := hnew
    exact absurd hr (hne a pc)
  · rw [hr] at hb
    obtain ⟨rfl, rfl⟩ := Reader.running.inj hb
    have hok := sighted_step (h.writer.inv.visible_known h.silent) hH hs
    rw [ht, hw]
    cases ho : lookupStep a s.trie pc with
    | next t pc' =>
      rw [ho] at hstep hok
      rw [hstep]
      exact ⟨rfl, Sighted.mono hH' (fun _ hk => hk) (fun _ _ => rfl) hok⟩
    | call t e => exact e.elim
    | done t r =>
      rw [ho] at hstep hok
      rw [hstep]
      refine ⟨rfl, fun b hb => ?_⟩
      obtain ⟨q, hq, hqa⟩ := hok b hb
      exact ⟨q, hH' q b hq, hqa⟩

/-- One step of the system during the lookup, as far as the reader's goal is concerned. -/
theorem toward_act (h : s.Inv) {x : Action w V} (hx : s.act x = some s') {pc : LookupPc V}
    (hr : s.reader = .running a pc) (hH : ∀ q b, s.trie.Stored q b → H q b)
    (hH' : ∀ q b, H q b → H' q b)
    (hs : Sighted H (s.trie.Known (privOf s.writer)) s.trie a pc) {l : Nat} {b b' : Box V}
    (hl : l ≤ p.length) (hp : s.trie.Stored p b) (hpa : p.contains a) (hp' : s'.trie.Stored p' b')
    (hpa' : p'.contains a) (hle : p.length ≤ p'.length) (ht : Toward H s.trie a l p pc) :
    Looking (Toward H' s'.trie a l p') (Reaches H' a l) a s'.reader := by
  have h' := inv_step h hx
  rcases step_cases h hx with ⟨hr', -, hev, -⟩ | ⟨htr, hw, hnew | ⟨b, pc', hb, hstep⟩⟩
  · rw [hr', hr]
    exact ⟨rfl, (ht.follow h.writer.inv h'.writer.inv hev hp hpa hp' hpa' hle hs).record hH'⟩
  · obtain ⟨b, -, hne⟩ := hnew
    exact absurd hr (hne a pc)
  · rw [hr] at hb
    obtain ⟨rfl, rfl⟩ := Reader.running.inj hb
    have hok := toward_step (h.writer.inv.visible_known h.silent) hH hpa hl hp hs ht
    rw [htr] at hp' ⊢
    cases ho : lookupStep a s.trie pc with
    | next t pc' =>
      rw [ho] at hstep hok
      rw [hstep]
      exact ⟨rfl, (Toward.lengthen h.writer.inv hpa hp' hpa' hle hok).record hH'⟩
    | call t e => exact e.elim
    | done t r =>
      rw [ho] at hstep hok
      rw [hstep]
      obtain ⟨b, hb, q, hq, hqa, hlq⟩ := hok
      exact ⟨rfl, b, hb, q, hH' q b hq, hqa, hlq⟩

/-- The lookup of `a` that starts at `i₀` and returns `result` at `n`. -/
structure LookupSpan (r : Nat → Shared w V) (a : Address w) (i₀ n : Nat) (result : Option (Box V)) :
    Prop where
  le : i₀ ≤ n
  start : (r i₀).reader = .running a .root
  during : ∀ i, i₀ ≤ i → i < n → ∃ pc, (r i).reader = .running a pc
  finish : (r n).reader = .returned a result

/-- `b` has been the table's value of `q` at a moment from `i₀` to `i`. -/
def Recorded (r : Nat → Shared w V) (i₀ i : Nat) (q : Prefix w) (b : Box V) : Prop :=
  ∃ j, i₀ ≤ j ∧ j ≤ i ∧ (r j).trie.table q = some b

section span
variable {r : Nat → Shared w V} {n i₀ : Nat} {result : Option (Box V)}

theorem Recorded.succ {i : Nat} {q : Prefix w} {b : Box V} (h : Recorded r i₀ i q b) :
    Recorded r i₀ (i + 1) q b := by
  obtain ⟨j, hj, hji, hb⟩ := h
  exact ⟨j, hj, Nat.le_succ_of_le hji, hb⟩

theorem recorded_now (h : Run act init r n) {i : Nat} (hi : i ≤ n) (h₀ : i₀ ≤ i) {q : Prefix w}
    {b : Box V} (hb : (r i).trie.Stored q b) : Recorded r i₀ i q b :=
  ⟨i, h₀, le_rfl, (inv_run h i hi).writer.inv.table_eq_some.mpr hb⟩

theorem sighted_run (h : Run act init r n) (hs : LookupSpan r a i₀ n result) :
    ∀ i, i₀ ≤ i → i ≤ n → Looking
      (Sighted (Recorded r i₀ i) ((r i).trie.Known (privOf (r i).writer)) (r i).trie a)
      (Genuine (Recorded r i₀ i) a) a (r i).reader := by
  refine h.along (Q := fun i s => Looking
    (Sighted (Recorded r i₀ i) (s.trie.Known (privOf s.writer)) s.trie a)
    (Genuine (Recorded r i₀ i) a) a s.reader) ?_ fun i x h₀ hi hQ hx => ?_
  · rw [hs.start]; exact ⟨rfl, trivial⟩
  · obtain ⟨pc, hpc⟩ := hs.during i h₀ hi
    rw [hpc] at hQ
    exact sighted_act (inv_run h i hi.le) hx hpc (fun _ _ => recorded_now h hi.le h₀)
      (fun _ _ => Recorded.succ) hQ.2

/-- A goal that moves through stored prefixes of `a` without getting shorter is reached. -/
theorem toward_run (h : Run act init r n) (hs : LookupSpan r a i₀ n result) {p : Nat → Prefix w}
    {l : Nat} (hl : ∀ i, i₀ ≤ i → i ≤ n → l ≤ (p i).length)
    (hp : ∀ i, i₀ ≤ i → i ≤ n → (p i).contains a ∧ ∃ b, (r i).trie.Stored (p i) b)
    (hle : ∀ i, i₀ ≤ i → i < n → (p i).length ≤ (p (i + 1)).length) :
    Reaches (Recorded r i₀ n) a l result := by
  have hrun : ∀ i, i₀ ≤ i → i ≤ n → Looking (Toward (Recorded r i₀ i) (r i).trie a l (p i))
      (Reaches (Recorded r i₀ i) a l) a (r i).reader := by
    refine h.along (Q := fun i s => Looking (Toward (Recorded r i₀ i) s.trie a l (p i))
      (Reaches (Recorded r i₀ i) a l) a s.reader) ?_ fun i x h₀ hi hQ hx => ?_
    · rw [hs.start]; exact ⟨rfl, trivial⟩
    · obtain ⟨pc, hpc⟩ := hs.during i h₀ hi
      have hsight := sighted_run h hs i h₀ hi.le
      rw [hpc] at hQ hsight
      obtain ⟨hpa, b, hpb⟩ := hp i h₀ hi.le
      obtain ⟨hpa', b', hpb'⟩ := hp (i + 1) (Nat.le_succ_of_le h₀) hi
      exact toward_act (inv_run h i hi.le) hx hpc (fun _ _ => recorded_now h hi.le h₀)
        (fun _ _ => Recorded.succ) hsight.2 (hl i h₀ hi.le) hpb hpa hpb' hpa' (hle i h₀ hi) hQ.2
  have hfin := hrun n hs.le le_rfl
  rw [hs.finish] at hfin
  exact hfin.2

/-- A lookup among updates finds a prefix at least as long as every prefix of the address that is
    stored throughout, and returns nothing that was not in the table while it ran. -/
theorem lookup_among_updates (h : Run act init r n) (hs : LookupSpan r a i₀ n result) :
    (∀ p : Prefix w, p.contains a → (∀ i, i₀ ≤ i → i ≤ n → (r i).trie.table p ≠ none) →
      ∃ b, result = some b ∧ ∃ (q : Prefix w) (i : Nat), i₀ ≤ i ∧ i ≤ n ∧
        (r i).trie.table q = some b ∧ q.contains a ∧ p.length ≤ q.length) ∧
    ∀ b, result = some b → ∃ (q : Prefix w) (i : Nat), i₀ ≤ i ∧ i ≤ n ∧
      (r i).trie.table q = some b ∧ q.contains a := by
  constructor
  · intro p hpa hp
    have hstored : ∀ i, i₀ ≤ i → i ≤ n → p.contains a ∧ ∃ b, (r i).trie.Stored p b := by
      intro i h₀ hi
      obtain ⟨b, hb⟩ := Option.ne_none_iff_exists'.mp (hp i h₀ hi)
      exact ⟨hpa, b, (inv_run h i hi).writer.inv.table_eq_some.mp hb⟩
    obtain ⟨b, hb, q, ⟨i, h₀, hi, hq⟩, hqa, hlen⟩ :=
      toward_run h hs (p := fun _ => p) (fun _ _ _ => le_rfl) hstored fun _ _ _ => le_rfl
    exact ⟨b, hb, q, i, h₀, hi, hq, hqa, hlen⟩
  · rintro b rfl
    have hfin := sighted_run h hs n hs.le le_rfl
    rw [hs.finish] at hfin
    obtain ⟨q, ⟨i, h₀, hi, hq⟩, hqa⟩ := hfin.2 b rfl
    exact ⟨q, i, h₀, hi, hq, hqa⟩

end span

/-- A default route is replaced while a lookup stands on its node. -/
def renewal : List (Action .ipv4 Nat) :=
  .update (.add (.make (.zero .ipv4) 0 Width.zero_le_ipv4) 1) :: List.replicate 8 .writer ++
  [.lookup (.fromV4 10), .reader,
    .update (.add (.make (.zero .ipv4) 0 Width.zero_le_ipv4) 2), .writer, .writer, .writer,
    .reader, .writer, .reader]

theorem lookup_among_updates_renewal :
    (∀ p : Prefix .ipv4, p.contains (.fromV4 10) →
      (∀ i, 10 ≤ i → i ≤ 18 → (play act init renewal i).trie.table p ≠ none) →
      ∃ b, some (⟨1, 2⟩ : Box Nat) = some b ∧ ∃ (q : Prefix .ipv4) (i : Nat), 10 ≤ i ∧ i ≤ 18 ∧
        (play act init renewal i).trie.table q = some b ∧ q.contains (.fromV4 10) ∧
        p.length ≤ q.length) ∧
    ∀ b, some (⟨1, 2⟩ : Box Nat) = some b → ∃ (q : Prefix .ipv4) (i : Nat), 10 ≤ i ∧ i ≤ 18 ∧
      (play act init renewal i).trie.table q = some b ∧ q.contains (.fromV4 10) := by
  have hrun : Run act init (play act init renewal) renewal.length := run_play (by rfl)
  refine lookup_among_updates hrun ⟨by decide, by rfl, ?_, by rfl⟩
  intro i h₀ hi
  interval_cases i <;> exact ⟨_, rfl⟩

end Shared

end RadixTrie

end RcuFib

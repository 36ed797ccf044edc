import RcuFib.Fib.Rcu
import RcuFib.Trie.Standing
import RcuFib.Epoch.Residents

/-! What a reader of `rcu_fib` can get at is not freed.

    The epoch domain keeps an object until every guard is closed that was open when its retirement
    began (`Orderly.freed`). What is handed to it can no longer be found from the root (`Gone`), though
    a reader under an older guard may still hold it. So it is enough that whatever was retired before a
    thread opened its outermost guard stays out of that thread's way (`Reading`): the writer puts
    nothing back, and each load leads to what is linked or below where the reader was. -/

namespace RcuFib
open SearchGraph Routine Trace RadixTrie

variable {T : Type*} {w : Width}

namespace Rcu
variable [DecidableEq T]

/-! ### What a thread holds -/

/-- The nodes and entries a thread can get at: from the node its lookup stands on, and those it has
    been handed. -/
def Holds (s : Rcu T w) (τ : T) : Object → Prop :=
  s.trie.Reached ((s.client τ).walk.bind LookupPc.node)
    (((s.client τ).walk.bind LookupPc.best).toList ++ s.hand τ)

/-- A deleter has run on it. -/
def Freed (s : Rcu T w) (o : Object) : Prop :=
  ∃ x ∈ s.epoch.dom.freed, s.trie.hands x.payload o = true

/-- A thread's lookup and what it was handed, against the guards it has open: what was retired before
    the outermost of them was opened is out of its way. -/
structure Reading (e : EpochSystem T (Retired FibEntry)) (t : RadixTrie w FibEntry)
    (pc : Option (WriterPc w FibEntry)) (τ : T) (walk : Option (LookupPc FibEntry))
    (hand : List (Box FibEntry)) : Prop where
  closed : e.dom.guards τ = [] → walk = none ∧ hand = []
  known : ∀ n ∈ walk.bind LookupPc.node, t.Known (privOf pc) n
  aside : ∀ x ∈ e.dom.issued, (∀ g ∈ (e.dom.guards τ).getLast?, x.born ≤ g.number) →
    t.Aside (walk.bind LookupPc.node) ((walk.bind LookupPc.best).toList ++ hand) x.payload

structure Inv (s : Rcu T w) : Prop where
  orderly : s.epoch.Orderly fun τ => s.retirer τ = true
  writer : WriterInv s.trie s.update
  silent : s.trie.Silent (privOf s.update)
  gone : ∀ x ∈ s.epoch.dom.issued, Gone s.trie s.update x.payload
  reading : ∀ τ, Reading s.epoch s.trie s.update τ (s.client τ).walk (s.hand τ)

variable {s s' : Rcu T w} {e e' : EpochSystem T (Retired FibEntry)} {t t' : RadixTrie w FibEntry}
  {pc pc' : Option (WriterPc w FibEntry)} {τ : T} {walk : Option (LookupPc FibEntry)}
  {hand : List (Box FibEntry)}

/-! ### One thread -/

section reading

omit [DecidableEq T] in
theorem reading_nothing (e : EpochSystem T (Retired FibEntry)) (t : RadixTrie w FibEntry)
    (pc : Option (WriterPc w FibEntry)) (τ : T) : Reading e t pc τ none [] := by
  refine ⟨fun _ => ⟨rfl, rfl⟩, ?_, ?_⟩
  · intro n hn
    cases hn
  · intro x _ _
    exact aside_nothing x.payload

/-- A step of the domain. A guard that opens inside another, or closes inside another, holds back
    nothing of its own. -/
theorem Reading.act {x : EpochSystem.Action T (Retired FibEntry)} (h : Reading e t pc τ walk hand)
    (he : e.Inv) (ha : EpochSystem.act e x = some e') (hleave : x = .call τ .leave → walk = none) :
    Reading e' t pc τ walk (if (e'.dom.guards τ).isEmpty then [] else hand) := by
  rcases hg' : e'.dom.guards τ with _ | ⟨g', rest'⟩
  · -- no guard is open any more
    have hwalk : walk = none := by
      rcases EpochSystem.guards_act ha τ with hsame | ⟨g, hopen⟩ | ⟨hcall, -⟩
      · exact (h.closed (hsame ▸ hg')).1
      · rw [hg'] at hopen
        cases hopen
      · exact hleave hcall
    subst hwalk
    exact reading_nothing e' t pc τ
  · refine ⟨?_, h.known, ?_⟩
    · intro hnil
      rw [hg'] at hnil
      cases hnil
    · intro y hy hborn
      rcases EpochSystem.issued_new he ha hy with hold | ⟨-, hlate⟩
      · rcases hg : e.dom.guards τ with _ | ⟨g, rest⟩
        · obtain ⟨rfl, rfl⟩ := h.closed hg
          simpa using aside_nothing y.payload
        · refine h.aside y hold ?_
          have hlast : (e.dom.guards τ).getLast? = (e'.dom.guards τ).getLast? := by
            rcases EpochSystem.guards_act ha τ with hsame | ⟨k, hopen⟩ | ⟨-, k, hclose⟩
            · rw [hsame]
            · rw [hopen, hg, List.getLast?_cons_cons]
            · rw [hclose, hg', List.getLast?_cons_cons]
          rwa [hlast]
      · -- what is retired now is later than the open guards
        have hne : e'.dom.guards τ ≠ [] := by
          rw [hg']
          exact List.cons_ne_nil _ _
        have hlast := List.getLast?_eq_some_getLast hne
        have hle := hborn _ hlast
        have hlt := hlate τ _ (List.mem_of_getLast? hlast)
        omega

omit [DecidableEq T] in
theorem Reading.turn (h : Reading e t pc τ walk hand) (ht : t.Turn pc t' pc')
    (hg : ∀ x ∈ e.dom.issued, Gone t pc x.payload) : Reading e t' pc' τ walk hand := by
  refine ⟨h.closed, ?_, ?_⟩
  · intro n hn
    exact ht.evolves.known n (h.known n hn)
  · intro x hx hborn
    exact (h.aside x hx hborn).turn ht h.known (hg x hx)

omit [DecidableEq T] in
theorem Reading.start (h : Reading e t pc τ none hand) (hopen : e.dom.guards τ ≠ []) :
    Reading e t pc τ (some .root) hand := by
  refine ⟨fun hnil => absurd hnil hopen, ?_, h.aside⟩
  intro n hn
  cases hn

omit [DecidableEq T] in
theorem Reading.step {lpc : LookupPc FibEntry} (h : Reading e t pc τ (some lpc) hand)
    (hw : WriterInv t pc) (hs : t.Silent (privOf pc)) (hg : ∀ x ∈ e.dom.issued, Gone t pc x.payload)
    (a : Address w) : (lookupStep a t lpc).Sat
      (fun t' lpc' => t' = t ∧ Reading e t pc τ (some lpc') hand)
      (fun t' entry => t' = t ∧ Reading e t pc τ none (entry.toList ++ hand)) := by
  have hopen : e.dom.guards τ ≠ [] := by
    intro hnil
    cases (h.closed hnil).1
  have hsame : (lookupStep a t lpc).Sat (fun t' _ => t' = t) (fun t' _ => t' = t) := lookup_trie lpc
  have hknown := node_step (a := a) (hw.inv.visible_known hs) h.known
  have haside : ∀ x ∈ e.dom.issued, (∀ g ∈ (e.dom.guards τ).getLast?, x.born ≤ g.number) →
      (lookupStep a t lpc).Sat
        (fun _ lpc' => t.Aside lpc'.node (lpc'.best.toList ++ hand) x.payload)
        (fun _ entry => t.Aside none (entry.toList ++ hand) x.payload) := by
    intro x hx hborn
    exact aside_step (hg x hx) (h.aside x hx hborn)
  cases ho : lookupStep a t lpc with
  | next t' lpc' =>
    rw [ho] at hsame hknown haside
    exact ⟨hsame, fun hnil => absurd hnil hopen, hknown, haside⟩
  | call t' x => exact x.elim
  | done t' entry =>
    rw [ho] at hsame haside
    refine ⟨hsame, fun hnil => absurd hnil hopen, ?_, haside⟩
    intro n hn
    cases hn

end reading

/-! ### All threads -/

omit [DecidableEq T] in
theorem inv_init : (init : Rcu T w).Inv := by
  refine ⟨?_, ⟨_, rep_of_root_none inv_empty rfl⟩, fun _ _ _ => rfl, ?_, ?_⟩
  · simpa [init] using EpochSystem.orderly_init
  · intro x hx
    cases hx
  · intro τ
    exact reading_nothing _ _ _ τ

omit [DecidableEq T] in
/-- The writer, or nobody, has taken a step. -/
theorem Inv.turn (h : s.Inv) (ht : s.trie.Turn s.update s'.trie s'.update)
    (hepoch : s'.epoch = s.epoch) (hretirer : s'.retirer = s.retirer) (hhand : s'.hand = s.hand)
    (hwalk : ∀ τ, (s'.client τ).walk = (s.client τ).walk) : s'.Inv := by
  refine ⟨?_, ht.inv, ht.evolves.silent h.silent, ?_, ?_⟩
  · rw [hepoch, hretirer]
    exact h.orderly
  · intro x hx
    rw [hepoch] at hx
    exact ht.gone x.payload (h.gone x hx)
  · intro τ
    rw [hepoch, hhand, hwalk]
    exact (h.reading τ).turn ht h.gone

theorem Inv.setClient (h : s.Inv) {c : Client w} (hc : c.walk = (s.client τ).walk) :
    (s.setClient τ c).Inv := by
  refine h.turn (.refl h.writer) rfl rfl rfl ?_
  intro σ
  rcases eq_or_ne σ τ with rfl | hne
  · simp only [Rcu.setClient, Function.update_self, hc]
  · simp only [Rcu.setClient, Function.update_of_ne hne]

theorem Inv.settle (h : s.Inv) (τ : T) : (s.settle τ).Inv := by
  unfold Rcu.settle
  split
  · exact h
  · have hupdate : (s.writer.map fun x => if x.1 = τ then (x.1, x.2.resume) else x).bind
        (fun x => x.2.current) = s.update := by
      rw [update, Option.bind_map]
      congr 1
      funext x
      rw [Function.comp_apply]
      split
      · exact x.2.current_resume
      · rfl
    have hset : (s.setClient τ (s.client τ).resume).Inv := h.setClient (Client.walk_resume _)
    refine hset.turn ?_ rfl rfl rfl fun _ => rfl
    rw [update, update, hupdate]
    exact .refl h.writer

/-- The domain has taken a step, perhaps the first of a writer's `retire`. -/
theorem Inv.moved {x : EpochSystem.Action T (Retired FibEntry)} {retirer : T → Bool} (h : s.Inv)
    (ha : EpochSystem.act s.epoch x = some e) (hexit : ∀ τ, x = .call τ .exit → s.retirer τ = false)
    (hleave : ∀ τ, x = .call τ .leave → (s.client τ).walk = none)
    (hgone : ∀ τ y, x = .call τ (.retire (some y)) → Gone s.trie s.update y)
    (hmono : ∀ τ, s.retirer τ = true → retirer τ = true)
    (hretire : ∀ τ y, x = .call τ (.retire (some y)) → retirer τ = true)
    (hnew : ∀ τ, retirer τ = true → s.retirer τ = true ∨ ∃ y, x = .call τ (.retire (some y))) :
    Inv { s.moved e with retirer := retirer } := by
  refine ⟨?_, h.writer, h.silent, ?_, ?_⟩
  · refine EpochSystem.orderly_act h.orderly ha ?_ hmono hretire hnew
    intro τ hx hr
    rw [hexit τ hx] at hr
    cases hr
  · intro y hy
    rcases EpochSystem.issued_new h.orderly.inv ha hy with hold | ⟨⟨τ, hx⟩, -⟩
    · exact h.gone y hold
    · exact hgone τ y.payload hx
  · intro τ
    exact (h.reading τ).act h.orderly.inv ha (hleave τ)

/-- Any other step of the domain. -/
theorem Inv.step {x : EpochSystem.Action T (Retired FibEntry)} (h : s.Inv)
    (ha : EpochSystem.act s.epoch x = some e) (hexit : ∀ τ, x = .call τ .exit → s.retirer τ = false)
    (hleave : ∀ τ, x = .call τ .leave → (s.client τ).walk = none)
    (hretire : ∀ τ y, x ≠ .call τ (.retire (some y))) : (s.moved e).Inv :=
  h.moved ha hexit hleave (fun τ y hx => absurd hx (hretire τ y)) (fun _ hr => hr)
    (fun τ y hx => absurd hx (hretire τ y)) fun _ hr => .inl hr

/-- A thread has taken a step of its lookup. -/
theorem Inv.thread (h : s.Inv) {c : Client w} (hτ : Reading s.epoch s.trie s.update τ c.walk hand) :
    Inv { s.setClient τ c with hand := Function.update s.hand τ hand } := by
  refine ⟨h.orderly, h.writer, h.silent, h.gone, ?_⟩
  intro σ
  rcases eq_or_ne σ τ with rfl | hne
  · simp only [Rcu.setClient, Function.update_self]
    exact hτ
  · simp only [Rcu.setClient, Function.update_of_ne hne]
    exact h.reading σ

omit [DecidableEq T] in
/-- What is known of the update that the writer is at. -/
theorem Inv.at_update {pc : WriterPc w FibEntry} {rest applied} (h : s.Inv)
    (hw : s.writer = some (τ, .update pc rest applied)) :
    s.update = some pc ∧ WriterInv s.trie (some pc) ∧
      (writerStep s.trie pc).Sat (fun t' pc' => s.trie.Turn (some pc) t' (some pc'))
        (fun t' _ => s.trie.Turn (some pc) t' none) := by
  have hupdate : s.update = some pc := by
    rw [update, hw]
    rfl
  have hinv := h.writer
  rw [hupdate] at hinv
  exact ⟨hupdate, hinv, turn_step hinv⟩

theorem proceed_turn {u : Option (WriterPc w FibEntry)} (h : t.Turn u t' none)
    (updates : List (Update w FibEntry)) (applied : Nat) :
    t.Turn u t' (CallPc.proceed updates applied).current := by
  cases updates with
  | nil => exact h
  | cons v rest => exact h.start v

/-! ### The invariant along a run -/

theorem inv_act (h : s.Inv) (hp : s.AllPlaced) {a : Action T w} (ha : s.act a = some s')
    (hexit : ∀ τ, a = .domain τ .exit → s.retirer τ = false) : s'.Inv := by
  cases move_of_act ha with
  | @domain τ c e hc hretire he =>
    refine Inv.settle (Inv.setClient (h.step he ?_ ?_ ?_) ?_) τ
    · intro σ hσ
      cases hσ
      exact hexit τ rfl
    · intro σ hσ
      cases hσ
      rw [hc]
      rfl
    · intro σ y hσ
      cases hσ
      exact hretire _ rfl
    · rw [moved, hc]
      rfl
  | @step τ weak e he =>
    refine Inv.settle (h.step he ?_ ?_ ?_) τ
    · intro σ hσ
      cases hσ
    · intro σ hσ
      cases hσ
    · intro σ y hσ
      cases hσ
  | @lookup τ a hc hopen =>
    have hreading := h.reading τ
    rw [hc] at hreading
    have hnext := h.thread (c := .walking a .root) (hreading.start hopen)
    rwa [Function.update_eq_self] at hnext
  | @read τ a lpc t lpc' hc ho =>
    have hreading := h.reading τ
    rw [hc] at hreading
    have hstep := hreading.step h.writer h.silent h.gone a
    rw [ho] at hstep
    obtain ⟨rfl, hstep⟩ := hstep
    have hnext := h.thread (c := .walking a lpc') hstep
    rwa [Function.update_eq_self] at hnext
  | @found τ a lpc t entry hc ho =>
    have hreading := h.reading τ
    rw [hc] at hreading
    have hstep := hreading.step h.writer h.silent h.gone a
    rw [ho] at hstep
    obtain ⟨rfl, hstep⟩ := hstep
    exact h.thread (c := .idle) hstep
  | @call τ c hc => exact h.setClient (by rw [hc]; rfl)
  | @lock τ c hc hw =>
    have hwriting : (s.setClient τ .writing).Inv := h.setClient (by rw [hc]; rfl)
    have hnone : (s.setClient τ .writing).update = none := by
      rw [update, Rcu.setClient, hw]
      rfl
    refine hwriting.turn ?_ rfl rfl rfl fun _ => rfl
    have hinv := hwriting.writer
    rw [hnone] at hinv
    rw [hnone]
    exact proceed_turn (.refl hinv) c.updates 0
  | @write τ pc rest applied t pc' hw ho =>
    obtain ⟨hupdate, -, hturn⟩ := h.at_update hw
    rw [ho] at hturn
    exact h.turn (by rw [hupdate]; exact hturn) rfl rfl rfl fun _ => rfl
  | @retire τ pc rest applied t x pc' e hw ho he =>
    obtain ⟨hupdate, hinv, hturn⟩ := h.at_update hw
    rw [ho] at hturn
    have hnext : Inv { s with trie := t, writer := some (τ, .retire pc' rest applied) } :=
      h.turn (by rw [hupdate]; exact hturn) rfl rfl rfl fun _ => rfl
    refine hnext.moved he ?_ ?_ ?_ ?_ ?_ ?_
    · intro σ hσ
      cases hσ
    · intro σ hσ
      cases hσ
    · intro σ y hσ
      cases hσ
      obtain ⟨rfl, hg⟩ := gone_of_call hinv ho
      exact hg
    · intro σ hr
      rcases eq_or_ne σ τ with rfl | hne
      · exact Function.update_self ..
      · rwa [Function.update_of_ne hne]
    · intro σ y hσ
      cases hσ
      exact Function.update_self ..
    · intro σ hr
      rcases eq_or_ne σ τ with rfl | hne
      · exact .inr ⟨x, rfl⟩
      · rw [Function.update_of_ne hne] at hr
        exact .inl hr
  | @updated τ pc rest applied t r hw ho =>
    obtain ⟨hupdate, -, hturn⟩ := h.at_update hw
    rw [ho] at hturn
    refine h.turn ?_ rfl rfl rfl fun _ => rfl
    rw [hupdate]
    exact proceed_turn hturn rest _
  | @unlock τ applied hw =>
    have hidle : (s.setClient τ .idle).Inv := h.setClient (by rw [(hp.of_unlock hw).1]; rfl)
    have hnone : (s.setClient τ .idle).update = none := by
      rw [update, Rcu.setClient, hw]
      rfl
    refine hidle.turn ?_ rfl rfl rfl fun _ => rfl
    rw [hnone]
    have hinv := hidle.writer
    rw [hnone] at hinv
    exact .refl hinv

/-! ### Whole runs -/

section run
variable {r : Nat → Rcu T w} {n : Nat}

theorem inv_run (h : Run act init r n) (hstay : ∀ m < n, ∃ a, act (r m) a = some (r (m + 1)) ∧
    ∀ τ, a = .domain τ .exit → (r m).retirer τ = false) : ∀ i ≤ n, (r i).Inv
  | 0, _ => by rw [h.start]; exact inv_init
  | i + 1, hi => by
    obtain ⟨a, ha, hexit⟩ := hstay i hi
    have hi' := Nat.le_of_succ_le hi
    exact inv_act (inv_run h hstay i hi') (placed_run h i hi') ha hexit

/-- In a run in which no thread that has retired memory ends, no deleter has run on a node or an entry
    that a thread holds or can still get at, whether or not it has been unlinked. -/
theorem reader_memory_safe (h : Run act init r n)
    (hstay : ∀ m < n, ∃ a, act (r m) a = some (r (m + 1)) ∧
      ∀ τ, a = .domain τ .exit → (r m).retirer τ = false) :
    ∀ i ≤ n, ∀ τ o, (r i).Holds τ o → ¬ (r i).Freed o := by
  rintro i hi τ o ho ⟨x, hx, hfree⟩
  have hinv := inv_run h hstay i hi
  obtain ⟨y, hy, hpayload, hborn⟩ := hinv.orderly.freed hx
  -- the retirement came before every guard that is open, the outermost of `τ` among them
  have haside := (hinv.reading τ).aside y hy fun g hg => hborn τ g (List.mem_of_getLast? hg)
  have hspares := haside.spares (hinv.gone y hy) hinv.silent ho
  rw [hpayload, hfree] at hspares
  cases hspares

/-- The prefix of the route that is withdrawn. -/
def tenSlashEight : Prefix .ipv4 := .make (.fromV4 0x0A000000) 8 Width.eight_le_ipv4

/-- With a reader on its node, a route is withdrawn, its entry and its node are retired, and another
    thread tries to reclaim them, twice. -/
def standing : List (Action Nat .ipv4) := List.flatten
  [[.call 1 (.insert tenSlashEight .zero), .lock 1], List.replicate 9 .write,
    [.domain 0 .enter], List.replicate 7 (.step 0 false),
    [.lookup 0 (.fromV4 0x0A000001), .read 0, .read 0],
    [.call 1 (.erase tenSlashEight), .lock 1], List.replicate 3 .write,
    List.replicate 10 (.step 1 false), List.replicate 5 .write, List.replicate 4 (.step 1 false),
    List.replicate 3 .write,
    [.domain 1 .tryReclaim], List.replicate 11 (.step 1 false),
    [.domain 1 .tryReclaim], List.replicate 5 (.step 1 false)]

theorem reader_memory_safe_standing :
    (play act init standing 67).epoch.dom.issued.map Retiree.payload =
      [.node 0, .value ⟨0, .zero⟩] ∧
    ¬ (play act init standing 67).Freed (.node 0) ∧ ¬ (play act init standing 67).Freed (.box 0) := by
  have hexec : (exec act (init : Rcu Nat .ipv4) standing).isSome := by rfl
  have hstay : ∀ m < standing.length, ∃ a,
      act (play act init standing m) a = some (play act init standing (m + 1)) ∧
        ∀ τ, a = .domain τ .exit → (play act init standing m).retirer τ = false := by
    intro m hm
    refine ⟨standing[m], act_play hexec hm, ?_⟩
    intro τ hτ
    have hmem : Action.domain τ .exit ∈ standing := hτ ▸ List.getElem_mem hm
    simp [standing] at hmem
  have hsafe := reader_memory_safe (run_play hexec) hstay 67 (by decide) 0
  have hnode : (play act init standing 67).Holds 0 (.node 0) := .here 0
  have hentry : (play act init standing 67).Holds 0 (.box 0) := .inl ⟨⟨0, .zero⟩, .head _, rfl⟩
  exact ⟨by rfl, hsafe _ hnode, hsafe _ hentry⟩

/-- Outside every guard a thread holds nothing. -/
theorem holds_guarded (h : Run act init r n)
    (hstay : ∀ m < n, ∃ a, act (r m) a = some (r (m + 1)) ∧
      ∀ τ, a = .domain τ .exit → (r m).retirer τ = false) {i : Nat} (hi : i ≤ n) {τ : T} {o : Object}
    (ho : (r i).Holds τ o) : (r i).epoch.dom.guards τ ≠ [] := by
  intro hnil
  obtain ⟨hwalk, hhand⟩ := ((inv_run h hstay i hi).reading τ).closed hnil
  rw [Holds, hwalk, hhand] at ho
  cases o with
  | node n => exact Graph.not_reach_none ho
  | box a =>
    rcases ho with ⟨b, hb, -⟩ | ⟨n, hn, -⟩
    · cases hb
    · exact Graph.not_reach_none hn

end run

end Rcu

end RcuFib

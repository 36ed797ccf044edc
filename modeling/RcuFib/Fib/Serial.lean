import RcuFib.Fib.Progress
import RcuFib.Trie.Publication

/-! The writers of `rcu_fib`, one after the other.

    `writer_mutex_` lets in one call of `insert`, `erase` or `apply` at a time, and readers change
    nothing. So whenever nobody holds it, the table is what the calls have made of it in the order in
    which they took it. In the middle of a call it is what an initial part of the updates has made of it:
    each of them takes effect at once (`table_serial`). -/

namespace RcuFib
open SearchGraph Routine Trace RadixTrie

variable {T : Type*} {w : Width}

namespace RadixTrie
variable {V : Type*} {t : RadixTrie w V} {C : Prefix w → Option V} {u : Update w V} {pc : WriterPc w V}

/-- What updates make of an empty table, one after the other. -/
def made (us : List (Update w V)) : Prefix w → Option V := us.foldl (fun C u => u.effect C) fun _ => none

theorem made_append (us us' : List (Update w V)) :
    made (us ++ us') = us'.foldl (fun C u => u.effect C) (made us) := List.foldl_append ..

/-- An update takes effect at once. -/
theorem Performing.contents (h : t.Performing C u pc) : t.contents = C ∨ t.contents = u.effect C := by
  have hspelled : ∀ {M : Table w V}, t.Spells M → t.contents = fun q => (M q).map Box.content := by
    intro M hM
    rw [← hM.2]
    rfl
  cases pc with
  | insert p pc =>
    obtain ⟨M, v, rfl, h, rfl⟩ := h
    cases hs : pc.switched with
    | false => exact .inl (hspelled (h.before hs))
    | true =>
      obtain ⟨b, rfl, hb⟩ := h.after hs
      exact .inr (by rw [hspelled hb, map_update]; rfl)
  | erase p pc =>
    obtain ⟨M, t₀, rfl, h, rfl⟩ := h
    have hM := h.spells
    split at hM
    · exact .inr (by rw [hspelled hM, map_update]; rfl)
    · exact .inl (hspelled hM)

theorem contents_ne_none {q : Prefix w} : t.contents q ≠ none ↔ t.table q ≠ none := by
  simp only [RadixTrie.contents, ne_eq, Option.map_eq_none_iff]

theorem effect_add {p q : Prefix w} {v : V} :
    (Update.add p v).effect C q ≠ none ↔ q = p ∨ C q ≠ none := by
  change Function.update C p (some v) q ≠ none ↔ _
  rcases eq_or_ne q p with rfl | hne
  · rw [Function.update_self]
    exact ⟨fun _ => .inl rfl, fun _ => Option.some_ne_none v⟩
  · rw [Function.update_of_ne hne]
    exact ⟨.inr, fun h => h.resolve_left hne⟩

/-- The update replaces the entry of a prefix in `P`, or puts one there. -/
def Update.Renews (P : Prefix w → Prop) : Update w V → Prop
  | add p _ => P p
  | withdraw _ => False

theorem renewed {P : Prefix w → Prop} {us : List (Update w V)} (hus : ∀ u ∈ us, u.Renews P)
    {C : Prefix w → Option V} (hC : ∀ q, C q ≠ none ↔ P q) :
    ∀ q, us.foldl (fun C u => u.effect C) C q ≠ none ↔ P q := by
  induction us generalizing C with
  | nil => exact hC
  | cons u us ih =>
    refine ih (fun v hv => hus v (List.mem_cons_of_mem u hv)) ?_
    have hu := hus u List.mem_cons_self
    intro q
    change u.effect C q ≠ none ↔ P q
    cases u with
    | withdraw p => exact hu.elim
    | add p v =>
      rw [effect_add, hC]
      exact or_iff_right_of_imp fun hq => hq ▸ hu

/-- Insertions alone route what they insert. -/
theorem made_adds (l : List (Prefix w × V)) (q : Prefix w) :
    made (l.map fun x => .add x.1 x.2) q ≠ none ↔ q ∈ l.map Prod.fst := by
  induction l using List.reverseRecOn with
  | nil => exact ⟨fun h => absurd rfl h, fun h => absurd h List.not_mem_nil⟩
  | append_singleton l x ih =>
    rw [List.map_append, made_append, List.map_append, List.mem_append, ← ih, or_comm]
    exact effect_add.trans (or_congr_left List.mem_singleton.symm)

end RadixTrie

/-- The call replaces entries of prefixes in `P`. -/
def FibCall.Renews (P : Prefix w → Prop) (c : FibCall w) : Prop := ∀ u ∈ c.updates, u.Renews P

theorem programmed_eq_made (calls : List (FibCall w)) :
    programmed calls = made (calls.flatMap FibCall.updates) := List.foldl_flatMap.symm

namespace Rcu

/-! ### What the calls make of the table -/

/-- Where the call that holds the mutex is, the last of `calls` to take it. -/
def Serving (calls : List (FibCall w)) (t : RadixTrie w FibEntry) : Option (CallPc w) → Prop
  | none | some (.unlock _) => t.contents = programmed calls
  | some (.update pc rest _) | some (.retire pc rest _) => ∃ past c before u, calls = past ++ [c] ∧
      c.updates = before ++ u :: rest ∧
      t.Performing (before.foldl (fun C u => u.effect C) (programmed past)) u pc

/-- The call that takes the mutex from one state to the next. -/
def entering (s s' : Rcu T w) : List (FibCall w) :=
  match s.writer, s'.writer with
  | none, some (τ, _) =>
    match s.client τ with
    | .locking c => [c]
    | _ => []
  | _, _ => []

/-- The calls that have taken the mutex by then, in order. -/
def taken (r : Nat → Rcu T w) : Nat → List (FibCall w)
  | 0 => []
  | i + 1 => taken r i ++ entering (r i) (r (i + 1))

variable {s s' : Rcu T w} {t : RadixTrie w FibEntry} {calls past : List (FibCall w)} {c : FibCall w}
  {rest : List (Update w FibEntry)}

theorem Serving.resume {pc : CallPc w} (h : Serving calls t (some pc)) :
    Serving calls t (some pc.resume) := by
  cases pc <;> exact h

theorem Serving.proceed (before : List (Update w FibEntry)) (hc : c.updates = before ++ rest) (hidle : WriterInv t none)
    (hC : t.contents = before.foldl (fun C u => u.effect C) (programmed past)) (applied : Nat) :
    Serving (past ++ [c]) t (some (.proceed rest applied)) := by
  cases rest with
  | nil =>
    rw [List.append_nil] at hc
    have heffect : t.contents = programmed (past ++ [c]) := by
      rw [hC, programmed_snoc, FibCall.effect, hc]
    exact heffect
  | cons u rest => exact ⟨past, c, before, u, rfl, hc, hC ▸ .start hidle u⟩

variable [DecidableEq T]

theorem writer_settle (s : Rcu T w) (σ : T) : (s.settle σ).writer = s.writer ∨
    (s.settle σ).writer = s.writer.map fun x => if x.1 = σ then (x.1, x.2.resume) else x := by
  unfold settle
  split
  · exact .inl rfl
  · exact .inr rfl

theorem Serving.settle {σ : T} (h : Serving calls s.trie (s.writer.map Prod.snd)) :
    Serving calls (s.settle σ).trie ((s.settle σ).writer.map Prod.snd) := by
  rw [trie_settle]
  rcases writer_settle s σ with hw | hw
  · rwa [hw]
  · rw [hw]
    cases hs : s.writer with
    | none =>
      rw [hs] at h
      exact h
    | some x =>
      rw [hs] at h
      simp only [Option.map_some]
      split
      · exact h.resume
      · exact h

theorem entering_settle (s s' : Rcu T w) (hs : s'.writer = s.writer) (σ : T) :
    entering s (s'.settle σ) = [] := by
  rcases writer_settle s' σ with hw | hw
  · rw [entering, hw, hs]
    cases s.writer <;> rfl
  · rw [entering, hw, hs]
    cases s.writer <;> rfl

theorem serving_act (hw : s.Walks) {a : Action T w} (ha : s.act a = some s')
    (h : Serving calls s.trie (s.writer.map Prod.snd)) :
    Serving (calls ++ entering s s') s'.trie (s'.writer.map Prod.snd) := by
  have hsame : ∀ {s₁ : Rcu T w}, s₁.trie = s.trie → s₁.writer = s.writer →
      Serving (calls ++ entering s s₁) s₁.trie (s₁.writer.map Prod.snd) := by
    intro s₁ ht hw₁
    have hnone : entering s s₁ = [] := by
      rw [entering, hw₁]
      cases s.writer <;> rfl
    rw [hnone, List.append_nil, ht, hw₁]
    exact h
  have hheld : ∀ {x : T × CallPc w} {s₁ : Rcu T w}, s.writer = some x → entering s s₁ = [] := by
    intro x s₁ hx
    rw [entering, hx]
  cases move_of_act ha with
  | @domain σ c e _ _ _ =>
    rw [entering_settle s ((s.moved e).setClient σ .domain) rfl, List.append_nil]
    exact Serving.settle (s := (s.moved e).setClient σ .domain) h
  | @step σ _ e _ =>
    rw [entering_settle s (s.moved e) rfl, List.append_nil]
    exact Serving.settle (s := s.moved e) h
  | lookup => exact hsame rfl rfl
  | @read σ b lpc t lpc' _ ho =>
    have hload := lookup_trie (a := b) (t := s.trie) lpc
    rw [ho] at hload
    exact hsame hload rfl
  | @found σ b lpc t entry _ ho =>
    have hload := lookup_trie (a := b) (t := s.trie) lpc
    rw [ho] at hload
    exact hsame hload rfl
  | call => exact hsame rfl rfl
  | @lock σ c hc hnone =>
    have hidle := hw.writer
    rw [update, hnone] at hidle
    rw [hnone] at h
    have henter : entering s { s.setClient σ .writing with writer := some (σ, .proceed c.updates 0) } =
        [c] := by
      simp only [entering, hnone, hc]
    rw [henter]
    exact Serving.proceed [] rfl hidle h 0
  | @write σ pc rest applied t pc' hwriter ho =>
    rw [hheld hwriter, List.append_nil]
    rw [hwriter] at h
    obtain ⟨past, c, before, u, rfl, hc, hu⟩ := h
    have hstep := performing_step hu
    rw [ho] at hstep
    exact ⟨past, c, before, u, rfl, hc, hstep⟩
  | @retire σ pc rest applied t x pc' e hwriter ho _ =>
    rw [hheld hwriter, List.append_nil]
    rw [hwriter] at h
    obtain ⟨past, c, before, u, rfl, hc, hu⟩ := h
    have hstep := performing_step hu
    rw [ho] at hstep
    exact ⟨past, c, before, u, rfl, hc, hstep⟩
  | @updated σ pc rest applied t r hwriter ho =>
    rw [hheld hwriter, List.append_nil]
    rw [hwriter] at h
    obtain ⟨past, c, before, u, rfl, hc, hu⟩ := h
    have hstep := performing_step hu
    rw [ho] at hstep
    refine Serving.proceed (before ++ [u]) ?_ hstep.1 ?_ _
    · rw [hc, List.append_assoc, List.singleton_append]
    · rw [hstep.2, List.foldl_append, List.foldl_cons, List.foldl_nil]
  | @unlock σ applied hwriter =>
    rw [hheld hwriter, List.append_nil]
    rw [hwriter] at h
    exact h

theorem serving_run {r : Nat → Rcu T w} {n : Nat} (h : Run act init r n) :
    ∀ i ≤ n, Serving (taken r i) (r i).trie ((r i).writer.map Prod.snd) := by
  intro i hi
  induction i with
  | zero =>
    rw [h.start]
    exact (rep_of_root_none inv_empty rfl).contents_eq
  | succ i ih =>
    obtain ⟨a, ha⟩ := h.step i hi
    exact serving_act (walks_run h i (Nat.le_of_succ_le hi)) ha (ih (Nat.le_of_succ_le hi))

theorem Serving.made {pc : Option (CallPc w)} (h : Serving calls t pc) : ∃ before after,
    calls.flatMap FibCall.updates = before ++ after ∧ t.contents = made before ∧
    (pc = none → after = []) ∧ calls.dropLast.flatMap FibCall.updates <+: before := by
  have hwhole : t.contents = programmed calls → ∃ before after,
      calls.flatMap FibCall.updates = before ++ after ∧ t.contents = RadixTrie.made before ∧
      (pc = none → after = []) ∧ calls.dropLast.flatMap FibCall.updates <+: before := by
    intro hC
    refine ⟨calls.flatMap FibCall.updates, [], (List.append_nil _).symm, ?_, fun _ => rfl, ?_⟩
    · rw [hC, programmed_eq_made]
    · exact (List.dropLast_prefix calls).flatMap _
  have hpart : (∃ past c before u rest wpc, pc.isSome ∧ calls = past ++ [c] ∧
      c.updates = before ++ u :: rest ∧
      t.Performing (before.foldl (fun C u => u.effect C) (programmed past)) u wpc) → ∃ before after,
      calls.flatMap FibCall.updates = before ++ after ∧ t.contents = RadixTrie.made before ∧
      (pc = none → after = []) ∧ calls.dropLast.flatMap FibCall.updates <+: before := by
    rintro ⟨past, c, before, u, rest, wpc, hsome, rfl, hc, hu⟩
    have hnone : pc = none → ∀ {p : Prop}, p := by
      rintro rfl
      cases hsome
    have hsplit : (past ++ [c]).flatMap FibCall.updates =
        past.flatMap FibCall.updates ++ before ++ u :: rest := by
      rw [List.flatMap_append, List.flatMap_singleton, hc, List.append_assoc]
    rw [hsplit, List.dropLast_concat]
    rw [programmed_eq_made, ← made_append] at hu
    rcases hu.contents with hC | hC
    · exact ⟨_, _, rfl, hC, fun h => hnone h, List.prefix_append ..⟩
    · refine ⟨past.flatMap FibCall.updates ++ before ++ [u], rest, by simp, ?_, fun h => hnone h, ?_⟩
      · rw [hC, made_append _ [u]]
        rfl
      · rw [List.append_assoc]
        exact List.prefix_append ..
  cases pc with
  | none => exact hwhole h
  | some pc =>
    cases pc with
    | unlock => exact hwhole h
    | update wpc rest applied =>
      obtain ⟨past, c, before, u, hcalls, hc, hu⟩ := h
      exact hpart ⟨past, c, before, u, rest, wpc, rfl, hcalls, hc, hu⟩
    | retire wpc rest applied =>
      obtain ⟨past, c, before, u, hcalls, hc, hu⟩ := h
      exact hpart ⟨past, c, before, u, rest, wpc, rfl, hcalls, hc, hu⟩

theorem made_run {r : Nat → Rcu T w} {n : Nat} (h : Run act init r n) : ∀ i ≤ n, ∃ before after,
    (taken r i).flatMap FibCall.updates = before ++ after ∧ (r i).trie.contents = made before ∧
    ((r i).writer = none → after = []) ∧ (taken r i).dropLast.flatMap FibCall.updates <+: before := by
  intro i hi
  obtain ⟨before, after, hsplit, hC, hidle, hinitial⟩ := (serving_run h i hi).made
  refine ⟨before, after, hsplit, hC, fun hnone => hidle ?_, hinitial⟩
  rw [hnone, Option.map_none]

/-- The writers of `rcu_fib` are serialised. At every moment the table is what the updates of the calls so
    far have made of it, in the order in which the calls took the mutex: all updates of the earlier calls,
    and those of the call under way up to one of them; all of them when there is none. -/
theorem table_serial {r : Nat → Rcu T w} {n : Nat} (h : Run act init r n) {i : Nat} (hi : i ≤ n) :
    (∃ before after, (taken r i).flatMap FibCall.updates = before ++ after ∧
      (taken r i).dropLast.flatMap FibCall.updates <+: before ∧
      (r i).trie.contents = before.foldl (fun C u => u.effect C) fun _ => none) ∧
    ((r i).writer = none → (r i).trie.contents = programmed (taken r i)) := by
  obtain ⟨before, after, hsplit, hC, hidle, hinitial⟩ := made_run h i hi
  refine ⟨⟨before, after, hsplit, hinitial, hC⟩, fun hnone => ?_⟩
  obtain rfl := hidle hnone
  rw [hC, programmed_eq_made, hsplit, List.append_nil]

/-- While the withdrawal is under way. -/
theorem table_serial_standing :
    (∃ before after, (taken (play act init standing) 36).flatMap FibCall.updates = before ++ after ∧
      (taken (play act init standing) 36).dropLast.flatMap FibCall.updates <+: before ∧
      (play act init standing 36).trie.contents = before.foldl (fun C u => u.effect C) fun _ => none) ∧
    ((play act init standing 36).writer = none →
      (play act init standing 36).trie.contents = programmed (taken (play act init standing) 36)) :=
  table_serial (run_play (by rfl)) (by decide : 36 ≤ standing.length)

/-! ### Calls that replace entries only -/

theorem entering_ne_nil {a : Action T w} (ha : s.act a = some s') (hfree : s.writer = none)
    (hheld : s'.writer ≠ none) : entering s s' ≠ [] := by
  have hsettle : ∀ (s₁ : Rcu T w) (σ : T), s₁.writer = none → (s₁.settle σ).writer = none := by
    intro s₁ σ h₁
    rcases writer_settle s₁ σ with hw | hw
    · rw [hw, h₁]
    · rw [hw, h₁, Option.map_none]
  cases move_of_act ha with
  | @domain σ _ e => exact absurd (hsettle ((s.moved e).setClient σ .domain) σ hfree) hheld
  | @step σ _ e => exact absurd (hsettle (s.moved e) σ hfree) hheld
  | lookup => exact absurd hfree hheld
  | read => exact absurd hfree hheld
  | found => exact absurd hfree hheld
  | call => exact absurd hfree hheld
  | lock hc _ => simp only [entering, hfree, hc, ne_eq, List.cons_ne_nil, not_false_eq_true]
  | write hw _ => rw [hfree] at hw; cases hw
  | retire hw _ _ => rw [hfree] at hw; cases hw
  | updated hw _ => rw [hfree] at hw; cases hw
  | unlock hw => rw [hfree] at hw; cases hw

section since
variable {r : Nat → Rcu T w} {n i₀ : Nat} {P : Prefix w → Prop}

omit [DecidableEq T] in
theorem taken_mono (r : Nat → Rcu T w) {i j : Nat} (hij : i ≤ j) : taken r i <+: taken r j := by
  induction j, hij using Nat.le_induction with
  | base => exact List.prefix_rfl
  | succ j _ ih => exact ih.trans (List.prefix_append ..)

/-- Whoever holds the mutex has taken it since it was free. -/
theorem taken_since (h : Run act init r n) (hfree : (r i₀).writer = none) {i : Nat} (h₀ : i₀ ≤ i)
    (hi : i ≤ n) (hheld : (r i).writer ≠ none) : taken r i₀ <+: (taken r i).dropLast := by
  have hlonger : ∀ j, i₀ ≤ j → j ≤ n → (r j).writer ≠ none → (taken r i₀).length < (taken r j).length := by
    refine h.along (Q := fun j s => s.writer ≠ none → (taken r i₀).length < (taken r j).length)
      (fun hw => absurd hfree hw) ?_
    intro j a hj hjn hQ ha hw
    rw [taken, List.length_append]
    by_cases hfree' : (r j).writer = none
    · have hnew := List.length_pos_iff.mpr (entering_ne_nil ha hfree' hw)
      have hle := (taken_mono r hj).length_le
      omega
    · exact Nat.lt_add_right _ (hQ hfree')
  obtain ⟨more, hmore⟩ := taken_mono r h₀
  have hlt := hlonger i h₀ hi hheld
  rw [← hmore, List.length_append] at hlt
  rw [← hmore, List.dropLast_append_of_ne_nil (List.ne_nil_of_length_pos (by omega))]
  exact List.prefix_append ..

/-- The calls that are over by then. -/
def finished (r : Nat → Rcu T w) (i : Nat) : List (FibCall w) :=
  if (r i).writer = none then taken r i else (taken r i).dropLast

theorem taken_le_finished (h : Run act init r n) (hfree : (r i₀).writer = none) {i : Nat} (h₀ : i₀ ≤ i)
    (hi : i ≤ n) : taken r i₀ <+: finished r i := by
  unfold finished
  split
  · exact taken_mono r h₀
  · next hheld => exact taken_since h hfree h₀ hi hheld

theorem finished_mono (h : Run act init r n) {i : Nat} (h₀ : i₀ ≤ i) (hi : i ≤ n) :
    finished r i₀ <+: finished r i := by
  by_cases hfree : (r i₀).writer = none
  · rw [finished, if_pos hfree]
    exact taken_le_finished h hfree h₀ hi
  · have htaken := taken_mono r h₀
    rw [finished, if_neg hfree]
    unfold finished
    split
    · exact (List.dropLast_prefix _).trans htaken
    · rw [List.dropLast_eq_take (l := taken r i), List.prefix_take_iff, List.length_dropLast]
      exact ⟨(List.dropLast_prefix _).trans htaken, Nat.sub_le_sub_right htaken.length_le 1⟩

/-- At every moment of a span the updates of all calls that are over when it starts are in the table, and
    some of those that come later. -/
theorem made_between (h : Run act init r n) {i : Nat} (h₀ : i₀ ≤ i) (hi : i ≤ n) :
    ∃ before, (finished r i₀).flatMap FibCall.updates <+: before ∧
      before <+: (taken r i).flatMap FibCall.updates ∧ (r i).trie.contents = made before := by
  obtain ⟨before, after, hsplit, hC, hidle, hinitial⟩ := made_run h i hi
  refine ⟨before, ((finished_mono h h₀ hi).flatMap _).trans ?_, ⟨after, hsplit.symm⟩, hC⟩
  unfold finished
  split
  · next hfree =>
    rw [hsplit, hidle hfree, List.append_nil]
  · exact hinitial

/-- From a moment on at which nobody holds the mutex, the calls change no more than the entries of the
    prefixes that are routed by then. These stay routed throughout, and no others are. -/
theorem routes_kept (h : Run act init r n) (hfree : (r i₀).writer = none) (h₀ : i₀ ≤ n)
    (hP : ∀ q, (r i₀).trie.table q ≠ none ↔ P q)
    (hrenew : ∀ c ∈ (taken r n).drop (taken r i₀).length, c.Renews P) {i : Nat} (hlo : i₀ ≤ i)
    (hi : i ≤ n) : ∀ q, (r i).trie.table q ≠ none ↔ P q := by
  obtain ⟨done, after₀, hdone, hC₀, hidle₀, -⟩ := made_run h i₀ h₀
  obtain rfl := hidle₀ hfree
  rw [List.append_nil] at hdone
  obtain ⟨before, hlower, hupper, hC⟩ := made_between h hlo hi
  rw [finished, if_pos hfree, hdone] at hlower
  obtain ⟨more, rfl⟩ := hlower
  obtain ⟨later, hlater⟩ := taken_mono r (hlo.trans hi)
  have hmore : ∀ u ∈ more, u.Renews P := by
    intro u hu
    have hupper := hupper.trans ((taken_mono r hi).flatMap FibCall.updates)
    rw [← hlater, List.flatMap_append, hdone, List.prefix_append_right_inj] at hupper
    obtain ⟨c, hc, hcu⟩ := List.mem_flatMap.mp (hupper.subset hu)
    refine hrenew c ?_ u hcu
    rwa [← hlater, List.drop_left]
  intro q
  rw [← contents_ne_none, hC, made_append]
  refine renewed hmore (C := made done) (fun q => ?_) q
  rw [← hC₀, contents_ne_none]
  exact hP q

end since

end Rcu

end RcuFib

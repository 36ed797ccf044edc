import RcuFib.Fib.Locked
import RcuFib.Trie.Standing

/-! The memory of `mutex_fib` and `shared_mutex_fib`, whose tries free at once (`immediate_reclaim`).

    `retire` is `delete`: a node goes, and with it the value it carries, while the call that retires it
    is still at work. So the call itself must not come back to it, and no reader may be inside.
    `touches` are the objects that the access at a position dereferences. -/

namespace RcuFib
open SearchGraph Routine Trace RadixTrie Monitor

variable {w : Width} {V : Type*}

namespace RadixTrie

/-- The node whose `child` a slot is. -/
def slotNode : Slot Nat → List Nat
  | .root => []
  | .child n _ => [n]

def InsertPc.touches (t : RadixTrie w V) : InsertPc w V → List Object
  | .load _ slot => (slotNode slot ++ (t.loadSlot slot).toList).map .node
  | .leafValue _ _ fresh | .branchLeafValue _ _ _ _ _ fresh | .parentValue _ _ _ fresh => [.node fresh]
  | .branchExisting _ existing _ branch _ | .branchLeaf _ existing _ branch _ =>
    [.node existing, .node branch]
  | .parentChild _ current fresh => [.node current, .node fresh]
  | .publishBranch slot _ _ | .publish slot _ => (slotNode slot).map .node
  | .exchange _ current => [.node current]
  | .retireOld old => [.box old.address]
  | .box _ | .newLeaf .. | .newBranch .. | .newBranchLeaf .. | .newParent .. | .addNodes _ | .addSize
  | .ret _ => []

def ErasePc.touches (t : RadixTrie w V) : ErasePc V → List Object
  | .load slot _ => (slotNode slot ++ (t.loadSlot slot).toList).map .node
  | .exchange current _ _ | .loadLeft current _ _ | .loadRight _ current _ _ | .retireNode current _ =>
    [.node current]
  | .retireValue old _ _ _ => [.box old.address]
  | .unlink _ _ slot _ | .collapse _ _ slot => (slotNode slot).map .node
  | .parentValue parent _ | .parentLeft parent _ | .parentRight _ parent _ | .retireParent parent =>
    [.node parent]
  | .subSize .. | .subNodes _ | .subParent | .ret _ => []

def WriterPc.touches (t : RadixTrie w V) : WriterPc w V → List Object
  | .insert _ pc => pc.touches t
  | .erase _ pc => pc.touches t

variable {t t' t₀ : RadixTrie w V} {T : Table w V} {M : Reference w V} {u : Update w V} {p : Prefix w}
  {v : V} {s : Slot Nat} {n : Nat} {x : Object}

theorem linked_slotNode (h : t.graph.SlotLinked s) (hn : n ∈ slotNode s) : t.Linked n := by
  cases s with
  | root => cases hn
  | child m b =>
    obtain rfl := List.mem_singleton.mp hn
    exact h

theorem linked_load (h : t.graph.SlotLinked s) (hn : t.loadSlot s = some n) : t.Linked n :=
  Graph.linked_of_slot h (reach_get hn)

theorem linked_at (h : t.graph.SlotLinked s)
    (hx : x ∈ (slotNode s ++ (t.loadSlot s).toList).map Object.node) : ∃ n, x = .node n ∧ t.Linked n := by
  obtain ⟨n, hn, rfl⟩ := List.mem_map.mp hx
  rcases List.mem_append.mp hn with hn | hn
  · exact ⟨n, rfl, linked_slotNode h hn⟩
  · exact ⟨n, rfl, linked_load h (Option.mem_toList.mp hn)⟩

/-- `insert` dereferences only what it or the trie owns. -/
theorem insert_touches {pc : InsertPc w V} (h : InsertInv T p v t pc) (hx : x ∈ pc.touches t) :
    insertKept t pc x := by
  have hnode : ∀ {n}, x = .node n → (t.Linked n ∨ n ∈ pc.priv) → insertKept t pc x := by
    rintro n rfl hn
    exact .inl hn
  cases pc with
  | load b s =>
    obtain ⟨n, rfl, hn⟩ := linked_at h.at_slot.slot hx
    exact hnode rfl (.inl hn)
  | leafValue b s f =>
    exact hnode (List.mem_singleton.mp hx) (.inr (List.mem_singleton_self f))
  | branchLeafValue b s e k br lf =>
    exact hnode (List.mem_singleton.mp hx) (.inr (List.mem_cons_self ..))
  | parentValue b s c f =>
    exact hnode (List.mem_singleton.mp hx) (.inr (List.mem_singleton_self f))
  | branchExisting s e k br lf =>
    obtain ⟨b, hb, he, -⟩ := h
    rcases List.mem_cons.mp hx with hx | hx
    · exact hnode hx (.inl (linked_load hb.at_slot.slot he))
    · exact hnode (List.mem_singleton.mp hx) (.inr (by simp [InsertPc.priv]))
  | branchLeaf s e k br lf =>
    obtain ⟨b, hb, he, -⟩ := h
    rcases List.mem_cons.mp hx with hx | hx
    · exact hnode hx (.inl (linked_load hb.at_slot.slot he))
    · exact hnode (List.mem_singleton.mp hx) (.inr (by simp [InsertPc.priv]))
  | parentChild s c f =>
    obtain ⟨b, hb, hc, -⟩ := h
    rcases List.mem_cons.mp hx with hx | hx
    · exact hnode hx (.inl (linked_load hb.at_slot.slot hc))
    · exact hnode (List.mem_singleton.mp hx) (.inr (List.mem_singleton_self f))
  | publishBranch s br lf =>
    obtain ⟨b, -, -, -, hr⟩ := h
    obtain ⟨n, hn, rfl⟩ := List.mem_map.mp hx
    exact hnode rfl (.inl (linked_slotNode hr.slot hn))
  | publish s f =>
    obtain ⟨b, -, -, -, hr⟩ := h
    obtain ⟨n, hn, rfl⟩ := List.mem_map.mp hx
    exact hnode rfl (.inl (linked_slotNode hr.slot hn))
  | exchange b c => exact hnode (List.mem_singleton.mp hx) (.inl h.2.2.2.1)
  | retireOld old =>
    obtain rfl := List.mem_singleton.mp hx
    exact .inr (.inl rfl)
  | box | newLeaf | newBranch | newBranchLeaf | newParent | addNodes | addSize | ret => cases hx

/-- `erase` dereferences only what it or the trie owns: not the node it has just retired. -/
theorem erase_touches {pc : ErasePc V} (h : EraseInv t₀ T p t pc) (hx : x ∈ pc.touches t) :
    eraseKept t pc x := by
  have hnode : ∀ {n}, x = .node n → (t.Linked n ∨ pc.cut = some n) → eraseKept t pc x := by
    rintro n rfl hn
    exact .inl hn
  cases pc with
  | load s parent =>
    obtain ⟨n, rfl, hn⟩ := linked_at h.2.2.1.slot hx
    exact hnode rfl (.inl hn)
  | exchange c s parent => exact hnode (List.mem_singleton.mp hx) (.inl h.2.2.2.held.linked)
  | loadLeft c s parent => exact hnode (List.mem_singleton.mp hx) (.inl h.2.1.held.linked)
  | loadRight l c s parent => exact hnode (List.mem_singleton.mp hx) (.inl h.2.1.held.linked)
  | retireNode c parent => exact hnode (List.mem_singleton.mp hx) (.inr rfl)
  | retireParent n => exact hnode (List.mem_singleton.mp hx) (.inr rfl)
  | retireValue old c s parent =>
    obtain rfl := List.mem_singleton.mp hx
    exact .inr (.inl rfl)
  | unlink l c s parent =>
    obtain ⟨n, hn, rfl⟩ := List.mem_map.mp hx
    exact hnode rfl (.inl (linked_slotNode h.2.2.slot hn))
  | collapse only n s =>
    obtain ⟨m, hm, rfl⟩ := List.mem_map.mp hx
    exact hnode rfl (.inl (linked_slotNode h.2.slot hm))
  | parentValue n s => exact hnode (List.mem_singleton.mp hx) (.inl h.2.linked)
  | parentLeft n s => exact hnode (List.mem_singleton.mp hx) (.inl h.2.1.linked)
  | parentRight l n s => exact hnode (List.mem_singleton.mp hx) (.inl h.2.1.linked)
  | subSize | subNodes | subParent | ret => cases hx

/-! ### The books of an update -/

def writerKept (t : RadixTrie w V) : WriterPc w V → Object → Prop
  | .insert _ pc => insertKept t pc
  | .erase _ pc => eraseKept t pc

theorem writerKept_start (t : RadixTrie w V) (u : Update w V) (x : Object) :
    t.writerKept u.start x ↔ t.AtRest x := by
  cases u with
  | add p v => exact kept_congr (fun n => by simp [InsertPc.own, InsertPc.priv]) (fun _ _ => rfl) rfl rfl x
  | withdraw p => exact kept_congr (fun n => by simp [ErasePc.own, ErasePc.cut]) (fun _ _ => rfl) rfl rfl x

theorem writer_conserves {pc : WriterPc w V} (h : WriterInv t (some pc)) :
    (writerStep t pc).Conserves hands writerKept AtRest (t.writerKept pc) := by
  cases pc with
  | insert p pc =>
    obtain ⟨T, v, h⟩ := h
    exact Outcome.conserves_map.mpr (insert_conserves h)
  | erase p pc =>
    obtain ⟨T, t₀, h⟩ := h
    exact Outcome.conserves_map.mpr (erase_conserves h)

theorem writer_touches {pc : WriterPc w V} (h : Applying M u t pc) (hx : x ∈ pc.touches t) :
    t.writerKept pc x := by
  cases pc with
  | insert p pc =>
    obtain ⟨T, v, -, h, -⟩ := h
    exact insert_touches h hx
  | erase p pc =>
    obtain ⟨T, t₀, -, h, -⟩ := h
    exact erase_touches h hx

theorem atRest_iff (t : RadixTrie w V) (x : Object) : t.AtRest x ↔ x.Linked t ∨ ¬ x.Allocated t := by
  cases x with
  | node n => simp [AtRest, Kept, Object.Linked, Object.Allocated]
  | box a => simp [AtRest, Kept, Object.Linked, Object.Allocated]

/-- The entry a lookup finds belongs to the trie. -/
theorem atRest_of_match (h : t.Represents M) {a : Address w} {b : Box V}
    (hm : LongestMatch t.table a (some b)) : t.AtRest (.box b.address) := by
  obtain ⟨T, hrep, -⟩ := h
  obtain ⟨q, hq, -⟩ := hm
  obtain ⟨n, hn, -, hv⟩ := hrep.inv.table_eq_some.mp hq
  exact .inl ⟨n, hn, by rw [Carries, hv]; rfl⟩

end RadixTrie

/-! ### The books of a call -/

namespace LockedCall

/-- What the access at a position dereferences. -/
def touches (t : RadixTrie w FibEntry) : LockedPc w → List Object
  | .walk _ pc => pc.node.toList.map .node
  | .copy entry => entry.toList.map fun b => .box b.address
  | .single pc | .batch pc _ _ => pc.touches t
  | .applied _ | .size => []

def kept (t : RadixTrie w FibEntry) : LockedPc w → Object → Prop
  | .single pc | .batch pc _ _ => t.writerKept pc
  | _ => t.AtRest

/-- The entry `visit` hands to its callback. -/
def refers : Answer → Object → Prop
  | .visited (some b), x => x = .box b.address
  | _, _ => False

variable {c : LockedCall w} {M : Reference w FibEntry} {t t' : RadixTrie w FibEntry} {pc : LockedPc w}
  {x : Object}

theorem kept_proceed (t : RadixTrie w FibEntry) (rest : List (Update w FibEntry)) (count : Nat)
    (x : Object) : kept t (.proceed rest count) x ↔ t.AtRest x := by
  cases rest with
  | nil => rfl
  | cons u rest => exact writerKept_start t u x

theorem kept_start (c : LockedCall w) (t : RadixTrie w FibEntry) (x : Object) :
    kept t c.start x ↔ t.AtRest x := by
  cases c with
  | insert p entry => exact writerKept_start t (.add p entry) x
  | erase p => exact writerKept_start t (.withdraw p) x
  | apply updates => exact kept_proceed ..
  | visit | lookup | size => rfl

theorem step_conserves (h : At c M t pc) :
    (c.step t pc).Conserves hands kept AtRest (kept t pc) := by
  cases pc with
  | walk a pc =>
    have hsame : (lookupStep a t pc).Sat (fun t' _ => t' = t) (fun t' _ => t' = t) := lookup_trie pc
    simp only [step]
    cases ho : lookupStep a t pc with
    | next t' pc' =>
      rw [ho] at hsame
      obtain rfl := hsame
      exact fun _ => .rfl
    | call t' x => exact x.elim
    | done t' entry =>
      rw [ho] at hsame
      obtain rfl := hsame
      simp only
      split
      · exact fun _ => .rfl
      · exact fun _ => .rfl
  | single pc =>
    obtain ⟨u, -, happ⟩ := h
    have hcons := writer_conserves happ.writerInv
    simp only [step]
    cases ho : writerStep t pc with
    | next t' pc' => rw [ho] at hcons; exact hcons
    | call t' y pc' => rw [ho] at hcons; exact hcons
    | done t' r => rw [ho] at hcons; exact hcons
  | batch pc rest count =>
    obtain ⟨updates, past, u, -, -, -, happ⟩ := h
    have hcons := writer_conserves happ.writerInv
    simp only [step]
    cases ho : writerStep t pc with
    | next t' pc' => rw [ho] at hcons; exact hcons
    | call t' y pc' => rw [ho] at hcons; exact hcons
    | done t' r =>
      rw [ho] at hcons
      exact fun x => (kept_proceed t' rest _ x).trans (hcons x)
  | copy | applied | size => exact fun _ => .rfl

theorem touches_kept (h : At c M t pc) (hx : x ∈ touches t pc) : kept t pc x := by
  cases pc with
  | walk a pc =>
    obtain ⟨-, -, -, hs, -⟩ := h
    obtain ⟨n, hn, rfl⟩ := List.mem_map.mp hx
    cases pc with
    | root => cases hn
    | value c best =>
      obtain rfl := List.mem_singleton.mp hn
      exact .inl hs.1
    | child c best =>
      obtain rfl := List.mem_singleton.mp hn
      exact .inl hs.1
  | copy entry =>
    obtain ⟨a, -, hrep, hmatch⟩ := h
    obtain ⟨b, hb, rfl⟩ := List.mem_map.mp hx
    obtain rfl := Option.mem_toList.mp hb
    exact atRest_of_match hrep hmatch
  | single pc =>
    obtain ⟨u, -, happ⟩ := h
    exact writer_touches happ hx
  | batch pc rest count =>
    obtain ⟨updates, past, u, -, -, -, happ⟩ := h
    exact writer_touches happ hx
  | applied | size => cases hx

theorem refers_atRest {x' : Answer} (h : At c M t pc) (ho : c.step t pc = .done t' x')
    (hx : refers x' x) : t'.AtRest x := by
  cases pc with
  | walk a pc =>
    obtain ⟨-, hrep, hlook⟩ := h
    obtain ⟨T, hr, -⟩ := id hrep
    have hok := lookup_step hr.inv hlook
    simp only [step] at ho
    cases hl : lookupStep a t pc with
    | next t₁ pc' => rw [hl] at ho; cases ho
    | call t₁ y => exact y.elim
    | done t₁ entry =>
      rw [hl] at ho hok
      obtain ⟨rfl, hmatch⟩ := hok
      simp only at ho
      split at ho
      · cases ho
      · cases ho
        cases entry with
        | none => exact hx.elim
        | some b =>
          obtain rfl : x = .box b.address := hx
          exact atRest_of_match hrep hmatch
  | single pc =>
    simp only [step] at ho
    cases hw : writerStep t pc with
    | done t₁ r => rw [hw] at ho; cases ho; exact hx.elim
    | next | call => rw [hw] at ho; cases ho
  | batch pc rest count =>
    simp only [step] at ho
    cases hw : writerStep t pc with
    | next | call | done => rw [hw] at ho; cases ho
  | copy | applied | size => cases ho; exact hx.elim

/-- A reader takes nothing out of the trie. -/
theorem kept_reader (hc : c.isReader = true) (h : At c M t pc) (x : Object) :
    kept t pc x ↔ t.AtRest x := by
  cases pc with
  | single pc =>
    obtain ⟨u, hu, -⟩ := h
    cases c with
    | insert | erase | apply => cases hc
    | visit | lookup | size => cases hu
  | batch pc rest count =>
    obtain ⟨updates, past, u, rfl, -⟩ := h
    cases hc
  | walk | copy | applied | size => rfl

end LockedCall

def Locking.keeping (l : Locking) (w : Width) : Keeping (l.contract w) RadixTrie.hands where
  Kept _ := LockedCall.kept
  Rest := AtRest
  Refers _ := LockedCall.refers
  start _ x := LockedCall.kept_start _ _ x
  conserves h := LockedCall.step_conserves h
  shared hs h x := LockedCall.kept_reader ((Bool.and_eq_true ..).mp hs).2 h x
  refers h ho _ hx := LockedCall.refers_atRest h ho hx

/-! ### Many threads -/

section threads
variable {T : Type*} [DecidableEq T] {l : Locking} {r : Nat → LockedFib T w} {n : Nat}

/-- How often a node or an entry has been deleted. -/
def deleted (s : LockedFib T w) (x : Object) : Nat := handed RadixTrie.hands s.effects x

/-- Freeing at once is safe behind the locks. Nothing is deleted twice, no thread dereferences what has
    been deleted, nor does a callback of `visit`; and what a table has allocated is in its trie or has
    been deleted, whenever no update is under way. -/
theorem locked_memory_safe (h : Run (System.act (l.calls w)) (System.init .empty) r n) {i : Nat}
    (hi : i ≤ n) : (∀ x, deleted (r i) x ≤ 1) ∧
    (∀ τ c pc, (r i).client τ = .inside c pc → ∀ x ∈ LockedCall.touches (r i).object pc,
      deleted (r i) x = 0) ∧
    (∀ τ c b, (r i).client τ = .leaving c (.visited (some b)) →
      deleted (r i) (.box b.address) = 0) ∧
    (¬ (r i).Writing (l.calls w) → ∀ x : Object, x.Allocated (r i).object →
      (deleted (r i) x = 0 ↔ x.Linked (r i).object)) := by
  have hempty : ∀ x, (RadixTrie.empty : RadixTrie w FibEntry).AtRest x := by
    intro x
    rw [atRest_iff]
    right
    cases x with
    | node n => exact Nat.not_lt_zero n
    | box a => exact Nat.not_lt_zero a
  have hinv := System.inv_run (K := l.contract w) h represents_empty i hi
  obtain ⟨honce, hinside, hleaving⟩ :=
    System.given_once (k := l.keeping w) h represents_empty hempty hi
  refine ⟨honce, fun τ c pc hc x hx => ?_, fun τ c b hc => hleaving τ c _ hc _ rfl, ?_⟩
  · exact hinside τ c pc hc x (LockedCall.touches_kept (hinv.inside τ c pc hc) hx)
  · intro hnot x hx
    have hbooks := (System.books_run (k := l.keeping w) h represents_empty hempty i hi).rest hnot x
    have hkept : (l.keeping w).Rest (r i).object x ↔ x.Linked (r i).object :=
      (atRest_iff _ x).trans (or_iff_left (not_not.mpr hx))
    rw [Accounted, hkept] at hbooks
    rcases hbooks with ⟨hl, hc⟩ | ⟨hn, hc⟩
    · exact ⟨fun _ => hl, fun _ => hc⟩
    · exact ⟨fun h0 => absurd (hc.symm.trans h0) Nat.one_ne_zero, fun hl => absurd hl hn⟩

/-- A default route is inserted and erased again. -/
def withdrawn : Nat → LockedFib Unit .ipv4 :=
  play (System.act (Locking.sharedMutex.calls .ipv4)) (System.init .empty) <|
  [.call () (.insert (.make (.zero .ipv4) 0 Width.zero_le_ipv4) .zero), .lock ()] ++
  List.replicate 8 (.step ()) ++
  [.unlock (), .call () (.erase (.make (.zero .ipv4) 0 Width.zero_le_ipv4)), .lock ()] ++
  List.replicate 9 (.step ())

theorem locked_memory_safe_withdrawn : (∀ x, deleted (withdrawn 22) x ≤ 1) ∧
    (∀ τ c pc, (withdrawn 22).client τ = .inside c pc →
      ∀ x ∈ LockedCall.touches (withdrawn 22).object pc, deleted (withdrawn 22) x = 0) ∧
    (∀ τ c b, (withdrawn 22).client τ = .leaving c (.visited (some b)) →
      deleted (withdrawn 22) (.box b.address) = 0) ∧
    (¬ (withdrawn 22).Writing (Locking.sharedMutex.calls .ipv4) →
      ∀ x : Object, x.Allocated (withdrawn 22).object →
        (deleted (withdrawn 22) x = 0 ↔ x.Linked (withdrawn 22).object)) :=
  locked_memory_safe (n := 22) (run_play (by rfl)) le_rfl

end threads

end RcuFib

import Mathlib.Data.List.Infix
import Mathlib.Logic.Function.Basic

/-! Binary search graphs over bit strings.

    A graph has a root pointer and nodes, each with a bit-string key and two child pointers. It is
    `Ordered` when every child's key extends its parent's key and continues it with the bit of the
    side it hangs from. A pointer `Reach`es the nodes below it; a `Walk` for a string `q` only
    follows the side that `q` names. In an ordered graph the two agree on every node whose key is a
    prefix of `q`, so a search for `q` misses nothing. Nothing here asks the graph to be a tree:
    nodes that the root no longer reaches keep their pointers, and a walk may start at one of them.

    The results of the file say what one pointer store (`set`) does to reachability and to walks. -/

namespace SearchGraph

variable {N : Type*}

structure Graph (N : Type*) where
  root : Option N
  key : N → List Bool
  child : N → Bool → Option N

/-- A place that holds a pointer. -/
inductive Slot (N : Type*) where
  | root
  | child (n : N) (side : Bool)
  deriving DecidableEq

namespace Graph

def get (g : Graph N) : Slot N → Option N
  | .root => g.root
  | .child n b => g.child n b

def set [DecidableEq N] (g : Graph N) : Slot N → Option N → Graph N
  | .root, p => { g with root := p }
  | .child n b, p =>
    { g with child := Function.update g.child n (Function.update (g.child n) b p) }

/-- What every key below the slot starts with. -/
def span (g : Graph N) : Slot N → List Bool
  | .root => []
  | .child n b => g.key n ++ [b]

/-- The nodes below a pointer. -/
inductive Reach (g : Graph N) : Option N → N → Prop where
  | here (n) : Reach g (some n) n
  | down {n m} (b) : Reach g (g.child n b) m → Reach g (some n) m

/-- The nodes a search for `q` meets from a pointer on. -/
inductive Walk (g : Graph N) (q : List Bool) : Option N → N → Prop where
  | here (n) : Walk g q (some n) n
  | down {n b m} : q[(g.key n).length]? = some b → Walk g q (g.child n b) m → Walk g q (some n) m

def Linked (g : Graph N) (m : N) : Prop := g.Reach g.root m

/-- Every child's key extends its parent's on the side it hangs from. -/
def Ordered (g : Graph N) : Prop :=
  ∀ n b c, g.child n b = some c → g.key n ++ [b] <+: g.key c

/-- The slot is the root or belongs to a linked node. -/
def SlotLinked (g : Graph N) : Slot N → Prop
  | .root => True
  | .child n _ => g.Linked n

variable {g : Graph N}

/-! ### Reaching and walking -/

theorem not_reach_none {m : N} : ¬ g.Reach none m := nofun

theorem reach_of_eq {p : Option N} {m : N} (h : p = some m) : g.Reach p m := h ▸ .here m

theorem reach_some {n m : N} : g.Reach (some n) m ↔ m = n ∨ ∃ b, g.Reach (g.child n b) m := by
  constructor
  · rintro (_ | ⟨b, h⟩)
    · exact .inl rfl
    · exact .inr ⟨b, h⟩
  · rintro (rfl | ⟨b, h⟩)
    · exact .here _
    · exact .down b h

theorem Reach.trans {p : Option N} {n m : N} (h : g.Reach p n) (h' : g.Reach (some n) m) :
    g.Reach p m := by
  induction h with
  | here => exact h'
  | down b _ ih => exact .down b (ih h')

theorem Linked.child {n m : N} {b : Bool} (h : g.Linked n) (hc : g.Reach (g.child n b) m) :
    g.Linked m :=
  Reach.trans h (.down b hc)

theorem linked_of_slot {s : Slot N} {m : N} (hs : g.SlotLinked s) (h : g.Reach (g.get s) m) :
    g.Linked m := by
  cases s with
  | root => exact h
  | child n b => exact hs.child h

theorem not_span_prefix {n : N} {b : Bool} : ¬ g.span (.child n b) <+: g.key n := by
  intro h
  have := h.length_le
  simp only [span, List.length_append, List.length_singleton] at this
  omega

theorem Walk.reach {q : List Bool} {p : Option N} {m : N} (h : g.Walk q p m) : g.Reach p m := by
  induction h with
  | here => exact .here _
  | down _ _ ih => exact .down _ ih

theorem Walk.trans {q : List Bool} {p : Option N} {n m : N} (h : g.Walk q p n)
    (h' : g.Walk q (some n) m) : g.Walk q p m := by
  induction h with
  | here => exact h'
  | down hb _ ih => exact .down hb (ih h')

section ordered
variable (ho : g.Ordered)
include ho

theorem key_of_reach {n m : N} (h : g.Reach (some n) m) : g.key n <+: g.key m := by
  generalize hp : some n = p at h
  induction h generalizing n with
  | here k => cases hp; exact List.prefix_rfl
  | @down k m b hr ih =>
    cases hp
    cases hc : g.child k b with
    | none => rw [hc] at hr; exact absurd hr not_reach_none
    | some c => exact ((List.prefix_append _ _).trans (ho k b c hc)).trans (ih hc.symm)

/-- Everything below a slot starts with the slot's span. -/
theorem span_of_reach {s : Slot N} {m : N} (h : g.Reach (g.get s) m) : g.span s <+: g.key m := by
  cases s with
  | root => exact List.nil_prefix
  | child n b =>
    cases hc : g.child n b with
    | none => simp only [get, hc] at h; exact absurd h not_reach_none
    | some c => simp only [get, hc] at h; exact (ho n b c hc).trans (key_of_reach ho h)

theorem side_of_reach {n m : N} {b : Bool} {q : List Bool} (h : g.Reach (g.child n b) m)
    (hq : g.key m <+: q) : q[(g.key n).length]? = some b := by
  obtain ⟨t, rfl⟩ := (span_of_reach ho (s := .child n b) h).trans hq
  simp [span]

/-- A search that follows the string misses no node whose key is a prefix of it. -/
theorem walk_of_reach {p : Option N} {m : N} {q : List Bool} (h : g.Reach p m)
    (hq : g.key m <+: q) : g.Walk q p m := by
  induction h with
  | here => exact .here _
  | down b hr ih => exact .down (side_of_reach ho hr hq) (ih hq)

theorem key_lt_of_child {n m : N} {b : Bool} (h : g.Reach (g.child n b) m) :
    (g.key n).length < (g.key m).length := by
  have := (span_of_reach ho (s := .child n b) h).length_le
  simp only [span, List.length_append, List.length_singleton] at this
  omega

omit ho in
/-- The search for a string meets its nodes one below the other. -/
theorem Walk.comparable {q : List Bool} {p : Option N} {m m' : N} (h : g.Walk q p m)
    (h' : g.Walk q p m') : g.Walk q (some m) m' ∨ g.Walk q (some m') m := by
  induction h with
  | here => exact .inl h'
  | down hb hw ih =>
    cases h' with
    | here => exact .inr (.down hb hw)
    | down hb' hw' =>
      obtain rfl := Option.some.inj (hb.symm.trans hb')
      exact ih hw'

/-- Below one pointer no two nodes have the same key. -/
theorem reach_unique {p : Option N} {m m' : N} (h : g.Reach p m) (h' : g.Reach p m')
    (hk : g.key m = g.key m') : m = m' := by
  have hw := walk_of_reach ho h List.prefix_rfl
  have hw' := walk_of_reach ho h' (q := g.key m) (by rw [hk])
  have aux : ∀ {a b : N}, g.key a = g.key b → g.Reach (some a) b → a = b := by
    intro a b hab hr
    rcases reach_some.mp hr with rfl | ⟨_, hr⟩
    · rfl
    · have := key_lt_of_child ho hr; rw [hab] at this; omega
  rcases hw.comparable hw' with hc | hc
  · exact aux hk hc.reach
  · exact (aux hk.symm hc.reach).symm

/-- From a linked node the search for `q` reaches every linked node that lies between the two. -/
theorem walk_between {n m : N} {q : List Bool} (hn : g.Linked n) (hm : g.Linked m)
    (hnm : g.key n <+: g.key m) (hq : g.key m <+: q) : g.Walk q (some n) m := by
  have hwn := walk_of_reach ho hn (hnm.trans hq)
  have hwm := walk_of_reach ho hm hq
  rcases hwn.comparable hwm with hc | hc
  · exact hc
  · have hk : g.key n = g.key m :=
      hnm.eq_of_length_le (key_of_reach ho hc.reach).length_le
    rw [reach_unique ho hn hm hk]
    exact .here _

/-- A linked node with key `span s ++ _` lies below the slot `s`. -/
theorem reach_of_span {s : Slot N} {m : N} (hs : g.SlotLinked s) (hm : g.Linked m)
    (hsp : g.span s <+: g.key m) : g.Reach (g.get s) m := by
  cases s with
  | root => exact hm
  | child n b =>
    have hw := walk_between ho hs hm ((List.prefix_append _ _).trans hsp) List.prefix_rfl
    cases hw with
    | here => exact absurd hsp not_span_prefix
    | down hb hw =>
      have hside : (g.key m)[(g.key n).length]? = some b := by
        obtain ⟨t, ht⟩ := hsp; simp [← ht, span]
      obtain rfl := Option.some.inj (hb.symm.trans hside)
      exact hw.reach

/-- The linked nodes are those outside a linked slot's span and those below the slot. -/
theorem linked_split {s : Slot N} (hs : g.SlotLinked s) {m : N} :
    g.Linked m ↔ (g.Linked m ∧ ¬ g.span s <+: g.key m) ∨ g.Reach (g.get s) m := by
  constructor
  · intro hm
    by_cases hsp : g.span s <+: g.key m
    · exact .inr (reach_of_span ho hs hm hsp)
    · exact .inl ⟨hm, hsp⟩
  · rintro (⟨hm, _⟩ | h)
    · exact hm
    · exact linked_of_slot hs h

end ordered

/-! ### Reachability only depends on the nodes it passes -/

theorem reach_congr {g' : Graph N} {p : Option N} {m : N}
    (hc : ∀ n, g.Reach p n → g'.child n = g.child n) (h : g.Reach p m) : g'.Reach p m := by
  induction h with
  | here => exact .here _
  | @down n m b _ ih =>
    refine .down b ?_
    rw [hc n (.here _)]
    exact ih fun x hx => hc x (.down b hx)

theorem walk_congr {g' : Graph N} {q : List Bool} {p : Option N} {m : N}
    (hc : ∀ n, g.Reach p n → g'.child n = g.child n ∧ g'.key n = g.key n)
    (h : g.Walk q p m) : g'.Walk q p m := by
  induction h with
  | here => exact .here _
  | @down n b m hb _ ih =>
    obtain ⟨hch, hk⟩ := hc n (.here _)
    refine .down (hk.symm ▸ hb) ?_
    rw [hch]
    exact ih fun x hx => hc x (.down b hx)

/-- When no node below `p` changes, the same nodes are below `p` afterwards. -/
theorem reach_congr_iff {g' : Graph N} {p : Option N} {m : N}
    (hc : ∀ n, g.Reach p n → g'.child n = g.child n) : g'.Reach p m ↔ g.Reach p m := by
  refine ⟨fun h => ?_, reach_congr hc⟩
  induction h with
  | here => exact .here _
  | @down n m b _ ih =>
    have hn := hc n (.here _)
    refine .down b ?_
    rw [hn] at ih
    exact ih fun x hx => hc x (.down b hx)

/-! ### One pointer store -/

section store
variable [DecidableEq N] {s : Slot N} {p : Option N}

@[simp] theorem key_set : (g.set s p).key = g.key := by cases s <;> rfl
@[simp] theorem span_set (t : Slot N) : (g.set s p).span t = g.span t := by
  cases t <;> simp [span]
@[simp] theorem get_set : (g.set s p).get s = p := by cases s <;> simp [set, get]

theorem get_set_of_ne {t : Slot N} (h : t ≠ s) : (g.set s p).get t = g.get t := by
  cases s with
  | root => cases t with
    | root => exact absurd rfl h
    | child => rfl
  | child n b => cases t with
    | root => rfl
    | child k c =>
      by_cases hk : k = n
      · subst hk
        have : c ≠ b := fun hc => h (by rw [hc])
        simp [set, get, this]
      · simp [set, get, hk]

theorem set_set_get : (g.set s p).set s (g.get s) = g := by
  cases s <;> simp [set, get]

theorem ordered_set (ho : g.Ordered) (hp : ∀ c, p = some c → g.span s <+: g.key c) :
    (g.set s p).Ordered := by
  intro n b c hc
  rw [key_set]
  by_cases hs : Slot.child n b = s
  · subst hs
    have : p = some c := by simpa [get] using (get_set (g := g) (s := .child n b) (p := p)).symm.trans hc
    exact hp c this
  · exact ho n b c ((get_set_of_ne hs).symm.trans hc)

/-- Whatever is reached after a store was reached before it or is below the stored pointer. -/
theorem reach_of_set {x : Option N} {m : N} (h : (g.set s p).Reach x m) :
    g.Reach x m ∨ (g.set s p).Reach p m := by
  induction h with
  | here => exact .inl (.here _)
  | @down n m b hr ih =>
    by_cases hs : Slot.child n b = s
    · subst hs
      exact .inr (by simpa using (show (g.set (.child n b) p).Reach
        ((g.set (.child n b) p).get (.child n b)) m from hr))
    · have hsame : (g.set s p).child n b = g.child n b := get_set_of_ne hs
      rw [hsame] at ih
      exact ih.imp (.down b) id

theorem walk_of_set {q : List Bool} {x : Option N} {m : N} (h : (g.set s p).Walk q x m) :
    g.Walk q x m ∨ (g.set s p).Reach p m := by
  induction h with
  | here => exact .inl (.here _)
  | @down n b m hb hr ih =>
    rw [key_set] at hb
    by_cases hs : Slot.child n b = s
    · subst hs
      exact .inr (by simpa using (show (g.set (.child n b) p).Reach
        ((g.set (.child n b) p).get (.child n b)) m from hr.reach))
    · have hsame : (g.set s p).child n b = g.child n b := get_set_of_ne hs
      rw [hsame] at ih
      exact ih.imp (.down hb) id

variable (ho : g.Ordered) (ho' : (g.set s p).Ordered)

include ho' in
/-- Below the stored pointer the store changes nothing. -/
theorem reach_stored {m : N} :
    (g.set s p).Reach p m ↔ g.Reach p m := by
  have hbelow : ∀ n, (g.set s p).Reach p n → (g.set s p).child n = g.child n := by
    intro n hn
    have hsp : g.span s <+: g.key n := by
      have := span_of_reach ho' (s := s) (m := n) (by simpa using hn)
      simpa using this
    funext b
    refine get_set_of_ne (t := .child n b) ?_
    rintro rfl
    exact not_span_prefix hsp
  exact (reach_congr_iff fun n hn => (hbelow n hn).symm).symm

include ho ho' in
theorem linked_slot_of_set (hs : g.SlotLinked s) : (g.set s p).SlotLinked s := by
  cases s with
  | root => trivial
  | child n b =>
    have hw := walk_of_reach ho hs List.prefix_rfl
    rw [← set_set_get (g := g) (s := .child n b) (p := p)] at hw
    rcases walk_of_set hw with h | h
    · exact h.reach
    · rw [set_set_get] at h
      exact absurd (span_of_reach ho (s := .child n b) h) not_span_prefix

include ho ho' in
/-- What the root reaches after a store into a linked slot: the linked nodes outside the slot's
    span, and the nodes below the stored pointer. -/
theorem linked_set (hs : g.SlotLinked s) {m : N} :
    (g.set s p).Linked m ↔ (g.Linked m ∧ ¬ g.span s <+: g.key m) ∨ g.Reach p m := by
  have hs' := linked_slot_of_set (p := p) ho ho' hs
  constructor
  · intro hm
    by_cases hsp : g.span s <+: g.key m
    · right
      have := reach_of_span ho' hs' hm (by simpa using hsp)
      rw [get_set] at this
      exact (reach_stored ho').mp this
    · left
      refine ⟨?_, hsp⟩
      cases s with
      | root => exact absurd List.nil_prefix hsp
      | child n b =>
        rcases walk_of_set (walk_of_reach ho' hm List.prefix_rfl) with h | h
        · exact h.reach
        · have := span_of_reach ho' (s := .child n b) (m := m) (by simpa using h)
          exact absurd (by simpa using this) hsp
  · rintro (⟨hm, hsp⟩ | h)
    · cases s with
      | root => exact absurd List.nil_prefix hsp
      | child n b =>
        have hw := walk_of_reach ho hm List.prefix_rfl
        rw [← set_set_get (g := g) (s := .child n b) (p := p)] at hw
        rcases walk_of_set hw with h | h
        · exact h.reach
        · rw [set_set_get] at h
          exact absurd (span_of_reach ho (s := .child n b) h) hsp
    · refine linked_of_slot hs' ?_
      rw [get_set]
      exact (reach_stored ho').mpr h

include ho ho' in
/-- A search under way keeps leading to a node that stays linked, wherever it stands: the part of
    its path below the changed slot is replaced by the search path of the new graph. -/
theorem walk_set (hs : g.SlotLinked s) {q : List Bool} {x : Option N} {m : N}
    (h : g.Walk q x m) (hm : (g.set s p).Linked m) (hq : g.key m <+: q) :
    (g.set s p).Walk q x m := by
  have hs' := linked_slot_of_set (p := p) ho ho' hs
  induction h with
  | here => exact .here _
  | @down n b m hb hw ih =>
    by_cases hc : Slot.child n b = s
    · subst hc
      have hk : g.key n <+: g.key m := key_of_reach ho (.down b hw.reach)
      exact walk_between ho' hs' hm (by simpa using hk) (by simpa using hq)
    · have hsame : (g.set s p).child n b = g.child n b := get_set_of_ne hc
      refine .down (by simpa using hb) ?_
      rw [hsame]
      exact ih hm hq

end store

end Graph

end SearchGraph

import RcuFib.Library.SearchGraph
import Mathlib.Data.Tree.Basic
import Mathlib.Data.List.Lex
import Mathlib.Data.List.Nodup

/-! Path-compressed binary search trees.

    What hangs below a pointer of an ordered graph is a finite tree (`Unfolds`), each node in it once.
    Forgetting the identity of the nodes leaves a tree of keys and values. It is `Sorted` when keys
    grow on the side they name, and `Tight` when every node without a value branches. A tight tree is
    determined by the entries it holds, has fewer branching nodes than entries, and lists its entries
    in the lexicographic order of their keys when it is walked from the root down, left before right. -/

namespace SearchGraph

open BinaryTree

/-- No key goes on with both bits. -/
theorem not_both_sides {x y : List Bool} (h₀ : x ++ [false] <+: y) : ¬ x ++ [true] <+: y := by
  intro h₁
  have := List.prefix_of_prefix_length_le h₀ h₁ (by simp)
  simp at this

theorem not_snoc_prefix {x : List Bool} {d : Bool} : ¬ x ++ [d] <+: x := by
  intro h
  have := h.length_le
  rw [List.length_append, List.length_singleton] at this
  omega

/-! ### Unfolding a graph -/

section unfold
variable {N : Type*} {g : Graph N}

/-- The tree below a pointer. -/
inductive Graph.Unfolds (g : Graph N) : Option N → BinaryTree N → Prop where
  | nil : Unfolds g none .nil
  | node {n : N} {l r : BinaryTree N} : Unfolds g (g.child n false) l → Unfolds g (g.child n true) r →
      Unfolds g (some n) (.node n l r)

/-- The nodes of a tree, each before those below it, left before right. -/
def preorder {α : Type*} : BinaryTree α → List α
  | .nil => []
  | .node a l r => a :: (preorder l ++ preorder r)

theorem preorder_map {α β : Type*} (f : α → β) (u : BinaryTree α) :
    preorder (u.map f) = (preorder u).map f := by
  induction u with
  | nil => rfl
  | node a l r ihl ihr => simp [BinaryTree.map, preorder, ihl, ihr]

theorem length_preorder {α : Type*} (u : BinaryTree α) : (preorder u).length = u.numNodes := by
  induction u with
  | nil => rfl
  | node a l r ihl ihr => simp [preorder, BinaryTree.numNodes, ihl, ihr]

/-- The same nodes, each with its depth, where the root has depth `d`. -/
def depths {α : Type*} (d : Nat) : BinaryTree α → List (α × Nat)
  | .nil => []
  | .node a l r => (a, d) :: (depths (d + 1) l ++ depths (d + 1) r)

theorem map_fst_depths {α : Type*} (u : BinaryTree α) (d : Nat) :
    (depths d u).map Prod.fst = preorder u := by
  induction u generalizing d with
  | nil => rfl
  | node a l r ihl ihr => simp [depths, preorder, ihl, ihr]

theorem Graph.Unfolds.nil_iff {p : Option N} {u : BinaryTree N} (h : g.Unfolds p u) :
    u = .nil ↔ p = none := by
  cases h with
  | nil => exact ⟨fun _ => rfl, fun _ => rfl⟩
  | node => exact ⟨nofun, nofun⟩

theorem Graph.Unfolds.child {n : N} {u : BinaryTree N} (h : g.Unfolds (some n) u) :
    ∃ l r, u = .node n l r ∧ g.Unfolds (g.child n false) l ∧ g.Unfolds (g.child n true) r := by
  cases h with
  | node hl hr => exact ⟨_, _, rfl, hl, hr⟩

theorem Graph.Unfolds.mem_iff {p : Option N} {u : BinaryTree N} (h : g.Unfolds p u) (m : N) :
    m ∈ preorder u ↔ g.Reach p m := by
  induction h with
  | nil => simp [preorder, Graph.not_reach_none]
  | node _ _ ihl ihr =>
    rw [preorder, List.mem_cons, List.mem_append, ihl, ihr, Graph.reach_some, Bool.exists_bool]

/-- Below a pointer no node is met twice. -/
theorem Graph.Unfolds.nodup (ho : g.Ordered) {p : Option N} {u : BinaryTree N} (h : g.Unfolds p u) :
    (preorder u).Nodup := by
  induction h with
  | nil => exact List.nodup_nil
  | @node n l r hl hr ihl ihr =>
    have hside : ∀ {d : Bool} {m : N}, g.Reach (g.child n d) m → g.span (.child n d) <+: g.key m :=
      fun {d} {m} hm => Graph.span_of_reach ho (s := .child n d) hm
    rw [preorder, List.nodup_cons, List.mem_append]
    refine ⟨?_, List.nodup_append'.mpr ⟨ihl, ihr, fun m hml hmr => ?_⟩⟩
    · rintro (hn | hn)
      · exact Graph.not_span_prefix (hside ((hl.mem_iff n).mp hn))
      · exact Graph.not_span_prefix (hside ((hr.mem_iff n).mp hn))
    · exact not_both_sides (hside ((hl.mem_iff m).mp hml)) (hside ((hr.mem_iff m).mp hmr))

/-- A path is no longer than the key at its end, which grows with every node on it. -/
theorem Graph.Unfolds.depth_le (ho : g.Ordered) {p : Option N} {u : BinaryTree N} (h : g.Unfolds p u)
    {d : Nat} (hd : ∀ c, p = some c → d ≤ (g.key c).length + 1) :
    ∀ e ∈ depths d u, e.2 ≤ (g.key e.1).length + 1 := by
  induction h generalizing d with
  | nil => exact nofun
  | @node n l r _ _ ihl ihr =>
    have hbelow : ∀ {b : Bool} {c : N}, g.child n b = some c → d + 1 ≤ (g.key c).length + 1 := by
      intro b c hc
      have hlt : (g.key n).length < (g.key c).length :=
        Graph.key_lt_of_child ho (b := b) (by rw [hc]; exact .here c)
      have := hd n rfl
      omega
    intro e he
    rw [depths, List.mem_cons, List.mem_append] at he
    rcases he with rfl | he | he
    · exact hd n rfl
    · exact ihl (fun _ => hbelow) e he
    · exact ihr (fun _ => hbelow) e he

/-- Where keys are bounded, what is below a pointer is a finite tree. -/
theorem exists_unfolds (ho : g.Ordered) {B : Nat} (hB : ∀ n, (g.key n).length ≤ B) (p : Option N) :
    ∃ u, g.Unfolds p u := by
  have hbelow : ∀ (k : Nat) (n : N), B + 1 - (g.key n).length ≤ k → ∃ u, g.Unfolds (some n) u := by
    intro k
    induction k with
    | zero =>
      intro n hn
      have := hB n
      omega
    | succ k ih =>
      intro n hn
      have hchild : ∀ d, ∃ u, g.Unfolds (g.child n d) u := by
        intro d
        cases hc : g.child n d with
        | none => exact ⟨_, .nil⟩
        | some c =>
          refine ih c ?_
          have hlt : (g.key n).length < (g.key c).length :=
            Graph.key_lt_of_child ho (b := d) (by rw [hc]; exact .here c)
          omega
      obtain ⟨l, hl⟩ := hchild false
      obtain ⟨r, hr⟩ := hchild true
      exact ⟨_, .node hl hr⟩
  cases p with
  | none => exact ⟨_, .nil⟩
  | some n => exact hbelow _ n le_rfl

end unfold

/-! ### Trees of keys and values -/

section label
variable {K V : Type*} {bits : K → List Bool}

/-- Keys extend what is above them and continue it with the side they hang from. -/
def Sorted (bits : K → List Bool) : List Bool → BinaryTree (K × Option V) → Prop
  | _, .nil => True
  | span, .node a l r => span <+: bits a.1 ∧ Sorted bits (bits a.1 ++ [false]) l ∧
      Sorted bits (bits a.1 ++ [true]) r

/-- A node without a value has two children. -/
def Tight : BinaryTree (K × Option V) → Prop
  | .nil => True
  | .node a l r => (a.2 = none → l ≠ .nil ∧ r ≠ .nil) ∧ Tight l ∧ Tight r

/-- The keys that carry a value, in the order of the walk. -/
def entries (u : BinaryTree (K × Option V)) : List (K × V) :=
  (preorder u).filterMap fun a => a.2.map (a.1, ·)

variable {u u' l r : BinaryTree (K × Option V)} {span : List Bool} {k : K} {o : Option V} {v : V}

theorem entries_node : entries (.node (k, o) l r) = o.toList.map (k, ·) ++ (entries l ++ entries r) := by
  cases o <;> simp [entries, preorder]

theorem Sorted.span_entries (h : Sorted bits span u) : ∀ e ∈ entries u, span <+: bits e.1 := by
  induction u generalizing span with
  | nil => simp [entries, preorder]
  | node a l r ihl ihr =>
    obtain ⟨k, o⟩ := a
    obtain ⟨hs, hl, hr⟩ := h
    intro e he
    rw [entries_node, List.mem_append, List.mem_append] at he
    rcases he with he | he | he
    · obtain ⟨v, -, rfl⟩ := List.mem_map.mp he
      exact hs
    · exact hs.trans ((List.prefix_append _ _).trans (ihl hl e he))
    · exact hs.trans ((List.prefix_append _ _).trans (ihr hr e he))

/-- There are fewer branching nodes than entries. -/
theorem Tight.numNodes_lt (h : Tight u) (hne : u ≠ .nil) :
    u.numNodes + 1 ≤ 2 * (entries u).length := by
  have aux : ∀ u : BinaryTree (K × Option V), Tight u →
      u = .nil ∨ u.numNodes + 1 ≤ 2 * (entries u).length := by
    intro u
    induction u with
    | nil => exact fun _ => .inl rfl
    | node a l r ihl ihr =>
      obtain ⟨k, o⟩ := a
      rintro ⟨hb, hl, hr⟩
      refine .inr ?_
      have hlen : (entries (.node (k, o) l r)).length =
          o.toList.length + ((entries l).length + (entries r).length) := by simp [entries_node]
      rw [hlen, BinaryTree.numNodes]
      cases o with
      | none =>
        obtain ⟨hln, hrn⟩ := hb rfl
        have hl' := (ihl hl).resolve_left hln
        have hr' := (ihr hr).resolve_left hrn
        omega
      | some v =>
        rw [Option.toList_some, List.length_singleton]
        have hsize : ∀ {s : BinaryTree (K × Option V)},
            s = .nil ∨ s.numNodes + 1 ≤ 2 * (entries s).length →
              s.numNodes ≤ 2 * (entries s).length := by
          rintro s (rfl | hs)
          · exact Nat.zero_le _
          · omega
        have hl' := hsize (ihl hl)
        have hr' := hsize (ihr hr)
        omega
  exact (aux u h).resolve_left hne

theorem Tight.exists_entry (h : Tight u) (hne : u ≠ .nil) : ∃ e, e ∈ entries u := by
  have hlt := h.numNodes_lt hne
  exact List.exists_mem_of_length_pos (by omega)

/-! ### The shape is determined by the entries -/

/-- The entries on one side of a node are those whose keys continue its key with that bit. -/
theorem Sorted.side (h : Sorted bits span (.node (k, o) l r)) (e : K × V) (d : Bool) :
    e ∈ entries (if d then r else l) ↔
      e ∈ entries (.node (k, o) l r) ∧ bits k ++ [d] <+: bits e.1 := by
  obtain ⟨-, hl, hr⟩ := h
  rw [entries_node, List.mem_append, List.mem_append]
  constructor
  · cases d with
    | false => exact fun he => ⟨.inr (.inl he), hl.span_entries e he⟩
    | true => exact fun he => ⟨.inr (.inr he), hr.span_entries e he⟩
  · rintro ⟨he | he | he, hd⟩
    · obtain ⟨v, -, rfl⟩ := List.mem_map.mp he
      exact absurd hd not_snoc_prefix
    · cases d with
      | false => exact he
      | true => exact absurd hd (not_both_sides (hl.span_entries e he))
    · cases d with
      | false => exact absurd (hr.span_entries e he) (not_both_sides hd)
      | true => exact he

/-- The value of the root is the entry under the root's own key. -/
theorem Sorted.root (h : Sorted bits span (.node (k, o) l r)) :
    (k, v) ∈ entries (.node (k, o) l r) ↔ o = some v := by
  obtain ⟨-, hl, hr⟩ := h
  rw [entries_node, List.mem_append, List.mem_append]
  constructor
  · rintro (he | he | he)
    · simpa using he
    · exact absurd (hl.span_entries _ he) not_snoc_prefix
    · exact absurd (hr.span_entries _ he) not_snoc_prefix
  · rintro rfl
    exact .inl (by simp)

/-- A prefix of all the keys of a tight tree is no longer than the key of its root. -/
theorem Tight.length_le_root {x : List Bool} (h : Sorted bits span (.node (k, o) l r))
    (ht : Tight (.node (k, o) l r)) (hall : ∀ e ∈ entries (.node (k, o) l r), x <+: bits e.1) :
    x.length ≤ (bits k).length := by
  by_contra hlt
  rw [not_le] at hlt
  -- below a longer common prefix the root could neither carry a value nor branch
  have hnext : ∀ e ∈ entries (.node (k, o) l r), ∀ d, bits k ++ [d] <+: bits e.1 →
      bits k ++ [d] <+: x := by
    intro e he d hd
    refine List.prefix_of_prefix_length_le hd (hall e he) ?_
    rw [List.length_append, List.length_singleton]
    exact hlt
  obtain ⟨hb, htl, htr⟩ := ht
  cases o with
  | some v =>
    have he : (k, v) ∈ entries (.node (k, some v) l r) := by rw [entries_node]; simp
    exact absurd (hall _ he).length_le (not_le.mpr hlt)
  | none =>
    obtain ⟨hln, hrn⟩ := hb rfl
    obtain ⟨e₀, he₀⟩ := htl.exists_entry hln
    obtain ⟨e₁, he₁⟩ := htr.exists_entry hrn
    have h₀ := (h.side e₀ false).mp he₀
    have h₁ := (h.side e₁ true).mp he₁
    exact not_both_sides (hnext e₀ h₀.1 false h₀.2) (hnext e₁ h₁.1 true h₁.2)

/-- Two tight trees with the same entries are the same tree. -/
theorem tight_unique (hinj : Function.Injective bits) {u u' : BinaryTree (K × Option V)}
    {span : List Bool} (h : Sorted bits span u) (h' : Sorted bits span u') (ht : Tight u)
    (ht' : Tight u') (he : ∀ e, e ∈ entries u ↔ e ∈ entries u') : u = u' := by
  induction u generalizing u' span with
  | nil =>
    cases u' with
    | nil => rfl
    | node a l r =>
      obtain ⟨e, hmem⟩ := ht'.exists_entry nofun
      exact absurd ((he e).mpr hmem) List.not_mem_nil
  | node a l r ihl ihr =>
    obtain ⟨k, o⟩ := a
    obtain ⟨e₀, he₀⟩ := ht.exists_entry nofun
    cases u' with
    | nil => exact absurd ((he e₀).mp he₀) List.not_mem_nil
    | node a' l' r' =>
      obtain ⟨k', o'⟩ := a'
      have hroot : Sorted bits (bits k) (.node (k, o) l r) := ⟨List.prefix_rfl, h.2⟩
      have hroot' : Sorted bits (bits k') (.node (k', o') l' r') := ⟨List.prefix_rfl, h'.2⟩
      -- the root's key is the longest common prefix of the keys of the entries
      have hk : k = k' := by
        have hle : (bits k').length ≤ (bits k).length :=
          ht.length_le_root h fun e hmem => hroot'.span_entries e ((he e).mp hmem)
        have hle' : (bits k).length ≤ (bits k').length :=
          ht'.length_le_root h' fun e hmem => hroot.span_entries e ((he e).mpr hmem)
        have hpre : bits k <+: bits k' := List.prefix_of_prefix_length_le (hroot.span_entries e₀ he₀)
          (hroot'.span_entries e₀ ((he e₀).mp he₀)) hle'
        exact hinj (hpre.eq_of_length_le hle)
      subst hk
      have ho : o = o' := by
        refine Option.ext fun v => ?_
        rw [← h.root, ← h'.root]
        exact he (k, v)
      have hside : ∀ (d : Bool) e, e ∈ entries (if d then r else l) ↔ e ∈ entries (if d then r' else l') :=
        fun d e => by rw [h.side e d, h'.side e d, he e]
      have hl := ihl h.2.1 h'.2.1 ht.2.1 ht'.2.1 (hside false)
      have hr := ihr h.2.2 h'.2.2 ht.2.2 ht'.2.2 (hside true)
      rw [ho, hl, hr]

/-! ### The order of the walk -/

/-- The walk lists the keys in lexicographic order, a prefix before its extensions. -/
theorem Sorted.pairwise (h : Sorted bits span u) :
    (entries u).Pairwise fun e e' => bits e.1 < bits e'.1 := by
  induction u generalizing span with
  | nil => exact List.Pairwise.nil
  | node a l r ihl ihr =>
    obtain ⟨k, o⟩ := a
    obtain ⟨-, hl, hr⟩ := h
    have hbelow : ∀ {d : Bool} {x : List Bool}, bits k ++ [d] <+: x → bits k < x := by
      rintro d x ⟨y, rfl⟩
      rw [List.append_assoc]
      conv_lhs => rw [← List.append_nil (bits k)]
      exact List.append_left_lt (List.nil_lt_cons d y)
    have hacross : ∀ {x y : List Bool}, bits k ++ [false] <+: x → bits k ++ [true] <+: y → x < y := by
      rintro x y ⟨x', rfl⟩ ⟨y', rfl⟩
      rw [List.append_assoc, List.append_assoc]
      exact List.append_left_lt (List.cons_lt_cons_iff.mpr (.inl rfl))
    rw [entries_node, List.pairwise_append, List.pairwise_append]
    refine ⟨?_, ⟨ihl hl, ihr hr, fun e he e' he' => ?_⟩, fun e he e' he' => ?_⟩
    · cases o <;> simp
    · exact hacross (hl.span_entries e he) (hr.span_entries e' he')
    · obtain ⟨v, -, rfl⟩ := List.mem_map.mp he
      rcases List.mem_append.mp he' with he' | he'
      · exact hbelow (hl.span_entries e' he')
      · exact hbelow (hr.span_entries e' he')

end label

end SearchGraph

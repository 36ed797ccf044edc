import RcuFib.Trie.InsertSteps
import RcuFib.Trie.Erase
import RcuFib.Trie.Clear

/-! Path compression: a linked node without a value branches.

    `insert` never breaks this. `erase` takes a value away and has to repair the node it was on, and
    then the parent, which may have lost a child; a grandparent cannot lose one, because the parent
    branched before and so leaves a child behind. `Compressed E` exempts the nodes still to be
    repaired. -/

namespace RcuFib
open SearchGraph Routine

namespace RadixTrie
variable {w : Width} {V : Type*}

/-- Every linked node outside `E` carries a value or has two children. -/
def Compressed (t : RadixTrie w V) (E : List Nat) : Prop :=
  ∀ n, t.Linked n → (t.nodes n).value = none → n ∉ E → ∀ d, (t.nodes n).child d ≠ none

variable {t t' : RadixTrie w V} {E : List Nat} {M : Table w V} {p : Prefix w} {v : V} {s : Slot Nat}

theorem compressed_empty : (empty : RadixTrie w V).Compressed [] :=
  fun _ hn => absurd hn Graph.not_reach_none

/-- An exempt node has been repaired. -/
theorem Compressed.repaired {n : Nat} (h : t.Compressed [n])
    (hn : (t.nodes n).value = none → ∀ d, (t.nodes n).child d ≠ none) : t.Compressed [] := by
  intro m hm hv _
  rcases eq_or_ne m n with rfl | hne
  · exact hn hv
  · exact h m hm hv fun he => hne (List.mem_singleton.mp he)

theorem Compressed.frame (h : t.Compressed E) (hf : t.Frame t') : t'.Compressed E := by
  intro n hn hv hE
  have hn := (hf.linked n).mp hn
  rw [hf.nodes n hn] at hv ⊢
  exact h n hn hv hE

theorem Compressed.quiet (h : t.Compressed E) (hr : t'.root = t.root) (hn : t'.nodes = t.nodes) :
    t'.Compressed E :=
  h.frame ⟨hr, fun _ _ => by rw [hn]⟩

theorem Compressed.exchange (h : t.Compressed E) {k : Nat} (b : Box V) :
    (t.storeValue k (some b)).Compressed E := by
  intro n hn hv hE
  rw [linked_storeValue] at hn
  rw [child_storeValue]
  rw [value_storeValue] at hv
  split at hv
  · cases hv
  · exact h n hn hv hE

theorem Compressed.withdraw (h : t.Compressed []) (k : Nat) :
    (t.storeValue k none).Compressed [k] := by
  intro n hn hv hE
  rw [linked_storeValue] at hn
  rw [child_storeValue]
  rw [value_storeValue, if_neg fun he => hE (List.mem_singleton.mpr he)] at hv
  exact h n hn hv List.not_mem_nil

/-- A node under construction that will need no repair. -/
def Built (t : RadixTrie w V) (n : Nat) : Prop :=
  (t.nodes n).value ≠ none ∨ ∀ d, (t.nodes n).child d ≠ none

theorem child_storeSlot_ne {n : Nat} {d : Bool} {q : Option Nat}
    (hd : (t.nodes n).child d ≠ none) (hs : s = .child n d → q ≠ none) :
    ((t.storeSlot s q).nodes n).child d ≠ none := by
  intro hc
  have hg : (t.graph.set s q).get (.child n d) = none := by
    rw [← graph_storeSlot]; exact hc
  rcases eq_or_ne (.child n d) s with rfl | hne
  · rw [Graph.get_set] at hg
    exact hs rfl hg
  · rw [Graph.get_set_of_ne hne] at hg
    exact hd hg

theorem Compressed.publish {priv : List Nat} {top : Nat} {b : Box V} (h : t.Compressed [])
    (hi : t.Inv priv) (hr : t.Ready priv s top p b) (hbuilt : ∀ n ∈ priv, t.Built n) :
    (t.storeSlot s (some top)).Compressed [] := by
  intro n hn hv _ d
  rw [value_storeSlot] at hv
  refine child_storeSlot_ne ?_ fun _ => Option.some_ne_none _
  rcases (linked_publish hi hr n).mp hn with hn | hn
  · exact h n hn hv List.not_mem_nil d
  · exact (hbuilt n hn).resolve_left (not_not.mpr hv) d

/-! ### `insert` -/

/-- What else is known of the private nodes before they are published. -/
def InsertTight (t : RadixTrie w V) : InsertPc w V → Prop
  | .branchExisting _ _ _ _ lf => t.Compressed [] ∧ (t.nodes lf).value ≠ none
  | .branchLeaf _ e k br lf => t.Compressed [] ∧ (t.nodes lf).value ≠ none ∧
      (t.nodes br).child ((t.nodes e).key.bit k) ≠ none
  | .publishBranch _ br lf => t.Compressed [] ∧ (t.nodes lf).value ≠ none ∧ t.Built br
  | _ => t.Compressed []

theorem InsertTight.compressed {pc : InsertPc w V} (h : InsertTight t pc) : t.Compressed [] := by
  cases pc with
  | branchExisting | branchLeaf | publishBranch => exact h.1
  | _ => exact h

/-- `insert` keeps every valueless node branching. -/
theorem insert_tight {pc : InsertPc w V} (h : InsertInv M p v t pc) (ht : InsertTight t pc) :
    (insertStep p t pc).Sat (fun t' pc' => InsertTight t' pc') (fun t' _ => t'.Compressed []) := by
  have hc := ht.compressed
  cases pc with
  | box => exact hc.quiet (by rfl) (by rfl)
  | load b s =>
    simp only [insertStep]
    split
    · exact hc
    · split
      · exact hc
      · split
        · exact hc
        · split <;> exact hc
  | newLeaf => exact hc.frame (frame_newNode h.1.rep.inv p)
  | leafValue => exact hc.frame (frame_storeValue h.1.rep.inv (List.mem_singleton_self _) _)
  | newBranch => exact hc.frame (frame_newNode h.1.rep.inv _)
  | newBranchLeaf => exact hc.frame (frame_newNode h.1.rep.inv p)
  | branchLeafValue b s e k br lf =>
    refine ⟨hc.frame (frame_storeValue h.1.rep.inv (List.mem_cons_self ..) _), ?_⟩
    rw [value_storeValue, if_pos rfl]
    exact Option.some_ne_none _
  | branchExisting s e k br lf =>
    obtain ⟨b, h, hl, -, hne, -⟩ := h
    have hf := frame_storeChild h.rep.inv (k := br) (by simp) ((t.nodes e).key.bit k) (some e)
    refine ⟨hc.frame hf, by rw [value_storeSlot]; exact ht.2, ?_⟩
    rw [hf.nodes e (h.at_slot.linked hl)]
    simp [nodes_storeChild, Node.setChild]
  | branchLeaf s e k br lf =>
    obtain ⟨b, h, hl, -, hne, -⟩ := h
    refine ⟨hc.frame (frame_storeChild h.rep.inv (by simp) _ _), by rw [value_storeSlot]; exact ht.2.1,
      .inr fun d => ?_⟩
    rcases Bool.eq_or_eq_not d ((t.nodes e).key.bit k) with rfl | rfl
    · exact child_storeSlot_ne ht.2.2 fun _ => Option.some_ne_none _
    · simp [nodes_storeChild, Node.setChild]
  | publishBranch s br lf =>
    obtain ⟨b, -, hrep, -, hr⟩ := h
    refine hc.publish hrep.inv hr fun n hn => ?_
    rcases List.mem_cons.mp hn with rfl | hn
    · exact .inl ht.2.1
    · exact List.mem_singleton.mp hn ▸ ht.2.2
  | exchange b c =>
    simp only [insertStep]
    split <;> exact hc.exchange b
  | retireOld => exact hc
  | newParent => exact hc.frame (frame_newNode h.1.rep.inv p)
  | parentValue => exact hc.frame (frame_storeValue h.1.rep.inv (List.mem_singleton_self _) _)
  | parentChild =>
    obtain ⟨b, h, -⟩ := h
    exact hc.frame (frame_storeChild h.rep.inv (List.mem_singleton_self _) _ _)
  | publish s f =>
    obtain ⟨b, -, hrep, -, hr⟩ := h
    refine hc.publish hrep.inv hr fun n hn => .inl ?_
    obtain ⟨m, hm, -, hb⟩ := hr.leaf
    rw [List.mem_singleton.mp hn, ← List.mem_singleton.mp hm, hb]
    exact Option.some_ne_none _
  | addNodes => exact hc.quiet (by rfl) (by rfl)
  | addSize => exact hc.quiet (by rfl) (by rfl)
  | ret => exact hc

/-! ### `erase` -/

/-- The parent is the only node left to repair, and unless it has a value it has a child. -/
def ParentTight (t : RadixTrie w V) (parent : Option (Nat × Slot Nat)) : Prop :=
  t.Compressed (parent.toList.map Prod.fst) ∧
    ∀ x ∈ parent, (t.nodes x.1).value = none → ∃ d, (t.nodes x.1).child d ≠ none

def EraseTight (t : RadixTrie w V) : ErasePc V → Prop
  | .load s parent | .exchange _ s parent => t.Compressed [] ∧ (parent = none → s = .root)
  | .retireValue _ c s parent | .subSize c s parent | .loadLeft c s parent | .loadRight _ c s parent
  | .unlink _ c s parent => t.Compressed [c] ∧ (parent = none → s = .root)
  | .retireNode _ parent | .subNodes parent => t.ParentTight parent
  | .parentValue n s | .parentLeft n s | .parentRight _ n s => t.ParentTight (some (n, s))
  | .collapse only n _ => t.Compressed [n] ∧ only ≠ none
  | .retireParent _ | .subParent | .ret _ => t.Compressed []

theorem ParentTight.quiet {parent : Option (Nat × Slot Nat)} (h : t.ParentTight parent)
    (hr : t'.root = t.root) (hn : t'.nodes = t.nodes) : t'.ParentTight parent :=
  ⟨h.1.quiet hr hn, by rw [hn]; exact h.2⟩

/-- Cutting a node off costs at most its parent a child. -/
theorem Compressed.unlink {n : Nat} {q : Option Nat} {parent : Option (Nat × Slot Nat)} (hi : t.Inv [])
    (h : t.Compressed [n]) (hu : t.Prunable s n q) (hh : t.Hangs n s parent)
    (hroot : parent = none → s = .root) : (t.storeSlot s q).ParentTight parent := by
  constructor
  · intro m hm hv hE d
    obtain ⟨hm, hne⟩ := (linked_unlink hi hu m).mp hm
    rw [value_storeSlot] at hv
    refine child_storeSlot_ne (h m hm hv (by simpa using hne) d) fun hs => ?_
    -- the slot belongs to the parent, and the parent is exempt
    cases parent with
    | none => rw [hroot rfl] at hs; cases hs
    | some x =>
      obtain ⟨e, he⟩ := hh.side x rfl
      rw [he] at hs
      cases hs
      exact absurd (List.mem_singleton_self _) hE
  · intro x hx hv
    rw [value_storeSlot] at hv
    obtain ⟨d, rfl⟩ := hh.side x hx
    have hlt : (t.graph.key x.1).length < (t.graph.key n).length :=
      Graph.key_lt_of_child hi.ordered (b := d) (Graph.reach_of_eq hu.load)
    have hne : x.1 ∉ [n] := fun hm => by
      rw [List.mem_singleton.mp hm] at hlt
      exact lt_irrefl _ hlt
    refine ⟨!d, child_storeSlot_ne (h x.1 (hh.parent x hx).linked hv hne _) fun hs => ?_⟩
    simp at hs

/-- Putting the last child in its place costs nobody a child. -/
theorem Compressed.collapse {n : Nat} {q : Option Nat} (hi : t.Inv []) (h : t.Compressed [n])
    (hu : t.Prunable s n q) (hq : q ≠ none) : (t.storeSlot s q).Compressed [] := by
  intro m hm hv _ d
  obtain ⟨hm, hne⟩ := (linked_unlink hi hu m).mp hm
  rw [value_storeSlot] at hv
  exact child_storeSlot_ne (h m hm hv (by simpa using hne) d) fun _ => hq

/-- The two loads of a node's children: if both are there, it needs no repair. -/
theorem both_children {n : Nat} {left : Option Nat} (hl : (t.nodes n).child false = left)
    (hboth : (left.isSome && ((t.nodes n).child true).isSome) = true) (d : Bool) :
    (t.nodes n).child d ≠ none := by
  rw [← hl, Bool.and_eq_true, Option.isSome_iff_ne_none, Option.isSome_iff_ne_none] at hboth
  cases d with
  | false => exact hboth.1
  | true => exact hboth.2

/-- `erase` leaves every valueless node branching. -/
theorem erase_tight {t₀ : RadixTrie w V} {pc : ErasePc V} (h : EraseInv t₀ M p t pc)
    (ht : EraseTight t pc) :
    (eraseStep p t pc).Sat (fun t' pc' => EraseTight t' pc') (fun t' _ => t'.Compressed []) := by
  cases pc with
  | load s parent =>
    simp only [eraseStep]
    split
    · exact ht.1
    · split
      · exact ht.1
      · split
        · exact ht.1
        · split
          · exact ht
          · exact ⟨ht.1, fun hroot => absurd hroot (Option.some_ne_none _)⟩
  | exchange c s parent =>
    obtain ⟨hc, hroot⟩ := ht
    simp only [eraseStep]
    split
    · next hval =>
      refine (hc.withdraw c).repaired fun _ => ?_
      rw [child_storeValue]
      exact hc c h.2.2.2.held.linked hval List.not_mem_nil
    · exact ⟨hc.withdraw c, hroot⟩
  | retireValue => exact ht
  | subSize => exact ⟨ht.1.quiet (by rfl) (by rfl), ht.2⟩
  | loadLeft => exact ht
  | loadRight left c s parent =>
    simp only [eraseStep]
    split
    · next hboth => exact ht.1.repaired fun _ => both_children h.2.2.2 hboth
    · exact ht
  | unlink q c s parent =>
    obtain ⟨he, hh, hu⟩ := h
    exact ht.1.unlink he.1.inv hu hh ht.2
  | retireNode => exact ht
  | subNodes parent =>
    simp only [eraseStep]
    cases parent with
    | none => exact ht.1.quiet (by rfl) (by rfl)
    | some x => exact ht.quiet (by rfl) (by rfl)
  | parentValue n s =>
    simp only [eraseStep]
    split
    · next hv => exact ht.1.repaired fun hn => by simp [hn] at hv
    · exact ht
  | parentLeft => exact ht
  | parentRight left n s =>
    obtain ⟨-, -, hval, hl⟩ := h
    simp only [eraseStep]
    split
    · next hboth => exact ht.1.repaired fun _ => both_children hl hboth
    · refine ⟨ht.1, fun honly => ?_⟩
      obtain ⟨d, hd⟩ := ht.2 _ rfl hval
      subst hl
      cases hf : (t.nodes n).child false with
      | some c => simp [hf] at honly
      | none =>
        rw [hf] at honly
        cases d with
        | false => exact hd hf
        | true => exact hd (by simpa using honly)
  | collapse only n s =>
    obtain ⟨he, hu⟩ := h
    exact ht.1.collapse he.1.inv hu ht.2
  | retireParent => exact ht
  | subParent => exact Compressed.quiet ht (by rfl) (by rfl)
  | ret => exact ht

/-! ### `clear` -/

theorem compressed_of_root_none (hr : t.root = none) : t.Compressed [] := by
  intro n hn
  have hn : t.graph.Reach t.root n := hn
  rw [hr] at hn
  exact absurd hn Graph.not_reach_none

/-- From its first step on `clear` leaves no node linked. -/
def Cleared (t : RadixTrie w V) : ClearPc → Prop
  | .exchangeRoot => True
  | _ => t.root = none

theorem clear_cleared {pc : ClearPc} (h : Cleared t pc) :
    (clearStep t pc).Sat (fun t' pc' => Cleared t' pc')
      (fun t' _ => t'.root = none) := by
  cases pc with
  | exchangeRoot => exact rfl
  | retireSubtree stack =>
    cases stack with
    | nil => exact h
    | cons top stack => cases top <;> exact h
  | storeSize => exact h
  | storeNodes => exact h
  | ret => exact h

end RadixTrie

end RcuFib

import RcuFib.Trie.Ownership

/-! `~radix_trie`: `destroy` walks the trie bottom-up and deletes each node, and with it its value.

    The walk is that of `retire_subtree`, but the nodes are deleted where they are and nothing is stored:
    it is proved off `clear` as `clear` is once the root has been taken out. -/

namespace RcuFib
open SearchGraph Routine

namespace RadixTrie
variable {w : Width} {V : Type*}

/-- `destroy`, with what its activations still have to do; `retire` stands for `delete`. -/
def destroyStep (t : RadixTrie w V) : List Pending →
    Outcome (RadixTrie w V) (List Pending) (Retired V) Unit
  | [] => .done t ()
  | .left n :: stack => .next t (enter ((t.nodes n).child false) (.right n :: stack))
  | .right n :: stack => .next t (enter ((t.nodes n).child true) (.retire n :: stack))
  | .retire n :: stack => .call t (.node n) stack

/-- What `~radix_trie` deletes. -/
def destroyed (fuel : Nat) (t : RadixTrie w V) : Option (List (Retired V)) :=
  (run destroyStep fuel t (enter t.root [])).map fun x => x.2.1

/-- The trie as `clear` leaves it to `retire_subtree`. -/
def rootless (t : RadixTrie w V) : RadixTrie w V := { t with root := none }

def DestroyInv (M : Table w V) (t₀ t : RadixTrie w V) (stack : List Pending) : Prop :=
  t = t₀ ∧ ClearOwned M t.rootless (.retireSubtree stack)

variable {t t₀ : RadixTrie w V} {M : Table w V} {stack : List Pending}

theorem clearOwned_start (h : t.Rep [] M 0 0) : ClearOwned M t .exchangeRoot := ⟨h, clearStack_nil⟩

theorem destroyInv_start (h : t.Rep [] M 0 0) : DestroyInv M t t (enter t.root []) :=
  ⟨rfl, (clear_owned (clearOwned_start h)).1⟩

/-- With nothing to do left, nothing is kept but the addresses that are still free. -/
theorem clearKept_nil (t : RadixTrie w V) (x : Object) :
    clearKept t.rootless (.retireSubtree []) x ↔ ¬ x.Allocated t := by
  have hnot := not_linked_of_root (t := t.rootless) rfl
  have hnodes : t.rootless.nextNode = t.nextNode := rfl
  have hboxes : t.rootless.nextBox = t.nextBox := rfl
  cases x with
  | node n => simp [clearKept, Kept, Object.Allocated, Covered, ClearPc.stack, hnot, hnodes]
  | box a => simp [clearKept, Kept, Object.Allocated, Covered, ClearPc.stack, hnot, hboxes]

theorem clearKept_start (h : t.Rep [] M 0 0) (x : Object) :
    clearKept t.rootless (.retireSubtree (enter t.root [])) x ↔ t.AtRest x :=
  ((clear_owned (clearOwned_start h)).2 x).trans
    (kept_congr (fun n => by simp [Covered, ClearPc.stack]) (fun _ _ => rfl) rfl rfl x)

theorem destroy_step (h : DestroyInv M t₀ t stack) :
    (destroyStep t stack).Sat (fun t' stack' => DestroyInv M t₀ t' stack' ∧
        t'.rootless.stackCost stack' < t.rootless.stackCost stack) (fun t' _ => t' = t₀) ∧
      (destroyStep t stack).Conserves hands (fun t stack => clearKept t.rootless (.retireSubtree stack))
        (fun t x => ¬ x.Allocated t) (clearKept t.rootless (.retireSubtree stack)) := by
  obtain ⟨rfl, howned⟩ := h
  obtain ⟨hnext, hcons⟩ := clear_owned howned
  have hless := clear_step howned.1
  cases stack with
  | nil => exact ⟨rfl, fun x => (clearKept_nil t x).symm⟩
  | cons top stack =>
    cases top with
    | left n => exact ⟨⟨⟨rfl, hnext⟩, Nat.lt_of_add_lt_add_right hless.2⟩, hcons⟩
    | right n => exact ⟨⟨⟨rfl, hnext⟩, Nat.lt_of_add_lt_add_right hless.2⟩, hcons⟩
    | retire n => exact ⟨⟨⟨rfl, hnext⟩, Nat.lt_of_add_lt_add_right hless.2⟩, hcons⟩

/-- The destructor deletes what is not deleted yet, each node and each value once: with the books in
    order before, whatever was allocated has been deleted once after it. -/
theorem destroyed_once (h : t.Rep [] M 0 0) : ∃ es fuel₀, (∀ fuel > fuel₀, t.destroyed fuel = some es) ∧
    ∀ (x : Object) (count : Nat), Accounted (t.AtRest x) count →
      Accounted (¬ x.Allocated t) (count + es.countP fun e => t.hands e x) := by
  have hsat : ∀ t' stack, DestroyInv M t t' stack → (destroyStep t' stack).Sat
      (fun t' stack => DestroyInv M t t' stack) (fun _ _ => True) :=
    fun t' stack hi => (destroy_step hi).1.mono (fun _ _ h => h.1) fun _ _ _ => trivial
  have hcons := fun t' stack (hi : DestroyInv M t t' stack) => (destroy_step hi).2
  have hstep : ∀ t' stack, DestroyInv M t t' stack → (destroyStep t' stack).Sat
      (fun t'' stack' => DestroyInv M t t'' stack' ∧
        t''.rootless.stackCost stack' < t'.rootless.stackCost stack) (fun t'' _ => t'' = t) :=
    fun t' stack hi => (destroy_step hi).1
  obtain ⟨t', es, r, ht, hrun⟩ := run_of_measure hstep (destroyInv_start h)
  refine ⟨es, t.rootless.stackCost (enter t.root []), fun fuel hfuel => ?_, fun x count hx => ?_⟩
  · rw [destroyed, hrun fuel hfuel, Option.map_some]
  · have hrun := hrun _ (Nat.lt_succ_self _)
    have hcall : ∀ s stack s' e stack', DestroyInv M t s stack →
        destroyStep s stack = .call s' e stack' → s' = t := by
      intro s stack s' e stack' hi hc
      have hnext := (destroy_step hi).1
      rw [hc] at hnext
      exact hnext.1.1
    have hstart : Accounted (clearKept t.rootless (.retireSubtree (enter t.root [])) x) count := by
      rwa [Accounted, clearKept_start h]
    have hbooks := run_accounted hsat hcons (destroyInv_start h) hrun hstart
    rwa [ht, handed_eq (calls_forall hsat (C := fun s _ => s = t) hcall (destroyInv_start h)),
      map_snd_calls hrun] at hbooks

end RadixTrie

end RcuFib

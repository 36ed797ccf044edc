import RcuFib.Trie.Descent
import RcuFib.Library.Routine

/-! `radix_trie::lookup` and `find_exact`, one atomic load at a time.

    `key` and `key_length` of a node never change, so the tests on them belong to the load that
    follows. `Sighted` and `Toward` are the reader's two invariants: what it holds is genuine, and it
    does not walk past a prefix that stays in the table. Both are stated against a record `H` of the
    values a prefix has had, so that they serve a lone lookup and one among writers alike. -/

namespace RcuFib
open SearchGraph Routine

namespace RadixTrie
variable {w : Width} {V : Type*}

inductive LookupPc (V : Type*) where
  /-- `root_.load` -/
  | root
  /-- head of the loop: `current->value.load` -/
  | value (current : Nat) (best : Option (Box V))
  /-- `current->child[..].load` -/
  | child (current : Nat) (best : Option (Box V))

/-- `while (current != nullptr)`. -/
def lookupLoop (t : RadixTrie w V) (current : Option Nat) (best : Option (Box V)) :
    Outcome (RadixTrie w V) (LookupPc V) Empty (Option (Box V)) :=
  match current with
  | none => .done t best
  | some c => .next t (.value c best)

/-- One step of `lookup(address)`. -/
def lookupStep (a : Address w) (t : RadixTrie w V) :
    LookupPc V → Outcome (RadixTrie w V) (LookupPc V) Empty (Option (Box V))
  | .root => lookupLoop t t.root none
  | .value current best =>
    let n := t.nodes current
    if !n.key.matchesTo a n.keyLength then .done t best
    else
      let best := if n.value.isSome then n.value else best
      if w.bits ≤ n.keyLength then .done t best
      else .next t (.child current best)
  | .child current best =>
    let n := t.nodes current
    lookupLoop t (n.child (a.bit n.keyLength)) best

/-- A lookup writes nothing. -/
theorem lookup_trie {a : Address w} {t : RadixTrie w V} (pc : LookupPc V) :
    (lookupStep a t pc).Sat (fun t' _ => t' = t) (fun t' _ => t' = t) := by
  have hloop : ∀ c best, (lookupLoop t c best).Sat (fun t' _ => t' = t) (fun t' _ => t' = t) := by
    rintro (_ | c) best <;> rfl
  cases pc with
  | root => exact hloop _ _
  | value c best =>
    simp only [lookupStep]
    split
    · rfl
    · split <;> rfl
  | child c best => exact hloop _ _

inductive FindPc where
  | root
  /-- head of the loop: the load of the value or of a child -/
  | node (current : Nat)

def findLoop (t : RadixTrie w V) (current : Option Nat) :
    Outcome (RadixTrie w V) FindPc Empty (Option (Box V)) :=
  match current with
  | none => .done t none
  | some c => .next t (.node c)

/-- One step of `find_exact(prefix)`. -/
def findExactStep (p : Prefix w) (t : RadixTrie w V) :
    FindPc → Outcome (RadixTrie w V) FindPc Empty (Option (Box V))
  | .root => findLoop t t.root
  | .node current =>
    let n := t.nodes current
    if p.length < n.keyLength then .done t none
    else if !n.key.matchesTo p.address n.keyLength then .done t none
    else if n.keyLength = p.length then .done t n.value
    else findLoop t (n.child (p.address.bit n.keyLength))

variable {t t' : RadixTrie w V} {priv priv' : List Nat} {a : Address w} {p q : Prefix w}
  {H : Prefix w → Box V → Prop} {K K' : Nat → Prop} {best : Option (Box V)} {c : Nat}

/-! ### What the reader holds -/

/-- `b` has been the value of a prefix of `a` that is shorter than `k`. -/
def Found (H : Prefix w → Box V → Prop) (a : Address w) (l k : Nat) (b : Box V) : Prop :=
  ∃ q : Prefix w, H q b ∧ q.contains a ∧ l ≤ q.length ∧ q.length < k

/-- The nodes `K` a reader may stand on: closed under pointers, with only table values on them. -/
structure Visible (t : RadixTrie w V) (K : Nat → Prop) : Prop where
  ordered : t.graph.Ordered
  root : ∀ c, t.root = some c → K c
  child : ∀ c d e, K c → (t.nodes c).child d = some e → K e
  stored : ∀ c b, K c → (t.nodes c).value = some b → t.Stored (t.nodes c).pfx b

/-- Everything the reader holds is genuine. -/
def Sighted (H : Prefix w → Box V → Prop) (K : Nat → Prop) (t : RadixTrie w V) (a : Address w) :
    LookupPc V → Prop
  | .root => True
  | .value c best => K c ∧ ∀ b ∈ best, Found H a 0 (t.nodes c).keyLength b
  | .child c best => K c ∧ (t.nodes c).pfx.contains a ∧ (t.nodes c).keyLength < w.bits ∧
      ∀ b ∈ best, Found H a 0 ((t.nodes c).keyLength + 1) b

/-- A result is genuine. -/
def Genuine (H : Prefix w → Box V → Prop) (a : Address w) (r : Option (Box V)) : Prop :=
  ∀ b ∈ r, ∃ q : Prefix w, H q b ∧ q.contains a

theorem Found.mono {l k k' : Nat} {b : Box V} (h : Found H a l k b) (hk : k ≤ k') :
    Found H a l k' b := by
  obtain ⟨q, hq, ha, hl, hlt⟩ := h
  exact ⟨q, hq, ha, hl, hlt.trans_le hk⟩

theorem Found.record {H' : Prefix w → Box V → Prop} (hH : ∀ q b, H q b → H' q b) {l k : Nat}
    {b : Box V} (h : Found H a l k b) : Found H' a l k b := by
  obtain ⟨q, hq, h⟩ := h
  exact ⟨q, hH q b hq, h⟩

theorem Found.genuine (h : ∀ b ∈ best, ∃ l k, Found H a l k b) : Genuine H a best := by
  intro b hb
  obtain ⟨l, k, q, hq, ha, -⟩ := h b hb
  exact ⟨q, hq, ha⟩

theorem Visible.lt_child (hv : t.Visible K) {d : Bool} {e : Nat}
    (he : (t.nodes c).child d = some e) : (t.nodes c).keyLength < (t.nodes e).keyLength := by
  have hlt := Graph.key_lt_of_child hv.ordered (n := c) (b := d) (m := e) (Graph.reach_of_eq he)
  simpa [Node.keyLength] using hlt

theorem Inv.visible_linked (h : t.Inv priv) : t.Visible t.Linked where
  ordered := h.ordered
  root _ hc := Graph.reach_of_eq hc
  child _ d _ hc he := Graph.Linked.child (b := d) hc (Graph.reach_of_eq he)
  stored c _ hc hb := ⟨c, hc, rfl, hb⟩

/-- Among writers that keep unlinked nodes silent, a reader may stand on any node it knows. -/
theorem Inv.visible_known (h : t.Inv priv) (hsi : t.Silent priv) : t.Visible (t.Known priv) where
  ordered := h.ordered
  root c hc := h.linked_known (h.visible_linked.root c hc)
  child _ d _ hc he := h.reach_known hc (.down d (Graph.reach_of_eq he))
  stored c b hc hb := by
    refine ⟨c, by_contra fun hl => ?_, rfl, hb⟩
    rw [hsi c hl hc.2] at hb
    cases hb

/-- One load of a lookup. -/
theorem sighted_step (hv : t.Visible K) (hH : ∀ q b, t.Stored q b → H q b)
    {pc : LookupPc V} (hs : Sighted H K t a pc) :
    (lookupStep a t pc).Sat (fun _ pc' => Sighted H K t a pc') (fun _ r => Genuine H a r) := by
  cases pc with
  | root =>
    cases hr : t.root with
    | none => simp only [lookupStep, lookupLoop, hr]; exact nofun
    | some c => simp only [lookupStep, lookupLoop, hr]; exact ⟨hv.root c hr, nofun⟩
  | value c best =>
    obtain ⟨hc, hbest⟩ := hs
    simp only [lookupStep]
    split
    · exact Found.genuine fun b hb => ⟨_, _, hbest b hb⟩
    · next hm =>
      rw [Bool.not_eq_true, Bool.not_eq_false'] at hm
      have hca : (t.nodes c).pfx.contains a := by
        rw [Prefix.contains_iff]; exact Prefix.matchesTo_iff.mp hm
      have hnew : ∀ b ∈ (if (t.nodes c).value.isSome then (t.nodes c).value else best),
          Found H a 0 ((t.nodes c).keyLength + 1) b := by
        intro b hb
        split at hb
        · exact ⟨_, hH _ b (hv.stored c b hc hb), hca, Nat.zero_le _, Nat.lt_succ_self _⟩
        · exact (hbest b hb).mono (Nat.le_succ _)
      split
      · exact Found.genuine fun b hb => ⟨_, _, hnew b hb⟩
      · next hlt => exact ⟨hc, hca, Nat.not_le.mp hlt, hnew⟩
  | child c best =>
    obtain ⟨hc, -, -, hbest⟩ := hs
    simp only [lookupStep]
    cases he : (t.nodes c).child (a.bit (t.nodes c).keyLength) with
    | none => exact Found.genuine fun b hb => ⟨_, _, hbest b hb⟩
    | some e =>
      exact ⟨hv.child c _ e hc he, fun b hb => (hbest b hb).mono (hv.lt_child he)⟩

/-- What the reader holds stays genuine while nodes keep their keys and the record grows. -/
theorem Sighted.mono {H' : Prefix w → Box V → Prop} (hH : ∀ q b, H q b → H' q b)
    (hK : ∀ c, K c → K' c) (hp : ∀ c, K c → (t'.nodes c).pfx = (t.nodes c).pfx) {pc : LookupPc V}
    (hs : Sighted H K t a pc) : Sighted H' K' t' a pc := by
  cases pc with
  | root => trivial
  | value c best =>
    refine ⟨hK c hs.1, fun b hb => ?_⟩
    rw [Node.keyLength, hp c hs.1]
    exact (hs.2 b hb).record hH
  | child c best =>
    refine ⟨hK c hs.1, ?_⟩
    rw [Node.keyLength, hp c hs.1]
    exact ⟨hs.2.1, hs.2.2.1, fun b hb => (hs.2.2.2 b hb).record hH⟩

/-! ### What the reader does not walk past -/

/-- The search for `a` leads from `c` to the linked node of `p`. -/
def Leads (t : RadixTrie w V) (a : Address w) (c : Nat) (p : Prefix w) : Prop :=
  ∃ n, t.Linked n ∧ (t.nodes n).pfx = p ∧ t.graph.Walk a.bits (some c) n

/-- The reader has a value of a prefix no shorter than `l`, or is on its way to `p`. -/
def Toward (H : Prefix w → Box V → Prop) (t : RadixTrie w V) (a : Address w) (l : Nat)
    (p : Prefix w) : LookupPc V → Prop
  | .root => True
  | .value c best => (∃ b ∈ best, Found H a l (t.nodes c).keyLength b) ∨ t.Leads a c p
  | .child c best => (∃ b ∈ best, Found H a l ((t.nodes c).keyLength + 1) b) ∨
      (t.Leads a c p ∧ (t.nodes c).pfx ≠ p)

/-- The result belongs to a prefix of `a` no shorter than `l`. -/
def Reaches (H : Prefix w → Box V → Prop) (a : Address w) (l : Nat) (r : Option (Box V)) : Prop :=
  ∃ b ∈ r, ∃ q : Prefix w, H q b ∧ q.contains a ∧ l ≤ q.length

theorem Found.reaches {l k : Nat} (h : ∃ b ∈ best, Found H a l k b) : Reaches H a l best := by
  obtain ⟨b, hb, q, hq, ha, hl, -⟩ := h
  exact ⟨b, hb, q, hq, ha, hl⟩

theorem Leads.key (h : t.graph.Ordered) (hl : t.Leads a c p) : (t.nodes c).pfx.bits <+: p.bits := by
  obtain ⟨n, -, rfl, hw⟩ := hl
  exact Graph.key_of_reach h hw.reach

/-- Short of its goal, the search goes on below the child it loads. -/
theorem Leads.next (hl : t.Leads a c p) (hne : (t.nodes c).pfx ≠ p)
    (hlt : (t.nodes c).keyLength < w.bits) :
    ∃ e, (t.nodes c).child (a.bit (t.nodes c).keyLength) = some e ∧ t.Leads a e p := by
  obtain ⟨n, hn, hp, hw⟩ := hl
  cases hw with
  | here => exact absurd hp hne
  | @down _ b _ hb hw =>
    have hlt : (t.nodes c).pfx.length < w.bits := hlt
    have hbit : b = a.bit (t.nodes c).keyLength := by
      rw [key_graph, Prefix.length_bits, Address.getElem?_bits a hlt] at hb
      exact (Option.some.inj hb).symm
    subst hbit
    have hchild : t.graph.child c (a.bit (t.nodes c).keyLength) =
        (t.nodes c).child (a.bit (t.nodes c).keyLength) := rfl
    rw [hchild] at hw
    cases he : (t.nodes c).child (a.bit (t.nodes c).keyLength) with
    | none => rw [he] at hw; exact absurd hw.reach Graph.not_reach_none
    | some e => exact ⟨e, rfl, n, hn, hp, he ▸ hw⟩

/-- One load of a lookup while `p` is in the table. -/
theorem toward_step (hv : t.Visible K) (hH : ∀ q b, t.Stored q b → H q b) {l : Nat} (hpa : p.contains a) (hl : l ≤ p.length) {b₀ : Box V} (hp : t.Stored p b₀)
    {pc : LookupPc V} (hs : Sighted H K t a pc) (ht : Toward H t a l p pc) :
    (lookupStep a t pc).Sat (fun _ pc' => Toward H t a l p pc') (fun _ r => Reaches H a l r) := by
  have hpa' := Prefix.contains_iff.mp hpa
  cases pc with
  | root =>
    obtain ⟨n, hn, hnp, -⟩ := hp
    have hw : t.graph.Walk a.bits t.root n :=
      Graph.walk_of_reach hv.ordered hn (by rw [key_graph, hnp]; exact hpa')
    cases hr : t.root with
    | none => rw [hr] at hw; exact absurd hw.reach Graph.not_reach_none
    | some c =>
      simp only [lookupStep, lookupLoop, hr]
      exact .inr ⟨n, hn, hnp, hr ▸ hw⟩
  | value c best =>
    obtain ⟨hc, -⟩ := hs
    simp only [lookupStep]
    split
    · next hm =>
      refine ht.elim Found.reaches fun hlead => absurd hm ?_
      rw [Bool.not_eq_true, Bool.not_eq_false']
      exact Prefix.matchesTo_iff.mpr ((hlead.key hv.ordered).trans hpa')
    · next hm =>
      rw [Bool.not_eq_true, Bool.not_eq_false'] at hm
      have hca : (t.nodes c).pfx.contains a := by
        rw [Prefix.contains_iff]; exact Prefix.matchesTo_iff.mp hm
      -- the value loaded here, if there is one, is longer than anything found before
      have hnew : ∀ {b}, (t.nodes c).value = some b → l ≤ (t.nodes c).pfx.length →
          Found H a l ((t.nodes c).keyLength + 1) b := fun {b} hb hle =>
        ⟨_, hH _ b (hv.stored c b hc hb), hca, hle, Nat.lt_succ_self _⟩
      have hgoal : (∃ b ∈ (if (t.nodes c).value.isSome then (t.nodes c).value else best),
          Found H a l ((t.nodes c).keyLength + 1) b) ∨ (t.Leads a c p ∧ (t.nodes c).pfx ≠ p) := by
        rcases ht with ⟨b, hb, hf⟩ | hlead
        · left
          obtain ⟨q, -, -, hlq, hqc⟩ := id hf
          cases hval : (t.nodes c).value with
          | none => exact ⟨b, hb, hf.mono (Nat.le_succ _)⟩
          | some u => exact ⟨u, rfl, hnew hval (hlq.trans hqc.le)⟩
        · by_cases hcp : (t.nodes c).pfx = p
          · left
            obtain ⟨n, hn, hnp, hnv⟩ := hp
            obtain ⟨m, hm, hmp, hw⟩ := hlead
            have hcm : c = m := Graph.reach_unique hv.ordered (.here c) hw.reach
              (by rw [key_graph, key_graph, hcp, hmp])
            obtain rfl : n = c := Graph.reach_unique hv.ordered hn (hcm ▸ hm)
              (congrArg Prefix.bits (hnp.trans hcp.symm))
            rw [hnv]
            exact ⟨b₀, rfl, hnew hnv (hcp ▸ hl)⟩
          · exact .inr ⟨hlead, hcp⟩
      split
      · next hle =>
        refine hgoal.elim Found.reaches fun ⟨hlead, hcp⟩ => absurd ?_ hcp
        refine Prefix.bits_injective ((hlead.key hv.ordered).eq_of_length_le ?_)
        simpa [Node.keyLength] using p.length_le.trans hle
      · exact hgoal
  | child c best =>
    obtain ⟨-, -, hlt, -⟩ := id hs
    simp only [lookupStep]
    rcases ht with ⟨b, hb, hf⟩ | ⟨hlead, hcp⟩
    · cases he : (t.nodes c).child (a.bit (t.nodes c).keyLength) with
      | none => exact Found.reaches ⟨b, hb, hf⟩
      | some e => exact .inl ⟨b, hb, hf.mono (hv.lt_child he)⟩
    · obtain ⟨e, he, hlead⟩ := hlead.next hcp hlt
      rw [he]
      exact .inr hlead

end RadixTrie

end RcuFib

import RcuFib.Text.Ipv6

/-! The IPv6 text grammar, and where `parse_v6` departs from it.

    `Denotes` is the grammar: eight groups of up to four digits, or fewer with one "::" for the rest, and
    the last two groups possibly a dotted quad. `Admits` is what the loop accepts, which is more:
    `Slip` lists the four ways in which an accepted text can be outside the grammar. -/

namespace RcuFib.Text

/-- The eight groups a text spells, with up to `m` of them written beside a "::". -/
inductive Spells (n m : Nat) (quad : Text → BitVec 32 → Prop) : List (BitVec 16) → Text → Prop
  | full {gs t} : Groups n quad gs t → gs.length = 8 → Spells n m quad gs t
  | compressed {l r t u} : Side n NoQuad l t → Side n quad r u → l.length + r.length ≤ m →
      Spells n m quad (expand l r) (t ++ ':' :: ':' :: u)

/-- The grammar: a "::" stands for at least one group. -/
def Denotes (s : Text) (a : Address .ipv6) : Prop := ∃ gs, Spells 4 7 Quad gs s ∧ a.HasGroups gs

/-- A single leading colon, taken for a "::". -/
inductive LoneColon : List (BitVec 16) → Text → Prop
  | mk {r u} : Side 8 QuadThen r u → r.length ≤ 8 → LoneColon (expand [] r) (':' :: u)

/-- What the loop accepts: groups of up to eight digits whose value fits, a "::" for no group at all,
    any text after a dotted quad and a colon, a single leading colon. -/
def Admits (s : Text) (a : Address .ipv6) : Prop :=
  ∃ gs, (Spells 8 8 QuadThen gs s ∨ LoneColon gs s) ∧ a.HasGroups gs

/-- The text between colons. -/
def fields (s : Text) : List Text := s.splitOn ':'

/-- Eight groups beside a "::". -/
def ZeroWidth (s : Text) : Prop :=
  ∃ l r t u, Side 8 NoQuad l t ∧ Side 8 QuadThen r u ∧ s = t ++ ':' :: ':' :: u ∧ l.length + r.length = 8

/-- The liberties an accepted text may take. -/
inductive Slip (s : Text) : Prop
  | stray {u} : s = ':' :: u → u.head? ≠ some ':' → Slip s
  | long {p} : p ∈ fields s → '.' ∉ p → 4 < p.length → Slip s
  | after {p} : p ∈ (fields s).dropLast → '.' ∈ p → Slip s
  | zeroWidth : ZeroWidth s → Slip s

variable {n m : Nat} {s t u p : Text} {g : BitVec 16} {gs l r : List (BitVec 16)} {a : Address .ipv6}
  {quad : Text → BitVec 32 → Prop} {st : Scan}

/-! ### What the parser accepts -/

theorem length_expand (h : l.length + r.length ≤ 8) : (expand l r).length = 8 := by
  simp [expand]
  omega

theorem expand_nil (h : gs.length = 8) : expand gs [] = gs := by
  simp [expand, h]

theorem assemble_iff : assemble st = some a ↔
    (st.seenCompression = false → st.head.length = 8) ∧ st.head.length + st.tail.length ≤ 8 ∧
      a.HasGroups (expand st.head st.tail) := by
  unfold assemble
  split
  · next h =>
    have hseen : st.seenCompression = false := by simpa using h.1
    simp [hseen, h.2]
  · next h =>
    split
    · simp; omega
    · next hle =>
      have hgroups := Address.hasGroups_ofGroups (length_expand (Nat.not_lt.mp hle))
      constructor
      · rintro ⟨⟩
        refine ⟨fun hseen => ?_, by omega, hgroups⟩
        by_contra hne
        exact h ⟨by simp [hseen], hne⟩
      · rintro ⟨-, -, ha⟩
        rw [ha.address hgroups]

theorem parseV6_iff : parseV6 s = some a ↔ ∃ st, Scans s st ∧ assemble st = some a := by
  have hscan : (scanV6 s).bind assemble = some a ↔ ∃ st, Scans s st ∧ assemble st = some a := by
    simp only [Option.bind_eq_some_iff, scanV6_iff]
  rw [← hscan, parseV6]
  split
  · next hs =>
    subst hs
    have hzero : (scanV6 [':', ':']).bind assemble = some (Address.zero .ipv6) := by decide
    rw [hzero]
  · rfl

theorem parseV6_admits : parseV6 s = some a ↔ Admits s a := by
  rw [parseV6_iff]
  constructor
  · rintro ⟨st, hst, ha⟩
    obtain ⟨hfull, hlen, ha⟩ := assemble_iff.mp ha
    cases hst with
    | groups hgs _ =>
      have h8 := hfull rfl
      rw [expand_nil h8] at ha
      rcases hgs with ⟨rfl, -⟩ | hgs
      · cases h8
      · exact ⟨_, .inl (.full hgs h8), ha⟩
    | compressed hl hr _ _ => exact ⟨_, .inl (.compressed hl hr hlen), ha⟩
    | stray hr hlen' => exact ⟨_, .inr ⟨hr, hlen'⟩, ha⟩
  · rintro ⟨gs, (h | h), ha⟩
    · cases h with
      | full hgs h8 =>
        refine ⟨_, .groups (.inr hgs) h8.le, assemble_iff.mpr ⟨fun _ => h8, h8.le, ?_⟩⟩
        rwa [expand_nil h8]
      | compressed hl hr hlen =>
        exact ⟨_, .compressed hl hr (by omega) (by omega),
          assemble_iff.mpr ⟨fun h => (by cases h), hlen, ha⟩⟩
    · cases h with
      | mk hr hlen =>
        exact ⟨_, .stray hr hlen, assemble_iff.mpr ⟨fun h => (by cases h), by simpa using hlen, ha⟩⟩

/-! ### Fields -/

theorem fields_ne_nil : fields t ≠ [] := List.splitOn_ne_nil _ _

theorem fields_single (h : ':' ∉ t) : fields t = [t] := List.splitOn_eq_singleton h

theorem fields_colon : fields (t ++ ':' :: u) = fields t ++ fields u := List.splitOn_append_cons_self _ _

/-- No field without a dot has more than `n` characters. -/
def Short (n : Nat) (t : Text) : Prop := ∀ p ∈ fields t, '.' ∉ p → p.length ≤ n

theorem short_colon : Short n (t ++ ':' :: u) ↔ Short n t ∧ Short n u := by
  simp only [Short, fields_colon, List.mem_append, or_imp, forall_and]

/-- Only the last field has a dot. -/
def QuadLast (t : Text) : Prop := ∀ p ∈ (fields t).dropLast, '.' ∉ p

theorem quadLast_colon : QuadLast (t ++ ':' :: u) ↔ (∀ p ∈ fields t, '.' ∉ p) ∧ QuadLast u := by
  simp only [QuadLast, fields_colon, List.dropLast_append_of_ne_nil fields_ne_nil, List.mem_append,
    or_imp, forall_and]

theorem Hextet.fields (h : Hextet n t g) : fields t = [t] := fields_single (h.not_mem (by decide))

theorem Quad.fields {v : BitVec 32} (h : Quad t v) : fields t = [t] :=
  fields_single (h.not_mem (by decide) (by decide))

/-- Groups of up to `n` digits are short fields. -/
theorem Groups.short (hquad : ∀ t v, quad t v → Quad t v) (h : Groups n quad gs t) : Short n t := by
  induction h with
  | group hg =>
    intro p hp _
    rw [hg.fields, List.mem_singleton] at hp
    rw [hp]
    exact hg.length_le
  | quad hq =>
    intro p hp hno
    rw [(hquad _ _ hq).fields, List.mem_singleton] at hp
    exact absurd (hquad _ _ hq).dot_mem (hp ▸ hno)
  | colon hg _ ih =>
    refine short_colon.mpr ⟨fun p hp _ => ?_, ih⟩
    rw [hg.fields, List.mem_singleton] at hp
    rw [hp]
    exact hg.length_le

theorem Groups.of_short (hshort : Short m t) (h : Groups n quad gs t) : Groups m quad gs t := by
  have hhex : ∀ {t g}, Hextet n t g → Short m t → Hextet m t g := by
    intro t g hg hs
    exact ⟨hg.ne_nil, hs t (by simp [hg.fields]) (hg.not_mem (by decide)), hg.digits, hg.value⟩
  induction h with
  | group hg => exact .group (hhex hg hshort)
  | quad hq => exact .quad hq
  | colon hg _ ih =>
    obtain ⟨ht, hu⟩ := short_colon.mp hshort
    exact .colon (hhex hg ht) (ih hu)

/-- Without a dotted quad there are no dots. -/
theorem Groups.no_dot (h : Groups n NoQuad gs t) : ∀ p ∈ fields t, '.' ∉ p := by
  have hhex : ∀ {t g}, Hextet n t g → ∀ p ∈ fields t, '.' ∉ p := by
    intro t g hg p hp
    rw [hg.fields, List.mem_singleton] at hp
    rw [hp]
    exact hg.not_mem (by decide)
  induction h with
  | group hg => exact hhex hg
  | quad hq => exact hq.elim
  | colon hg _ ih =>
    intro p hp
    rw [fields_colon, List.mem_append] at hp
    exact hp.elim (hhex hg p) (ih p)

theorem Groups.quadLast (h : Groups n Quad gs t) : QuadLast t := by
  induction h with
  | group hg => simp [QuadLast, hg.fields]
  | quad hq => simp [QuadLast, hq.fields]
  | colon hg _ ih =>
    refine quadLast_colon.mpr ⟨fun p hp => ?_, ih⟩
    rw [hg.fields, List.mem_singleton] at hp
    rw [hp]
    exact hg.not_mem (by decide)

theorem Groups.of_quadLast (hlast : QuadLast t) (h : Groups n QuadThen gs t) : Groups n Quad gs t := by
  induction h with
  | group hg => exact .group hg
  | quad hq =>
    obtain ⟨q, rest, hq, rfl, rfl | ⟨u, rfl⟩⟩ := hq
    · rw [List.append_nil]
      exact .quad hq
    · exact absurd hq.dot_mem ((quadLast_colon.mp hlast).1 q (by simp [hq.fields]))
  | colon hg _ ih => exact .colon hg (ih (quadLast_colon.mp hlast).2)

/-! ### The grammar and what is accepted -/

theorem Quad.quadThen {v : BitVec 32} (h : Quad t v) : QuadThen t v := ⟨t, [], h, by simp, .inl rfl⟩

theorem fields_nil : fields [] = [[]] := List.splitOn_nil _

/-- Around a "::" everything is short if both sides are, and so for the dots. -/
theorem short_colons : Short n (t ++ ':' :: ':' :: u) ↔ Short n t ∧ Short n u := by
  have hnil : Short n [] := by simp [Short, fields_nil]
  have := short_colon (n := n) (t := []) (u := u)
  rw [List.nil_append] at this
  rw [short_colon, this]
  simp [hnil]

theorem quadLast_colons : QuadLast (t ++ ':' :: ':' :: u) ↔ (∀ p ∈ fields t, '.' ∉ p) ∧ QuadLast u := by
  have := quadLast_colon (t := []) (u := u)
  rw [List.nil_append] at this
  rw [quadLast_colon, this]
  simp [fields_nil]

theorem Side.mono {quad' : Text → BitVec 32 → Prop} (hquad : ∀ t v, quad t v → quad' t v) (hle : n ≤ m)
    (h : Side n quad gs t) : Side m quad' gs t := h.imp id (Groups.mono hquad hle)

theorem Side.short (hquad : ∀ t v, quad t v → Quad t v) (h : Side n quad gs t) : Short n t := by
  rcases h with ⟨-, rfl⟩ | h
  · simp [Short, fields_nil]
  · exact h.short hquad

theorem Side.no_dot (h : Side n NoQuad gs t) : ∀ p ∈ fields t, '.' ∉ p := by
  rcases h with ⟨-, rfl⟩ | h
  · simp [fields_nil]
  · exact h.no_dot

theorem Side.quadLast (h : Side n Quad gs t) : QuadLast t := by
  rcases h with ⟨-, rfl⟩ | h
  · simp [QuadLast, fields_nil]
  · exact h.quadLast

/-- The grammar is part of what is accepted. -/
theorem Spells.admitted (h : Spells 4 7 Quad gs s) : Spells 8 8 QuadThen gs s := by
  cases h with
  | full hgs h8 => exact .full (hgs.mono (fun _ _ => Quad.quadThen) (by decide)) h8
  | compressed hl hr hlen =>
    exact .compressed (hl.mono (fun _ _ => id) (by decide))
      (hr.mono (fun _ _ => Quad.quadThen) (by decide)) (by omega)

theorem Denotes.admits (h : Denotes s a) : Admits s a := by
  obtain ⟨gs, hgs, ha⟩ := h
  exact ⟨gs, .inl hgs.admitted, ha⟩

theorem Spells.short (h : Spells n m Quad gs s) : Short n s := by
  cases h with
  | full hgs _ => exact hgs.short fun _ _ => id
  | compressed hl hr _ =>
    exact short_colons.mpr ⟨hl.short fun _ _ => False.elim, hr.short fun _ _ => id⟩

theorem Spells.quadLast (h : Spells n m Quad gs s) : QuadLast s := by
  cases h with
  | full hgs _ => exact hgs.quadLast
  | compressed hl hr _ => exact quadLast_colons.mpr ⟨hl.no_dot, hr.quadLast⟩

/-- A text of the grammar that starts with a colon starts with two. -/
theorem Spells.head (h : Spells 4 7 Quad gs (':' :: u)) : u.head? = some ':' := by
  generalize hs : ':' :: u = s at h
  cases h with
  | full hgs _ => exact absurd hs.symm (hgs.mono (fun _ _ => Quad.quadThen) le_rfl).ne_colon
  | compressed hl _ _ =>
    rcases hl with ⟨-, rfl⟩ | hl
    · rw [(List.cons.inj hs).2]
      rfl
    · obtain ⟨c, v, rfl, hc⟩ := hl.head fun _ _ => False.elim
      exact absurd (List.cons.inj hs).1.symm hc

/-- A text that is read in two ways is read with the same groups beside the "::". -/
theorem Scans.unique {st' : Scan} (h : Scans s st) (h' : Scans s st') : st = st' := by
  have := scanV6_iff.mpr h
  rw [scanV6_iff.mpr h'] at this
  exact (Option.some.inj this).symm

/-- In the grammar a "::" leaves out at least one group. -/
theorem Spells.omits (h : Spells 4 7 Quad gs s) (hst : Scans s st) (hseen : st.seenCompression = true) :
    st.head.length + st.tail.length ≤ 7 := by
  cases h with
  | full hgs h8 =>
    rw [hst.unique (.groups (.inr (hgs.mono (fun _ _ => Quad.quadThen) (by decide))) h8.le)] at hseen
    cases hseen
  | compressed hl hr hlen =>
    rw [hst.unique (.compressed (hl.mono (fun _ _ => id) (by decide))
      (hr.mono (fun _ _ => Quad.quadThen) (by decide)) (by omega) (by omega))]
    exact hlen

theorem Spells.not_zeroWidth (h : Spells 4 7 Quad gs s) : ¬ZeroWidth s := by
  rintro ⟨l, r, t, u, hl, hr, rfl, h8⟩
  have := h.omits (.compressed hl hr (by omega) (by omega)) rfl
  exact absurd h8 (by simpa using Nat.ne_of_lt (Nat.lt_succ_of_le this))

theorem Denotes.not_slip (h : Denotes s a) : ¬Slip s := by
  obtain ⟨gs, hgs, -⟩ := h
  intro hslip
  cases hslip with
  | stray hs hhead =>
    subst hs
    exact hhead hgs.head
  | long hp hno hlen => exact absurd (hgs.short _ hp hno) (by omega)
  | after hp hdot => exact hgs.quadLast _ hp hdot
  | zeroWidth hz => exact hgs.not_zeroWidth hz

/-- An accepted text that takes none of the liberties is in the grammar. -/
theorem Admits.denotes (h : Admits s a) (hslip : ¬Slip s) : Denotes s a := by
  have hshort : Short 4 s := by
    intro p hp hno
    by_contra hlong
    exact hslip (.long hp hno (by omega))
  have hlast : QuadLast s := fun p hp hdot => hslip (.after hp hdot)
  obtain ⟨gs, h, ha⟩ := h
  refine ⟨gs, ?_, ha⟩
  rcases h with h | h
  · cases h with
    | full hgs h8 => exact .full ((hgs.of_short hshort).of_quadLast hlast) h8
    | compressed hl hr hlen =>
      have hne : _ ≠ 8 := fun h8 => hslip (.zeroWidth ⟨_, _, _, _, hl, hr, rfl, h8⟩)
      obtain ⟨ht, hu⟩ := short_colons.mp hshort
      exact .compressed (hl.imp id fun h => h.of_short ht)
        (hr.imp id fun h => (h.of_short hu).of_quadLast (quadLast_colons.mp hlast).2) (by omega)
  · cases h with
    | mk hr _ =>
      refine absurd (Slip.stray rfl fun hhead => ?_) hslip
      obtain ⟨v, rfl⟩ := List.head?_eq_some_iff.mp hhead
      exact hr.ne_colon rfl

/-- `parse_v6` and the grammar agree on a text unless the text is accepted with a liberty. -/
theorem parseV6_exact_iff (s : Text) :
    (∀ a, parseV6 s = some a ↔ Denotes s a) ↔ ((∃ a, Admits s a) → ¬Slip s) := by
  constructor
  · rintro h ⟨a, ha⟩
    exact ((h a).mp (parseV6_admits.mpr ha)).not_slip
  · intro h a
    rw [parseV6_admits]
    exact ⟨fun ha => ha.denotes (h ⟨a, ha⟩), Denotes.admits⟩

/-- A text for each of the liberties: all are accepted, and none is in the grammar. -/
theorem parseV6_liberties :
    (¬∀ a, parseV6 [':', '1'] = some a ↔ Denotes [':', '1'] a) ∧
    (¬∀ a, parseV6 ['0', '0', '0', '0', '1', ':', ':'] = some a ↔
      Denotes ['0', '0', '0', '0', '1', ':', ':'] a) ∧
    (¬∀ a, parseV6 ['1', ':', '2', ':', '3', ':', '4', ':', ':', '5', ':', '6', ':', '7', ':', '8'] =
        some a ↔
      Denotes ['1', ':', '2', ':', '3', ':', '4', ':', ':', '5', ':', '6', ':', '7', ':', '8'] a) ∧
    ¬∀ a, parseV6 [':', ':', '1', '.', '2', '.', '3', '.', '4', ':', 'x'] = some a ↔
      Denotes [':', ':', '1', '.', '2', '.', '3', '.', '4', ':', 'x'] a := by
  have refute : ∀ s, (parseV6 s).isSome = true → (∀ a, ¬Denotes s a) →
      ¬∀ a, parseV6 s = some a ↔ Denotes s a := by
    intro s hsome hnot h
    obtain ⟨a, ha⟩ := Option.isSome_iff_exists.mp hsome
    exact hnot a ((h a).mp ha)
  refine ⟨?_, ?_, ?_, ?_⟩
  · exact refute _ (by decide) fun a ha => ha.not_slip (.stray rfl (by decide))
  · exact refute _ (by decide) fun a ha =>
      ha.not_slip (.long (p := ['0', '0', '0', '0', '1']) (by decide) (by decide) (by decide))
  · refine refute _ (by decide) fun a ⟨gs, hgs, _⟩ => ?_
    have hscan : scanV6 ['1', ':', '2', ':', '3', ':', '4', ':', ':', '5', ':', '6', ':', '7', ':', '8'] =
        some ⟨[1, 2, 3, 4], [5, 6, 7, 8], true⟩ := by decide
    exact absurd (hgs.omits (scanV6_iff.mp hscan) rfl) (by decide)
  · exact refute _ (by decide) fun a ha =>
      ha.not_slip (.after (p := ['1', '.', '2', '.', '3', '.', '4']) (by decide) (by decide))

end RcuFib.Text

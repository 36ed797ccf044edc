import RcuFib.Library.Runs
import RcuFib.Text.Grammar

/-! Printing IPv6 addresses (`src/address.cpp`: `basic_address<128>::to_string`).

    A first loop looks for the zeros to leave out, a second prints. `Rfc5952` is the text they are meant
    to produce, and it is a text of the IPv6 grammar that denotes the address printed. -/

namespace RcuFib.Text
open Numeral Runs

/-- `best_start`, `best_len`, `run_start`, `run_len`; a start of -1 is `none`. -/
structure ZeroSearch where
  bestStart : Option Nat
  bestLen : Nat
  runStart : Option Nat
  runLen : Nat

/-- One pass of the search, over group `i`. -/
def searchStep (s : ZeroSearch) (i : Nat) (group : BitVec 16) : ZeroSearch :=
  if group = 0 then
    let runStart := s.runStart.getD i
    let runLen := s.runLen + 1
    if runLen > s.bestLen then ⟨some runStart, runLen, some runStart, runLen⟩
    else { s with runStart := some runStart, runLen := runLen }
  else { s with runStart := none, runLen := 0 }

def searchLoop : (i : Nat) → List (BitVec 16) → ZeroSearch → ZeroSearch
  | _, [], s => s
  | i, group :: groups, s => searchLoop (i + 1) groups (searchStep s i group)

/-- `%x`. -/
def hex (group : BitVec 16) : Text := Nat.toDigits 16 group.toNat

/-- `out += ':'` between groups. -/
def separate (out : Text) : Text :=
  if !out.isEmpty && !([':', ':'].isSuffixOf out) then out ++ [':'] else out

/-- The printing loop from group `i` on. -/
def printLoop (groups : List (BitVec 16)) (bestStart : Option Nat) (bestLen : Nat) :
    (fuel i : Nat) → Text → Text
  | 0, _, out => out
  | fuel + 1, i, out =>
    if i ≥ 8 then out
    else if some i = bestStart then
      printLoop groups bestStart bestLen fuel (i + (bestLen - 1) + 1) (out ++ [':', ':'])
    else printLoop groups bestStart bestLen fuel (i + 1) (separate out ++ hex (groups.getD i 0))

def printGroups (groups : List (BitVec 16)) : Text :=
  let s := searchLoop 0 groups ⟨none, 0, none, 0⟩
  let bestStart := if s.bestLen < 2 then none else s.bestStart
  let out := printLoop groups bestStart s.bestLen 8 0 []
  if out.isEmpty then [':', ':'] else out

/-- `basic_address<128>::to_string`. -/
def toStringV6 (a : Address .ipv6) : Text := printGroups a.groups

/-! ### The text meant -/

/-- A group in lower case and without leading zeros. -/
structure Plain (g : BitVec 16) (t : Text) : Prop where
  hextet : Hextet 4 t g
  lower : ∀ c ∈ t, c.isUpper = false
  no_zero : t.head? = some '0' → t.length ≤ 1

/-- Groups, each plain, with colons between them. -/
def Joined (gs : List (BitVec 16)) (t : Text) : Prop :=
  ∃ ts, List.Forall₂ Plain gs ts ∧ t = [':'].intercalate ts

/-- The leftmost longest run of two or more zero groups is left out, if there is one. -/
inductive Rfc5952 (gs : List (BitVec 16)) : Text → Prop
  | compressed {s n t u} : Longest 0 gs s n → 2 ≤ n → Joined (gs.take s) t → Joined (gs.drop (s + n)) u →
      Rfc5952 gs (t ++ ':' :: ':' :: u)
  | full {t} : (∀ s n, IsRun 0 gs s n → n < 2) → Joined gs t → Rfc5952 gs t

variable {gs : List (BitVec 16)} {g : BitVec 16} {p t u out : Text} {st : ZeroSearch} {s n : Nat}

/-! ### The search -/

/-- What the search knows of the groups `p` it has seen. -/
structure Searched (p : List (BitVec 16)) (st : ZeroSearch) : Prop where
  trailing : Trailing 0 p st.runLen
  runStart : st.runStart.getD p.length = p.length - st.runLen
  bound : ∀ s n, IsRun 0 p s n → n ≤ st.bestLen
  best : 0 < st.bestLen → ∃ b, st.bestStart = some b ∧ Longest 0 p b st.bestLen

theorem searched_step {p : List (BitVec 16)} (h : Searched p st) (g : BitVec 16) :
    Searched (p ++ [g]) (searchStep st p.length g) := by
  have hle := h.trailing.le
  unfold searchStep
  split
  · next hg =>
    subst hg
    have hstart : p.length - st.runLen = (p ++ [(0 : BitVec 16)]).length - (st.runLen + 1) := by simp
    rw [h.runStart]
    dsimp only
    split
    · next hgt =>
      have hbest := h.trailing.overtakes h.bound hgt
      exact ⟨h.trailing.snoc, hstart, hbest.longest, fun _ => ⟨_, rfl, hbest⟩⟩
    · next hgt =>
      obtain ⟨b, hb, hlong⟩ := h.best (by omega)
      have hbest := hlong.snoc h.trailing (by omega)
      exact ⟨h.trailing.snoc, hstart, hbest.longest, fun _ => ⟨b, hb, hbest⟩⟩
  · next hg =>
    refine ⟨.snoc_ne hg, rfl, fun s n hrun => ?_, fun hpos => ?_⟩
    · rcases hrun.snoc_cases with hrun | rfl | ⟨k, -, hgz, -⟩
      · exact h.bound _ _ hrun
      · exact Nat.zero_le _
      · exact absurd hgz hg
    · obtain ⟨b, hb, hlong⟩ := h.best hpos
      exact ⟨b, hb, hlong.snoc_ne hpos hg⟩

theorem searched_loop (gs : List (BitVec 16)) {p : List (BitVec 16)} (h : Searched p st) :
    Searched (p ++ gs) (searchLoop p.length gs st) := by
  induction gs generalizing p st with
  | nil => simpa [searchLoop] using h
  | cons g gs ih =>
    have := ih (searched_step h g)
    simpa [searchLoop] using this

theorem searched_start : Searched [] ⟨none, 0, none, 0⟩ := by
  refine ⟨⟨le_rfl, ⟨le_rfl, fun i _ hi => by simp at hi⟩, fun s n hrun hend => ?_⟩, rfl, fun s n hrun => ?_,
    fun h => absurd h (lt_irrefl 0)⟩
  · have : s + n = 0 := hend
    omega
  · have : s + n ≤ 0 := hrun.1
    omega

/-! ### Printing -/

theorem plain_hex (g : BitVec 16) : Plain g (hex g) := by
  refine ⟨⟨Nat.toDigits_ne_nil, (Nat.length_toDigits_le_iff (by decide) (by decide)).mpr g.isLt,
    isDigit_toDigits (by decide) le_rfl _, value_toDigits (by decide) le_rfl _⟩,
    isUpper_toDigits (by decide) le_rfl _, fun hz => ?_⟩
  rw [hex, head_toDigits (by decide) le_rfl hz]
  exact le_rfl

/-- Groups printed one after the other onto `out`. -/
def addGroups (out : Text) (gs : List (BitVec 16)) : Text :=
  gs.foldl (fun out g => separate out ++ hex g) out

theorem printLoop_groups {groups : List (BitVec 16)} {best : Option Nat} {len fuel i : Nat} (k : Nat)
    (hk : i + k ≤ 8) (hlen : groups.length = 8) (hbest : ∀ j, i ≤ j → j < i + k → some j ≠ best) :
    printLoop groups best len (fuel + k) i out =
      printLoop groups best len fuel (i + k) (addGroups out ((groups.drop i).take k)) := by
  induction k generalizing i out with
  | zero => simp [addGroups]
  | succ k ih =>
    have hget : groups.getD i 0 = groups[i] := by simp [List.getD_eq_getElem?_getD, show i < groups.length by omega]
    rw [← Nat.add_assoc, printLoop, if_neg (by omega), if_neg (hbest i le_rfl (by omega)),
      ih (by omega) fun j hj hj' => hbest j (by omega) (by omega),
      List.drop_eq_getElem_cons (show i < groups.length by omega), List.take_succ_cons, hget]
    rw [show i + 1 + k = i + (k + 1) by omega]
    rfl

theorem intercalate_cons (ts : List Text) (t : Text) :
    [':'].intercalate (t :: ts) = t ++ ts.flatMap (':' :: ·) := by
  induction ts generalizing t with
  | nil => simp
  | cons u ts ih => rw [List.intercalate_cons_cons, ih, List.flatMap_cons]; simp

theorem separate_colons (v : Text) : separate (v ++ [':', ':']) = v ++ [':', ':'] := by
  have : [':', ':'].isSuffixOf (v ++ [':', ':']) = true :=
    List.isSuffixOf_iff_suffix.mpr (List.suffix_append v _)
  simp [separate, this]

theorem separate_after {c : Char} (v : Text) (hc : c ≠ ':') : separate (v ++ [c]) = v ++ [c] ++ [':'] := by
  have : [':', ':'].isSuffixOf (v ++ [c]) = false := by
    rw [Bool.eq_false_iff]
    intro hsuffix
    obtain ⟨w, hw⟩ := List.isSuffixOf_iff_suffix.mp hsuffix
    have := congrArg List.getLast? hw
    simp at this
    exact hc this.symm
  simp [separate, this]

theorem hex_snoc (g : BitVec 16) : ∃ v c, hex g = v ++ [c] ∧ c ≠ ':' := by
  have hg := (plain_hex g).hextet
  obtain ⟨v, c, hv⟩ := List.eq_nil_or_concat' (hex g) |>.resolve_left hg.ne_nil
  refine ⟨v, c, hv, ?_⟩
  rintro rfl
  exact hg.not_mem (c := ':') (by decide) (by simp [hv])

/-- After a group every group is printed with a colon before it. -/
theorem addGroups_after (gs : List (BitVec 16)) {c : Char} (v : Text) (hc : c ≠ ':') :
    addGroups (v ++ [c]) gs = v ++ [c] ++ (gs.map hex).flatMap (':' :: ·) := by
  induction gs generalizing v c with
  | nil => simp [addGroups]
  | cons g gs ih =>
    obtain ⟨w, d, hw, hd⟩ := hex_snoc g
    have := ih (v ++ [c] ++ [':'] ++ w) hd
    simp only [addGroups, List.foldl_cons, separate_after v hc, hw] at this ⊢
    simp only [List.append_assoc] at this ⊢
    rw [this]
    simp [hw]

/-- The first group needs no colon at the start of the text and after a "::". -/
theorem addGroups_start (h : separate out = out) :
    addGroups out gs = out ++ [':'].intercalate (gs.map hex) := by
  cases gs with
  | nil => simp [addGroups]
  | cons g gs =>
    obtain ⟨w, d, hw, hd⟩ := hex_snoc g
    have := addGroups_after gs (out ++ w) hd
    simp only [addGroups, List.foldl_cons, h, hw, List.map_cons, intercalate_cons] at this ⊢
    simp only [List.append_assoc] at this ⊢
    exact this

theorem joined_hex (gs : List (BitVec 16)) : Joined gs ([':'].intercalate (gs.map hex)) := by
  refine ⟨gs.map hex, ?_, rfl⟩
  induction gs with
  | nil => exact .nil
  | cons g gs ih => exact .cons (plain_hex g) ih

theorem printLoop_done {groups : List (BitVec 16)} {best : Option Nat} {len fuel i : Nat} (h : 8 ≤ i) :
    printLoop groups best len fuel i out = out := by
  cases fuel with
  | zero => rfl
  | succ fuel => rw [printLoop, if_pos h]

/-- Without a run to leave out, all groups are printed. -/
theorem printLoop_full {len : Nat} (h : gs.length = 8) :
    printLoop gs none len 8 0 [] = [':'].intercalate (gs.map hex) := by
  calc printLoop gs none len (0 + 8) 0 []
      = printLoop gs none len 0 (0 + 8) (addGroups [] ((gs.drop 0).take 8)) :=
        printLoop_groups 8 (by omega) h (by simp)
    _ = addGroups [] gs := by rw [printLoop, List.drop_zero, List.take_of_length_le h.le]
    _ = [':'].intercalate (gs.map hex) := by rw [addGroups_start rfl, List.nil_append]

/-- The groups before the run, a "::", the groups after it. -/
theorem printLoop_compressed {len : Nat} (h : gs.length = 8) (hlen : 0 < len) (hle : s + len ≤ 8) :
    printLoop gs (some s) len 8 0 [] =
      [':'].intercalate ((gs.take s).map hex) ++ ':' :: ':' ::
        [':'].intercalate ((gs.drop (s + len)).map hex) := by
  have hbefore : printLoop gs (some s) len (8 - s + s) 0 [] =
      printLoop gs (some s) len (8 - s) (0 + s) (addGroups [] ((gs.drop 0).take s)) :=
    printLoop_groups s (by omega) h fun j _ hj hjs => by cases hjs; omega
  have hafter : ∀ out, printLoop gs (some s) len (len - 1 + (8 - (s + len))) (s + len) out =
      printLoop gs (some s) len (len - 1) (s + len + (8 - (s + len)))
        (addGroups out ((gs.drop (s + len)).take (8 - (s + len)))) := fun out =>
    printLoop_groups _ (by omega) h fun j hj _ hjs => by cases hjs; omega
  have htake : (gs.drop (s + len)).take (8 - (s + len)) = gs.drop (s + len) :=
    List.take_of_length_le (by rw [List.length_drop, h])
  rw [show 8 - s + s = 8 by omega, List.drop_zero, addGroups_start rfl, List.nil_append,
    Nat.zero_add] at hbefore
  rw [hbefore, show 8 - s = len - 1 + (8 - (s + len)) + 1 by omega, printLoop, if_neg (by omega),
    if_pos rfl, show s + (len - 1) + 1 = s + len by omega, hafter, printLoop_done (by omega),
    addGroups_start (separate_colons _), htake, List.append_assoc]
  rfl

theorem intercalate_hex_ne_nil (h : gs ≠ []) : [':'].intercalate (gs.map hex) ≠ [] := by
  obtain ⟨g, gs, rfl⟩ := List.exists_cons_of_ne_nil h
  rw [List.map_cons, intercalate_cons]
  exact List.append_ne_nil_of_left_ne_nil (plain_hex g).hextet.ne_nil _

/-- The text printed is the one meant. -/
theorem rfc5952_print (h : gs.length = 8) : Rfc5952 gs (printGroups gs) := by
  have hsearch : Searched gs (searchLoop 0 gs ⟨none, 0, none, 0⟩) := by
    simpa using searched_loop gs searched_start
  unfold printGroups
  generalize searchLoop 0 gs ⟨none, 0, none, 0⟩ = st at hsearch
  dsimp only
  split
  · next hlt =>
    have hne : gs ≠ [] := List.ne_nil_of_length_pos (by omega)
    rw [printLoop_full h, if_neg (by simpa using intercalate_hex_ne_nil hne)]
    exact .full (fun s n hrun => (hsearch.bound s n hrun).trans_lt hlt) (joined_hex gs)
  · next hlt =>
    obtain ⟨b, hb, hlong⟩ := hsearch.best (by omega)
    have hle := hlong.run.1
    rw [hb, printLoop_compressed h (by omega) (by omega), if_neg (by simp)]
    exact .compressed hlong (by omega) (joined_hex _) (joined_hex _)

/-! ### The text meant is in the grammar -/

theorem Joined.groups {quad : Text → BitVec 32 → Prop} (hne : gs ≠ []) (h : Joined gs t) :
    Groups 4 quad gs t := by
  obtain ⟨ts, hts, rfl⟩ := h
  induction hts with
  | nil => exact absurd rfl hne
  | @cons g t gs ts hg hts ih =>
    cases hts with
    | nil => simpa using Groups.group hg.hextet
    | @cons g' t' gs ts _ _ =>
      rw [List.intercalate_cons_cons, List.append_assoc]
      exact .colon hg.hextet (ih (List.cons_ne_nil _ _))

theorem Joined.side {quad : Text → BitVec 32 → Prop} (h : Joined gs t) : Side 4 quad gs t := by
  rcases eq_or_ne gs [] with rfl | hne
  · obtain ⟨ts, hts, rfl⟩ := h
    cases hts
    exact .inl ⟨rfl, rfl⟩
  · exact .inr (h.groups hne)

/-- What is printed spells the groups it was printed from. -/
theorem Rfc5952.spells (h : Rfc5952 gs t) (h8 : gs.length = 8) : Spells 4 7 Quad gs t := by
  cases h with
  | @compressed s n t u hlong hn ht hu =>
    have hle := hlong.run.1
    have hexpand : expand (gs.take s) (gs.drop (s + n)) = gs := by
      have hzeros : 8 - ((gs.take s).length + (gs.drop (s + n)).length) = n := by simp; omega
      rw [expand, hzeros]
      exact hlong.run.split
    rw [← hexpand]
    exact .compressed ht.side hu.side (by simp; omega)
  | full _ ht => exact .full (ht.groups (List.ne_nil_of_length_pos (by omega))) h8

theorem denotes_toStringV6 (a : Address .ipv6) : Denotes (toStringV6 a) a :=
  ⟨a.groups, (rfc5952_print a.hasGroups_groups.length).spells a.hasGroups_groups.length, a.hasGroups_groups⟩

/-- A printed IPv6 address is read back. -/
theorem parseV6_toStringV6 (a : Address .ipv6) : parseV6 (toStringV6 a) = some a :=
  parseV6_admits.mpr (denotes_toStringV6 a).admits

end RcuFib.Text

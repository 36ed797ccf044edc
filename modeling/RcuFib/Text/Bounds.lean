import RcuFib.Text.Ipv6
import RcuFib.Library.Words

/-! `parse_v6` access by access.

    Here the text is indexed by `pos`, the groups are arrays of eight, and `target` and `store` are
    pointers. An access out of bounds has no value. None happens, and what is computed is what
    `parseV6` computes on lists: `V6Vars.scan` reads the variables as its state. -/

namespace RcuFib
open Words

namespace Text

/-- `text.find(c, pos)` -/
def find (c : Char) (text : Text) (pos : Nat) : Option Nat :=
  ((text.drop pos).findIdx? (· == c)).map (pos + ·)

/-- `text.substr(pos, count)`, which throws beyond the end; no `count` is `npos`. -/
def substr (text : Text) (pos : Nat) (count : Option Nat) : Option Text :=
  if pos ≤ text.length then some (count.elim (text.drop pos) (text.drop pos).take) else none

/-- The variables of `parse_v6`. -/
structure V6Vars where
  groups : Vector (BitVec 16) 8
  head : Nat
  tail : Nat
  tailGroups : Vector (BitVec 16) 8
  seenCompression : Bool
  /-- `target` and `store` point to `tail` and `tail_groups`, not to `head` and `groups`. -/
  toTail : Bool
  pos : Nat

namespace V6Vars

/-- `*target` -/
def target (s : V6Vars) : Nat := if s.toTail then s.tail else s.head

/-- `(*store)[(*target)++] = x` -/
def push (s : V6Vars) (x : BitVec 16) : Option V6Vars :=
  if s.toTail then do
    let a ← checkedSet s.tailGroups s.tail x
    return { s with tailGroups := a, tail := s.tail + 1 }
  else do
    let a ← checkedSet s.groups s.head x
    return { s with groups := a, head := s.head + 1 }

/-- Once a "::" has been read `target` and `store` point to the tail. -/
def compress (s : V6Vars) (pos : Nat) : V6Vars :=
  { s with seenCompression := true, toTail := true, pos }

@[simp] theorem pos_compress (s : V6Vars) (pos : Nat) : (s.compress pos).pos = pos := rfl

end V6Vars

/-- How an iteration of the loop ends: it goes on, breaks, or returns `nullopt`. -/
inductive Verdict where
  | next (s : V6Vars)
  | leave (s : V6Vars)
  | reject (s : V6Vars)

def Verdict.vars : Verdict → V6Vars
  | next s => s
  | leave s => s
  | reject s => s

/-- The iteration at a dotted quad, which is the last. -/
def readQuad (text : Text) (s : V6Vars) (part : Text) : Option Verdict :=
  match parseV4 part with
  | none => some (.reject s)
  | some embedded =>
    if s.target > 6 then some (.reject s)
    else do
      let raw := embedded.toV4
      let s ← s.push ((raw >>> 16).setWidth 16)
      let s ← s.push ((raw &&& 0xFFFF#32).setWidth 16)
      return .leave { s with pos := text.length }

/-- The iteration at a group, which ends at `colon` or at the end of the text. -/
def readGroup (text : Text) (s : V6Vars) (part : Text) (colon : Option Nat) : Option Verdict :=
  match parseUint part 16 0xFFFF with
  | none => some (.reject s)
  | some group =>
    if s.target ≥ 8 then some (.reject s)
    else do
      let s ← s.push (BitVec.ofNat 16 group)
      match colon with
      | none => return .leave { s with pos := text.length }
      | some colon =>
        let s := { s with pos := colon + 1 }
        if s.pos = text.length then return .reject s else return .next s

/-- One iteration of the loop of `parse_v6`. -/
def iterate (text : Text) (s : V6Vars) : Option Verdict := do
  let c ← text[s.pos]?
  if c = ':' then
    if s.seenCompression then return .reject s
    else
      let s := s.compress (s.pos + 1)
      if s.pos = text.length then return .leave s else return .next s
  else
    let colon := find ':' text s.pos
    let count ← colon.mapM fun colon => checkedSub colon s.pos
    let part ← substr text s.pos count
    if '.' ∈ part then readQuad text s part else readGroup text s part colon

/-- The loop of `parse_v6`. The inner `none` is `nullopt`. -/
def loopV6 (text : Text) : (fuel : Nat) → V6Vars → Option (Option V6Vars)
  | fuel, s =>
    if s.pos < text.length then
      match fuel with
      | 0 => none
      | fuel + 1 => do
        match ← iterate text s with
        | .next s => loopV6 text fuel s
        | .leave s => return some s
        | .reject _ => return none
    else some (some s)

/-- `full[offset + i] = source[i]` for the next `left` values of `i`. -/
def copyGroups (source : Vector (BitVec 16) 8) (offset : Int) :
    (left i : Nat) → Vector (BitVec 16) 8 → Option (Vector (BitVec 16) 8)
  | 0, _, full => some full
  | left + 1, i, full => do
    let x ← checkedGet source i
    let full ← checkedSet full (offset + i) x
    copyGroups source offset left (i + 1) full

/-- The last loop: group `i` is shifted into word `i / 4`. -/
def packGroups (full : Vector (BitVec 16) 8) :
    (left i : Nat) → Vector (BitVec 64) 2 → Option (Vector (BitVec 64) 2)
  | 0, _, words => some words
  | left + 1, i, words => do
    let x ← checkedGet full i
    let word ← checkedGet words (i / 4 : Nat)
    let shift ← checkedSub 48 (16 * (i % 4))
    let y ← checkedShiftLeft (x.setWidth 64) shift
    let words ← checkedSet words (i / 4 : Nat) (word ||| y)
    packGroups full left (i + 1) words

/-- `parse_v6` behind its loop. -/
def finishV6 (s : V6Vars) : Option (Option (Address .ipv6)) :=
  if ¬s.seenCompression ∧ s.head ≠ 8 then some none
  else if s.head + s.tail > 8 then some none
  else do
    let full ← copyGroups s.groups 0 s.head 0 (Vector.replicate 8 0)
    let full ← copyGroups s.tailGroups (8 - s.tail) s.tail 0 full
    let words ← packGroups full 8 0 (Vector.replicate 2 0)
    return some { words, padded := fun _ _ => BitVec.isLt _ }

/-- `parse_v6` before its loop. -/
def startV6 (text : Text) : V6Vars :=
  let s : V6Vars := ⟨Vector.replicate 8 0, 0, 0, Vector.replicate 8 0, false, false, 0⟩
  if [':', ':'].isPrefixOf text then s.compress 2 else s

def parseV6Indexed (fuel : Nat) (text : Text) : Option (Option (Address .ipv6)) :=
  let s := startV6 text
  if s.seenCompression ∧ s.pos = text.length then some (some (Address.zero .ipv6))
  else (loopV6 text fuel s).bind fun r => r.elim (some none) finishV6

/-- The variables at the head of the loop. -/
inductive Reached (text : Text) : V6Vars → Prop
  | start : Reached text (startV6 text)
  | next {s s'} : Reached text s → s.pos < text.length → iterate text s = some (.next s') →
      Reached text s'

/-- The position is in the text, and neither count exceeds the arrays. -/
structure V6Vars.Bounded (text : Text) (s : V6Vars) : Prop where
  pos_le : s.pos ≤ text.length
  head_le : s.head ≤ 8
  tail_le : s.tail ≤ 8

/-- The variables as `parseV6` has them. -/
def V6Vars.scan (s : V6Vars) : Scan :=
  ⟨s.groups.toList.take s.head, s.tailGroups.toList.take s.tail, s.seenCompression⟩

/-- What is known at the head of the loop. -/
structure V6Vars.Inv (text : Text) (s : V6Vars) : Prop extends s.Bounded text where
  toTail_eq : s.toTail = s.seenCompression

variable {text t : Text} {s s' : V6Vars} {c : Char} {x : BitVec 16} {pos : Nat}

/-! ### The pieces of an iteration -/

theorem cut_eq (c : Char) (t : Text) :
    cut c t = (t.findIdx? (· == c)).map fun i => (t.take i, t.drop (i + 1)) := by
  induction t with
  | nil => rfl
  | cons y t ih =>
    rw [cut, List.findIdx?_cons]
    by_cases hy : y = c
    · simp [hy]
    · rw [if_neg hy, ih, if_neg (by simpa using hy), Option.map_map, Option.map_map]
      rfl

/-- The part between `pos` and the next colon is found without leaving the text. -/
theorem part_spec (hpos : pos ≤ text.length) : ∃ count part,
    ((find ':' text pos).mapM fun colon => checkedSub colon pos) = some count ∧
    substr text pos count = some part ∧
    partAt (text.drop pos) = (part, (find ':' text pos).map fun colon => text.drop (colon + 1)) ∧
    ∀ colon, find ':' text pos = some colon → pos ≤ colon ∧ colon < text.length := by
  cases hfind : (text.drop pos).findIdx? (· == ':') with
  | none =>
    have hf : find ':' text pos = none := by rw [find, hfind]; rfl
    refine ⟨none, text.drop pos, by rw [hf]; rfl, if_pos hpos, ?_, by rw [hf]; exact nofun⟩
    rw [partAt, cut_eq, hfind, hf]
    rfl
  | some i =>
    have hf : find ':' text pos = some (pos + i) := by rw [find, hfind]; rfl
    obtain ⟨hi, -⟩ := List.findIdx?_eq_some_iff_getElem.mp hfind
    rw [List.length_drop] at hi
    have hsub : checkedSub (pos + i) pos = some i := by
      rw [checkedSub_of_le (Nat.le_add_right ..), Nat.add_sub_cancel_left]
    refine ⟨some i, (text.drop pos).take i, ?_, if_pos hpos, ?_, ?_⟩
    · rw [hf]
      simp [hsub]
    · rw [partAt, cut_eq, hfind, hf]
      simp [List.drop_drop, Nat.add_assoc]
    · rw [hf]
      rintro _ ⟨⟩
      omega

theorem take_set (l : List (BitVec 16)) {i : Nat} (hi : i < l.length) :
    (l.set i x).take (i + 1) = l.take i ++ [x] := by
  rw [List.take_add_one, List.take_set_of_le le_rfl, List.getElem?_set_self hi]
  rfl

namespace V6Vars

theorem Inv.target_eq (h : s.Inv text) : s.scan.target.length = s.target := by
  obtain ⟨⟨-, hh, ht⟩, htail⟩ := h
  unfold Scan.target scan target
  rw [htail]
  cases s.seenCompression <;> simp [hh, ht]

/-- A store where there is room. -/
theorem Inv.push (h : s.Inv text) (x : BitVec 16) (hroom : s.target < 8) :
    ∃ s', s.push x = some s' ∧ s'.Inv text ∧ s'.pos = s.pos ∧ s'.target = s.target + 1 ∧
      s'.scan = s.scan.store [x] := by
  obtain ⟨⟨hpos, hh, ht⟩, htail⟩ := h
  unfold V6Vars.push target Scan.store scan
  unfold target at hroom
  rw [← htail]
  cases hto : s.toTail with
  | true =>
    rw [hto, if_pos rfl] at hroom
    rw [if_pos rfl, checkedSet_natCast hroom]
    refine ⟨_, rfl, ⟨⟨hpos, hh, hroom⟩, rfl⟩, rfl, rfl, ?_⟩
    simp [take_set, hroom]
  | false =>
    rw [hto, if_neg Bool.false_ne_true] at hroom
    rw [if_neg Bool.false_ne_true, checkedSet_natCast hroom]
    refine ⟨_, rfl, ⟨⟨hpos, hroom, ht⟩, rfl⟩, rfl, rfl, ?_⟩
    simp [take_set, hroom]

theorem Inv.compress (h : s.Inv text) (hpos : pos ≤ text.length) : (s.compress pos).Inv text :=
  ⟨⟨hpos, h.head_le, h.tail_le⟩, rfl⟩

theorem Inv.moveTo (h : s.Inv text) (hpos : pos ≤ text.length) : { s with pos }.Inv text :=
  ⟨⟨hpos, h.head_le, h.tail_le⟩, h.toTail_eq⟩

end V6Vars

/-! ### One iteration -/

/-- How `parseV6Loop` goes on after the verdict. -/
def Verdict.resume (text : Text) (fuel : Nat) : Verdict → Option Scan
  | .next s => parseV6Loop fuel (text.drop s.pos) s.scan
  | .leave s => some s.scan
  | .reject _ => none

/-- What an iteration that starts at `pos` does to the variables. -/
structure Verdict.Ok (text : Text) (pos : Nat) (v : Verdict) : Prop where
  inv : v.vars.Inv text
  moves : v = .reject v.vars ∨ pos < v.vars.pos

/-- `parseV6Loop` takes the iteration to the same effect. -/
def Verdict.Spec (text : Text) (pos : Nat) (loop : Nat → Option Scan) (v : Verdict) : Prop :=
  v.Ok text pos ∧ ∀ fuel, loop fuel = v.resume text fuel

theorem readQuad_spec (h : s.Inv text) (hpos : s.pos < text.length) (part : Text) :
    ∃ v, readQuad text s part = some v ∧ v.Spec text s.pos fun _ =>
      (parseV4 part).bind fun embedded =>
        if s.scan.target.length > 6 then none else some (s.scan.store (halves embedded.toV4)) := by
  rw [h.target_eq]
  unfold readQuad
  cases parseV4 part with
  | none => exact ⟨_, rfl, ⟨h, .inl rfl⟩, fun _ => rfl⟩
  | some embedded =>
    by_cases hroom : s.target > 6
    · exact ⟨_, if_pos hroom, ⟨h, .inl rfl⟩, fun _ => if_pos hroom⟩
    · obtain ⟨s₁, h₁, hinv₁, -, htarget, hscan₁⟩ := h.push ((embedded.toV4 >>> 16).setWidth 16) (by omega)
      obtain ⟨s₂, h₂, hinv₂, -, -, hscan₂⟩ :=
        hinv₁.push ((embedded.toV4 &&& 0xFFFF#32).setWidth 16) (by omega)
      have hstore : ({ s₂ with pos := text.length } : V6Vars).scan = s.scan.store (halves embedded.toV4) := by
        show s₂.scan = _
        rw [hscan₂, hscan₁, Scan.store_store]
        rfl
      refine ⟨.leave { s₂ with pos := text.length }, ?_, ⟨hinv₂.moveTo le_rfl, .inr hpos⟩, fun _ => ?_⟩
      · simp only [if_neg hroom, h₁, h₂, bind, Option.bind_some, pure]
      · rw [Option.bind_some, if_neg hroom, Verdict.resume, hstore]

theorem readGroup_spec (h : s.Inv text) (hpos : s.pos < text.length) (part : Text) {colon : Option Nat}
    (hcolon : ∀ k, colon = some k → s.pos ≤ k ∧ k < text.length) :
    ∃ v, readGroup text s part colon = some v ∧ v.Spec text s.pos fun fuel =>
      (parseUint part 16 0xFFFF).bind fun group =>
        if s.scan.target.length ≥ 8 then none
        else
          match colon.map fun k => text.drop (k + 1) with
          | none => some (s.scan.store [BitVec.ofNat 16 group])
          | some [] => none
          | some rest => parseV6Loop fuel rest (s.scan.store [BitVec.ofNat 16 group]) := by
  rw [h.target_eq]
  unfold readGroup
  cases parseUint part 16 0xFFFF with
  | none => exact ⟨_, rfl, ⟨h, .inl rfl⟩, fun _ => rfl⟩
  | some group =>
    by_cases hroom : s.target ≥ 8
    · exact ⟨_, if_pos hroom, ⟨h, .inl rfl⟩, fun _ => if_pos hroom⟩
    · obtain ⟨s₁, h₁, hinv₁, -, -, hscan⟩ := h.push (BitVec.ofNat 16 group) (by omega)
      have hstore : ∀ pos, ({ s₁ with pos } : V6Vars).scan = s.scan.store [BitVec.ofNat 16 group] :=
        fun _ => hscan
      simp only [if_neg hroom, h₁, bind, Option.bind_some, pure]
      cases colon with
      | none =>
        refine ⟨.leave { s₁ with pos := text.length }, rfl, ⟨hinv₁.moveTo le_rfl, .inr hpos⟩, fun _ => ?_⟩
        rw [Verdict.resume, hstore]
        rfl
      | some k =>
        obtain ⟨hle, hlt⟩ := hcolon k rfl
        by_cases hend : k + 1 = text.length
        · refine ⟨.reject { s₁ with pos := k + 1 }, if_pos hend, ⟨hinv₁.moveTo hlt, .inl rfl⟩, fun _ => ?_⟩
          simp only [Option.map_some, hend, List.drop_length]
          rfl
        · refine ⟨.next { s₁ with pos := k + 1 }, if_neg hend,
            ⟨hinv₁.moveTo hlt, .inr (Nat.lt_succ_of_le hle)⟩, fun fuel => ?_⟩
          have hrest := List.drop_eq_getElem_cons (i := k + 1) (l := text) (by omega)
          simp only [Option.map_some, Verdict.resume, hstore, hrest]

theorem iterate_spec (h : s.Inv text) (hpos : s.pos < text.length) :
    ∃ v, iterate text s = some v ∧
      v.Spec text s.pos fun fuel => parseV6Loop (fuel + 1) (text.drop s.pos) s.scan := by
  have hdrop := List.drop_eq_getElem_cons hpos
  have hget : text[s.pos]? = some text[s.pos] := List.getElem?_eq_getElem hpos
  by_cases hc : text[s.pos] = ':'
  · have hloop : ∀ fuel, parseV6Loop (fuel + 1) (text.drop s.pos) s.scan =
        if s.seenCompression then none else parseV6Loop fuel (text.drop (s.pos + 1)) s.scan.compress := by
      intro fuel
      rw [hdrop, hc]
      exact if_pos rfl
    simp only [hloop]
    by_cases hseen : s.seenCompression = true
    · exact ⟨.reject s, by simp [iterate, hget, hc, hseen], ⟨h, .inl rfl⟩, fun fuel => if_pos hseen⟩
    · have hok : (s.compress (s.pos + 1)).Inv text := h.compress hpos
      by_cases hend : s.pos + 1 = text.length
      · refine ⟨.leave (s.compress (s.pos + 1)), by simp [iterate, hget, hc, hseen, hend],
          ⟨hok, .inr (Nat.lt_succ_self _)⟩, fun fuel => ?_⟩
        simp only [if_neg hseen, hend, List.drop_length, parseV6Loop]
        rfl
      · refine ⟨.next (s.compress (s.pos + 1)), by simp [iterate, hget, hc, hseen, hend],
          ⟨hok, .inr (Nat.lt_succ_self _)⟩, fun fuel => if_neg hseen⟩
  · obtain ⟨count, part, hcount, hpart, hat, hfind⟩ := part_spec hpos.le
    have hiter : iterate text s =
        if '.' ∈ part then readQuad text s part else readGroup text s part (find ':' text s.pos) := by
      simp [iterate, hget, hc, hcount, hpart]
    by_cases hdot : '.' ∈ part
    · obtain ⟨v, hv, hok, hresume⟩ := readQuad_spec h hpos part
      refine ⟨v, hiter.trans ((if_pos hdot).trans hv), hok, fun fuel => ?_⟩
      refine Eq.trans ?_ (hresume fuel)
      show parseV6Loop (fuel + 1) (text.drop s.pos) s.scan = _
      rw [hdrop, parseV6Loop, if_neg hc, ← hdrop, hat]
      exact if_pos hdot
    · obtain ⟨v, hv, hok, hresume⟩ := readGroup_spec h hpos part hfind
      refine ⟨v, hiter.trans ((if_neg hdot).trans hv), hok, fun fuel => ?_⟩
      refine Eq.trans ?_ (hresume fuel)
      show parseV6Loop (fuel + 1) (text.drop s.pos) s.scan = _
      rw [hdrop, parseV6Loop, if_neg hc, ← hdrop, hat]
      exact if_neg hdot

/-- The loop ends, within the text and the arrays, where `parseV6Loop` does. -/
theorem loopV6_spec : ∀ (fuel : Nat) {s : V6Vars}, s.Inv text → text.length - s.pos ≤ fuel →
    ∃ r, loopV6 text fuel s = some r ∧ (∀ s', r = some s' → s'.Inv text) ∧
      parseV6Loop fuel (text.drop s.pos) s.scan = r.map V6Vars.scan := by
  intro fuel
  induction fuel with
  | zero =>
    intro s h hf
    have hpos : ¬s.pos < text.length := by omega
    refine ⟨some s, by rw [loopV6, if_neg hpos], fun _ he => Option.some.inj he ▸ h, ?_⟩
    rw [List.drop_of_length_le (Nat.not_lt.mp hpos), parseV6Loop]
    rfl
  | succ fuel ih =>
    intro s h hf
    by_cases hpos : s.pos < text.length
    · obtain ⟨v, hv, ⟨hinv, hmoves⟩, hresume⟩ := iterate_spec h hpos
      have hloop := hresume fuel
      dsimp only at hloop
      simp only [loopV6, if_pos hpos, hv, bind, Option.bind_some, pure, hloop]
      cases v with
      | next s' =>
        have hlt : s.pos < s'.pos := hmoves.resolve_left (by rintro ⟨⟩)
        exact ih hinv (by omega)
      | leave s' => exact ⟨some s', rfl, fun _ he => Option.some.inj he ▸ hinv, rfl⟩
      | reject s' => exact ⟨none, rfl, by rintro _ ⟨⟩, rfl⟩
    · refine ⟨some s, by rw [loopV6, if_neg hpos], fun _ he => Option.some.inj he ▸ h, ?_⟩
      rw [List.drop_of_length_le (Nat.not_lt.mp hpos), parseV6Loop]
      rfl

/-! ### Behind the loop -/

theorem copyGroups_spec (source : Vector (BitVec 16) 8) (offset : Nat) :
    ∀ (left i : Nat) (full : Vector (BitVec 16) 8), i + left ≤ 8 → offset + i + left ≤ 8 →
      ∃ full', copyGroups source offset left i full = some full' ∧
        full'.toList = full.toList.take (offset + i) ++ (source.toList.drop i).take left ++
          full.toList.drop (offset + i + left) := by
  intro left
  induction left with
  | zero =>
    intro i full _ _
    exact ⟨full, rfl, by simp⟩
  | succ left ih =>
    intro i full hi hoff
    have hlt : i < 8 := by omega
    have hget : checkedGet source (i : Int) = some source[i] := checkedGet_natCast hlt
    have hset := checkedSet_natCast (a := full) (i := offset + i) (x := source[i]) (by omega)
    obtain ⟨full', hcopy, hlist⟩ := ih (i + 1) (full.setIfInBounds (offset + i) source[i]) (by omega)
      (by omega)
    refine ⟨full', ?_, ?_⟩
    · rw [copyGroups, hget]
      simp only [bind, Option.bind_some]
      rw [← Int.natCast_add, hset]
      exact hcopy
    · have hsource : source.toList.drop i = source[i] :: source.toList.drop (i + 1) := by
        rw [List.drop_eq_getElem_cons (by simpa using hlt), Vector.getElem_toList]
      rw [hlist, hsource, Vector.toList_setIfInBounds, ← Nat.add_assoc,
        take_set _ (by simp; omega), List.drop_set_of_lt (by omega),
        show offset + i + 1 + left = offset + i + (left + 1) by omega]
      simp

theorem packGroups_spec (full : Vector (BitVec 16) 8) : ∀ (left i : Nat) (words : Vector (BitVec 64) 2),
    i + left = 8 → (∀ k < 2, words[k]? = some ((List.range i).foldl (fun word i =>
      if i / 4 = k then word ||| ((full.toList.getD i 0).setWidth 64 <<< (48 - 16 * (i % 4)))
      else word) 0)) →
    ∃ words', packGroups full left i words = some words' ∧
      ∀ k < 2, words'[k]? = some (Address.packWord full.toList k) := by
  intro left
  induction left with
  | zero =>
    rintro i words rfl hwords
    exact ⟨words, rfl, hwords⟩
  | succ left ih =>
    intro i words hi hwords
    have hlt : i < 8 := by omega
    have hword := hwords (i / 4) (by omega)
    rw [Vector.getElem?_eq_getElem (by omega)] at hword
    have hget : checkedGet full (i : Int) = some full[i] := checkedGet_natCast hlt
    have hfull : full.toList.getD i 0 = full[i] := by simp [hlt]
    have hslot : checkedGet words ((i / 4 : Nat) : Int) = some words[i / 4] := checkedGet_natCast (by omega)
    have hshift : checkedSub 48 (16 * (i % 4)) = some (48 - 16 * (i % 4)) := checkedSub_of_le (by omega)
    have hleft := checkedShiftLeft_of_lt (n := 64) (x := full[i].setWidth 64)
      (k := 48 - 16 * (i % 4)) (by omega)
    have hset := checkedSet_natCast (a := words) (i := i / 4)
      (x := words[i / 4] ||| full[i].setWidth 64 <<< (48 - 16 * (i % 4))) (by omega)
    simp only [packGroups, hget, hslot, hshift, hleft, hset, bind, Option.bind_some]
    refine ih (i + 1) _ (by omega) fun k hk => ?_
    rw [List.range_succ, List.foldl_concat, Vector.getElem?_setIfInBounds, hwords k hk, hfull]
    split
    · next hik =>
      subst hik
      rw [if_pos hk]
      exact congrArg some (congrArg (· ||| _) (Option.some.inj hword))
    · next hik => rfl

/-- The two copies leave the groups, zeros and the groups behind the "::". -/
theorem copies_spec (h : s.Inv text) (hlen : s.head + s.tail ≤ 8) : ∃ full₁ full₂,
    copyGroups s.groups 0 s.head 0 (Vector.replicate 8 0) = some full₁ ∧
    copyGroups s.tailGroups (8 - s.tail) s.tail 0 full₁ = some full₂ ∧
    full₂.toList = expand s.scan.head s.scan.tail := by
  obtain ⟨full₁, h₁, hlist₁⟩ := copyGroups_spec s.groups 0 s.head 0 (Vector.replicate 8 0)
    (by omega) (by omega)
  obtain ⟨full₂, h₂, hlist₂⟩ := copyGroups_spec s.tailGroups (8 - s.tail) s.tail 0 full₁
    (by omega) (by omega)
  have hcast : ((8 - s.tail : Nat) : Int) = 8 - s.tail := by omega
  have hhead : s.scan.head.length = s.head := by simp [V6Vars.scan, h.head_le]
  have htail : s.scan.tail.length = s.tail := by simp [V6Vars.scan, h.tail_le]
  refine ⟨full₁, full₂, h₁, hcast ▸ h₂, ?_⟩
  have hfull₁ : full₁.toList = s.scan.head ++ List.replicate (8 - s.head) 0 := by
    rw [hlist₁, Vector.toList_replicate, List.drop_replicate, Nat.zero_add, Nat.zero_add, List.take_zero]
    rfl
  have hend : full₁.toList.length ≤ 8 - s.tail + 0 + s.tail := by simp; omega
  have hmin : min (8 - s.tail - s.head) (8 - s.head) = 8 - (s.head + s.tail) := by omega
  rw [hlist₂, List.drop_of_length_le hend, List.append_nil, hfull₁, List.drop_zero, Nat.add_zero,
    List.take_append, hhead, List.take_of_length_le (by omega), List.take_replicate, hmin, expand, hhead,
    htail]
  rfl

theorem finishV6_spec (h : s.Inv text) : finishV6 s = some (assemble s.scan) := by
  have hhead : s.scan.head.length = s.head := by simp [V6Vars.scan, h.head_le]
  have htail : s.scan.tail.length = s.tail := by simp [V6Vars.scan, h.tail_le]
  have hseen : s.scan.seenCompression = s.seenCompression := rfl
  unfold finishV6 assemble
  rw [hhead, htail, hseen]
  by_cases hfull : ¬s.seenCompression = true ∧ s.head ≠ 8
  · rw [if_pos hfull, if_pos hfull]
  · rw [if_neg hfull, if_neg hfull]
    by_cases hlen : s.head + s.tail > 8
    · rw [if_pos hlen, if_pos hlen]
    · obtain ⟨full₁, full₂, h₁, h₂, hlist⟩ := copies_spec h (not_lt.mp hlen)
      obtain ⟨words, hpack, hwords⟩ := packGroups_spec full₂ 8 0 (Vector.replicate 2 0) rfl
        fun k hk => by simp [hk]
      rw [hlist] at hwords
      have hpair : words = #v[Address.packWord (expand s.scan.head s.scan.tail) 0,
          Address.packWord (expand s.scan.head s.scan.tail) 1] := by
        refine Vector.ext fun k hk => ?_
        rw [Option.some.inj ((Vector.getElem?_eq_getElem hk).symm.trans (hwords k hk))]
        obtain rfl | rfl : k = 0 ∨ k = 1 := by omega
        · rfl
        · rfl
      rw [if_neg hlen, if_neg hlen]
      simp only [h₁, h₂, hpack, bind, Option.bind_some, pure]
      subst hpair
      rfl

/-! ### The whole text -/

theorem inv_start (text : Text) : (startV6 text).Inv text := by
  unfold startV6
  split
  · next hprefix =>
    have hlen := (List.isPrefixOf_iff_prefix.mp hprefix).length_le
    exact ⟨⟨hlen, Nat.zero_le 8, Nat.zero_le 8⟩, rfl⟩
  · exact ⟨⟨Nat.zero_le _, Nat.zero_le 8, Nat.zero_le 8⟩, rfl⟩

theorem start_colons {u : Text} : startV6 (':' :: ':' :: u) =
    ⟨Vector.replicate 8 0, 0, 0, Vector.replicate 8 0, true, true, 2⟩ := by
  simp [startV6, V6Vars.compress, List.isPrefixOf]

theorem start_other (h : ¬∃ u, text = ':' :: ':' :: u) : startV6 text =
    ⟨Vector.replicate 8 0, 0, 0, Vector.replicate 8 0, false, false, 0⟩ := by
  refine if_neg fun hprefix => h ?_
  obtain ⟨u, hu⟩ := List.isPrefixOf_iff_prefix.mp hprefix
  exact ⟨u, hu.symm⟩

theorem start_spec {fuel : Nat} (hf : text.length ≤ fuel) :
    parseV6Loop fuel (text.drop (startV6 text).pos) (startV6 text).scan = scanV6 text := by
  refine Option.ext fun st => ?_
  by_cases hcolons : ∃ u, text = ':' :: ':' :: u
  · obtain ⟨u, rfl⟩ := hcolons
    rw [scanV6_colons, start_colons]
    have hu : u.length ≤ fuel := by
      simp only [List.length_cons] at hf
      omega
    exact loop_iff hu (Nat.zero_le 8) (Nat.zero_le 8)
  · rw [scanV6_other fun u hu => hcolons ⟨u, hu⟩, start_other hcolons]
    exact loop_iff hf (Nat.zero_le 8) (Nat.zero_le 8)

/-- The indexed parser never leaves its arrays or the text, and computes what `parseV6` does. -/
theorem parseV6Indexed_eq (text : Text) {fuel : Nat} (hf : text.length ≤ fuel) :
    parseV6Indexed fuel text = some (parseV6 text) := by
  obtain ⟨r, hr, hinv, hloop⟩ := loopV6_spec fuel (inv_start text) (by omega)
  rw [start_spec hf] at hloop
  have hempty : (startV6 text).seenCompression = true ∧ (startV6 text).pos = text.length ↔
      text = [':', ':'] := by
    by_cases hcolons : ∃ u, text = ':' :: ':' :: u
    · obtain ⟨u, rfl⟩ := hcolons
      rw [start_colons]
      cases u <;> simp
    · rw [start_other hcolons]
      simp only [Bool.false_eq_true, false_and, false_iff]
      exact fun he => hcolons ⟨[], he⟩
  unfold parseV6Indexed parseV6
  simp only [hempty, hr, hloop, Option.bind_some]
  split
  · rfl
  · cases r with
    | none => rfl
    | some s => exact finishV6_spec (hinv s rfl)

theorem Reached.inv (h : Reached text s) : s.Inv text := by
  induction h with
  | start => exact inv_start text
  | next _ hpos hiter ih =>
    obtain ⟨v, hv, hok, -⟩ := iterate_spec ih hpos
    obtain rfl := Option.some.inj (hv.symm.trans hiter)
    exact hok.inv

/-- Whatever the text is, `parse_v6` ends without an access out of bounds. At the head of its loop the
    position is in the text and neither count is above 8; an iteration keeps this and, unless it rejects
    the text, moves the position on. -/
theorem parse_v6_safe (text : Text) :
    (∀ s, Reached text s → s.Bounded text ∧ (s.pos < text.length →
      ∃ v, iterate text s = some v ∧ v.vars.Bounded text ∧ (v = .reject v.vars ∨ s.pos < v.vars.pos))) ∧
    ∀ fuel ≥ text.length, parseV6Indexed fuel text = some (parseV6 text) := by
  refine ⟨fun s hs => ⟨hs.inv.toBounded, fun hpos => ?_⟩, fun fuel hf => parseV6Indexed_eq text hf⟩
  obtain ⟨v, hv, hok, -⟩ := iterate_spec hs.inv hpos
  exact ⟨v, hv, hok.inv.toBounded, hok.moves⟩

end Text
end RcuFib

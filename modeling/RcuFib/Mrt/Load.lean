import RcuFib.Mrt.Record

/-! Loading the prefixes of an MRT dump (`src/mrt.cpp`: `open_dump`, `load_mrt_prefixes`).

    A dump is the bytes its reader delivers. The loop takes a header and a body off them until they run
    out; what it has after some records is `Summary` of those records. -/

namespace RcuFib.Mrt

/-- `mrt_result`. -/
structure MrtResult where
  prefixes : List (Prefix .ipv4)
  recordsRead : Nat
  recordsSkipped : Nat
  error : String

namespace MrtResult

def ok (result : MrtResult) : Bool := result.error.isEmpty

end MrtResult

def mrtHeaderSize : Nat := 12
def maxRecordSize : Nat := 16 * 1024 * 1024

/-- What opening a file of some path gives to read, `none` if it cannot be opened. -/
structure Files where
  haveZlib : Bool
  fopen : String → Option Bytes
  gzopen : String → Option Bytes

def endsWith (text suffix : String) : Bool := suffix.toList.isSuffixOf text.toList

def openDump (files : Files) (path : String) : Except String Bytes :=
  if endsWith path ".gz" then
    if files.haveZlib then
      match files.gzopen path with
      | none => .error ("cannot open gzip dump: " ++ path)
      | some bytes => .ok bytes
    else
      .error ("this build has no zlib, so it cannot read " ++ path ++
        " directly; decompress it first (gunzip -c dump.gz > dump.mrt)")
  else if endsWith path ".bz2" then
    .error "bzip2 dumps are not read directly; decompress first (bzcat dump.bz2 > dump.mrt)"
  else
    match files.fopen path with
    | none => .error ("cannot open dump: " ++ path)
    | some bytes => .ok bytes

/-- `read_exact`: `size` bytes and the rest, or nothing at the end of the file. -/
def readExact (source : Bytes) (size : Nat) : Option (Bytes × Bytes) :=
  if size ≤ source.length then some (source.take size, source.drop size) else none

/-- The loop of `load_mrt_prefixes`. An `error` is its return inside the loop, `ok` the result it goes
    on with after it; no value at all is a read outside a buffer. -/
def loadLoop (limit : Nat) :
    (fuel : Nat) → Bytes → MrtResult → (seen : List (Prefix .ipv4)) → Option (Except MrtResult MrtResult)
  | 0, _, result, _ => some (.ok result)
  | fuel + 1, source, result, seen =>
    match readExact source mrtHeaderSize with
    | none => some (.ok result)
    | some (header, source) => do
      let type ← readBe16 header 4
      let subtype ← readBe16 header 6
      let length ← readBe32 header 8
      if length.toNat > maxRecordSize then
        return .error { result with
          error := "implausible MRT record length " ++ toString length.toNat ++ " after " ++
            toString result.recordsRead ++ " records" }
      else
        match if length = 0 then some ([], source) else readExact source length.toNat with
        | none => return .ok result
        | some (body, source) => do
          let result := { result with recordsRead := result.recordsRead + 1 }
          match ← decodeBody type subtype body with
          | none =>
            loadLoop limit fuel source { result with recordsSkipped := result.recordsSkipped + 1 } seen
          | some pfx =>
            if pfx ∈ seen then loadLoop limit fuel source result seen
            else
              let result := { result with prefixes := result.prefixes ++ [pfx] }
              if limit ≠ 0 ∧ result.prefixes.length ≥ limit then return .ok result
              else loadLoop limit fuel source result (pfx :: seen)

/-- `load_mrt_prefixes`. -/
def loadMrtPrefixes (files : Files) (path : String) (limit : Nat) : Option MrtResult :=
  match openDump files path with
  | .error error => some ⟨[], 0, 0, error⟩
  | .ok source => do
    match ← loadLoop limit source.length source ⟨[], 0, 0, ""⟩ [] with
    | .error result => return result
    | .ok result =>
      if result.prefixes.isEmpty && result.error.isEmpty then
        return { result with
          error := "no IPv4 RIB entries found in " ++ path ++
            "; is it a TABLE_DUMP_V2 snapshot rather than an updates file?" }
      else return result

/-! ### The layout of a dump -/

def be16 (x : BitVec 16) : Bytes := [x.extractLsb' 8 8, x.extractLsb' 0 8]

def be32 (x : BitVec 32) : Bytes :=
  [x.extractLsb' 24 8, x.extractLsb' 16 8, x.extractLsb' 8 8, x.extractLsb' 0 8]

/-- Timestamp, type, subtype and length of the body. -/
def encodeHeader (r : Record) : Bytes :=
  be32 r.timestamp ++ be16 r.type ++ be16 r.subtype ++ be32 (BitVec.ofNat 32 r.body.length)

def encodeRecord (r : Record) : Bytes := encodeHeader r ++ r.body

def encode (rs : List Record) : Bytes := rs.flatMap encodeRecord

/-- The prefixes announced, each once, in the order of first occurrence. -/
noncomputable def firsts (rs : List Record) : List (Prefix .ipv4) := (rs.filterMap announced).eraseDups

variable {rs done : List Record} {r : Record} {bytes : Bytes} {result : MrtResult} {fuel limit : Nat}
  {seen : List (Prefix .ipv4)}

theorem firsts_snoc : firsts (done ++ [r]) =
    match announced r with
    | none => firsts done
    | some p => if p ∈ firsts done then firsts done else firsts done ++ [p] := by
  unfold firsts
  rw [List.filterMap_append, List.eraseDups_append]
  cases hr : announced r with
  | none => simp [hr]
  | some p =>
    simp only [List.mem_eraseDups]
    split <;> simp_all [List.removeAll, List.eraseDups_cons]

/-- More records leave what was found before in place. -/
theorem firsts_append (done rs : List Record) : firsts done <+: firsts (done ++ rs) := by
  rw [firsts, firsts, List.filterMap_append, List.eraseDups_append]
  exact List.prefix_append _ _

/-! ### Reading a record -/

@[simp] theorem length_be16 (x : BitVec 16) : (be16 x).length = 2 := rfl
@[simp] theorem length_be32 (x : BitVec 32) : (be32 x).length = 4 := rfl

theorem readExact_append (a b : Bytes) : readExact (a ++ b) a.length = some (a, b) := by
  simp [readExact]

theorem join_be16 (x : BitVec 16) :
    ((x.extractLsb' 8 8).setWidth 16 <<< 8) ||| (x.extractLsb' 0 8).setWidth 16 = x := by
  rw [← BitVec.setWidth_append_eq_shiftLeft_setWidth_or,
    BitVec.extractLsb'_append_extractLsb'_eq_extractLsb' (by decide)]
  simp

theorem join_be32 (x : BitVec 32) :
    ((x.extractLsb' 24 8).setWidth 32 <<< 24) ||| ((x.extractLsb' 16 8).setWidth 32 <<< 16) |||
      ((x.extractLsb' 8 8).setWidth 32 <<< 8) ||| (x.extractLsb' 0 8).setWidth 32 = x := by
  have h := @BitVec.setWidth_append_append_append_eq_shiftLeft_setWidth_or 8 8 8 8 32
    (x.extractLsb' 24 8) (x.extractLsb' 16 8) (x.extractLsb' 8 8) (x.extractLsb' 0 8)
  rw [← h, BitVec.extractLsb'_append_extractLsb'_eq_extractLsb' (by decide),
    BitVec.extractLsb'_append_extractLsb'_eq_extractLsb' (by decide),
    BitVec.extractLsb'_append_extractLsb'_eq_extractLsb' (by decide)]
  simp

/-- A number is read back from where it was laid out. -/
theorem readBe16_be16 (a : Bytes) (x : BitVec 16) (b : Bytes) :
    readBe16 (a ++ (be16 x ++ b)) a.length = some x := by
  simp [readBe16, be16, join_be16]

theorem readBe32_be32 (a : Bytes) (x : BitVec 32) (b : Bytes) :
    readBe32 (a ++ (be32 x ++ b)) a.length = some x := by
  simp [readBe32, be32, join_be32]

theorem length_encodeHeader (r : Record) : (encodeHeader r).length = mrtHeaderSize := rfl

theorem readBe16_type (r : Record) : readBe16 (encodeHeader r) 4 = some r.type := by
  have := readBe16_be16 (be32 r.timestamp) r.type (be16 r.subtype ++ be32 (BitVec.ofNat 32 r.body.length))
  simpa [encodeHeader] using this

theorem readBe16_subtype (r : Record) : readBe16 (encodeHeader r) 6 = some r.subtype := by
  have := readBe16_be16 (be32 r.timestamp ++ be16 r.type) r.subtype (be32 (BitVec.ofNat 32 r.body.length))
  simpa [encodeHeader] using this

theorem readBe32_length (r : Record) :
    readBe32 (encodeHeader r) 8 = some (BitVec.ofNat 32 r.body.length) := by
  have := readBe32_be32 (be32 r.timestamp ++ be16 r.type ++ be16 r.subtype)
    (BitVec.ofNat 32 r.body.length) []
  simpa [encodeHeader] using this

/-- What a pass makes of a record that is complete. -/
def afterRecord (limit fuel : Nat) (rest : Bytes) (result : MrtResult) (seen : List (Prefix .ipv4)) :
    Option (Prefix .ipv4) → Option (Except MrtResult MrtResult)
  | none =>
    loadLoop limit fuel rest
      { result with recordsRead := result.recordsRead + 1, recordsSkipped := result.recordsSkipped + 1 } seen
  | some p =>
    if p ∈ seen then
      loadLoop limit fuel rest { result with recordsRead := result.recordsRead + 1 } seen
    else
      let result :=
        { result with recordsRead := result.recordsRead + 1, prefixes := result.prefixes ++ [p] }
      if limit ≠ 0 ∧ result.prefixes.length ≥ limit then some (.ok result)
      else loadLoop limit fuel rest result (p :: seen)

theorem loadLoop_record (rest : Bytes) : loadLoop limit (fuel + 1) (encodeRecord r ++ rest) result seen =
    afterRecord limit fuel rest result seen (announced r) := by
  have hlen : (BitVec.ofNat 32 r.body.length).toNat = r.body.length := by
    have := r.size
    rw [BitVec.toNat_ofNat]
    omega
  have hbody : (if BitVec.ofNat 32 r.body.length = 0 then some ([], r.body ++ rest)
      else readExact (r.body ++ rest) r.body.length) = some (r.body, rest) := by
    split
    · next h0 =>
      have hnil : r.body = [] := List.length_eq_zero_iff.mp (by rw [← hlen, h0]; rfl)
      rw [hnil, List.nil_append]
    · exact readExact_append r.body rest
  have hheader : readExact (encodeHeader r ++ (r.body ++ rest)) mrtHeaderSize =
      some (encodeHeader r, r.body ++ rest) := readExact_append (encodeHeader r) _
  rw [encodeRecord, List.append_assoc, loadLoop, hheader]
  simp only [readBe16_type, readBe16_subtype, readBe32_length, Option.bind_eq_bind, Option.bind_some, hlen,
    if_neg (show ¬r.body.length > maxRecordSize from Nat.not_lt.mpr r.size), hbody, decodeBody_spec]
  cases announced r <;> rfl

/-! ### A whole dump -/

/-- What the loop has after the records `done` if it did not stop at the limit. -/
structure Summary (done : List Record) (result : MrtResult) : Prop where
  prefixes : result.prefixes = firsts done
  recordsRead : result.recordsRead = done.length
  recordsSkipped : result.recordsSkipped = done.countP fun r => !ribEntry r
  error : result.error = ""

/-- What the loop has at the end, with the limit. -/
structure Loaded (limit : Nat) (rs : List Record) (result : MrtResult) : Prop where
  prefixes : result.prefixes = if limit = 0 then firsts rs else (firsts rs).take limit
  counts : limit = 0 → result.recordsRead = rs.length ∧
    result.recordsSkipped = rs.countP fun r => !ribEntry r
  error : result.error = ""

theorem Summary.loaded (h : Summary done result) (hlimit : limit = 0 ∨ (firsts done).length ≤ limit) :
    Loaded limit done result := by
  refine ⟨?_, fun _ => ⟨h.recordsRead, h.recordsSkipped⟩, h.error⟩
  rw [h.prefixes]
  split
  · rfl
  · next h0 => rw [List.take_of_length_le (hlimit.resolve_left h0)]

/-- The loop stops when it has as many prefixes as were asked for. -/
theorem Summary.stopped (h : Summary done result) (h0 : limit ≠ 0) (hlen : (firsts done).length = limit) :
    Loaded limit (done ++ rs) result := by
  refine ⟨?_, fun hz => absurd hz h0, h.error⟩
  rw [if_neg h0, h.prefixes, ← hlen]
  exact List.prefix_iff_eq_take.mp (firsts_append done rs)

theorem loadLoop_nil : loadLoop limit fuel [] result seen = some (.ok result) := by
  cases fuel <;> rfl

/-- A record more. -/
theorem Summary.snoc (h : Summary done result) {result' : MrtResult}
    (hp : result'.prefixes = firsts (done ++ [r])) (hread : result'.recordsRead = result.recordsRead + 1)
    (hskip : result'.recordsSkipped = result.recordsSkipped + if !ribEntry r then 1 else 0)
    (herr : result'.error = result.error) : Summary (done ++ [r]) result' := by
  refine ⟨hp, ?_, ?_, herr.trans h.error⟩
  · rw [hread, h.recordsRead, List.length_append, List.length_singleton]
  · rw [hskip, h.recordsSkipped, List.countP_append, List.countP_singleton]

/-- A record that announces nothing new. -/
theorem Summary.skip (h : Summary done result) (hr : announced r = none) :
    firsts (done ++ [r]) = firsts done ∧ Summary (done ++ [r])
      { result with recordsRead := result.recordsRead + 1, recordsSkipped := result.recordsSkipped + 1 } := by
  have hfirsts : firsts (done ++ [r]) = firsts done := by rw [firsts_snoc, hr]
  exact ⟨hfirsts, h.snoc (by rw [hfirsts, h.prefixes]) rfl (by simp [← isSome_announced, hr]) rfl⟩

theorem Summary.again (h : Summary done result) {p : Prefix .ipv4} (hr : announced r = some p)
    (hp : p ∈ firsts done) : firsts (done ++ [r]) = firsts done ∧
      Summary (done ++ [r]) { result with recordsRead := result.recordsRead + 1 } := by
  have hfirsts : firsts (done ++ [r]) = firsts done := by rw [firsts_snoc, hr]; exact if_pos hp
  exact ⟨hfirsts, h.snoc (by rw [hfirsts, h.prefixes]) rfl (by simp [← isSome_announced, hr]) rfl⟩

theorem Summary.found (h : Summary done result) {p : Prefix .ipv4} (hr : announced r = some p)
    (hp : p ∉ firsts done) : firsts (done ++ [r]) = firsts done ++ [p] ∧
      Summary (done ++ [r])
        { result with recordsRead := result.recordsRead + 1, prefixes := result.prefixes ++ [p] } := by
  have hfirsts : firsts (done ++ [r]) = firsts done ++ [p] := by rw [firsts_snoc, hr]; exact if_neg hp
  exact ⟨hfirsts, h.snoc (by rw [hfirsts, h.prefixes]) rfl (by simp [← isSome_announced, hr]) rfl⟩

/-- One record: the loop stops with it, where it has as many prefixes as were asked for, or goes on
    behind it. -/
theorem loadLoop_one {rest : Bytes} (hfuel : (encodeRecord r ++ rest).length ≤ fuel)
    (hdone : Summary done result) (hlimit : limit = 0 ∨ (firsts done).length < limit)
    (hseen : ∀ p, p ∈ seen ↔ p ∈ firsts done) :
    (∃ result', loadLoop limit fuel (encodeRecord r ++ rest) result seen = some (.ok result') ∧
      limit ≠ 0 ∧ (firsts (done ++ [r])).length = limit ∧ Summary (done ++ [r]) result') ∨
    ∃ fuel' result' seen', loadLoop limit fuel (encodeRecord r ++ rest) result seen =
        loadLoop limit fuel' rest result' seen' ∧ rest.length ≤ fuel' ∧
      Summary (done ++ [r]) result' ∧ (limit = 0 ∨ (firsts (done ++ [r])).length < limit) ∧
      ∀ p, p ∈ seen' ↔ p ∈ firsts (done ++ [r]) := by
  have hlong : 0 < (encodeRecord r).length := by
    simp [encodeRecord, length_encodeHeader, mrtHeaderSize]
  rw [List.length_append] at hfuel
  obtain ⟨fuel, rfl⟩ := Nat.exists_eq_add_of_le' (show 1 ≤ fuel by omega)
  rw [loadLoop_record]
  cases hr : announced r with
  | none =>
    obtain ⟨hfirsts, hsum⟩ := hdone.skip hr
    exact .inr ⟨fuel, _, seen, rfl, by omega, hsum, by rwa [hfirsts], by rwa [hfirsts]⟩
  | some p =>
    rw [afterRecord]
    by_cases hp : p ∈ seen
    · obtain ⟨hfirsts, hsum⟩ := hdone.again hr ((hseen p).mp hp)
      rw [if_pos hp]
      exact .inr ⟨fuel, _, seen, rfl, by omega, hsum, by rwa [hfirsts], by rwa [hfirsts]⟩
    · obtain ⟨hfirsts, hsum⟩ := hdone.found hr fun h => hp ((hseen p).mpr h)
      have hcount : (firsts (done ++ [r])).length = (firsts done).length + 1 := by
        rw [hfirsts, List.length_append, List.length_singleton]
      rw [if_neg hp]
      dsimp only
      rw [hdone.prefixes, ← hfirsts]
      rw [hdone.prefixes, ← hfirsts] at hsum
      split
      · next hstop =>
        exact .inl ⟨_, rfl, hstop.1, by have := hlimit.resolve_left hstop.1; omega, hsum⟩
      · next hgo =>
        refine .inr ⟨fuel, _, p :: seen, rfl, by omega, hsum, by omega, fun q => ?_⟩
        rw [hfirsts, List.mem_cons, List.mem_append, List.mem_singleton, hseen, or_comm]

/-- The loop on what is left of a dump of records. -/
theorem loadLoop_encode (limit : Nat) (hfuel : (encode rs).length ≤ fuel) (hdone : Summary done result)
    (hlimit : limit = 0 ∨ (firsts done).length < limit) (hseen : ∀ p, p ∈ seen ↔ p ∈ firsts done) :
    ∃ result', loadLoop limit fuel (encode rs) result seen = some (.ok result') ∧
      Loaded limit (done ++ rs) result' := by
  induction rs generalizing done result seen fuel with
  | nil =>
    refine ⟨result, loadLoop_nil, ?_⟩
    rw [List.append_nil]
    exact hdone.loaded (hlimit.imp id le_of_lt)
  | cons r rs ih =>
    have hencode : encode (r :: rs) = encodeRecord r ++ encode rs := rfl
    rw [hencode] at hfuel ⊢
    rw [List.append_cons]
    obtain ⟨result', hloop, h0, hlen, hsum⟩ | ⟨fuel', result', seen', hloop, hfuel', hsum, hlimit', hseen'⟩ :=
      loadLoop_one hfuel hdone hlimit hseen
    · exact ⟨result', hloop, hsum.stopped h0 hlen⟩
    · rw [hloop]
      exact ih hfuel' hsum hlimit' hseen'

/-! ### Arbitrary bytes -/

theorem readBe16_some {p : Bytes} {i : Nat} (h : i + 1 < p.length) : ∃ x, readBe16 p i = some x := by
  simp [readBe16, List.getElem?_eq_getElem h, List.getElem?_eq_getElem (show i < p.length by omega)]

theorem readBe32_some {p : Bytes} {i : Nat} (h : i + 3 < p.length) : ∃ x, readBe32 p i = some x := by
  simp [readBe32, List.getElem?_eq_getElem h, List.getElem?_eq_getElem (show i < p.length by omega),
    List.getElem?_eq_getElem (show i + 1 < p.length by omega),
    List.getElem?_eq_getElem (show i + 2 < p.length by omega)]

theorem readExact_length {source a b : Bytes} {n : Nat} (h : readExact source n = some (a, b)) :
    a.length = n := by
  unfold readExact at h
  split at h
  · cases h
    simpa
  · cases h

theorem readExact_rest {source a b : Bytes} {n : Nat} (h : readExact source n = some (a, b)) :
    b.length + n = source.length := by
  unfold readExact at h
  split at h
  · cases h
    simp
    omega
  · cases h

/-- No pass of the loop reads outside the header or the body. -/
theorem loadLoop_some (limit fuel : Nat) (source : Bytes) (result : MrtResult) (seen : List (Prefix .ipv4)) :
    ∃ exit, loadLoop limit fuel source result seen = some exit := by
  induction fuel generalizing source result seen with
  | zero => exact ⟨_, rfl⟩
  | succ fuel ih =>
    rw [loadLoop]
    cases hheader : readExact source mrtHeaderSize with
    | none => exact ⟨_, rfl⟩
    | some p =>
      obtain ⟨header, rest⟩ := p
      have hlen : header.length = 12 := readExact_length hheader
      obtain ⟨type, htype⟩ := readBe16_some (show 4 + 1 < header.length by omega)
      obtain ⟨subtype, hsubtype⟩ := readBe16_some (show 6 + 1 < header.length by omega)
      obtain ⟨length, hlength⟩ := readBe32_some (show 8 + 3 < header.length by omega)
      simp only [htype, hsubtype, hlength, Option.bind_eq_bind, Option.bind_some]
      split
      · exact ⟨_, rfl⟩
      · next hmax =>
        cases hbody : (if length = 0 then some ([], rest) else readExact rest length.toNat) with
        | none => exact ⟨_, rfl⟩
        | some p =>
          obtain ⟨body, rest'⟩ := p
          have hsize : body.length ≤ maxRecordSize := by
            split at hbody
            · cases hbody
              exact Nat.zero_le _
            · rw [readExact_length hbody]
              exact Nat.not_lt.mp hmax
          have hdecode := decodeBody_spec ⟨0, type, subtype, body, hsize⟩
          simp only at hdecode ⊢
          rw [hdecode, Option.bind_some]
          cases announced ⟨0, type, subtype, body, hsize⟩ with
          | none => exact ih _ _ _
          | some p =>
            dsimp only
            split
            · exact ih _ _ _
            · split
              · exact ⟨_, rfl⟩
              · exact ih _ _ _

/-- Fuel for every byte is enough: every pass takes a header. -/
theorem loadLoop_fuel {source : Bytes} (h : source.length ≤ fuel) (k : Nat) :
    loadLoop limit (fuel + k) source result seen = loadLoop limit fuel source result seen := by
  induction fuel generalizing source result seen with
  | zero =>
    obtain rfl := List.length_eq_zero_iff.mp (Nat.le_zero.mp h)
    rw [loadLoop_nil, loadLoop_nil]
  | succ fuel ih =>
    rw [Nat.add_right_comm, loadLoop, loadLoop]
    cases hheader : readExact source mrtHeaderSize with
    | none => rfl
    | some p =>
      obtain ⟨header, rest⟩ := p
      have hrest : rest.length ≤ fuel := by
        have := readExact_rest hheader
        have : mrtHeaderSize = 12 := rfl
        omega
      dsimp only
      refine Option.bind_congr fun type _ => Option.bind_congr fun subtype _ =>
        Option.bind_congr fun length _ => ?_
      by_cases hmax : length.toNat > maxRecordSize
      · rw [if_pos hmax, if_pos hmax]
      · rw [if_neg hmax, if_neg hmax]
        cases hbody : (if length = 0 then some ([], rest) else readExact rest length.toNat) with
        | none => rfl
        | some p =>
          obtain ⟨body, rest'⟩ := p
          have hrest' : rest'.length ≤ fuel := by
            split at hbody
            · cases hbody
              exact hrest
            · have := readExact_rest hbody
              omega
          dsimp only
          refine Option.bind_congr fun decoded _ => ?_
          cases decoded with
          | none => exact ih hrest'
          | some p =>
            dsimp only
            split
            · exact ih hrest'
            · split
              · rfl
              · exact ih hrest'

/-- Whatever a dump consists of, it is loaded without a read outside a header or a body. -/
theorem loadMrtPrefixes_some (files : Files) (path : String) (limit : Nat) :
    ∃ result, loadMrtPrefixes files path limit = some result := by
  unfold loadMrtPrefixes
  cases openDump files path with
  | error error => exact ⟨_, rfl⟩
  | ok source =>
    obtain ⟨exit, hexit⟩ := loadLoop_some limit source.length source ⟨[], 0, 0, ""⟩ []
    simp only [hexit, Option.bind_eq_bind, Option.bind_some]
    cases exit with
    | error result => exact ⟨_, rfl⟩
    | ok result =>
      dsimp only
      split
      · exact ⟨_, rfl⟩
      · exact ⟨_, rfl⟩

theorem summary_nil : Summary [] ⟨[], 0, 0, ""⟩ := ⟨rfl, rfl, rfl, rfl⟩

/-- The result of loading a dump of records. -/
theorem loadMrtPrefixes_encode {files : Files} {path : String}
    (hopen : openDump files path = .ok (encode rs)) (limit : Nat) :
    ∃ result, loadMrtPrefixes files path limit = some result ∧
      result.prefixes = (if limit = 0 then firsts rs else (firsts rs).take limit) ∧
      (limit = 0 → result.recordsRead = rs.length ∧
        result.recordsSkipped = rs.countP fun r => !ribEntry r) := by
  have hseen : ∀ p, p ∈ ([] : List (Prefix .ipv4)) ↔ p ∈ firsts [] := fun p => Iff.rfl
  obtain ⟨result, hresult, hloaded⟩ := loadLoop_encode limit (le_refl (encode rs).length)
    summary_nil (Nat.eq_zero_or_pos limit) hseen
  rw [List.nil_append] at hloaded
  unfold loadMrtPrefixes
  simp only [hopen, Option.bind_eq_bind]
  rw [hresult, Option.bind_some]
  dsimp only
  cases result.prefixes.isEmpty && result.error.isEmpty with
  | true => exact ⟨_, rfl, hloaded.prefixes, hloaded.counts⟩
  | false => exact ⟨_, rfl, hloaded.prefixes, hloaded.counts⟩

/-- Decoding inverts encoding, with and without a limit, and arbitrary bytes are read within bounds. -/
theorem mrt_decoding :
    (∀ (files : Files) (path : String) (rs : List Record), openDump files path = .ok (encode rs) →
      (∃ result, loadMrtPrefixes files path 0 = some result ∧ result.recordsRead = rs.length ∧
        result.recordsSkipped = (rs.countP fun r => !ribEntry r) ∧
        result.prefixes = (rs.filterMap announced).eraseDups) ∧
      ∀ limit > 0, ∃ result, loadMrtPrefixes files path limit = some result ∧
        result.prefixes = (rs.filterMap announced).eraseDups.take limit) ∧
    ∀ (files : Files) (path : String) (limit : Nat), ∃ result, loadMrtPrefixes files path limit = some result := by
  refine ⟨fun files path rs hopen => ⟨?_, fun limit hpos => ?_⟩, loadMrtPrefixes_some⟩
  · obtain ⟨result, hresult, hprefixes, hcounts⟩ := loadMrtPrefixes_encode hopen 0
    obtain ⟨hread, hskipped⟩ := hcounts rfl
    exact ⟨result, hresult, hread, hskipped, hprefixes⟩
  · obtain ⟨result, hresult, hprefixes, -⟩ := loadMrtPrefixes_encode hopen limit
    rw [if_neg (Nat.ne_of_gt hpos)] at hprefixes
    exact ⟨result, hresult, hprefixes⟩

/-- A record for 10.0.0.0/8 and one of another type. -/
def sampleDump : List Record :=
  [⟨0, 13, 2, [0, 0, 0, 0, 8, 10], by decide⟩, ⟨0, 16, 4, [], by decide⟩]

theorem mrt_decoding_sample :
    ∃ result, loadMrtPrefixes ⟨false, fun _ => some (encode sampleDump), fun _ => none⟩ "dump" 0 = some result ∧
      result.recordsRead = 2 ∧ result.recordsSkipped = 1 := by
  obtain ⟨result, hresult, hread, hskipped, -⟩ :=
    (mrt_decoding.1 ⟨false, fun _ => some (encode sampleDump), fun _ => none⟩ "dump" sampleDump (by rfl)).1
  exact ⟨result, hresult, hread, hskipped.trans (by decide)⟩

end RcuFib.Mrt

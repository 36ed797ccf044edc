import RcuFib.Mrt.Load

/-! What becomes of a dump that ends in the middle of a record.

    Any bytes are complete records followed by nothing, by a record that is cut short, or by a header
    that announces too much. The loop sees to the records and then leaves; only the third of the three
    leaves an error behind, so a dump that is cut short counts as loaded as soon as it has yielded a
    prefix. -/

namespace RcuFib.Mrt

/-- Complete records: each a header and as many bytes as it announces. -/
inductive Complete : Bytes → Prop
  | nil : Complete []
  | record {header body rest : Bytes} {length : BitVec 32} : header.length = mrtHeaderSize →
      readBe32 header 8 = some length → body.length = length.toNat → Complete rest →
        Complete (header ++ (body ++ rest))

/-- A header, with the length it announces. -/
def Announced (rest : Bytes) (length : BitVec 32) : Prop :=
  mrtHeaderSize ≤ rest.length ∧ readBe32 rest 8 = some length

/-- The bytes end in a header, or in a body of a plausible length. -/
def Cut (rest : Bytes) : Prop :=
  rest ≠ [] ∧ (rest.length < mrtHeaderSize ∨ ∃ length, Announced rest length ∧
    length.toNat ≤ maxRecordSize ∧ rest.length < mrtHeaderSize + length.toNat)

/-- A header announces more than any record has. -/
def Oversized (rest : Bytes) : Prop := ∃ length, Announced rest length ∧ maxRecordSize < length.toNat

variable {rs done : List Record} {r : Record} {bytes rest header : Bytes} {result : MrtResult}
  {fuel : Nat} {seen : List (Prefix .ipv4)} {length : BitVec 32} {files : Files} {path : String}

/-! ### The bytes of a header -/

theorem be16_join (b₀ b₁ : BitVec 8) :
    be16 ((b₀.setWidth 16 <<< 8) ||| b₁.setWidth 16) = [b₀, b₁] := by
  rw [← BitVec.setWidth_append_eq_shiftLeft_setWidth_or, BitVec.setWidth_eq, be16,
    BitVec.extractLsb'_append_eq_left, BitVec.extractLsb'_append_eq_right]

theorem be32_join (b₀ b₁ b₂ b₃ : BitVec 8) :
    be32 ((b₀.setWidth 32 <<< 24) ||| (b₁.setWidth 32 <<< 16) ||| (b₂.setWidth 32 <<< 8) |||
      b₃.setWidth 32) = [b₀, b₁, b₂, b₃] := by
  have h := @BitVec.setWidth_append_append_append_eq_shiftLeft_setWidth_or 8 8 8 8 32 b₀ b₁ b₂ b₃
  have h₀ : (b₀ ++ b₁ ++ b₂ ++ b₃).extractLsb' 24 8 = b₀ := by
    rw [BitVec.extractLsb'_append_eq_of_le (by decide), BitVec.extractLsb'_append_eq_of_le (by decide),
      BitVec.extractLsb'_append_eq_left]
  have h₁ : (b₀ ++ b₁ ++ b₂ ++ b₃).extractLsb' 16 8 = b₁ := by
    rw [BitVec.extractLsb'_append_eq_of_le (by decide), BitVec.extractLsb'_append_eq_of_le (by decide),
      BitVec.extractLsb'_append_eq_right]
  have h₂ : (b₀ ++ b₁ ++ b₂ ++ b₃).extractLsb' 8 8 = b₂ := by
    rw [BitVec.extractLsb'_append_eq_of_le (by decide), BitVec.extractLsb'_append_eq_right]
  rw [← h, BitVec.setWidth_eq, be32, h₀, h₁, h₂, BitVec.extractLsb'_append_eq_right]

/-- A number that has been read is laid out as it was found. -/
theorem be16_readBe16 {p : Bytes} {i : Nat} {x : BitVec 16} (h : readBe16 p i = some x) :
    be16 x = (p.drop i).take 2 := by
  unfold readBe16 at h
  simp only [Option.bind_eq_bind, Option.bind_eq_some_iff] at h
  obtain ⟨b₀, h₀, b₁, h₁, ⟨⟩⟩ := h
  rw [be16_join, List.take_add_one, List.take_add_one]
  simp [h₀, h₁]

theorem be32_readBe32 {p : Bytes} {i : Nat} {x : BitVec 32} (h : readBe32 p i = some x) :
    be32 x = (p.drop i).take 4 := by
  unfold readBe32 at h
  simp only [Option.bind_eq_bind, Option.bind_eq_some_iff] at h
  obtain ⟨b₀, h₀, b₁, h₁, b₂, h₂, b₃, h₃, ⟨⟩⟩ := h
  rw [be32_join, List.take_add_one, List.take_add_one, List.take_add_one, List.take_add_one]
  simp [h₀, h₁, h₂, h₃]

/-- A header and the body it announces are a record. -/
theorem exists_record (hlen : mrtHeaderSize ≤ bytes.length) (hlength : readBe32 bytes 8 = some length)
    (hmax : length.toNat ≤ maxRecordSize) (henough : mrtHeaderSize + length.toNat ≤ bytes.length) :
    ∃ r : Record, bytes = encodeRecord r ++ bytes.drop (mrtHeaderSize + length.toNat) := by
  have hlen : 12 ≤ bytes.length := hlen
  obtain ⟨timestamp, h₀⟩ := readBe32_some (show 0 + 3 < bytes.length by omega)
  obtain ⟨type, h₄⟩ := readBe16_some (show 4 + 1 < bytes.length by omega)
  obtain ⟨subtype, h₆⟩ := readBe16_some (show 6 + 1 < bytes.length by omega)
  have hbody : ((bytes.drop 12).take length.toNat).length = length.toNat := by
    have henough : 12 + length.toNat ≤ bytes.length := henough
    rw [List.length_take, List.length_drop]
    omega
  refine ⟨⟨timestamp, type, subtype, (bytes.drop 12).take length.toNat, hbody.trans_le hmax⟩, ?_⟩
  rw [encodeRecord, encodeHeader]
  simp only [hbody, BitVec.ofNat_toNat, BitVec.setWidth_eq]
  rw [be32_readBe32 h₀, be16_readBe16 h₄, be16_readBe16 h₆, be32_readBe32 hlength]
  have hglue : ∀ i n, (bytes.drop i).take n ++ bytes.drop (i + n) = bytes.drop i := by
    intro i n
    rw [← List.drop_drop, List.take_append_drop]
  calc bytes = bytes.drop 0 := rfl
    _ = (bytes.drop 0).take 4 ++ ((bytes.drop 4).take 2 ++ ((bytes.drop 6).take 2 ++
          ((bytes.drop 8).take 4 ++ ((bytes.drop 12).take length.toNat ++
            bytes.drop (12 + length.toNat))))) := by
        rw [hglue 12, hglue 8, hglue 6, hglue 4, hglue 0]
    _ = _ := by simp only [List.append_assoc, mrtHeaderSize]

/-- Whatever the bytes are, they are complete records and one of three things after them. -/
theorem exists_records (bytes : Bytes) : ∃ rs rest, bytes = encode rs ++ rest ∧
    (rest = [] ∨ Cut rest ∨ Oversized rest) := by
  induction hn : bytes.length using Nat.strong_induction_on generalizing bytes with
  | _ n ih =>
  by_cases hnil : bytes = []
  · exact ⟨[], bytes, rfl, .inl hnil⟩
  by_cases hshort : bytes.length < mrtHeaderSize
  · exact ⟨[], bytes, rfl, .inr (.inl ⟨hnil, .inl hshort⟩)⟩
  have hlen : 12 ≤ bytes.length := Nat.not_lt.mp hshort
  obtain ⟨length, hlength⟩ := readBe32_some (show 8 + 3 < bytes.length by omega)
  have hannounced : Announced bytes length := ⟨hlen, hlength⟩
  by_cases hmax : length.toNat ≤ maxRecordSize
  · by_cases henough : mrtHeaderSize + length.toNat ≤ bytes.length
    · obtain ⟨r, hr⟩ := exists_record hlen hlength hmax henough
      have hless : (bytes.drop (mrtHeaderSize + length.toNat)).length < n := by
        have : mrtHeaderSize = 12 := rfl
        rw [List.length_drop]
        omega
      obtain ⟨rs, rest, hrest, hend⟩ := ih _ hless _ rfl
      refine ⟨r :: rs, rest, ?_, hend⟩
      rw [hr, hrest]
      exact (List.append_assoc ..).symm
    · exact ⟨[], bytes, rfl, .inr (.inl ⟨hnil, .inr ⟨length, hannounced, hmax, Nat.not_le.mp henough⟩⟩)⟩
  · exact ⟨[], bytes, rfl, .inr (.inr ⟨length, hannounced, Nat.not_le.mp hmax⟩)⟩

/-! ### Completeness -/

theorem readBe32_append {a b : Bytes} {i : Nat} (h : i + 3 < a.length) :
    readBe32 (a ++ b) i = readBe32 a i := by
  unfold readBe32
  rw [List.getElem?_append_left (by omega), List.getElem?_append_left (by omega),
    List.getElem?_append_left (by omega), List.getElem?_append_left h]

theorem complete_encode (rs : List Record) : Complete (encode rs) := by
  induction rs with
  | nil => exact .nil
  | cons r rs ih =>
    have hbody : r.body.length = (BitVec.ofNat 32 r.body.length).toNat := by
      have := r.size
      rw [BitVec.toNat_ofNat]
      omega
    have h := Complete.record (length_encodeHeader r) (readBe32_length r) hbody ih
    rwa [← List.append_assoc] at h

/-- Complete bytes announce a length that is there. -/
theorem Complete.enough (h : Complete bytes) (hne : bytes ≠ []) :
    ∃ length, Announced bytes length ∧ mrtHeaderSize + length.toNat ≤ bytes.length ∧
      Complete (bytes.drop (mrtHeaderSize + length.toNat)) := by
  cases h with
  | nil => exact absurd rfl hne
  | @record header body rest length hheader hlength hbody hrest =>
    refine ⟨length, ⟨?_, ?_⟩, ?_, ?_⟩
    · rw [List.length_append]
      omega
    · rwa [readBe32_append (by rw [hheader]; decide)]
    · rw [List.length_append, List.length_append]
      omega
    · rwa [← hheader, ← hbody, ← List.append_assoc, ← List.length_append, List.drop_left]

/-- Past a record complete bytes are complete. -/
theorem Complete.tail (h : Complete (encodeRecord r ++ rest)) : Complete rest := by
  have hsize : (BitVec.ofNat 32 r.body.length).toNat = r.body.length := by
    have := r.size
    rw [BitVec.toNat_ofNat]
    omega
  have hread : readBe32 (encodeRecord r ++ rest) 8 = some (BitVec.ofNat 32 r.body.length) := by
    rw [encodeRecord, List.append_assoc, readBe32_append (by rw [length_encodeHeader]; decide),
      readBe32_length]
  have hne : encodeRecord r ++ rest ≠ [] := by
    intro hnil
    rw [hnil] at hread
    cases hread
  obtain ⟨length, ⟨-, hlength⟩, -, hrest⟩ := h.enough hne
  obtain rfl := Option.some.inj (hread.symm.trans hlength)
  have hlen : (encodeRecord r).length = mrtHeaderSize + r.body.length := List.length_append
  rwa [hsize, ← hlen, List.drop_left] at hrest

theorem Cut.not_complete (hcut : Cut rest) : ¬Complete (encode rs ++ rest) := by
  induction rs with
  | nil =>
    intro h
    obtain ⟨length, hannounced, henough, -⟩ := Complete.enough h hcut.1
    rcases hcut.2 with hshort | ⟨length', hannounced', -, hshort⟩
    · exact absurd hannounced.1 (Nat.not_le.mpr hshort)
    · obtain rfl := Option.some.inj (hannounced.2.symm.trans hannounced'.2)
      exact absurd henough (Nat.not_le.mpr hshort)
  | cons r rs ih =>
    intro h
    have hcons : encode (r :: rs) ++ rest = encodeRecord r ++ (encode rs ++ rest) :=
      List.append_assoc ..
    rw [hcons] at h
    exact ih h.tail

/-! ### Where the loop leaves -/

/-- Without a limit the loop goes through the records it starts with. -/
theorem loadLoop_leading (hfuel : (encode rs ++ rest).length ≤ fuel) (hdone : Summary done result)
    (hseen : ∀ p, p ∈ seen ↔ p ∈ firsts done) :
    ∃ fuel' result' seen', loadLoop 0 fuel (encode rs ++ rest) result seen =
      loadLoop 0 fuel' rest result' seen' ∧ rest.length ≤ fuel' ∧ Summary (done ++ rs) result' := by
  induction rs generalizing done result seen fuel with
  | nil => exact ⟨fuel, result, seen, rfl, hfuel, by rwa [List.append_nil]⟩
  | cons r rs ih =>
    have hencode : encode (r :: rs) ++ rest = encodeRecord r ++ (encode rs ++ rest) :=
      List.append_assoc ..
    rw [hencode] at hfuel ⊢
    rw [List.append_cons]
    obtain ⟨_, _, h0, _⟩ | ⟨fuel', result', seen', hloop, hfuel', hsum, -, hseen'⟩ :=
      loadLoop_one hfuel hdone (.inl rfl) hseen
    · exact absurd rfl h0
    · rw [hloop]
      exact ih hfuel' hsum hseen'

/-- What the loop reads of a header that is there. -/
theorem Announced.read (h : Announced rest length) : ∃ header type subtype,
    readExact rest mrtHeaderSize = some (header, rest.drop mrtHeaderSize) ∧
      readBe16 header 4 = some type ∧ readBe16 header 6 = some subtype ∧
        readBe32 header 8 = some length := by
  obtain ⟨hlen, hlength⟩ := h
  have htake : (rest.take mrtHeaderSize).length = 12 := List.length_take_of_le hlen
  obtain ⟨type, htype⟩ := readBe16_some (show 4 + 1 < (rest.take mrtHeaderSize).length by omega)
  obtain ⟨subtype, hsubtype⟩ := readBe16_some (show 6 + 1 < (rest.take mrtHeaderSize).length by omega)
  refine ⟨_, type, subtype, if_pos hlen, htype, hsubtype, ?_⟩
  rwa [← List.take_append_drop mrtHeaderSize rest, readBe32_append (by omega)] at hlength

/-- The end of a dump that is cut short looks like any other. -/
theorem loadLoop_cut (hcut : Cut rest) : loadLoop 0 fuel rest result seen = some (.ok result) := by
  cases fuel with
  | zero => rfl
  | succ fuel =>
    rcases hcut.2 with hshort | ⟨length, hannounced, hmax, hshort⟩
    · have hread : readExact rest mrtHeaderSize = none := if_neg (Nat.not_le.mpr hshort)
      rw [loadLoop, hread]
    · obtain ⟨header, type, subtype, hread, htype, hsubtype, hlength⟩ := hannounced.read
      have hne : length ≠ 0 := by
        rintro rfl
        exact absurd hannounced.1 (Nat.not_le.mpr hshort)
      have hbody : readExact (rest.drop mrtHeaderSize) length.toNat = none := by
        have hlen := hannounced.1
        refine if_neg ?_
        rw [List.length_drop]
        omega
      rw [loadLoop, hread]
      simp only [htype, hsubtype, hlength, Option.bind_eq_bind, Option.bind_some,
        if_neg (Nat.not_lt.mpr hmax), if_neg hne, hbody]
      rfl

/-- A length that cannot be is an error. -/
theorem loadLoop_oversized (result : MrtResult) (seen : List (Prefix .ipv4)) (h : Oversized rest)
    (hfuel : rest.length ≤ fuel) :
    ∃ result', loadLoop 0 fuel rest result seen = some (.error result') ∧ result'.ok = false := by
  obtain ⟨length, hannounced, hmax⟩ := h
  have hlen : 12 ≤ rest.length := hannounced.1
  obtain ⟨fuel, rfl⟩ := Nat.exists_eq_add_of_le' (show 1 ≤ fuel by omega)
  obtain ⟨header, type, subtype, hread, htype, hsubtype, hlength⟩ := hannounced.read
  rw [loadLoop, hread]
  simp only [htype, hsubtype, hlength, Option.bind_eq_bind, Option.bind_some, if_pos hmax]
  exact ⟨_, rfl, by simp [MrtResult.ok]⟩

/-! ### The result -/

theorem exists_ribEntry : (∃ r ∈ rs, ribEntry r = true) ↔ firsts rs ≠ [] := by
  constructor
  · rintro ⟨r, hr, htrue⟩
    rw [← isSome_announced] at htrue
    obtain ⟨p, hp⟩ := Option.isSome_iff_exists.mp htrue
    refine List.ne_nil_of_mem (List.mem_eraseDups.mpr (List.mem_filterMap.mpr ⟨r, hr, hp⟩))
  · intro hne
    obtain ⟨p, hp⟩ := List.exists_mem_of_ne_nil _ hne
    obtain ⟨r, hr, hrp⟩ := List.mem_filterMap.mp (List.mem_eraseDups.mp hp)
    refine ⟨r, hr, ?_⟩
    rw [← isSome_announced, hrp]
    rfl

/-- What is reported of a dump, by what is left of it after its records. -/
theorem load_cases (hopen : openDump files path = .ok bytes) (hbytes : bytes = encode rs ++ rest) :
    ((rest = [] ∨ Cut rest) → ∃ result, loadMrtPrefixes files path 0 = some result ∧
      (result.ok = true ↔ ∃ r ∈ rs, ribEntry r = true)) ∧
    (Oversized rest → ∃ result, loadMrtPrefixes files path 0 = some result ∧ result.ok = false) := by
  have hseen : ∀ p, p ∈ ([] : List (Prefix .ipv4)) ↔ p ∈ firsts [] := fun p => Iff.rfl
  obtain ⟨fuel, result, seen, hrun, hfuel, hsum⟩ :=
    loadLoop_leading (hbytes ▸ le_refl bytes.length) summary_nil hseen
  rw [List.nil_append] at hsum
  rw [← hbytes] at hrun
  unfold loadMrtPrefixes
  simp only [hopen, Option.bind_eq_bind]
  rw [hrun]
  constructor
  · intro hend
    have hleave : loadLoop 0 fuel rest result seen = some (.ok result) := by
      rcases hend with rfl | hcut
      · exact loadLoop_nil
      · exact loadLoop_cut hcut
    rw [hleave, Option.bind_some, exists_ribEntry, ← hsum.prefixes]
    dsimp only
    have herror : result.error.isEmpty = true := by rw [hsum.error]; rfl
    cases hp : result.prefixes with
    | nil =>
      rw [herror, List.isEmpty_nil, Bool.and_true, if_pos rfl]
      exact ⟨_, rfl, by simp [MrtResult.ok]⟩
    | cons p ps =>
      rw [List.isEmpty_cons, Bool.false_and, if_neg Bool.false_ne_true]
      exact ⟨_, rfl, by simp [MrtResult.ok, herror]⟩
  · intro hover
    obtain ⟨result', hleave, hok⟩ := loadLoop_oversized result seen hover hfuel
    rw [hleave]
    exact ⟨result', rfl, hok⟩

/-- A dump that is cut short is reported exactly if no record before the cut is a RIB entry. -/
theorem truncation_reported (hopen : openDump files path = .ok bytes) :
    (∀ result, loadMrtPrefixes files path 0 = some result → result.ok = true → Complete bytes) ↔
    ∀ rs rest, bytes = encode rs ++ rest → Cut rest → ∀ r ∈ rs, ribEntry r = false := by
  constructor
  · rintro hreported rs rest rfl hcut r hr
    obtain ⟨result, hresult, hok⟩ := (load_cases hopen rfl).1 (.inr hcut)
    by_contra htrue
    rw [Bool.not_eq_false] at htrue
    exact hcut.not_complete (hreported result hresult (hok.mpr ⟨r, hr, htrue⟩))
  · intro hno result hresult hok
    obtain ⟨rs, rest, hbytes, hend⟩ := exists_records bytes
    obtain ⟨hleft, hover⟩ := load_cases hopen hbytes
    rcases hend with rfl | hcut | hsize
    · rw [hbytes, List.append_nil]
      exact complete_encode rs
    · obtain ⟨result', hresult', hok'⟩ := hleft (.inr hcut)
      obtain rfl := Option.some.inj (hresult.symm.trans hresult')
      obtain ⟨r, hr, htrue⟩ := hok'.mp hok
      rw [hno rs rest hbytes hcut r hr] at htrue
      cases htrue
    · obtain ⟨result', hresult', hok'⟩ := hover hsize
      obtain rfl := Option.some.inj (hresult.symm.trans hresult')
      rw [hok] at hok'
      cases hok'

/-- The sample dump, and the first byte of another header. -/
def cutDump : Files := ⟨false, fun _ => some (encode sampleDump ++ [0]), fun _ => none⟩

theorem truncation_reported_sample :
    (∀ result, loadMrtPrefixes cutDump "dump" 0 = some result → result.ok = true →
      Complete (encode sampleDump ++ [0])) ↔
    ∀ rs rest, encode sampleDump ++ [0] = encode rs ++ rest → Cut rest → ∀ r ∈ rs, ribEntry r = false :=
  truncation_reported (by rfl)

theorem truncation_missed : openDump cutDump "dump" = .ok (encode sampleDump ++ [0]) ∧
    ¬∀ result, loadMrtPrefixes cutDump "dump" 0 = some result → result.ok = true →
      Complete (encode sampleDump ++ [0]) := by
  have hcut : Cut [0] := ⟨List.cons_ne_nil _ _, .inl (by decide)⟩
  have hopen : openDump cutDump "dump" = .ok (encode sampleDump ++ [0]) := by rfl
  obtain ⟨result, hresult, hok⟩ := (load_cases hopen rfl).1 (.inr hcut)
  refine ⟨hopen, fun hreported => hcut.not_complete (hreported result hresult (hok.mpr ?_))⟩
  exact ⟨_, List.mem_cons_self, by decide⟩

end RcuFib.Mrt

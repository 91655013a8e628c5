import LsmTree.Proof.AnyFile
import LsmTree.Proof.Bloom

/-!
# Opening and reading a file of any bytes

The counts of the Bloom filter's bits and of its bytes are read from the file one by one,
and nothing compares them. The counts also say how much memory the constructor asks for;
`allocates` says what there is room for.

* `visited_bounds_iff`: `MayContain` stays within the bytes, for every hash function and
  key, if and only if there are no bits, no hashes, or bytes for all bits.
* `new_any`: the constructor throws if and only if the footer turns the file down or there
  is no room for what the lengths in it ask for.
* `safe_iff`: so opening and reading a file is safe if and only if the constructor throws
  or the fields of the file say one of these.
-/

namespace LsmTree

open Base

namespace BloomFilter

variable {hash : Bytes → UInt64} {f : BloomFilter} {bits data : Bytes} {s : IfStream} {pos : ℕ}

/-! ## Where `MayContain` looks -/

/-- Bit indices up to the first that is not set. -/
def examined (bits : Bytes) : List ℕ → List ℕ
  | [] => []
  | i :: is => i :: if testBit bits i then examined bits is else []

/-- The bit indices at which `MayContain` looks into `bits_`. -/
def visited (hash : Bytes → UInt64) (f : BloomFilter) (key : Bytes) : List ℕ :=
  if f.bitCount = 0 then [] else examined f.bits (f.probes hash key)

theorem mem_of_mem_examined {i : ℕ} (is : List ℕ) (h : i ∈ examined bits is) : i ∈ is := by
  induction is with
  | nil => exact h
  | cons j is ih =>
    unfold examined at h
    rcases List.mem_cons.1 h with rfl | h
    · exact List.mem_cons_self
    · split at h
      · exact List.mem_cons_of_mem _ (ih h)
      · exact absurd h List.not_mem_nil

/-- The first index is the one of the hash value itself. -/
theorem first_mem_visited (hbit : f.bitCount ≠ 0) (hhash : f.hashCount ≠ 0) (key : Bytes) :
    (hash key % f.bitCount).toNat ∈ f.visited hash key := by
  have hcount : f.hashCount.toNat ≠ 0 := fun hz => hhash (UInt64.toNat_inj.1 hz)
  obtain ⟨n, hn⟩ := Nat.exists_eq_add_one_of_ne_zero hcount
  unfold visited probes getHashes
  rw [if_neg hbit, hn, List.range_succ_eq_map]
  simp only [List.map_cons]
  have hfirst : UInt64.ofNat 0 * (if hash (key ++ [1]) = 0 then 1 else hash (key ++ [1])) + hash key =
      hash key := by
    rw [show UInt64.ofNat 0 = 0 from rfl, UInt64.zero_mul, UInt64.zero_add]
  rw [hfirst]
  unfold examined
  exact List.mem_cons_self

/-- **`MayContain` stays within the bytes** exactly for these counts. Otherwise a hash
value of the first bit behind the bytes leads it out. -/
theorem visited_bounds_iff (f : BloomFilter) :
    (∀ (hash : Bytes → UInt64) (key : Bytes), ∀ i ∈ f.visited hash key, i / 8 < f.bits.length) ↔
      f.bitCount = 0 ∨ f.hashCount = 0 ∨ f.bitCount.toNat ≤ 8 * f.bits.length := by
  constructor
  · intro hsafe
    by_contra hcon
    simp only [not_or, not_le] at hcon
    obtain ⟨hbit, hhash, hlt⟩ := hcon
    have hval : (UInt64.ofNat (8 * f.bits.length)).toNat = 8 * f.bits.length :=
      UInt64.toNat_ofNat_of_lt' (lt_trans hlt f.bitCount.toNat_lt)
    have hin := hsafe (fun _ => .ofNat (8 * f.bits.length)) [] _ (first_mem_visited hbit hhash [])
    rw [UInt64.toNat_mod, hval, Nat.mod_eq_of_lt hlt] at hin
    omega
  · intro hcounts hash key i hi
    unfold visited at hi
    split at hi
    · exact absurd hi List.not_mem_nil
    rename_i hbit
    have hi := mem_of_mem_examined _ hi
    rcases hcounts with h | h | h
    · exact absurd h hbit
    · unfold probes at hi
      rw [h] at hi
      exact absurd hi List.not_mem_nil
    · have := lt_of_mem_probes hbit hi
      omega

/-! ## The fields of a filter in a file -/

/-- The stream reads at `pos`, or a seek has failed and there is nothing at `pos`. -/
def ReadsAt (data : Bytes) (pos : ℕ) (s : IfStream) : Prop :=
  s = .at_ data pos ∨ data.length < pos ∧ s.fail = true

/-- What was read up to `pos` was there, or the stream has failed. -/
def StandsAt (data : Bytes) (pos : ℕ) (s : IfStream) : Prop :=
  pos ≤ data.length ∧ s = .at_ data pos ∨ data.length < pos ∧ s.fail = true

theorem StandsAt.readsAt (h : StandsAt data pos s) : ReadsAt data pos s := h.imp_left And.right

theorem ReadsAt.read (h : ReadsAt data pos s) (n : ℕ) :
    (s.read n).1 = (data.drop pos).take n ∧ StandsAt data (pos + n) (s.read n).2 := by
  rcases h with rfl | ⟨hlt, hfail⟩
  · refine ⟨IfStream.read_at_fst data pos n, ?_⟩
    by_cases hend : pos + n ≤ data.length
    · rw [IfStream.read_at_le hend]
      exact Or.inl ⟨hend, rfl⟩
    · exact Or.inr ⟨not_le.1 hend, IfStream.read_at_short (not_le.1 hend)⟩
  · rw [IfStream.read_of_bad (IfStream.good_of_fail hfail), List.drop_eq_nil_of_le hlt.le]
    exact ⟨List.take_nil.symm, Or.inr ⟨by omega, rfl⟩⟩

/-- Eight bytes, those missing counted as zero. -/
def fieldAt (data : Bytes) (pos : ℕ) : ℕ := ofLE ((data.drop pos).take 8)

theorem fieldAt_lt (data : Bytes) (pos : ℕ) : fieldAt data pos < 2 ^ 64 := by
  have hlen : ((data.drop pos).take 8).length ≤ 8 := List.length_take_le 8 _
  calc fieldAt data pos < 256 ^ ((data.drop pos).take 8).length := ofLE_lt _
    _ ≤ 256 ^ 8 := Nat.pow_le_pow_right (by norm_num) hlen
    _ = 2 ^ 64 := by norm_num

theorem toNat_fieldAt (data : Bytes) (pos : ℕ) : (UInt64.ofNat (fieldAt data pos)).toNat = fieldAt data pos :=
  UInt64.toNat_ofNat_of_lt' (fieldAt_lt data pos)

theorem readU64_readsAt (h : ReadsAt data pos s) :
    (readU64 s).1 = .ofNat (fieldAt data pos) ∧ StandsAt data (pos + 8) (readU64 s).2 := by
  obtain ⟨hread, hstands⟩ := h.read 8
  unfold readU64 fieldAt
  rw [hread]
  exact ⟨rfl, hstands⟩

theorem readBits_standsAt {n : ℕ} (old : Bytes) (h : StandsAt data pos s) :
    StandsAt data (pos + n) (readBits n old s).2 := by
  unfold readBits
  simp only
  split
  · rename_i h0
    rw [h0]
    exact h
  · exact (h.readsAt.read n).2

theorem length_readBits (n : ℕ) (old : Bytes) (s : IfStream) : (readBits n old s).1.length = n := by
  have hresized : (old.take n ++ List.replicate (n - old.length) (0 : UInt8)).length = n := by
    rw [List.length_append, List.length_take, List.length_replicate]
    omega
  unfold readBits
  simp only
  split
  · exact hresized
  · have hle := IfStream.length_read_le s n
    rw [List.length_append, List.length_drop, hresized]
    omega

/-- There is no room for `n` bytes in place of those of a filter. -/
def NoRoom (allocates : ℕ → Bool) (g : BloomFilter) (n : ℕ) : Prop :=
  2 ^ 63 ≤ n ∨ g.bits.length < n ∧ allocates n = false

/-- What is deserialised: the fields as the file has them, each for itself. -/
theorem deserialize_readsAt (g : BloomFilter) (allocates : ℕ → Bool) (h : ReadsAt data pos s) :
    (NoRoom allocates g (fieldAt data (pos + 32)) ∧ ∃ what, g.deserialize s allocates = .error what) ∨
      ¬ NoRoom allocates g (fieldAt data (pos + 32)) ∧ ∃ f s', g.deserialize s allocates = .ok (f, s') ∧
        f.bitCount = .ofNat (fieldAt data (pos + 16)) ∧ f.hashCount = .ofNat (fieldAt data (pos + 24)) ∧
        f.bits.length = fieldAt data (pos + 32) ∧ StandsAt data (pos + 40 + fieldAt data (pos + 32)) s' := by
  obtain ⟨-, h1⟩ := readU64_readsAt h
  obtain ⟨-, h2⟩ := readU64_readsAt h1.readsAt
  obtain ⟨hbit, h3⟩ := readU64_readsAt h2.readsAt
  obtain ⟨hhash, h4⟩ := readU64_readsAt h3.readsAt
  obtain ⟨hbytes, h5⟩ := readU64_readsAt h4.readsAt
  have hcount := toNat_fieldAt data (pos + 32)
  rw [show pos + 8 + 8 + 8 + 8 = pos + 32 by omega] at hbytes h5
  unfold deserialize NoRoom
  simp only [hbytes, hcount]
  split
  · rename_i hbig
    exact Or.inl ⟨Or.inl hbig, _, rfl⟩
  rename_i hsmall
  split
  · rename_i hrefused
    exact Or.inl ⟨Or.inr hrefused, _, rfl⟩
  · rename_i hroom
    exact Or.inr ⟨not_or.2 ⟨hsmall, hroom⟩, _, _, rfl, hbit, hhash, length_readBits _ _ _,
      readBits_standsAt _ h5⟩

theorem data_deserialize {allocates : ℕ → Bool} {g f : BloomFilter} {s' : IfStream}
    (h : g.deserialize s allocates = .ok (f, s')) : s'.data = s.data := by
  have hu64 : ∀ s : IfStream, (readU64 s).2.data = s.data := fun s => IfStream.data_read s 8
  have hbits : ∀ (n : ℕ) (old : Bytes) (s : IfStream), (readBits n old s).2.data = s.data := by
    intro n old s
    unfold readBits
    simp only
    split
    · rfl
    · exact IfStream.data_read s n
  unfold deserialize at h
  simp only at h
  split at h
  · exact absurd h (by simp)
  split at h
  · exact absurd h (by simp)
  · obtain ⟨-, rfl⟩ := Prod.mk.inj (Except.ok.inj h)
    simp only [hbits, hu64]

end BloomFilter

/-! ## Files -/

/-- The footer of a file of at least its size. -/
def footerOf (content : Bytes) : SSTableFooter :=
  SSTableFooter.decode ((content.drop (content.length - SSTableFooter.size)).take SSTableFooter.size)

/-- The constructor throws at the footer: the file is too small for one or too large to be
sought in, or the magic number is another. -/
def TurnedDown (content : Bytes) : Prop :=
  content.length < SSTableFooter.size ∨ 2 ^ 63 ≤ content.length - SSTableFooter.size ∨
    (footerOf content).magicNumber ≠ kSSTableMagicNumber

variable {path content : Bytes} {allocates : ℕ → Bool}

theorem openTable_turnedDown (path : Bytes) (h : TurnedDown content) :
    ∃ what, openTable path (some content) = .error what := by
  unfold openTable
  simp only
  by_cases hsmall : content.length < SSTableFooter.size
  · rw [if_pos hsmall]
    exact ⟨_, rfl⟩
  rw [if_neg hsmall, IfStream.ofData_eq]
  by_cases hlarge : 2 ^ 63 ≤ content.length - SSTableFooter.size
  · rw [IfStream.read_of_bad (IfStream.good_of_fail (IfStream.fail_seekg_at hlarge))]
    exact ⟨_, rfl⟩
  · have hmagic := (h.resolve_left hsmall).resolve_left hlarge
    unfold footerOf at hmagic
    rw [IfStream.seekg_at (by omega), IfStream.read_at_le (by omega)]
    simp only
    rw [if_pos (by simp [hmagic])]
    exact ⟨_, rfl⟩

theorem openTable_of_footer (h : ¬ TurnedDown content) :
    openTable path (some content) = .ok (.at_ content content.length, footerOf content) := by
  unfold TurnedDown at h
  simp only [not_or, not_lt, not_le, ne_eq, not_not] at h
  obtain ⟨hsize, hlarge, hmagic⟩ := h
  unfold openTable
  simp only
  rw [if_neg (not_lt.2 hsize), IfStream.ofData_eq, IfStream.seekg_at hlarge, IfStream.read_at_le (by omega),
    Nat.sub_add_cancel hsize]
  have hfooter : (footerOf content).magicNumber = kSSTableMagicNumber := hmagic
  unfold footerOf at hfooter
  simp only
  rw [if_neg (by simp [hfooter])]
  rfl

/-- Where the filter's fields are read; a failed seek leaves none. -/
def filterStart (content : Bytes) : ℕ :=
  if 2 ^ 63 ≤ (footerOf content).filterOffset then content.length + 1 else (footerOf content).filterOffset

def bitCountField (content : Bytes) : ℕ := BloomFilter.fieldAt content (filterStart content + 16)

def hashCountField (content : Bytes) : ℕ := BloomFilter.fieldAt content (filterStart content + 24)

def byteCountField (content : Bytes) : ℕ := BloomFilter.fieldAt content (filterStart content + 32)

theorem readsAt_filterStart :
    BloomFilter.ReadsAt content (filterStart content)
      ((IfStream.at_ content content.length).seekg (footerOf content).filterOffset) := by
  unfold filterStart
  split
  · rename_i hbig
    exact Or.inr ⟨Nat.lt_succ_self _, IfStream.fail_seekg_at hbig⟩
  · rename_i hsmall
    exact Or.inl (IfStream.seekg_at (by omega))

/-- The lengths of the keys of the sparse index, entry by entry, up to one that is cut off. -/
def keyLengths (data : Bytes) (indexSize : ℕ) : ℕ → ℕ → ℕ → List ℕ
  | 0, _, _ => []
  | fuel + 1, bytesRead, pos =>
    if indexSize ≤ bytesRead ∨ data.length < pos + 4 then []
    else
      let n := ofLE ((data.drop pos).take 4)
      n :: if data.length < pos + 4 + n + 8 then []
        else keyLengths data indexSize fuel (bytesRead + 4 + n + 8) (pos + 4 + n + 8)

/-- The lengths of the index's keys in a file; there are none to read where the filter is cut
off or the index cannot be sought. -/
def indexKeyLengths (content : Bytes) : List ℕ :=
  if content.length < filterStart content + 40 + byteCountField content ∨ 2 ^ 63 ≤ (footerOf content).indexOffset
  then []
  else keyLengths content (footerOf content).indexSize (content.length + 1) 0 (footerOf content).indexOffset

/-- There is no room for what the lengths in the file ask for: the bytes of the filter, or a key
of the sparse index. -/
def OutOfMemory (allocates : ℕ → Bool) (content : Bytes) : Prop :=
  BloomFilter.NoRoom allocates .default (byteCountField content) ∨
    ∃ n ∈ indexKeyLengths content, allocates n = false

theorem readIndex_none_iff {data : Bytes} {indexSize : ℕ} : ∀ (fuel bytesRead pos : ℕ),
    SSTableReader.readIndex allocates indexSize fuel bytesRead (.at_ data pos) = none ↔
      ∃ n ∈ keyLengths data indexSize fuel bytesRead pos, allocates n = false := by
  intro fuel
  induction fuel with
  | zero => intro bytesRead pos; simp [SSTableReader.readIndex, keyLengths]
  | succ fuel ih =>
    intro bytesRead pos
    unfold SSTableReader.readIndex keyLengths
    by_cases hsize : indexSize ≤ bytesRead
    · simp [hsize]
    by_cases h1 : pos + 4 ≤ data.length
    swap
    · simp [hsize, not_le.1 h1, IfStream.read_at_short (not_le.1 h1)]
    rw [if_neg (by simpa using hsize), if_neg (by omega)]
    simp only [IfStream.read_at_le h1, IfStream.fail_at, Bool.false_eq_true, if_false]
    -- the length of the key is known, and its string is allocated before it is read
    cases hroom : allocates (ofLE ((data.drop pos).take 4)) with
    | false => simp [hroom]
    | true =>
      simp only [Bool.true_eq_false, if_false, List.exists_mem_cons_iff, hroom, false_or]
      by_cases h2 : pos + 4 + ofLE ((data.drop pos).take 4) ≤ data.length
      swap
      · rw [if_pos (IfStream.fail_read (read_if_short h1 (not_le.1 h2))), if_pos (by omega)]
        simp
      simp only [read_if_le h2]
      by_cases h3 : pos + 4 + ofLE ((data.drop pos).take 4) + 8 ≤ data.length
      swap
      · simp [IfStream.read_at_short (not_le.1 h3), not_le.1 h3]
      · simp only [IfStream.read_at_le h3, IfStream.fail_at, Bool.false_eq_true, if_false, not_lt.2 h3,
          Option.map_eq_none_iff]
        exact ih _ _

/-- What the loop over the sparse index comes to, behind the filter. -/
theorem readIndex_behind (allocates : ℕ → Bool) {s : IfStream}
    (h : BloomFilter.StandsAt content (filterStart content + 40 + byteCountField content) s) :
    SSTableReader.readIndex allocates (footerOf content).indexSize (content.length + 1) 0
        (s.seekg (footerOf content).indexOffset) = none ↔
      ∃ n ∈ indexKeyLengths content, allocates n = false := by
  have hbad : ∀ {s : IfStream} {fuel : ℕ}, s.fail = true →
      SSTableReader.readIndex allocates (footerOf content).indexSize (fuel + 1) 0 s = some [] := by
    intro s fuel hfail
    unfold SSTableReader.readIndex
    rw [if_pos (by simp [IfStream.good_of_fail hfail])]
  unfold indexKeyLengths
  rcases h with ⟨hle, rfl⟩ | ⟨hlt, hfail⟩
  · by_cases hsought : 2 ^ 63 ≤ (footerOf content).indexOffset
    · rw [hbad (IfStream.fail_seekg_at hsought), if_pos (Or.inr hsought)]
      simp
    · rw [IfStream.seekg_at (not_le.1 hsought), if_neg (by omega)]
      exact readIndex_none_iff _ _ _
  · rw [hbad (IfStream.fail_seekg hfail), if_pos (Or.inl hlt)]
    simp

/-- What the constructor makes of a file. -/
theorem new_any (allocates : ℕ → Bool) (path content : Bytes) :
    ((TurnedDown content ∨ OutOfMemory allocates content) ∧
        ∃ what, SSTableReader.new path (some content) allocates = .error what) ∨
      ¬ (TurnedDown content ∨ OutOfMemory allocates content) ∧
        ∃ r, SSTableReader.new path (some content) allocates = .ok r ∧ r.data = content ∧
          r.bloomFilter.bitCount = .ofNat (bitCountField content) ∧
          r.bloomFilter.hashCount = .ofNat (hashCountField content) ∧
          r.bloomFilter.bits.length = byteCountField content := by
  unfold SSTableReader.new OutOfMemory
  by_cases hdown : TurnedDown content
  · obtain ⟨what, hopen⟩ := openTable_turnedDown path hdown
    rw [hopen]
    exact Or.inl ⟨Or.inl hdown, what, rfl⟩
  rw [openTable_of_footer hdown]
  simp only
  -- the filter is allocated first, then the keys of the index
  rcases BloomFilter.deserialize_readsAt .default allocates readsAt_filterStart with
    ⟨hroom, what, hthrows⟩ | ⟨hroom, f, s', hread, hbit, hhash, hbytes, hstands⟩
  · rw [hthrows]
    exact Or.inl ⟨Or.inr (Or.inl hroom), what, rfl⟩
  · rw [hread]
    have hdata := BloomFilter.data_deserialize hread
    rw [IfStream.data_seekg] at hdata
    have hindex := readIndex_behind allocates hstands
    simp only [hdata, IfStream.at_]
    cases hcase : SSTableReader.readIndex allocates (footerOf content).indexSize (content.length + 1) 0
        (s'.seekg (footerOf content).indexOffset) with
    | none => exact Or.inl ⟨Or.inr (Or.inr (hindex.1 hcase)), _, rfl⟩
    | some index =>
      refine Or.inr ⟨?_, _, rfl, rfl, hbit, hhash, hbytes⟩
      rintro (h | h | h)
      · exact hdown h
      · exact hroom h
      · rw [hindex.2 h] at hcase
        exact absurd hcase (by simp)

/-- Opening and reading are safe: the constructor comes to an end, and so does every `Get`
of the reader it made, with `MayContain` within the bytes of the filter. -/
def SafeFile (allocates : ℕ → Bool) (path content : Bytes) : Prop :=
  SSTableReader.NewReturns path (some content) allocates (SSTableReader.new path (some content) allocates) ∧
    ∀ r, SSTableReader.new path (some content) allocates = .ok r → ∀ (hash : Bytes → UInt64) (key : Bytes),
      (∀ s : IfStream, s.data = content → r.GetReturns hash key s (r.getFrom hash key s)) ∧
        ∀ i ∈ r.bloomFilter.visited hash key, i / 8 < r.bloomFilter.bits.length

/-- **Safe files**: the constructor turns the file down, there is no room for what it asks for,
or the filter it describes has no bits, no hashes, or as many bytes as its bits need. -/
theorem safe_iff (allocates : ℕ → Bool) (path content : Bytes) : SafeFile allocates path content ↔
    TurnedDown content ∨ OutOfMemory allocates content ∨ bitCountField content = 0 ∨
      hashCountField content = 0 ∨ bitCountField content ≤ 8 * byteCountField content := by
  unfold SafeFile
  rcases new_any allocates path content with ⟨hdown, what, hnew⟩ | ⟨hopens, r, hnew, hdata, hbit, hhash, hbytes⟩
  · refine ⟨fun _ => ?_, fun _ => ⟨SSTableReader.newReturns path (some content) allocates, fun r hr => ?_⟩⟩
    · rcases hdown with h | h
      · exact Or.inl h
      · exact Or.inr (Or.inl h)
    · rw [hnew] at hr
      exact absurd hr (by simp)
  · have hbounds := BloomFilter.visited_bounds_iff r.bloomFilter
    -- a field is 0 as a word when it is 0 as a number
    have hzero : ∀ pos, UInt64.ofNat (BloomFilter.fieldAt content pos) = 0 ↔
        BloomFilter.fieldAt content pos = 0 := by
      intro pos
      rw [← UInt64.toNat_inj, BloomFilter.toNat_fieldAt]
      rfl
    rw [hbit, hhash, hbytes] at hbounds
    unfold bitCountField hashCountField at hbounds ⊢
    rw [hzero, hzero, BloomFilter.toNat_fieldAt] at hbounds
    constructor
    · rintro ⟨-, hsafe⟩
      exact Or.inr (Or.inr (hbounds.1 fun hash key => hbytes ▸ (hsafe r hnew hash key).2))
    · intro hfields
      rw [← or_assoc] at hfields
      have hcounts := hfields.resolve_left hopens
      refine ⟨SSTableReader.newReturns path (some content) allocates, fun r' hr hash key => ?_⟩
      rw [hnew] at hr
      obtain rfl := Except.ok.inj hr
      refine ⟨fun s hs => SSTableReader.getReturns hash r key s (by rw [hs, hdata]), ?_⟩
      rw [hbytes]
      exact hbounds.2 hcounts hash key

/-- An empty table whose filter has nine bits and one hash, and a single byte for them. -/
def shortFilterFile : Bytes :=
  toLE 8 1 ++ toLE 8 0 ++ toLE 8 9 ++ toLE 8 1 ++ toLE 8 1 ++ [255] ++
    SSTableFooter.encode ⟨0, 0, 0, 41, 0, kSSTableMagicNumber⟩

theorem shortFilterFile_unsafe : ¬ SafeFile (fun _ => true) (bytes "t.sst") shortFilterFile := by
  rintro ⟨-, hsafe⟩
  have hopens : (SSTableReader.new (bytes "t.sst") (some shortFilterFile)).toOption.any (fun r =>
      (r.bloomFilter.visited (fun _ => 8) []).any fun i => r.bloomFilter.bits.length ≤ i / 8) = true := by
    decide +kernel
  obtain ⟨r, hr, hvisited⟩ := (Option.any_eq_true _ _).1 hopens
  obtain ⟨i, hi, hle⟩ := List.any_eq_true.1 hvisited
  have hnew : SSTableReader.new (bytes "t.sst") (some shortFilterFile) = .ok r := by
    cases hcase : SSTableReader.new (bytes "t.sst") (some shortFilterFile) with
    | error what =>
      rw [hcase] at hr
      exact absurd hr (by simp [Except.toOption])
    | ok r' =>
      rw [hcase] at hr
      exact congrArg Except.ok (Option.some.inj hr)
  have hlt := (hsafe r hnew (fun _ => 8) []).2 i hi
  exact absurd hlt (not_lt.2 (of_decide_eq_true hle))

end LsmTree

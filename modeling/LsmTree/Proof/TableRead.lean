import LsmTree.Proof.TableFormat

/-!
# Reading a table back

* `openTable_ok`: the file of a table opens, with the offsets of its blocks.
* `SSTableReader.Reads.get`: a lookup in a reader of ascending records finds the record
  of the key, through filter, sparse index and scan.
* `SSTableIterator.Opened.yields`: an iterator yields the records in their order.
-/

namespace LsmTree

open Base

variable {data rest : Bytes} {pos : ℕ}

/-! ## Records off a stream -/

theorem read_if {part : Bytes} {n : ℕ} (h : data.drop pos = part ++ rest) (hn : part.length = n) :
    (if 0 < n then (IfStream.at_ data pos).read n else ([], .at_ data pos)) =
      (part, .at_ data (pos + n)) := by
  split
  · rename_i h0
    exact IfStream.read_at h hn (by omega)
  · rename_i h0
    have h0 : n = 0 := by omega
    rw [h0] at hn ⊢
    rw [List.length_eq_zero_iff.1 hn]
    rfl

theorem ofLE_toLE_mod (n : ℕ) : ofLE (toLE 4 (n % 2 ^ 32)) = n % 2 ^ 32 := by
  have h : n % 2 ^ 32 < 256 ^ 4 := Nat.mod_lt _ (by norm_num)
  exact ofLE_toLE_of_lt h

/-- **A record is read back**, cut to the lengths written. -/
theorem readRecord_at {r : SSTableRecord} (h : data.drop pos = r.encode ++ rest) :
    readRecord (.at_ data pos) = (some r.cut, .at_ data (pos + r.encode.length)) := by
  have hkl : r.cut.key.length = r.key.length % 2 ^ 32 := SSTableRecord.length_take_mod r.key
  have hvl : r.cut.value.length = r.value.length % 2 ^ 32 := SSTableRecord.length_take_mod r.value
  have hlen := r.length_encode
  rw [hkl, hvl] at hlen
  unfold SSTableRecord.encode at h
  simp only [List.append_assoc] at h
  have h1 := IfStream.drop_add_of_append h (length_toLE 4 _)
  have h2 := IfStream.drop_add_of_append h1 (length_toLE 4 _)
  have h3 := IfStream.drop_add_of_append h2 hkl
  have h4 := IfStream.drop_add_of_append h3 hvl
  have hpos : pos + 4 + 4 + r.key.length % 2 ^ 32 + r.value.length % 2 ^ 32 + 1 = pos + r.encode.length := by
    omega
  unfold readRecord
  simp only [IfStream.read_at h (length_toLE 4 _) (by norm_num),
    IfStream.read_at h1 (length_toLE 4 _) (by norm_num), ofLE_toLE_mod, read_if h2 hkl, read_if h3 hvl,
    IfStream.read_at h4 List.length_singleton (by norm_num), IfStream.fail_at, Bool.false_eq_true, if_false, hpos]
  cases hd : r.isDeleted <;> simp [SSTableRecord.cut, hd]

/-! ## The footer -/

theorem SSTableFooter.decode_encode (f : SSTableFooter) (h1 : f.indexOffset < 2 ^ 64)
    (h2 : f.indexSize < 2 ^ 64) (h3 : f.filterOffset < 2 ^ 64) (h4 : f.filterSize < 2 ^ 64)
    (h5 : f.magicNumber < 2 ^ 32) :
    decode f.encode = { f with entryCount := f.entryCount % 2 ^ 32 } := by
  have htake : ∀ (w n : ℕ) (rest : Bytes), (toLE w n ++ rest).take w = toLE w n := fun w n rest =>
    List.take_left' (length_toLE w n)
  have hdrop : ∀ (w n : ℕ) (rest : Bytes), (toLE w n ++ rest).drop w = rest := fun w n rest =>
    List.drop_left' (length_toLE w n)
  have hself : ∀ w n : ℕ, (toLE w n).take w = toLE w n :=
    fun w n => List.take_of_length_le (le_of_eq (length_toLE w n))
  have hd16 : ∀ b : Bytes, b.drop 16 = (b.drop 8).drop 8 := fun b => by rw [List.drop_drop]
  have hd24 : ∀ b : Bytes, b.drop 24 = ((b.drop 8).drop 8).drop 8 := fun b => by simp only [List.drop_drop]
  have hd32 : ∀ b : Bytes, b.drop 32 = (((b.drop 8).drop 8).drop 8).drop 8 := fun b => by
    simp only [List.drop_drop]
  have hd36 : ∀ b : Bytes, b.drop 36 = ((((b.drop 8).drop 8).drop 8).drop 8).drop 4 := fun b => by
    simp only [List.drop_drop]
  unfold decode encode
  simp only [hd16, hd24, hd32, hd36, List.append_assoc, hdrop, htake, hself]
  rw [ofLE_toLE_of_lt h1, ofLE_toLE_of_lt h2, ofLE_toLE_of_lt h3, ofLE_toLE_of_lt h4, ofLE_toLE,
    ofLE_toLE_of_lt h5]
  norm_num

/-- The footer as it is read back: the count of entries is cut to 32 bits. -/
def readFooter (rs : List SSTableRecord) (f : BloomFilter) : SSTableFooter :=
  { tableFooter rs f with entryCount := rs.length % 2 ^ 32 }

theorem length_tableBytes (rs : List SSTableRecord) (f : BloomFilter) :
    (tableBytes rs f).length = (dataBytes rs).length + (indexBytes (indexOf 0 0 rs)).length +
      f.encode.length + SSTableFooter.size := by
  unfold tableBytes
  simp only [List.length_append, SSTableFooter.length_encode]

variable {rs : List SSTableRecord} {f : BloomFilter}

theorem openTable_ok (hlen : (tableBytes rs f).length ≤ maxFileSize) (path : Bytes) :
    openTable path (some (tableBytes rs f)) =
      .ok (.at_ (tableBytes rs f) (tableBytes rs f).length, readFooter rs f) := by
  have hl := length_tableBytes rs f
  have hsize : SSTableFooter.size = 40 := rfl
  have hmax : maxFileSize = 2 ^ 63 - 1 := rfl
  -- the footer is read from the end of the file
  have hdrop : (tableBytes rs f).drop ((tableBytes rs f).length - SSTableFooter.size) =
      (tableFooter rs f).encode ++ [] := by
    rw [List.append_nil]
    unfold tableBytes
    rw [List.length_append, SSTableFooter.length_encode, Nat.add_sub_cancel, List.drop_left]
  have hdec : SSTableFooter.decode (tableFooter rs f).encode = readFooter rs f := by
    apply SSTableFooter.decode_encode
    all_goals
      unfold tableFooter
      simp only [kSSTableMagicNumber]
      omega
  unfold openTable
  simp only
  rw [if_neg (by omega), IfStream.ofData_eq, IfStream.seekg_at (by omega),
    IfStream.read_at hdrop (SSTableFooter.length_encode _) (by omega)]
  simp only [hdec, IfStream.fail_at]
  rw [if_neg (by simp [readFooter, tableFooter])]
  rw [Nat.sub_add_cancel (by omega)]

theorem drop_data (rs : List SSTableRecord) (f : BloomFilter) : (tableBytes rs f).drop 0 =
    dataBytes rs ++ (indexBytes (indexOf 0 0 rs) ++ (f.encode ++ (tableFooter rs f).encode)) := by
  unfold tableBytes
  rw [List.drop_zero, List.append_assoc, List.append_assoc]

theorem drop_index (rs : List SSTableRecord) (f : BloomFilter) : (tableBytes rs f).drop (dataBytes rs).length =
    indexBytes (indexOf 0 0 rs) ++ (f.encode ++ (tableFooter rs f).encode) := by
  have h := drop_data rs f
  rw [List.drop_zero] at h
  rw [h, List.drop_left]

theorem drop_filter (rs : List SSTableRecord) (f : BloomFilter) :
    (tableBytes rs f).drop ((dataBytes rs).length + (indexBytes (indexOf 0 0 rs)).length) =
    f.encode ++ (tableFooter rs f).encode := by
  rw [← List.drop_drop, drop_index, List.drop_left]

namespace SSTableReader

/-! ## Opening a reader -/

/-- The entries as they are read back. -/
def readEntry (e : IndexEntry) : Bytes × ℕ := (e.cutKey, e.offset)

theorem readIndex_at {es : List IndexEntry} : ∀ (fuel bytesRead : ℕ) {pos : ℕ}, es.length < fuel →
    (∀ e ∈ es, e.offset < 2 ^ 64) → data.drop pos = indexBytes es ++ rest →
    readIndex (fun _ => true) (bytesRead + (indexBytes es).length) fuel bytesRead (.at_ data pos) =
      some (es.map readEntry) := by
  induction es with
  | nil =>
    intro fuel bytesRead pos hf _ _
    cases fuel with
    | zero => rfl
    | succ fuel =>
      unfold readIndex
      rw [if_pos (by simp [indexBytes])]
      rfl
  | cons e es ih =>
    intro fuel bytesRead pos hf ho h
    obtain ⟨fuel, rfl⟩ : ∃ n, fuel = n + 1 := ⟨fuel - 1, by omega⟩
    rw [List.length_cons] at hf
    have hle := e.length_encode
    have hlk := e.length_cutKey
    rw [indexBytes_cons, List.append_assoc] at h
    have h' := IfStream.drop_add_of_append h rfl
    have hrest := ih fuel (bytesRead + 4 + e.key.length % 2 ^ 32 + 8) (by omega)
      (fun x hx => ho x (List.mem_cons_of_mem _ hx)) h'
    unfold IndexEntry.encode at h
    simp only [List.append_assoc] at h
    -- the three fields of the entry, each behind the one before
    have h1 := IfStream.drop_add_of_append h (length_toLE 4 _)
    have h2 := IfStream.drop_add_of_append h1 hlk
    have hpos : pos + 4 + e.key.length % 2 ^ 32 + 8 = pos + e.encode.length := by omega
    have hsize : bytesRead + (indexBytes (e :: es)).length =
        bytesRead + 4 + e.key.length % 2 ^ 32 + 8 + (indexBytes es).length := by
      rw [indexBytes_cons, List.length_append]
      omega
    have hoff : ofLE (toLE 8 e.offset) = e.offset := ofLE_toLE_of_lt (ho e List.mem_cons_self)
    rw [hsize]
    unfold readIndex
    -- `bytesRead` counts what the loop has read, so it goes on
    rw [if_neg (by simp; omega)]
    simp only [IfStream.read_at h (length_toLE 4 _) (by norm_num), ofLE_toLE_mod, read_if h1 hlk,
      IfStream.read_at h2 (length_toLE 8 _) (by norm_num), IfStream.fail_at, Bool.false_eq_true, if_false,
      hoff, hpos, hrest, List.map_cons]
    rfl

/-- `r` is a reader of the table of `rs` with the filter `f`. -/
structure Reads (r : SSTableReader) (rs : List SSTableRecord) (f : BloomFilter) : Prop where
  data : r.data = tableBytes rs f
  short : r.data.length ≤ maxFileSize
  footer : r.footer = readFooter rs f
  sparseIndex : r.sparseIndex = (indexOf 0 0 rs).map readEntry
  bloomFilter : r.bloomFilter = f

theorem length_le_indexBytes (es : List IndexEntry) : es.length ≤ (indexBytes es).length := by
  induction es with
  | nil => exact le_rfl
  | cons e es ih =>
    have := e.length_encode
    rw [indexBytes_cons, List.length_append, List.length_cons]
    omega

/-- **The file of a table opens.** -/
theorem new_ok (hf : f.OK) (hlen : (tableBytes rs f).length ≤ maxFileSize) (path : Bytes) :
    ∃ r, new path (some (tableBytes rs f)) = .ok r ∧ r.filepath = path ∧ Reads r rs f := by
  have hl := length_tableBytes rs f
  have hsize : SSTableFooter.size = 40 := rfl
  have hmax : maxFileSize = 2 ^ 63 - 1 := rfl
  have hs := BloomFilter.deserialize_at hf .default (drop_filter rs f)
  have hindex : ∀ e ∈ indexOf 0 0 rs, e.offset < 2 ^ 64 := by
    intro e he
    obtain ⟨as, r, bs, hrs, -, ho⟩ := mem_indexOf rs _ _ he
    have : (dataBytes rs).length = (dataBytes as).length + (dataBytes (r :: bs)).length := by
      rw [hrs, dataBytes_append, List.length_append]
    omega
  -- an entry has more than one byte, so the loop ends by its own condition
  have hfuel : (indexOf 0 0 rs).length < (tableBytes rs f).length + 1 := by
    have := length_le_indexBytes (indexOf 0 0 rs)
    omega
  have hread := readIndex_at _ 0 hfuel hindex (drop_index rs f)
  rw [Nat.zero_add] at hread
  have hfo : (readFooter rs f).filterOffset = (dataBytes rs).length + (indexBytes (indexOf 0 0 rs)).length := rfl
  have hio : (readFooter rs f).indexOffset = (dataBytes rs).length := rfl
  have his : (readFooter rs f).indexSize = (indexBytes (indexOf 0 0 rs)).length := rfl
  refine ⟨⟨path, tableBytes rs f, readFooter rs f, (indexOf 0 0 rs).map readEntry, f⟩, ?_, rfl,
    rfl, hlen, rfl, rfl, rfl⟩
  unfold new
  simp only [openTable_ok hlen path]
  rw [hfo, IfStream.seekg_at (by omega), hs]
  simp only [hio, his, IfStream.seekg_at (show (dataBytes rs).length < 2 ^ 63 by omega)]
  have hdata : ∀ pos, (IfStream.at_ (tableBytes rs f) pos).data = tableBytes rs f := fun _ => rfl
  rw [hdata, hread]

/-! ## Lookup -/

/-- What the sparse index gives: the first entry, or one with a key not after `key`. -/
theorem startOffset_spec {idx : List (Bytes × ℕ)} (hidx : Ascending Prod.fst idx) (hne : idx ≠ [])
    (key : Bytes) :
    ∃ e ∈ idx, startOffset idx key = some e.2 ∧ (idx.head? = some e ∨ e.1 ≤ key) := by
  set below : ℕ → Bool := fun i => (idx[i]?).any fun e => e.1 < key with hbelow
  -- keys ascend, so `lower_bound` may search by halves
  have hmono : ∀ i j, i ≤ j → j < idx.length → below j = true → below i = true := by
    intro i j hij hj h
    rcases Nat.lt_or_eq_of_le hij with hlt | rfl
    · have hkey := List.pairwise_iff_getElem.1 hidx i j (by omega) hj hlt
      rw [hbelow] at h ⊢
      simp only [List.getElem?_eq_getElem hj, List.getElem?_eq_getElem (show i < idx.length by omega),
        Option.any_some, decide_eq_true_eq] at h ⊢
      exact lt_trans hkey h
    · exact h
  obtain ⟨hle, hbefore, -⟩ := lowerBound_spec hmono
  have hlen : 0 < idx.length := List.length_pos_iff.2 hne
  have hget : ∀ i, i < lowerBound below idx.length → ∃ e ∈ idx, idx[i]? = some e ∧ e.1 < key := by
    intro i hi
    have h := hbefore i hi
    rw [hbelow] at h
    simp only [List.getElem?_eq_getElem (show i < idx.length by omega), Option.any_some, decide_eq_true_eq] at h
    exact ⟨_, List.getElem_mem _, List.getElem?_eq_getElem (by omega), h⟩
  unfold startOffset
  simp only [← hbelow]
  split
  · -- all entries are below the key: the last one
    rename_i hend
    obtain ⟨e, he, hi, hk⟩ := hget (idx.length - 1) (by omega)
    exact ⟨e, he, by rw [List.getLast?_eq_getElem?, hi]; rfl, Or.inr (le_of_lt hk)⟩
  rename_i hend
  have hit := List.getElem?_eq_getElem (show lowerBound below idx.length < idx.length by omega)
  split
  · -- an entry has the key
    rename_i heq
    rw [hit, Option.any_some, decide_eq_true_eq] at heq
    exact ⟨_, List.getElem_mem _, by rw [hit]; rfl, Or.inr (le_of_eq heq)⟩
  split
  · -- no entry is below the key: the first one
    rename_i h0
    refine ⟨_, List.getElem_mem _, by rw [hit]; rfl, Or.inl ?_⟩
    rw [List.head?_eq_getElem?, ← hit, h0]
  · -- the entry before the place found
    rename_i h0
    obtain ⟨e, he, hi, hk⟩ := hget (lowerBound below idx.length - 1) (by omega)
    exact ⟨e, he, by rw [hi]; rfl, Or.inr (le_of_lt hk)⟩

/-- The scan starts at a record, and none before it has the key. -/
theorem startOffset_index (hasc : Ascending SSTableRecord.key rs) (hshort : ∀ r ∈ rs, r.Short)
    (hne : rs ≠ []) (key : Bytes) :
    ∃ as bs, rs = as ++ bs ∧ startOffset ((indexOf 0 0 rs).map readEntry) key = some (dataBytes as).length ∧
      findKey SSTableRecord.key key rs = findKey SSTableRecord.key key bs := by
  -- keys are short, so none is cut in the index
  have hcut : ∀ e ∈ indexOf 0 0 rs, e.cutKey = e.key := by
    intro e he
    obtain ⟨as, r, bs, hrs, hk, -⟩ := mem_indexOf rs _ _ he
    have hr := (hshort r (by rw [hrs]; exact List.mem_append_right as List.mem_cons_self)).key
    unfold IndexEntry.cutKey
    rw [hk, Nat.mod_eq_of_lt hr, List.take_length]
  have hidx : Ascending Prod.fst ((indexOf 0 0 rs).map readEntry) := by
    refine List.pairwise_map.2 (List.Pairwise.imp_of_mem ?_ (pairwise_indexOf hasc 0 0))
    intro a b ha hb hab
    unfold readEntry
    rw [hcut a ha, hcut b hb]
    exact hab
  obtain ⟨r₀, rs', rfl⟩ := List.exists_cons_of_ne_nil hne
  have hhead : indexOf 0 0 (r₀ :: rs') = ⟨r₀.key, 0⟩ :: indexOf 1 (0 + r₀.encode.length) rs' := rfl
  obtain ⟨p, hp, hoff, hcase⟩ := startOffset_spec hidx (by rw [hhead]; exact List.cons_ne_nil _ _) key
  obtain ⟨e, he, rfl⟩ := List.mem_map.1 hp
  rcases hcase with hfirst | hkey
  · -- from the first record on
    rw [hhead, List.map_cons, List.head?_cons] at hfirst
    have hzero : e.offset = 0 := (congrArg Prod.snd (Option.some.inj hfirst)).symm
    exact ⟨[], r₀ :: rs', rfl, by rw [hoff]; exact congrArg some hzero, rfl⟩
  · -- from a record whose key is not behind the one sought, so that it is not among those before
    obtain ⟨as, r, bs, hrs, hk, ho⟩ := mem_indexOf _ _ _ he
    refine ⟨as, r :: bs, hrs, by rw [hoff]; exact congrArg some (ho.trans (Nat.zero_add _)), ?_⟩
    rw [hrs] at hasc ⊢
    have hbefore : findKey SSTableRecord.key key as = none := by
      refine findKey_eq_none.2 fun a ha => ne_of_lt ?_
      have hlt : a.key < r.key := (List.pairwise_append.1 hasc).2.2 a ha r List.mem_cons_self
      have hle : r.key ≤ key := by
        rw [← hk, ← hcut e he]
        exact hkey
      exact lt_of_lt_of_le hlt hle
    rw [findKey_append, hbefore, Option.none_or]

/-- The scan over the records finds the one with the key. -/
theorem scan_at {key : Bytes} : ∀ {fuel pos : ℕ} {rs : List SSTableRecord}, rs.length < fuel →
    (∀ r ∈ rs, r.Short) → Ascending SSTableRecord.key rs → data.drop pos = dataBytes rs ++ rest →
    (scan (pos + (dataBytes rs).length) key fuel (.at_ data pos)).1 =
      (findKey SSTableRecord.key key rs).map fun r => (r.value, r.isDeleted) := by
  intro fuel
  induction fuel with
  | zero => exact fun h => absurd h (Nat.not_lt_zero _)
  | succ fuel ih =>
    intro pos rs hf hshort hasc h
    unfold scan
    rw [if_neg (by simp)]
    cases rs with
    | nil =>
      rw [if_pos (by simp)]
      rfl
    | cons r rs =>
      rw [dataBytes_cons, List.append_assoc] at h
      have hpos : 0 < r.encode.length := by
        have := r.length_encode
        omega
      have hrest := IfStream.drop_add_of_append h rfl
      rw [if_neg (by rw [dataBytes_cons, List.length_append, IfStream.tellg_at]; omega)]
      simp only [readRecord_at h, (hshort r List.mem_cons_self).cut_eq]
      rw [findKey_cons]
      split
      · rfl
      rename_i hne
      obtain ⟨hr, hrs⟩ := ascending_cons.1 hasc
      split
      · -- behind the first greater key there is nothing to find
        rename_i hlt
        rw [findKey_eq_none.2 fun a ha => ne_of_gt (lt_trans hlt (hr a ha))]
        rfl
      · rw [dataBytes_cons, List.length_append, ← Nat.add_assoc]
        exact ih (by rw [List.length_cons] at hf; omega)
          (fun x hx => hshort x (List.mem_cons_of_mem _ hx)) hrs hrest

/-- **A lookup in a table of ascending records finds the record of the key.** -/
theorem Reads.get {r : SSTableReader} {hash : Bytes → UInt64} (h : Reads r rs f)
    (hasc : Ascending SSTableRecord.key rs) (hshort : ∀ r ∈ rs, r.Short)
    (hbloom : ∀ r ∈ rs, f.mayContain hash r.key = true) (key : Bytes) :
    r.get hash key = (findKey SSTableRecord.key key rs).map fun r => (r.value, r.isDeleted) := by
  unfold SSTableReader.get getFrom
  rw [h.bloomFilter]
  cases hmay : f.mayContain hash key with
  | false =>
    -- the filter has every key of the table, so this one is not in it
    rw [if_pos (by simp)]
    have hnone : findKey SSTableRecord.key key rs = none := by
      refine findKey_eq_none.2 fun a ha hk => ?_
      rw [← hk, hbloom a ha] at hmay
      exact absurd hmay (by decide)
    rw [hnone]
    rfl
  | true =>
    rw [if_neg (by simp), h.sparseIndex]
    by_cases hne : rs = []
    · subst hne
      rfl
    obtain ⟨as, bs, hrs, hoff, hfind⟩ := startOffset_index hasc hshort hne key
    have hl := length_tableBytes rs f
    have hshort' := h.short
    rw [h.data] at hshort'
    have hmax : maxFileSize = 2 ^ 63 - 1 := rfl
    have hsplit : (dataBytes rs).length = (dataBytes as).length + (dataBytes bs).length := by
      rw [hrs, dataBytes_append, List.length_append]
    -- the scan begins at the record that the index points to
    have hdrop : (tableBytes rs f).drop (dataBytes as).length =
        dataBytes bs ++ (indexBytes (indexOf 0 0 rs) ++ (f.encode ++ (tableFooter rs f).encode)) := by
      have hd := drop_data rs f
      rw [List.drop_zero] at hd
      have hdata : dataBytes rs = dataBytes as ++ dataBytes bs := by rw [hrs, dataBytes_append]
      rw [hd, hdata, List.append_assoc, List.drop_left]
    have hfuel : bs.length < r.data.length + 1 := by
      have := length_le_dataBytes bs
      rw [h.data]
      omega
    have hfoot : r.footer.indexOffset = (dataBytes as).length + (dataBytes bs).length := by
      rw [h.footer, ← hsplit]
      rfl
    simp only [hoff]
    rw [IfStream.clear_seekg (by omega), hfoot, hfind]
    have hdata : (IfStream.ofData r.data).data = tableBytes rs f := h.data
    rw [hdata]
    rw [hrs] at hshort hasc
    exact scan_at hfuel (fun x hx => hshort x (List.mem_append_right as hx))
      (List.pairwise_append.1 hasc).2.1 hdrop

end SSTableReader

namespace SSTableIterator

/-! ## Iterating -/

/-- The iterator yields these records from its current one on, and is then not valid. -/
def Yields : SSTableIterator → List SSTableRecord → Prop
  | it, [] => it.valid = false
  | it, r :: rs => it.valid = true ∧ it.currentRecord = r ∧ Yields it.next rs

/-- The iterator reads the table of `rs`. -/
structure Opened (it : SSTableIterator) (rs : List SSTableRecord) (f : BloomFilter) : Prop where
  data : it.file.data = tableBytes rs f
  dataEndOffset : it.dataEndOffset = (dataBytes rs).length

theorem next_of_invalid {it : SSTableIterator} (h : it.valid = false) : it.next = it := by
  unfold next
  rw [h, if_neg (by decide)]

theorem iterate_next_of_invalid {it : SSTableIterator} (h : it.valid = false) (i : ℕ) : next^[i] it = it := by
  induction i with
  | zero => rfl
  | succ i ih => rw [Function.iterate_succ_apply, next_of_invalid h, ih]

/-- From where the next record stands on. -/
theorem yields_readNextRecord {rs : List SSTableRecord} : ∀ {it : SSTableIterator} {pos : ℕ},
    it.file = .at_ data pos → it.dataEndOffset = pos + (dataBytes rs).length →
    data.drop pos = dataBytes rs ++ rest → Yields it.readNextRecord (rs.map SSTableRecord.cut) := by
  induction rs with
  | nil =>
    intro it pos hfile hend _
    unfold readNextRecord
    rw [hfile, if_pos (by rw [hend]; simp)]
    rfl
  | cons r rs ih =>
    intro it pos hfile hend h
    have hlen := r.length_encode
    rw [dataBytes_cons, List.length_append] at hend
    rw [dataBytes_cons, List.append_assoc] at h
    have hread := readRecord_at h
    -- one record is read, and the position is behind it
    have hstep : it.readNextRecord =
        ⟨.at_ data (pos + r.encode.length), it.dataEndOffset, pos + r.encode.length, r.cut, true⟩ := by
      unfold readNextRecord
      have hpos : 0 < r.encode.length := by omega
      rw [hfile, if_neg (by rw [IfStream.tellg_at, hend]; omega), hread]
      simp only
      rw [if_neg (by rw [IfStream.tellg_at, hend]; omega), IfStream.tellg_at]
    refine ⟨by rw [hstep], by rw [hstep], ?_⟩
    unfold next
    rw [hstep, if_pos rfl]
    exact ih rfl (by simp only; omega) (IfStream.drop_add_of_append h rfl)

theorem data_readRecord (s : IfStream) : (readRecord s).2.data = s.data := by
  unfold readRecord
  simp only [apply_ite Prod.snd, apply_ite IfStream.data, IfStream.data_read, ite_self]

theorem data_readNextRecord (it : SSTableIterator) : it.readNextRecord.file.data = it.file.data := by
  have hdata := data_readRecord it.file
  unfold readNextRecord
  split
  · rfl
  split
  · rename_i heq
    rw [heq] at hdata
    exact hdata
  · rename_i heq
    rw [heq] at hdata
    split
    · exact hdata
    · exact hdata

@[simp] theorem data_next (it : SSTableIterator) : it.next.file.data = it.file.data := by
  unfold next
  split
  · exact data_readNextRecord it
  · rfl

@[simp] theorem data_seekToFirst (it : SSTableIterator) : it.seekToFirst.file.data = it.file.data := by
  unfold seekToFirst
  rw [data_readNextRecord]
  simp only
  rw [IfStream.clear_seekg (by norm_num)]
  rfl

@[simp] theorem dataEndOffset_readNextRecord (it : SSTableIterator) :
    it.readNextRecord.dataEndOffset = it.dataEndOffset := by
  unfold readNextRecord
  split
  · rfl
  split
  · rfl
  · split <;> rfl

theorem opened_readNextRecord {it : SSTableIterator} (h : Opened it rs f) : Opened it.readNextRecord rs f :=
  ⟨(data_readNextRecord it).trans h.data, (dataEndOffset_readNextRecord it).trans h.dataEndOffset⟩

theorem Opened.next {it : SSTableIterator} (h : Opened it rs f) : Opened it.next rs f := by
  unfold SSTableIterator.next
  split
  · exact opened_readNextRecord h
  · exact h

theorem Opened.seekToFirst {it : SSTableIterator} (h : Opened it rs f) : Opened it.seekToFirst rs f := by
  unfold SSTableIterator.seekToFirst
  have hseek : it.file.clear.seekg 0 = .at_ it.file.data 0 := IfStream.clear_seekg (by norm_num)
  refine opened_readNextRecord ⟨?_, h.dataEndOffset⟩
  rw [hseek]
  exact h.data

/-- **Sought to the first, the iterator yields the records of the table.** -/
theorem Opened.yields {it : SSTableIterator} (h : Opened it rs f) :
    Yields it.seekToFirst (rs.map SSTableRecord.cut) := by
  unfold SSTableIterator.seekToFirst
  have hseek : it.file.clear.seekg 0 = .at_ it.file.data 0 := IfStream.clear_seekg (by norm_num)
  rw [hseek, h.data]
  exact yields_readNextRecord rfl (by simp [h.dataEndOffset]) (drop_data rs f)

/-- The iterator of a table opens. -/
theorem new_ok (hlen : (tableBytes rs f).length ≤ maxFileSize) (path : Bytes) :
    ∃ it, SSTableIterator.new path (some (tableBytes rs f)) = .ok it ∧ Opened it rs f ∧
      Yields it (rs.map SSTableRecord.cut) := by
  unfold SSTableIterator.new
  rw [openTable_ok hlen path]
  have ho : Opened ⟨.at_ (tableBytes rs f) (tableBytes rs f).length, (readFooter rs f).indexOffset, 0,
      ⟨[], [], false⟩, false⟩ rs f := ⟨rfl, rfl⟩
  exact ⟨_, rfl, ho.seekToFirst, ho.yields⟩

end SSTableIterator

end LsmTree

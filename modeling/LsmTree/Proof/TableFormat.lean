import LsmTree.Proof.Bloom
import LsmTree.Spec.Compactor

/-!
# What the builder writes

`tableBytes rs f` is the file of the records `rs` with the Bloom filter `f`. A builder
to which records were added one by one is `Building` them: unless its stream shows an
error, it has written exactly their bytes.

* `Building.add`: one record more.
* `Building.finish`: a builder that finishes has written `tableBytes`.

Keys and values are cut to 32-bit lengths; `cut` is what of a record is left, and a
`Short` record is left as it is.
-/

namespace LsmTree

open Base

/-! ## Records -/

namespace SSTableRecord

/-- What the 32-bit lengths leave of a record. -/
def cut (r : SSTableRecord) : SSTableRecord :=
  ⟨r.key.take (r.key.length % 2 ^ 32), r.value.take (r.value.length % 2 ^ 32), r.isDeleted⟩

/-- Key and value fit the 32-bit lengths. -/
structure Short (r : SSTableRecord) : Prop where
  key : r.key.length < 2 ^ 32
  value : r.value.length < 2 ^ 32

def encode (r : SSTableRecord) : Bytes :=
  toLE 4 (r.key.length % 2 ^ 32) ++ toLE 4 (r.value.length % 2 ^ 32) ++ r.cut.key ++ r.cut.value ++
    [if r.isDeleted then 1 else 0]

theorem length_take_mod (b : Bytes) : (b.take (b.length % 2 ^ 32)).length = b.length % 2 ^ 32 := by
  rw [List.length_take]
  exact Nat.min_eq_left (Nat.mod_le _ _)

theorem cut_short (r : SSTableRecord) : r.cut.Short := by
  refine ⟨?_, ?_⟩
  · exact lt_of_eq_of_lt (length_take_mod r.key) (Nat.mod_lt _ (by norm_num))
  · exact lt_of_eq_of_lt (length_take_mod r.value) (Nat.mod_lt _ (by norm_num))

theorem Short.cut_eq {r : SSTableRecord} (h : r.Short) : r.cut = r := by
  unfold cut
  rw [Nat.mod_eq_of_lt h.key, Nat.mod_eq_of_lt h.value, List.take_length, List.take_length]

theorem map_cut {rs : List SSTableRecord} (h : ∀ r ∈ rs, r.Short) : rs.map cut = rs := by
  have hc : ∀ r ∈ rs, cut r = id r := fun r hr => (h r hr).cut_eq
  rw [List.map_congr_left hc, List.map_id]

theorem length_encode (r : SSTableRecord) :
    r.encode.length = 9 + r.cut.key.length + r.cut.value.length := by
  unfold encode
  simp only [List.length_append, length_toLE, List.length_singleton]
  omega

end SSTableRecord

/-- The data block. -/
def dataBytes (rs : List SSTableRecord) : Bytes := rs.flatMap SSTableRecord.encode

@[simp] theorem dataBytes_nil : dataBytes [] = [] := rfl

@[simp] theorem dataBytes_cons (r : SSTableRecord) (rs : List SSTableRecord) :
    dataBytes (r :: rs) = r.encode ++ dataBytes rs := List.flatMap_cons

theorem dataBytes_append (rs rs' : List SSTableRecord) :
    dataBytes (rs ++ rs') = dataBytes rs ++ dataBytes rs' := List.flatMap_append

theorem length_le_dataBytes (rs : List SSTableRecord) : rs.length ≤ (dataBytes rs).length := by
  induction rs with
  | nil => exact le_rfl
  | cons r rs ih =>
    have := r.length_encode
    rw [dataBytes_cons, List.length_append, List.length_cons]
    omega

theorem writes_writeRecord (r : SSTableRecord) (out : OfStream) :
    out.Writes r.encode (SSTableBuilder.writeRecord r.key r.value r.isDeleted out) := by
  have hkey := SSTableRecord.length_take_mod r.key
  have hval := SSTableRecord.length_take_mod r.value
  have hifk : ∀ s : OfStream, s.Writes r.cut.key
      (if 0 < r.key.length % 2 ^ 32 then s.write (r.key.take (r.key.length % 2 ^ 32)) else s) := by
    intro s
    have := OfStream.writes_if (s := s) hkey
    rwa [List.take_take, Nat.min_self] at this
  have hifv : ∀ s : OfStream, s.Writes r.cut.value
      (if 0 < r.value.length % 2 ^ 32 then s.write (r.value.take (r.value.length % 2 ^ 32)) else s) := by
    intro s
    have := OfStream.writes_if (s := s) hval
    rwa [List.take_take, Nat.min_self] at this
  exact ((((OfStream.writes_write _ _).trans (OfStream.writes_write _ _)).trans (hifk _)).trans
    (hifv _)).trans (OfStream.writes_write _ _)

/-! ## The sparse index -/

namespace IndexEntry

def cutKey (e : IndexEntry) : Bytes := e.key.take (e.key.length % 2 ^ 32)

def encode (e : IndexEntry) : Bytes :=
  toLE 4 (e.key.length % 2 ^ 32) ++ e.cutKey ++ toLE 8 e.offset

theorem length_encode (e : IndexEntry) : e.encode.length = 4 + e.cutKey.length + 8 := by
  unfold encode
  simp only [List.length_append, length_toLE]

theorem length_cutKey (e : IndexEntry) : e.cutKey.length = e.key.length % 2 ^ 32 :=
  SSTableRecord.length_take_mod e.key

end IndexEntry

/-- The index of records of which the first has the number `n` and stands at `off`. -/
def indexOf : ℕ → ℕ → List SSTableRecord → List IndexEntry
  | _, _, [] => []
  | n, off, r :: rs =>
    (if n % kSparseIndexInterval = 0 then [⟨r.key, off⟩] else []) ++ indexOf (n + 1) (off + r.encode.length) rs

def indexBytes (es : List IndexEntry) : Bytes := es.flatMap IndexEntry.encode

@[simp] theorem indexBytes_cons (e : IndexEntry) (es : List IndexEntry) :
    indexBytes (e :: es) = e.encode ++ indexBytes es := List.flatMap_cons

theorem indexOf_append (rs : List SSTableRecord) (r : SSTableRecord) : ∀ n off,
    indexOf n off (rs ++ [r]) = indexOf n off rs ++
      if (n + rs.length) % kSparseIndexInterval = 0 then [⟨r.key, off + (dataBytes rs).length⟩] else [] := by
  induction rs with
  | nil =>
    intro n off
    simp [indexOf]
  | cons a rs ih =>
    intro n off
    have hn : n + 1 + rs.length = n + (rs.length + 1) := by omega
    have ho : off + a.encode.length + (dataBytes rs).length = off + (dataBytes (a :: rs)).length := by
      rw [dataBytes_cons, List.length_append]
      omega
    rw [List.cons_append, indexOf, ih, hn, ho, ← List.append_assoc, List.length_cons, indexOf]

/-- Each entry is the key and the offset of a record. -/
theorem mem_indexOf {e : IndexEntry} (rs : List SSTableRecord) : ∀ n off, e ∈ indexOf n off rs →
    ∃ as r bs, rs = as ++ r :: bs ∧ e.key = r.key ∧ e.offset = off + (dataBytes as).length := by
  induction rs with
  | nil => exact fun n off h => absurd h List.not_mem_nil
  | cons a rs ih =>
    intro n off h
    rcases List.mem_append.1 h with h | h
    · split at h
      · rw [List.mem_singleton.1 h]
        exact ⟨[], a, rs, rfl, rfl, rfl⟩
      · exact absurd h List.not_mem_nil
    · obtain ⟨as, r, bs, hrs, hk, ho⟩ := ih _ _ h
      refine ⟨a :: as, r, bs, by rw [hrs]; rfl, hk, ?_⟩
      rw [ho, dataBytes_cons, List.length_append]
      omega

/-- The index follows the order of the records. -/
theorem pairwise_indexOf {rs : List SSTableRecord} (h : Ascending SSTableRecord.key rs) : ∀ n off,
    Ascending IndexEntry.key (indexOf n off rs) := by
  induction rs with
  | nil => exact fun n off => ascending_nil
  | cons a rs ih =>
    intro n off
    obtain ⟨ha, hrs⟩ := ascending_cons.1 h
    have htail := ih hrs (n + 1) (off + a.encode.length)
    unfold indexOf
    split
    · refine ascending_cons.2 ⟨fun e he => ?_, htail⟩
      obtain ⟨as, r, bs, hsplit, hk, -⟩ := mem_indexOf rs _ _ he
      rw [hk]
      apply ha
      rw [hsplit]
      exact List.mem_append_right as List.mem_cons_self
    · exact htail

theorem writes_writeIndexEntry (e : IndexEntry) (out : OfStream) :
    out.Writes e.encode (SSTableBuilder.writeIndexEntry out e) := by
  have hif : ∀ s : OfStream, s.Writes e.cutKey
      (if 0 < e.key.length % 2 ^ 32 then s.write (e.key.take (e.key.length % 2 ^ 32)) else s) := by
    intro s
    have := OfStream.writes_if (s := s) (SSTableRecord.length_take_mod e.key)
    rwa [List.take_take, Nat.min_self] at this
  exact ((OfStream.writes_write _ _).trans (hif _)).trans (OfStream.writes_write _ _)

theorem writes_foldl_writeIndexEntry (es : List IndexEntry) : ∀ out : OfStream,
    out.Writes (indexBytes es) (es.foldl SSTableBuilder.writeIndexEntry out) := by
  induction es with
  | nil => exact fun out => OfStream.Writes.refl out
  | cons e es ih =>
    intro out
    rw [indexBytes_cons]
    exact (writes_writeIndexEntry e out).trans (ih _)

/-! ## The file -/

/-- The footer of a table. -/
def tableFooter (rs : List SSTableRecord) (f : BloomFilter) : SSTableFooter :=
  let indexOffset := (dataBytes rs).length
  let indexSize := (indexBytes (indexOf 0 0 rs)).length
  ⟨indexOffset, indexSize, indexOffset + indexSize, f.encode.length, rs.length, kSSTableMagicNumber⟩

def tableBytes (rs : List SSTableRecord) (f : BloomFilter) : Bytes :=
  dataBytes rs ++ indexBytes (indexOf 0 0 rs) ++ f.encode ++ (tableFooter rs f).encode

@[simp] theorem SSTableFooter.length_encode (f : SSTableFooter) : f.encode.length = SSTableFooter.size := by
  unfold SSTableFooter.encode SSTableFooter.size
  simp only [List.length_append, length_toLE]

namespace SSTableBuilder

variable {hash : Bytes → UInt64} {b : SSTableBuilder} {rs : List SSTableRecord}

/-- The filter of the keys added. -/
def filterOf (hash : Bytes → UInt64) (rs : List SSTableRecord) : BloomFilter :=
  (rs.map SSTableRecord.key).foldl (BloomFilter.add hash) .default

/-- The records `rs` are written. -/
structure Holds (hash : Bytes → UInt64) (b : SSTableBuilder) (rs : List SSTableRecord) : Prop where
  isOpen : b.file.isOpen = true
  buf : b.file.buf = dataBytes rs
  short : b.file.buf.length ≤ maxFileSize
  entryCount : b.entryCount = rs.length
  indexEntries : b.indexEntries = indexOf 0 0 rs
  bloomFilter : b.bloomFilter = filterOf hash rs

/-- Unless an error shows on the stream, the records `rs` are written. -/
structure Building (hash : Bytes → UInt64) (b : SSTableBuilder) (rs : List SSTableRecord) : Prop where
  finished : b.finished = false
  holds : b.file.fail = false → Holds hash b rs

theorem building_new (hash : Bytes → UInt64) (path : Bytes) (opens : Bool) (budget : Option ℕ) :
    Building hash (new path opens budget) [] := by
  refine ⟨rfl, fun h => ⟨?_, rfl, Nat.zero_le _, rfl, rfl, rfl⟩⟩
  unfold new OfStream.openTrunc at *
  simpa using h

theorem filePath_add (hash : Bytes → UInt64) (key value : Bytes) (isDeleted : Bool) (b : SSTableBuilder) :
    (b.add hash key value isDeleted).2.filePath = b.filePath := by
  unfold add
  split
  · rfl
  · simp only
    split <;> rfl

/-- **One record more.** What `Add` returns is whether the stream still shows no error. -/
theorem Building.add (h : Building hash b rs) (r : SSTableRecord) :
    Building hash (b.add hash r.key r.value r.isDeleted).2 (rs ++ [r]) ∧
      ((b.add hash r.key r.value r.isDeleted).1 = true ↔
        (b.add hash r.key r.value r.isDeleted).2.file.fail = false) := by
  unfold SSTableBuilder.add
  cases hf : b.file.fail with
  | true =>
    -- a stream that has failed stays so, and `Add` returns false
    rw [if_pos (by simp)]
    exact ⟨⟨h.finished, fun h' => by rw [hf] at h'; exact absurd h' (by decide)⟩, by simp [hf]⟩
  | false =>
    have hb := h.holds hf
    rw [if_neg (by simp [h.finished, hb.isOpen])]
    have hw := writes_writeRecord r b.file
    simp only
    split
    · rename_i hfail
      exact ⟨⟨h.finished, fun h' => by rw [hfail] at h'; exact absurd h' (by decide)⟩, by simp [hfail]⟩
    rename_i hok
    have hok : (writeRecord r.key r.value r.isDeleted b.file).fail = false := by simpa using hok
    obtain ⟨-, hbuf, hlen⟩ := hw.ok hok
    refine ⟨⟨h.finished, fun _ => ⟨?_, ?_, hlen hb.short, ?_, ?_, ?_⟩⟩, by simp [hok]⟩
    · rw [hw.isOpen, hb.isOpen]
    · rw [hbuf, hb.buf, dataBytes_append, dataBytes_cons, dataBytes_nil, List.append_nil]
    · simp only
      rw [hb.entryCount, List.length_append, List.length_singleton]
    · simp only
      -- every 16th record gets an index entry, at the position before it was written
      rw [indexOf_append, hb.entryCount, hb.indexEntries, OfStream.tellp_of_ok hf, hb.buf, Nat.zero_add,
        Nat.zero_add]
      split
      · rfl
      · rw [List.append_nil]
    · simp only
      rw [hb.bloomFilter]
      unfold filterOf
      rw [List.map_append, List.foldl_append]
      rfl

/-- **A builder that finishes has written the table of its records.** -/
theorem Building.finish (h : Building hash b rs) {b' : SSTableBuilder} (hfin : b.finish = (true, b')) :
    b'.finished = true ∧ b'.filePath = b.filePath ∧ b'.file.buf = tableBytes rs (filterOf hash rs) ∧
      b'.file.buf.length ≤ maxFileSize := by
  unfold SSTableBuilder.finish at hfin
  cases hf : b.file.fail with
  | true =>
    rw [if_pos (by simp [hf])] at hfin
    exact absurd (Prod.mk.inj hfin).1 (by decide)
  | false =>
    have hb := h.holds hf
    rw [if_neg (by simp [hf, h.finished, hb.isOpen])] at hfin
    simp only at hfin
    set out := b.indexEntries.foldl writeIndexEntry b.file with hout
    set out' := b.bloomFilter.serialize out with hout'
    split at hfin
    · exact absurd (Prod.mk.inj hfin).1 (by decide)
    rename_i hok
    have hok := OfStream.close_ok (by simpa using hok)
    -- the stream is good in the end, so each of its writes went through
    obtain ⟨hok', hbuf'', hlen''⟩ := (OfStream.writes_write out' _).ok hok.1
    obtain ⟨hok'', hbuf', hlen'⟩ := (BloomFilter.writes_serialize b.bloomFilter out).ok hok'
    obtain ⟨-, hbuf, hlen⟩ := (writes_foldl_writeIndexEntry b.indexEntries b.file).ok hok''
    obtain ⟨-, rfl⟩ := Prod.mk.inj hfin
    refine ⟨rfl, rfl, ?_, ?_⟩
    · simp only
      rw [hok.2, hbuf'', OfStream.tellp_of_ok hok', OfStream.tellp_of_ok hok'', OfStream.tellp_of_ok hf,
        hbuf', hbuf, hb.buf, hb.indexEntries, hb.bloomFilter, hb.entryCount]
      unfold tableBytes tableFooter
      simp only [List.length_append, Nat.add_sub_cancel_left]
    · simp only
      rw [hok.2]
      exact hlen'' (hlen' (hlen hb.short))

end SSTableBuilder

end LsmTree

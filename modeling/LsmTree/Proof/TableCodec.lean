import LsmTree.Proof.Flush

/-!
# Decoding a table undoes encoding it

For records in any order, once a builder took each of them and finished:

* an iterator over the file shows exactly these records, each time it is rewound;
* a reader has every sixteenth record's key and offset, and the builder's filter
  (`table_decoded`).
-/

namespace LsmTree

open Base

variable {rs : List SSTableRecord} {f : BloomFilter}

namespace SSTableBuilder

variable {hash : Bytes → UInt64} {b b' : SSTableBuilder}

/-- `Add` for each record in turn, as long as it returns true. -/
def addAll (hash : Bytes → UInt64) : List SSTableRecord → SSTableBuilder → Option SSTableBuilder
  | [], b => some b
  | r :: rs, b =>
    match b.add hash r.key r.value r.isDeleted with
    | (true, b) => addAll hash rs b
    | (false, _) => none

theorem Building.addAll {rs : List SSTableRecord} : ∀ {done : List SSTableRecord} {b : SSTableBuilder},
    Building hash b done → LsmTree.SSTableBuilder.addAll hash rs b = some b' → Building hash b' (done ++ rs) := by
  induction rs with
  | nil =>
    intro done b hb hadd
    rw [List.append_nil]
    cases hadd
    exact hb
  | cons r rs ih =>
    intro done b hb hadd
    unfold LsmTree.SSTableBuilder.addAll at hadd
    split at hadd
    · rename_i b₁ hstep
      have hnext := (hb.add r).1
      rw [hstep] at hnext
      rw [List.append_cons]
      exact ih hnext hadd
    · cases hadd

/-- Finishing keeps the filter, which is the one of the keys added. -/
theorem Building.finish_bloomFilter (h : Building hash b rs) (hfin : b.finish = (true, b')) :
    b'.bloomFilter = filterOf hash rs := by
  unfold SSTableBuilder.finish at hfin
  split at hfin
  · exact absurd (Prod.mk.inj hfin).1 (by decide)
  rename_i hready
  simp only [Bool.or_eq_true, not_or, Bool.not_eq_true] at hready
  have hfilter := (h.holds hready.2).bloomFilter
  simp only at hfin
  split at hfin
  · exact absurd (Prod.mk.inj hfin).1 (by decide)
  · obtain ⟨-, rfl⟩ := Prod.mk.inj hfin
    exact hfilter

end SSTableBuilder

/-! ## The sparse index -/

/-- Where a record starts: behind nine bytes, the key and the value of each before it. -/
def recordOffset (rs : List SSTableRecord) (i : ℕ) : ℕ :=
  ((rs.take i).map fun r => 9 + r.key.length + r.value.length).sum

theorem length_dataBytes (hshort : ∀ r ∈ rs, r.Short) :
    (dataBytes rs).length = (rs.map fun r => 9 + r.key.length + r.value.length).sum := by
  induction rs with
  | nil => rfl
  | cons r rs ih =>
    have hr := r.length_encode
    rw [(hshort r List.mem_cons_self).cut_eq] at hr
    rw [dataBytes_cons, List.length_append, hr, ih fun x hx => hshort x (List.mem_cons_of_mem _ hx),
      List.map_cons, List.sum_cons]

/-- Counting on from `n`, the next multiple of sixteen is `(16 - n % 16) % 16` away. -/
theorem getElem?_indexOf (rs : List SSTableRecord) : ∀ n off j,
    (indexOf n off rs)[j]? = (rs[(16 - n % 16) % 16 + 16 * j]?).map fun r =>
      ⟨r.key, off + (dataBytes (rs.take ((16 - n % 16) % 16 + 16 * j))).length⟩ := by
  induction rs with
  | nil =>
    intro n off j
    simp [indexOf]
  | cons r rs ih =>
    intro n off j
    unfold indexOf kSparseIndexInterval
    by_cases hn : n % 16 = 0
    · rw [if_pos hn, List.singleton_append]
      cases j with
      | zero => simp [hn]
      | succ j =>
        have hj : (16 - n % 16) % 16 + 16 * (j + 1) = (16 - (n + 1) % 16) % 16 + 16 * j + 1 := by omega
        rw [hj, List.getElem?_cons_succ, List.getElem?_cons_succ, ih, List.take_succ_cons, dataBytes_cons,
          List.length_append]
        simp only [Nat.add_assoc]
    · have hj : (16 - n % 16) % 16 + 16 * j = (16 - (n + 1) % 16) % 16 + 16 * j + 1 := by omega
      rw [if_neg hn, List.nil_append, hj, List.getElem?_cons_succ, ih, List.take_succ_cons, dataBytes_cons,
        List.length_append]
      simp only [Nat.add_assoc]

theorem SSTableReader.Reads.getElem?_sparseIndex {r : SSTableReader} (h : Reads r rs f)
    (hshort : ∀ r ∈ rs, r.Short) (j : ℕ) :
    r.sparseIndex[j]? = (rs[kSparseIndexInterval * j]?).map fun x =>
      (x.key, recordOffset rs (kSparseIndexInterval * j)) := by
  have htake : ∀ x ∈ rs.take (kSparseIndexInterval * j), x.Short := fun x hx => hshort x (List.mem_of_mem_take hx)
  have hindex := getElem?_indexOf rs 0 0 j
  rw [show (16 - 0 % 16) % 16 + 16 * j = kSparseIndexInterval * j by unfold kSparseIndexInterval; omega] at hindex
  rw [h.sparseIndex, List.getElem?_map, hindex, Option.map_map]
  cases hx : rs[kSparseIndexInterval * j]? with
  | none => rfl
  | some x =>
    have hcut := congrArg SSTableRecord.key (hshort x (List.mem_of_getElem? hx)).cut_eq
    simp only [Option.map_some, Function.comp_apply, Option.some.injEq]
    refine Prod.ext hcut ?_
    simp only [readEntry, Nat.zero_add]
    exact length_dataBytes htake

/-! ## Iterating and rewinding -/

namespace SSTableIterator

/-- What the iterator shows: its record while it is valid. -/
def shown (it : SSTableIterator) : Option SSTableRecord :=
  if it.valid then some ⟨it.key, it.value, it.isDeleted⟩ else none

inductive Move where
  | seekToFirst
  | next

def move (it : SSTableIterator) : Move → SSTableIterator
  | .seekToFirst => it.seekToFirst
  | .next => it.next

variable {it : SSTableIterator}

/-- After `i` calls of `Next` the record `i` is shown, and none once there is none. -/
theorem Yields.shown {rs : List SSTableRecord} : ∀ {it : SSTableIterator}, Yields it rs →
    ∀ i, (next^[i] it).shown = rs[i]? := by
  induction rs with
  | nil =>
    intro it h i
    have hinvalid : it.valid = false := h
    rw [iterate_next_of_invalid hinvalid]
    unfold SSTableIterator.shown
    rw [if_neg (by simp [hinvalid]), List.getElem?_nil]
  | cons r rs ih =>
    intro it h i
    obtain ⟨hvalid, hrec, hnext⟩ := h
    cases i with
    | zero =>
      unfold SSTableIterator.shown
      rw [Function.iterate_zero_apply, if_pos hvalid]
      exact congrArg some hrec
    | succ i =>
      rw [Function.iterate_succ_apply, List.getElem?_cons_succ]
      exact ih hnext i

theorem Opened.moves (moves : List Move) : ∀ {it : SSTableIterator}, Opened it rs f →
    Opened (moves.foldl move it) rs f := by
  induction moves with
  | nil => exact fun h => h
  | cons m moves ih =>
    intro it h
    rw [List.foldl_cons]
    apply ih
    cases m with
    | seekToFirst => exact h.seekToFirst
    | next => exact h.next

end SSTableIterator

/-! ## The round trip -/

/-- What was decoded: a new iterator, and the same iterator rewound after any moves, shows
the records in turn and then none; a reader has the sparse index and the filter. -/
structure Decoded (path content : Bytes) (rs : List SSTableRecord) (filter : BloomFilter) : Prop where
  iterator : ∃ it, SSTableIterator.new path (some content) = .ok it ∧
    (∀ i, (SSTableIterator.next^[i] it).shown = rs[i]?) ∧
    ∀ (moves : List SSTableIterator.Move) (i : ℕ),
      (SSTableIterator.next^[i] (moves.foldl SSTableIterator.move it).seekToFirst).shown = rs[i]?
  reader : ∃ r, SSTableReader.new path (some content) = .ok r ∧ r.bloomFilter = filter ∧
    ∀ j, r.sparseIndex[j]? = (rs[kSparseIndexInterval * j]?).map fun x =>
      (x.key, recordOffset rs (kSparseIndexInterval * j))

/-- The file of short records is decoded to them. -/
theorem decoded_tableBytes (hash : Bytes → UInt64) (path : Bytes) {rs : List SSTableRecord}
    (hshort : ∀ r ∈ rs, r.Short)
    (hlen : (tableBytes rs (SSTableBuilder.filterOf hash rs)).length ≤ maxFileSize) :
    Decoded path (tableBytes rs (SSTableBuilder.filterOf hash rs)) rs (SSTableBuilder.filterOf hash rs) := by
  obtain ⟨it, hit, hopened, hyields⟩ := SSTableIterator.new_ok hlen path
  obtain ⟨r, hr, -, hreads⟩ := StorageEngine.reader_opens hash path hlen
  rw [SSTableRecord.map_cut hshort] at hyields
  refine ⟨⟨it, hit, hyields.shown, fun moves => ?_⟩, r, hr, hreads.bloomFilter, hreads.getElem?_sparseIndex hshort⟩
  have hrewound := (hopened.moves moves).yields
  rw [SSTableRecord.map_cut hshort] at hrewound
  exact hrewound.shown

/-- **What a builder wrote is decoded whole.** -/
theorem table_decoded (hash : Bytes → UInt64) (path : Bytes) (opens : Bool) (budget : Option ℕ)
    {rs : List SSTableRecord} (hshort : ∀ r ∈ rs, r.Short) {b b' : SSTableBuilder}
    (hadd : (SSTableBuilder.new path opens budget).addAll hash rs = some b) (hfin : b.finish = (true, b')) :
    Decoded path b'.file.buf rs b'.bloomFilter := by
  have hb := (SSTableBuilder.building_new hash path opens budget).addAll hadd
  rw [List.nil_append] at hb
  obtain ⟨-, -, hbuf, hlen⟩ := hb.finish hfin
  rw [hbuf] at hlen
  rw [hb.finish_bloomFilter hfin, hbuf]
  exact decoded_tableBytes hash path hshort hlen

/-- Three records out of order, with an empty key and an empty value. -/
def sampleRecords : List SSTableRecord :=
  [⟨bytes "b", bytes "1", false⟩, ⟨bytes "a", [], true⟩, ⟨[], bytes "2", false⟩]

theorem table_decoded_sample : ∃ b b' : SSTableBuilder,
    (SSTableBuilder.new (bytes "t.sst") true none).addAll (fun _ => 0) sampleRecords = some b ∧
      b.finish = (true, b') ∧ Decoded (bytes "t.sst") b'.file.buf sampleRecords b'.bloomFilter := by
  have hrun : ((SSTableBuilder.new (bytes "t.sst") true none).addAll (fun _ => 0) sampleRecords).any
      (fun b => b.finish.1) = true := by decide +kernel
  have hshort : ∀ r ∈ sampleRecords, r.Short := by
    intro r hr
    simp only [sampleRecords, List.mem_cons, List.not_mem_nil, or_false] at hr
    rcases hr with rfl | rfl | rfl
    all_goals exact ⟨by decide, by decide⟩
  obtain ⟨b, hb, hfin⟩ := (Option.any_eq_true _ _).1 hrun
  have hfin : b.finish = (true, b.finish.2) := Prod.ext hfin rfl
  exact ⟨b, b.finish.2, hb, hfin, table_decoded (fun _ => 0) (bytes "t.sst") true none hshort hb hfin⟩

end LsmTree

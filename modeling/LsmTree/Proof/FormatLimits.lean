import LsmTree.Proof.TableCodec

/-!
# The limits of the table format

Lengths are written as 32-bit integers and a file ends at the largest `off_t`. The builder
looks at neither: the file stream notices the second, and nothing the first.

* `addAll_fits`, `Building.finish_fits`: on a device that takes everything the calls
  succeed unless the table is larger than a file can be.
* `roundTrips_iff`: so a table comes back whole, or a call returns false, only where the
  lengths of all keys and values fit 32 bits or the table does not fit a file.
-/

namespace LsmTree

open Base

variable {hash : Bytes → UInt64} {rs done : List SSTableRecord}

theorem length_dataBytes_le (rs : List SSTableRecord) (f : BloomFilter) :
    (dataBytes rs).length ≤ (tableBytes rs f).length := by
  unfold tableBytes
  simp only [List.length_append]
  omega

namespace SSTableBuilder

variable {b : SSTableBuilder}

/-- No error shows so far and the device takes everything. -/
structure Healthy (b : SSTableBuilder) : Prop where
  fail : b.file.fail = false
  budget : b.file.budget = none

theorem healthy_new (path : Bytes) : (new path true none).Healthy := ⟨rfl, rfl⟩

theorem Building.add_fits (h : Building hash b done) (hb : b.Healthy) (r : SSTableRecord)
    (hlen : (dataBytes (done ++ [r])).length ≤ maxFileSize) :
    (b.add hash r.key r.value r.isDeleted).1 = true ∧ (b.add hash r.key r.value r.isDeleted).2.Healthy := by
  have hopen := (h.holds hb.fail).isOpen
  rw [dataBytes_append, dataBytes_cons, dataBytes_nil, List.append_nil, List.length_append] at hlen
  have hw := (writes_writeRecord r b.file).fits hb.fail hb.budget (by rw [(h.holds hb.fail).buf]; exact hlen)
  unfold SSTableBuilder.add
  rw [if_neg (by simp [h.finished, hopen, hb.fail])]
  simp only
  rw [hw, if_neg (by simp [hb.fail])]
  exact ⟨rfl, hb.fail, hb.budget⟩

/-- **Every `Add` succeeds** as long as the data block fits a file. -/
theorem addAll_fits : ∀ (rs : List SSTableRecord) {done : List SSTableRecord} {b : SSTableBuilder},
    Building hash b done → b.Healthy → (dataBytes (done ++ rs)).length ≤ maxFileSize →
    ∃ b', b.addAll hash rs = some b' ∧ b'.Healthy ∧ Building hash b' (done ++ rs) := by
  intro rs
  induction rs with
  | nil =>
    intro done b hb hok hlen
    rw [List.append_nil]
    exact ⟨b, rfl, hok, hb⟩
  | cons r rs ih =>
    intro done b hb hok hlen
    rw [List.append_cons] at hlen ⊢
    have hfirst : (dataBytes (done ++ [r])).length ≤ maxFileSize := by
      rw [dataBytes_append, List.length_append] at hlen
      omega
    obtain ⟨htrue, hnext⟩ := hb.add_fits hok r hfirst
    obtain ⟨b', hadd, hok', hb'⟩ := ih (hb.add r).1 hnext hlen
    refine ⟨b', ?_, hok', hb'⟩
    have hstep : b.add hash r.key r.value r.isDeleted = (true, (b.add hash r.key r.value r.isDeleted).2) :=
      Prod.ext htrue rfl
    unfold SSTableBuilder.addAll
    rw [hstep]
    exact hadd

/-- **`Finish` succeeds** as long as the table fits a file. -/
theorem Building.finish_fits (h : Building hash b rs) (hb : b.Healthy)
    (hlen : (tableBytes rs (filterOf hash rs)).length ≤ maxFileSize) : b.finish.1 = true := by
  have hs := h.holds hb.fail
  have htable : (tableBytes rs (filterOf hash rs)).length =
      b.file.buf.length + (indexBytes b.indexEntries).length +
      b.bloomFilter.encode.length + SSTableFooter.size := by
    unfold tableBytes
    rw [hs.buf, hs.indexEntries, hs.bloomFilter]
    simp only [List.length_append, SSTableFooter.length_encode]
  have hindex := (writes_foldl_writeIndexEntry b.indexEntries b.file).fits hb.fail hb.budget (by omega)
  have hfilter := (BloomFilter.writes_serialize b.bloomFilter
    { b.file with buf := b.file.buf ++ indexBytes b.indexEntries }).fits hb.fail hb.budget (by
      simp only [List.length_append]
      omega)
  have hfooter : ∀ f : SSTableFooter, _ := fun f => (OfStream.writes_write
    { b.file with buf := b.file.buf ++ indexBytes b.indexEntries ++ b.bloomFilter.encode } f.encode).fits hb.fail
      hb.budget (by
        simp only [List.length_append, SSTableFooter.length_encode]
        omega)
  unfold SSTableBuilder.finish
  rw [if_neg (by simp [h.finished, hs.isOpen, hb.fail])]
  simp only
  rw [hindex, hfilter, hfooter]
  unfold OfStream.close
  simp only [hb.fail, hb.budget, Bool.false_eq_true, if_false]

end SSTableBuilder

open SSTableBuilder

/-- Some call returns false, or an iterator over the finished file shows the records added. -/
def RoundTrips (hash : Bytes → UInt64) (path : Bytes) (rs : List SSTableRecord) : Prop :=
  ∀ (opens : Bool) (budget : Option ℕ) (b b' : SSTableBuilder),
    (SSTableBuilder.new path opens budget).addAll hash rs = some b → b.finish = (true, b') →
    ∃ it, SSTableIterator.new path (some b'.file.buf) = .ok it ∧ ∀ i, (SSTableIterator.next^[i] it).shown = rs[i]?

/-- What an iterator over the finished file shows. -/
theorem shown_cut (path : Bytes) (hlen : (tableBytes rs (filterOf hash rs)).length ≤ maxFileSize) :
    ∃ it, SSTableIterator.new path (some (tableBytes rs (filterOf hash rs))) = .ok it ∧
      ∀ i, (SSTableIterator.next^[i] it).shown = (rs.map SSTableRecord.cut)[i]? := by
  obtain ⟨it, hit, -, hyields⟩ := SSTableIterator.new_ok hlen path
  exact ⟨it, hit, hyields.shown⟩

theorem short_of_map_cut (h : rs.map SSTableRecord.cut = rs) : ∀ r ∈ rs, r.Short := by
  intro r hr
  rw [← h] at hr
  obtain ⟨r', -, rfl⟩ := List.mem_map.1 hr
  exact r'.cut_short

/-- **Nothing is cut silently** if the lengths fit 32 bits or the table does not fit a file,
and only then. -/
theorem roundTrips_iff (hash : Bytes → UInt64) (path : Bytes) (rs : List SSTableRecord) :
    RoundTrips hash path rs ↔
      (∀ r ∈ rs, r.Short) ∨ maxFileSize < (tableBytes rs (filterOf hash rs)).length := by
  constructor
  · intro h
    by_cases hlen : maxFileSize < (tableBytes rs (filterOf hash rs)).length
    · exact Or.inr hlen
    rw [not_lt] at hlen
    have hdata := length_dataBytes_le rs (filterOf hash rs)
    obtain ⟨b, hadd, hok, hb⟩ := addAll_fits rs (building_new hash path true none) (healthy_new path)
      (by rw [List.nil_append]; omega)
    rw [List.nil_append] at hb
    have hfin : b.finish = (true, b.finish.2) := Prod.ext (hb.finish_fits hok hlen) rfl
    obtain ⟨it, hit, hshown⟩ := h true none b b.finish.2 hadd hfin
    rw [(hb.finish hfin).2.2.1] at hit
    obtain ⟨it', hit', hcut⟩ := shown_cut path hlen
    obtain rfl : it = it' := Except.ok.inj (hit.symm.trans hit')
    exact Or.inl (short_of_map_cut (List.ext_getElem? fun i => (hcut i).symm.trans (hshown i)))
  · intro h opens budget b b' hadd hfin
    have hb := (building_new hash path opens budget).addAll hadd
    rw [List.nil_append] at hb
    obtain ⟨-, -, hbuf, hlen⟩ := hb.finish hfin
    rw [hbuf] at hlen ⊢
    have hshort := h.resolve_right hlen.not_gt
    obtain ⟨it, hit, hcut⟩ := shown_cut path hlen
    rw [SSTableRecord.map_cut hshort] at hcut
    exact ⟨it, hit, hcut⟩

/-- Of a value of `2^32` bytes the builder writes nothing. -/
theorem add_long_value {value : Bytes} (hlen : value.length = 2 ^ 32) (hash : Bytes → UInt64) (key : Bytes)
    (isDeleted : Bool) (b : SSTableBuilder) : b.add hash key value isDeleted = b.add hash key [] isDeleted := by
  have hwrite : ∀ out, writeRecord key value isDeleted out = writeRecord key [] isDeleted out := by
    intro out
    unfold writeRecord
    rw [hlen]
    rfl
  unfold SSTableBuilder.add
  rw [hwrite]

/-- A value of `2^32` bytes comes back empty. -/
theorem roundTrips_fails : ¬ ∀ (hash : Bytes → UInt64) (path : Bytes) (rs : List SSTableRecord),
    RoundTrips hash path rs := by
  intro hall
  obtain ⟨value, hlen⟩ : ∃ value : Bytes, value.length = 2 ^ 32 :=
    ⟨List.replicate (2 ^ 32) 97, List.length_replicate⟩
  have hrun : ((SSTableBuilder.new (bytes "t.sst") true none).addAll (fun _ => 0) [⟨bytes "a", [], false⟩]).any
      (fun b => b.finish.1 && decide ((SSTableIterator.new (bytes "t.sst") (some b.finish.2.file.buf)).toOption.map
        SSTableIterator.shown = some (some ⟨bytes "a", [], false⟩))) = true := by decide +kernel
  obtain ⟨b, hb, hfin⟩ := (Option.any_eq_true _ _).1 hrun
  obtain ⟨hfin, hempty⟩ := Bool.and_eq_true_iff.1 hfin
  have hadd : (SSTableBuilder.new (bytes "t.sst") true none).addAll (fun _ => 0) [⟨bytes "a", value, false⟩] =
      some b := by
    unfold SSTableBuilder.addAll at hb ⊢
    simp only [add_long_value hlen]
    exact hb
  obtain ⟨it, hit, hshown⟩ := hall (fun _ => 0) (bytes "t.sst") [⟨bytes "a", value, false⟩] true none b b.finish.2
    hadd (Prod.ext hfin rfl)
  have hfirst := hshown 0
  rw [Function.iterate_zero_apply] at hfirst
  rw [hit] at hempty
  have hval : it.shown = some ⟨bytes "a", [], false⟩ := by simpa [Except.toOption] using hempty
  rw [hval] at hfirst
  have hnil : ([] : Bytes) = value := congrArg SSTableRecord.value (Option.some.inj hfirst)
  rw [← hnil] at hlen
  exact absurd hlen (by decide)

end LsmTree

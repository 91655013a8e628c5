import LsmTree.Proof.TableCodec
import LsmTree.Proof.AnyFile

/-!
# A lookup in a table is a linear search

`table_lookup`: in the table of ascending records that a builder wrote, every `Get` comes
to an end and finds the record of the key, wherever earlier calls left the stream.
-/

namespace LsmTree

open Base

namespace SSTableReader

variable {indexOffset : ℕ} {key : Bytes}

theorem data_scan (fuel : ℕ) : ∀ s : IfStream, (scan indexOffset key fuel s).2.data = s.data := by
  induction fuel with
  | zero => exact fun s => rfl
  | succ fuel ih =>
    intro s
    have hdata := SSTableIterator.data_readRecord s
    unfold scan
    split
    · rfl
    split
    · rfl
    generalize readRecord s = read at hdata
    obtain ⟨o, s'⟩ := read
    cases o with
    | none => exact hdata
    | some r =>
      simp only
      split
      · exact hdata
      split
      · exact hdata
      · exact (ih s').trans hdata

theorem scan_of_bad {s : IfStream} (h : s.good = false) (fuel : ℕ) : scan indexOffset key fuel s = (none, s) := by
  cases fuel with
  | zero => rfl
  | succ fuel =>
    unfold scan
    rw [if_pos (by simp [h])]

variable {hash : Bytes → UInt64} {r : SSTableReader} {s : IfStream}

/-- **The stream an earlier call left is of no consequence**: it is cleared, and what it
is sought to or whether that fails depends on the offset alone. -/
theorem getFrom_eq (hs : s.data = r.data) : (r.getFrom hash key s).1 = r.get hash key := by
  unfold SSTableReader.get getFrom
  split
  · rfl
  cases startOffset r.sparseIndex key with
  | none => rfl
  | some off =>
    simp only
    by_cases hoff : off < 2 ^ 63
    · rw [IfStream.clear_seekg hoff, IfStream.clear_seekg hoff, hs]
      rfl
    · have hbad : ∀ s : IfStream, (s.clear.seekg off).good = false := fun s =>
        IfStream.good_of_fail (IfStream.fail_seekg_at (by omega))
      rw [scan_of_bad (hbad s), scan_of_bad (hbad _)]

theorem data_getFrom (hash : Bytes → UInt64) (r : SSTableReader) (key : Bytes) (s : IfStream) :
    (r.getFrom hash key s).2.data = s.data := by
  unfold getFrom
  split
  · rfl
  cases startOffset r.sparseIndex key with
  | none => rfl
  | some off =>
    have hseek : (s.clear.seekg off).data = s.data := IfStream.data_seekg _ _
    exact (data_scan _ _).trans hseek

/-- The stream after calls to `Get`. -/
def after (hash : Bytes → UInt64) (r : SSTableReader) (keys : List Bytes) (s : IfStream) : IfStream :=
  keys.foldl (fun s key => (r.getFrom hash key s).2) s

theorem data_after (hash : Bytes → UInt64) (r : SSTableReader) (keys : List Bytes) :
    ∀ s : IfStream, (r.after hash keys s).data = s.data := by
  induction keys with
  | nil => exact fun s => rfl
  | cons key keys ih => exact fun s => (ih _).trans (data_getFrom hash r key s)

end SSTableReader

variable {rs : List SSTableRecord}

/-- **A point lookup equals linear search.** -/
theorem table_lookup (hash : Bytes → UInt64) (path : Bytes) (opens : Bool) (budget : Option ℕ)
    (hasc : Ascending SSTableRecord.key rs) (hshort : ∀ r ∈ rs, r.Short) {b b' : SSTableBuilder}
    (hadd : (SSTableBuilder.new path opens budget).addAll hash rs = some b) (hfin : b.finish = (true, b')) :
    ∃ r, SSTableReader.new path (some b'.file.buf) = .ok r ∧
      ∀ (s₀ : IfStream) (earlier : List Bytes) (key : Bytes), s₀.data = b'.file.buf →
        let s := r.after hash earlier s₀
        r.GetReturns hash key s (r.getFrom hash key s) ∧
          (∀ x ∈ rs, x.key = key → (r.getFrom hash key s).1 = some (x.value, x.isDeleted)) ∧
          ((∀ x ∈ rs, x.key ≠ key) → (r.getFrom hash key s).1 = none) := by
  have hb := (SSTableBuilder.building_new hash path opens budget).addAll hadd
  rw [List.nil_append] at hb
  obtain ⟨-, -, hbuf, hlen⟩ := hb.finish hfin
  rw [hbuf] at hlen
  obtain ⟨r, hr, -, hreads⟩ := StorageEngine.reader_opens hash path hlen
  rw [hbuf]
  refine ⟨r, hr, fun s₀ earlier key hs₀ => ?_⟩
  have hdata : (r.after hash earlier s₀).data = r.data := by
    rw [SSTableReader.data_after, hs₀, hreads.data]
  have hbloom : ∀ x ∈ rs, (SSTableBuilder.filterOf hash rs).mayContain hash x.key = true := fun x hx =>
    BloomFilter.default_ok.mayContain_foldl (List.mem_map_of_mem hx)
  have hget := hreads.get hasc hshort hbloom key
  simp only
  rw [SSTableReader.getFrom_eq hdata, hget]
  refine ⟨SSTableReader.getReturns hash r key _ (by rw [hdata]), fun x hx hk => ?_, fun hne => ?_⟩
  · rw [(findKey_eq_some hasc).2 ⟨hx, hk⟩]
    rfl
  · rw [findKey_eq_none.2 hne]
    rfl

/-- Two records, an empty key the first of them. -/
def orderedRecords : List SSTableRecord := [⟨[], bytes "1", false⟩, ⟨bytes "a", [], true⟩]

theorem table_lookup_ordered : ∃ b b' r, (SSTableBuilder.new (bytes "t.sst") true none).addAll (fun _ => 0)
    orderedRecords = some b ∧ b.finish = (true, b') ∧
    SSTableReader.new (bytes "t.sst") (some b'.file.buf) = .ok r ∧
      (r.getFrom (fun _ => 0) (bytes "a") (r.after (fun _ => 0) [bytes "z"] (.ofData b'.file.buf))).1 =
        some ([], true) := by
  have hrun : ((SSTableBuilder.new (bytes "t.sst") true none).addAll (fun _ => 0) orderedRecords).any
      (fun b => b.finish.1) = true := by decide +kernel
  have hshort : ∀ r ∈ orderedRecords, r.Short := by
    intro r hr
    simp only [orderedRecords, List.mem_cons, List.not_mem_nil, or_false] at hr
    rcases hr with rfl | rfl
    all_goals exact ⟨by decide, by decide⟩
  have hasc : List.Pairwise (fun a b : SSTableRecord => a.key < b.key) orderedRecords := by decide
  obtain ⟨b, hb, hfin⟩ := (Option.any_eq_true _ _).1 hrun
  have hfin : b.finish = (true, b.finish.2) := Prod.ext hfin rfl
  obtain ⟨r, hr, hlookup⟩ := table_lookup (fun _ => 0) (bytes "t.sst") true none hasc hshort hb hfin
  obtain ⟨-, hfound, -⟩ := hlookup (.ofData b.finish.2.file.buf) [bytes "z"] (bytes "a") rfl
  exact ⟨b, b.finish.2, r, hb, hfin, hr, hfound ⟨bytes "a", [], true⟩ (by simp [orderedRecords]) rfl⟩

end LsmTree

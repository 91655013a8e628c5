import LsmTree.Proof.Tables
import LsmTree.Proof.LastWriter

/-!
# File ids as ranks

The merge takes the table with the greatest file id for the newest one, `Get` the
first of the list.

* `rank_mono`: the numbers in the names descend along the list, so the file ids do too,
  but the fallback for the table with number 0 may be the number of another table.
* `RanksAgree`: for each key that no memtable hides, the greatest file id is that of the
  newest table, as far as it matters. It is so if no tie matters (`TieHarmless`).
* `compaction_view`: **a compaction changes no live value** if its merge preserves the
  view, as it does where ranks agree.
-/

namespace LsmTree

open Base StorageEngine

variable {hash : Bytes → UInt64} {heaps : Heaps} {e : StorageEngine} {w : World}

/-! ## The file ids of a list of tables -/

/-- What a table says, with the path that names it. -/
abbrev NamedLayer := Bytes × Layer Bytes Bytes

/-- The file id of the table at a position of a list: 0 stands for the position from the end. -/
def rankAt (length i : ℕ) (filename : Bytes) : ℕ :=
  if extractFileId filename = 0 then length - i else extractFileId filename

/-- What each table says, with its file id. -/
def ranked (ts : List NamedLayer) : List (ℕ × Layer Bytes Bytes) :=
  ts.mapIdx fun i t => (rankAt ts.length i t.1, t.2)

def namedLayers (hash : Bytes → UInt64) (ts : List SSTableReader) : List NamedLayer :=
  ts.map fun r => (r.filepath, r.layer hash)

@[simp] theorem length_ranked (ts : List NamedLayer) : (ranked ts).length = ts.length := List.length_mapIdx

@[simp] theorem map_snd_ranked (ts : List NamedLayer) : (ranked ts).map Prod.snd = ts.map Prod.snd := by
  refine List.ext_getElem (by simp) fun i h1 h2 => ?_
  simp [ranked]

theorem map_snd_namedLayers (ts : List SSTableReader) :
    (namedLayers hash ts).map Prod.snd = tableLayers hash ts := by
  unfold namedLayers tableLayers
  rw [List.map_map]
  rfl

/-- The file ids the engine hands to the merge. -/
theorem fileIds_eq (hash : Bytes → UInt64) (ts : List SSTableReader) :
    fileIds ts = (ranked (namedLayers hash ts)).map Prod.fst := by
  refine List.ext_getElem (by simp [length_fileIds, namedLayers]) fun i h1 h2 => ?_
  simp only [fileIds, ranked, rankAt, namedLayers, List.getElem_mapIdx, List.getElem_map, List.length_map]

/-- Newest first, the numbers in the names descend. -/
def DescendingNames (fs : List Bytes) : Prop := fs.Pairwise fun f g => extractFileId g < extractFileId f

theorem descending_iff (ts : List SSTableReader) :
    Descending ts ↔ DescendingNames (ts.map SSTableReader.filepath) := by
  unfold DescendingNames
  rw [List.pairwise_map]
  rfl

/-- **The file ids do not increase** from the newest table on. -/
theorem rank_mono {ts : List NamedLayer} (h : DescendingNames (ts.map Prod.fst)) :
    (ranked ts).Pairwise fun a b => b.1 ≤ a.1 := by
  unfold DescendingNames at h
  rw [List.pairwise_map, List.pairwise_iff_getElem] at h
  rw [List.pairwise_iff_getElem]
  intro i j hi hj hij
  rw [length_ranked] at hi hj
  have hlt := h i j hi hj hij
  have hpos : extractFileId ts[i].1 ≠ 0 := by omega
  simp only [ranked, List.getElem_mapIdx, rankAt, if_neg hpos]
  split
  · -- number 0 can only be that of the last table
    rename_i hzero
    have hlast : ts.length ≤ j + 1 := by
      by_contra hmore
      have hnext := h j (j + 1) hj (by omega) (by omega)
      omega
    omega
  · exact hlt.le

/-- The file ids are below a bound of the numbers, or 1. -/
theorem rank_lt {ts : List NamedLayer} (h : DescendingNames (ts.map Prod.fst)) {n : ℕ}
    (hn : ∀ t ∈ ts, extractFileId t.1 < n) : ∀ t ∈ ranked ts, t.1 < max n 2 := by
  unfold DescendingNames at h
  rw [List.pairwise_map, List.pairwise_iff_getElem] at h
  intro t ht
  obtain ⟨i, hi, rfl⟩ := List.mem_mapIdx.1 ht
  have hlt := hn _ (List.getElem_mem hi)
  unfold rankAt
  simp only
  split
  · rename_i hzero
    have hlast : ts.length ≤ i + 1 := by
      by_contra hmore
      have hnext := h i (i + 1) hi (by omega) (by omega)
      omega
    omega
  · omega

/-! ## Ties -/

/-- For each key that no memtable has, the older tables with the file id of the newest
table that has it do not say something else of it. -/
def TieHarmless (hash : Bytes → UInt64) (e : StorageEngine) : Prop :=
  ∀ key, stack e.memLayers key = none → TieFree (ranked (namedLayers hash e.sstables)) key

/-- Tables with different file ids have no ties. -/
theorem TieHarmless.of_nodup (h : (fileIds e.sstables).Nodup) : TieHarmless hash e := by
  intro key _ As a Bs hsplit _ b hb hrank
  rw [fileIds_eq hash, hsplit, List.map_append, List.map_cons] at h
  have hnot := (List.nodup_cons.1 (List.nodup_append.1 h).2.1).1
  rw [← hrank] at hnot
  exact absurd (List.mem_map_of_mem hb) hnot

/-- What the inputs of a merge say is what the tables say. -/
theorem map_layer_zip {ts : List SSTableReader} {recs : List (List SSTableRecord)}
    (hrecs : List.Forall₂ (SSTableReader.Holds hash) ts recs) :
    ((fileIds ts).zip recs).map Compactor.RankedTable.layer = ranked (namedLayers hash ts) := by
  have hlen := hrecs.length_eq
  rw [fileIds_eq hash]
  refine List.ext_getElem (by simp [namedLayers, hlen]) fun i h1 h2 => ?_
  have hi : i < ts.length := by simpa [namedLayers] using h2
  have hholds := (List.forall₂_iff_get.1 hrecs).2 i hi (hlen ▸ hi)
  simp only [List.get_eq_getElem] at hholds
  simp only [Compactor.RankedTable.layer, List.getElem_map, List.getElem_zip, ← hholds.layer_eq]
  simp [ranked, namedLayers]

/-- The merge says of each key what the tables together say, deletions left out. -/
theorem mergedLayer_eq {ts : List SSTableReader} {recs : List (List SSTableRecord)}
    (hrecs : List.Forall₂ (SSTableReader.Holds hash) ts recs) {out : List SSTableRecord}
    (hout : Compactor.MergedTables ((fileIds ts).zip recs) out) {key : Bytes}
    (hagree : ∀ r, Preferred (ranked (namedLayers hash ts)) key r → r = view (tableLayers hash ts) key) :
    recordLayer out key = (view (tableLayers hash ts) key).map some := by
  have hsame := map_layer_zip hrecs
  rcases hout.layer key with ⟨hnone, hk⟩ | ⟨r, hr, hk⟩
  · have hsilent : stack (tableLayers hash ts) key = none := by
      rw [← map_snd_namedLayers, ← map_snd_ranked, ← hsame, stack_eq_none]
      intro L hL
      obtain ⟨p, hp, rfl⟩ := List.mem_map.1 hL
      obtain ⟨t, ht, rfl⟩ := List.mem_map.1 hp
      exact hnone t ht
    rw [hk]
    unfold view
    rw [hsilent]
    rfl
  · rw [hsame] at hr
    rw [hk, hagree r hr]

/-- For each key that no memtable has, the tables with the greatest file id that have it say
what the newest one says. -/
def RanksAgree (hash : Bytes → UInt64) (e : StorageEngine) : Prop :=
  ∀ key, stack e.memLayers key = none → ∀ r, Preferred (ranked (namedLayers hash e.sstables)) key r →
    r = view (tableLayers hash e.sstables) key

/-- They do if the numbers descend and no tie matters. -/
theorem TieHarmless.ranksAgree (htie : TieHarmless hash e) (hd : Descending e.sstables) : RanksAgree hash e := by
  intro key hmem r hr
  have hnames : DescendingNames ((namedLayers hash e.sstables).map Prod.fst) := by
    unfold namedLayers
    rw [List.map_map]
    exact (descending_iff e.sstables).1 hd
  rw [preferred_eq_view (rank_mono hnames) (htie key hmem) hr, map_snd_ranked, map_snd_namedLayers]

/-- A compaction that leaves the views of memtables and tables together as they are. -/
def MergePreserves (hash : Bytes → UInt64) (heaps : Heaps) (e : StorageEngine) (d : Disk) : Prop :=
  ∀ ins, openInputs e.sstables d = .ok ins →
    view (e.memLayers ++ [recordLayer (Compactor.mergedRecords heaps.compaction ins)]) =
      view (e.memLayers ++ tableLayers hash e.sstables)

/-- **Where ranks agree the merge preserves the live view.** -/
theorem RanksAgree.mergePreserves (hagree : RanksAgree hash e) (h : TablesOK hash e w.disk) :
    MergePreserves hash heaps e w.disk := by
  intro ins hopen
  obtain ⟨recs, hrecs, hreads⟩ := openInputs_reads h.live hopen
  have hout := Compactor.mergedRecords_spec heaps.compaction hreads
  funext key
  rw [view_append, view_append]
  cases hmem : stack e.memLayers key with
  | some r => rfl
  | none =>
    have hlayer := mergedLayer_eq hrecs hout (hagree key hmem)
    simp only
    unfold view
    rw [stack_cons, stack_nil, Option.or_none, hlayer]
    unfold view
    cases (stack (tableLayers hash e.sstables) key).join <;> rfl

theorem TieHarmless.mergePreserves (htie : TieHarmless hash e) (h : TablesOK hash e w.disk)
    (hd : Descending e.sstables) : MergePreserves hash heaps e w.disk :=
  (htie.ranksAgree hd).mergePreserves h

/-! ## The view after a compaction -/

theorem memLayers_compaction (hash : Bytes → UInt64) (heaps : Heaps) (io : CompactionIO) (e : StorageEngine)
    (w : World) : (triggerCompactionInternal hash heaps io e w).2.1.memLayers = e.memLayers := by
  have h := compaction_cases hash heaps io e w
  generalize triggerCompactionInternal hash heaps io e w = r at h
  cases h <;> rfl

/-- **A compaction whose merge preserves the view changes no live value**, however it ends. -/
theorem compaction_view (h : TablesOK hash e w.disk) (hmerge : MergePreserves hash heaps e w.disk)
    (io : CompactionIO) :
    (triggerCompactionInternal hash heaps io e w).2.1.liveValue hash = e.liveValue hash := by
  have hcases := compaction_cases hash heaps io e w
  generalize triggerCompactionInternal hash heaps io e w = r at hcases
  rw [liveValue_eq, liveValue_eq]
  cases hcases with
  | below _ => rfl
  | notOpened _ => rfl
  | nothing _ => rfl
  | notBuilt => rfl
  | notReplaced ins m' w' hm hr => rfl
  | notRead ins m' w' hm hr ho => rfl
  | done ins m' w' r hm hr hnew hpath hreads =>
    obtain ⟨recs, -, hout⟩ := h.merged_spec hm
    have hholds : r.Holds hash (Compactor.mergedRecords heaps.compaction ins) := ⟨hreads, hout.asc, hout.short⟩
    have hview := hmerge ins (inputDisk_of_opens hm)
    rw [← hholds.layer_eq] at hview
    exact hview

theorem maybeCompaction_view (h : TablesOK hash e w.disk)
    (hmerge : e.config.compactionThreshold.toNat ≤ e.sstables.length → MergePreserves hash heaps e w.disk)
    (io : CompactionIO) :
    (maybeTriggerCompactionInternal hash heaps io e w).2.1.liveValue hash = e.liveValue hash := by
  unfold maybeTriggerCompactionInternal
  split
  · rename_i hdue
    have hview := compaction_view h (hmerge hdue) io
    generalize triggerCompactionInternal hash heaps io e w = r at hview
    obtain ⟨o, e', w'⟩ := r
    cases o <;> exact hview
  · rfl

end LsmTree

import LsmTree.Proof.ScanCursor

/-!
# Range reads and the live view

* `merged_preferred`: a merged record is one of a source with the greatest generation.
* `scan_spec`: what `Scan` returns for an engine whose tables stand on disk, if the
  record of greatest generation is always the newest one.
* `scan_eq`: **`Scan` returns the live pairs in range**, in every state of a run without
  failing file operations, if no tie of file ids matters.
* `scan_eq_fails`: a tie that does.
-/

namespace LsmTree

open Base StorageEngine

variable {hash : Bytes → UInt64} {heaps : Heaps} {e : StorageEngine} {w : World} {d : Disk} {s : System}

namespace DBIterator

variable {ts : List Compactor.RankedTable} {W : List Item} {startKey endKey : Bytes}

/-- What a merged record says. -/
def Item.recorded (p : Item) : Option Bytes := answer p.2

/-- A record of a table from the start key on is among the items to merge. -/
theorem mem_cutItems {i : ℕ} (hi : i < ts.length) {r : SSTableRecord} (hr : r ∈ fromKey startKey ts[i].2) :
    ∃ L ∈ cutItems (fromKey startKey) ts, ((⟨r.key, ts[i].1, i⟩, (r.value, r.isDeleted)) : Item) ∈ L :=
  ⟨_, List.mem_mapIdx.2 ⟨i, hi, rfl⟩, List.mem_map_of_mem hr⟩

/-- An item to merge is a record of a table. -/
theorem of_mem_cutItems {L : List Item} (hL : L ∈ cutItems (fromKey startKey) ts) {p : Item} (hp : p ∈ L) :
    ∃ t ∈ ts, ∃ r ∈ fromKey startKey t.2, p.1.key = r.key ∧ p.1.generationId = t.1 ∧
    p.2 = (r.value, r.isDeleted) := by
  obtain ⟨i, hi, rfl⟩ := List.mem_mapIdx.1 hL
  obtain ⟨r, hr, rfl⟩ := List.mem_map.1 hp
  exact ⟨ts[i], List.getElem_mem hi, r, hr, rfl, rfl, rfl⟩

/-- **A merged record has the greatest generation** among the tables with its key. -/
theorem merged_preferred (hasc : ∀ t ∈ ts, Ascending SSTableRecord.key t.2)
    (hm : Merge.Merged order (cutItems (fromKey startKey) ts) W) {p : Item} (hp : p ∈ W) :
    startKey ≤ p.1.key ∧ Preferred (ts.map Compactor.RankedTable.layer) p.1.key p.recorded := by
  obtain ⟨L, hL, hpL⟩ := hm.mem p hp
  obtain ⟨t, ht, r, hr, hk, hg, hv⟩ := of_mem_cutItems hL hpL
  obtain ⟨hrt, hge⟩ := (mem_fromKey (hasc t ht)).1 hr
  refine ⟨hk ▸ hge, t.layer, List.mem_map_of_mem ht, ?_, ?_⟩
  · unfold Compactor.RankedTable.layer recordLayer Item.recorded
    simp only
    rw [(findKey_eq_some (hasc t ht)).2 ⟨hrt, hk.symm⟩, hv]
    rfl
  · intro t' ht' hne
    obtain ⟨u, hu, rfl⟩ := List.mem_map.1 ht'
    obtain ⟨y, hy⟩ : ∃ y, findKey SSTableRecord.key p.1.key u.2 = some y := by
      cases hf : findKey SSTableRecord.key p.1.key u.2 with
      | none =>
        refine absurd ?_ hne
        unfold Compactor.RankedTable.layer recordLayer
        simp only [hf]
        rfl
      | some y => exact ⟨y, rfl⟩
    obtain ⟨hyu, hyk⟩ := key_of_findKey hy
    obtain ⟨i, hi, rfl⟩ := List.mem_iff_getElem.1 hu
    have hyfrom : y ∈ fromKey startKey ts[i].2 := (mem_fromKey (hasc _ hu)).2 ⟨hyu, by rw [hyk, hk]; exact hge⟩
    obtain ⟨L', hL', hyL⟩ := mem_cutItems hi hyfrom
    have hrank := hm.rank_le hp hL' hyL hyk
    exact hrank.trans (le_of_eq hg)

/-- The live pairs shown are the merged records up to the end key that are no deletions. -/
theorem mem_livePairs_iff (hasc : Merge.Asc order W) (key value : Bytes) : (key, value) ∈ livePairs endKey W ↔
    ∃ p ∈ W, p.1.key = key ∧ p.2 = (value, false) ∧ (endKey = [] ∨ key ≤ endKey) := by
  have hmono : ∀ a b : Item, a.1.key < b.1.key → within endKey b = true → within endKey a = true := by
    intro a b hab hb
    unfold within at hb ⊢
    simp only [Bool.not_eq_true', Bool.and_eq_false_iff, decide_eq_false_iff_not, not_not, not_lt] at hb ⊢
    exact hb.imp id fun hle => hab.le.trans hle
  have hwithin : ∀ p : Item, within endKey p = true ↔ endKey = [] ∨ p.1.key ≤ endKey := by
    intro p
    unfold within
    simp only [Bool.not_eq_true', Bool.and_eq_false_iff, decide_eq_false_iff_not, not_not, not_lt]
  unfold livePairs
  rw [List.mem_filterMap]
  constructor
  · rintro ⟨⟨n, v, deleted⟩, hp, hpair⟩
    obtain ⟨hpW, hend⟩ := (mem_takeWhile_ascending hasc hmono).1 hp
    cases deleted with
    | true => exact absurd hpair (by simp)
    | false =>
      obtain ⟨rfl, rfl⟩ := Prod.mk.inj (Option.some.inj hpair)
      exact ⟨_, hpW, rfl, rfl, (hwithin _).1 hend⟩
  · rintro ⟨⟨n, v, deleted⟩, hpW, rfl, hv, hend⟩
    obtain ⟨rfl, rfl⟩ := Prod.mk.inj hv
    exact ⟨_, (mem_takeWhile_ascending hasc hmono).2 ⟨hpW, (hwithin _).2 hend⟩, rfl⟩

/-- **The live pairs shown are those of the view**, if records of greatest generation
are the newest. -/
theorem mem_livePairs (hasc : ∀ t ∈ ts, Ascending SSTableRecord.key t.2)
    (hm : Merge.Merged order (cutItems (fromKey startKey) ts) W)
    (hpref : ∀ key r, Preferred (ts.map Compactor.RankedTable.layer) key r →
      r = view (ts.map fun t => recordLayer t.2) key) (key value : Bytes) :
    (key, value) ∈ livePairs endKey W ↔
      startKey ≤ key ∧ (endKey = [] ∨ key ≤ endKey) ∧ view (ts.map fun t => recordLayer t.2) key = some value := by
  rw [mem_livePairs_iff hm.asc]
  constructor
  · rintro ⟨⟨n, v⟩, hpW, rfl, rfl, hend⟩
    obtain ⟨hstart, hpr⟩ := merged_preferred hasc hm hpW
    exact ⟨hstart, hend, (hpref _ _ hpr).symm⟩
  · rintro ⟨hstart, hend, hview⟩
    -- some table has the key, so the merge has it
    obtain ⟨t, ht, y, hy⟩ : ∃ t ∈ ts, ∃ y, findKey SSTableRecord.key key t.2 = some y := by
      by_contra hno
      have hnone : stack (ts.map fun t => recordLayer t.2) key = none := by
        rw [stack_eq_none]
        intro L hL
        obtain ⟨t, ht, rfl⟩ := List.mem_map.1 hL
        unfold recordLayer
        rw [Option.map_eq_none_iff]
        by_contra hsome
        obtain ⟨y, hy⟩ := Option.ne_none_iff_exists'.1 hsome
        exact hno ⟨t, ht, y, hy⟩
      unfold view at hview
      rw [hnone] at hview
      exact absurd hview (by simp)
    obtain ⟨hyt, hyk⟩ := key_of_findKey hy
    obtain ⟨i, hi, rfl⟩ := List.mem_iff_getElem.1 ht
    have hyfrom : y ∈ fromKey startKey ts[i].2 := (mem_fromKey (hasc _ ht)).2 ⟨hyt, hyk ▸ hstart⟩
    obtain ⟨L, hL, hyL⟩ := mem_cutItems hi hyfrom
    obtain ⟨⟨n, v, deleted⟩, hp, hk, -⟩ := hm.complete L hL _ hyL
    have hkey : n.key = key := hk.trans hyk
    obtain ⟨-, hpr⟩ := merged_preferred hasc hm hp
    rw [show (n, v, deleted).1.key = key from hkey] at hpr
    have hrecorded := (hpref _ _ hpr).trans hview
    cases deleted with
    | true => exact absurd hrecorded (by simp [Item.recorded, answer])
    | false =>
      obtain rfl : v = value := Option.some.inj hrecorded
      exact ⟨_, hp, hkey, rfl, hend⟩

theorem livePairs_ascending (hm : Merge.Merged order (cutItems (fromKey startKey) ts) W) (endKey : Bytes) :
    Ascending Prod.fst (livePairs endKey W) := by
  have hsub : (W.takeWhile (within endKey)).Sublist W := (List.takeWhile_prefix _).sublist
  refine List.Pairwise.filterMap _ (fun p q hlt x hx y hy => ?_) (hm.asc.sublist hsub)
  split at hx
  · exact absurd hx (by simp)
  · split at hy
    · exact absurd hy (by simp)
    · rw [← Option.some.inj hx, ← Option.some.inj hy]
      exact hlt

/-! ## Making an iterator -/

/-- The memtables of an iterator. -/
def memTables (lists : MemSlot → SkipList) (active immutable : Bool) : List Compactor.RankedTable :=
  (if active then [(2 ^ 64 - 1, (lists .active).records)] else []) ++
    (if immutable then [(2 ^ 64 - 2, (lists .immutable).records)] else [])

variable {lists : MemSlot → SkipList} {inputs : List CompactorInput}

theorem initSources_over (lists : MemSlot → SkipList) (active immutable : Bool)
    (h : List.Forall₂ Compactor.ReadsTable inputs ts) :
    List.Forall₂ (SourceOf lists) (memTables lists active immutable ++ ts)
      (initSources active immutable inputs) := by
  have htables : List.Forall₂ (SourceOf lists) ts (inputs.filterMap fun input =>
      input.iterator.map fun it => (⟨input.fileId, none, some it⟩ : DBIteratorSource)) := by
    induction h with
    | nil => exact .nil
    | cons hr _ ih =>
      rename_i input t _ _ _
      obtain ⟨it, f, hit, hopen⟩ := hr.opened
      simp only [List.filterMap_cons, hit, Option.map_some, hr.fileId]
      exact .cons (.sst t.1 t.2 it (hopen.over hr.short) hr.asc) ih
  unfold memTables initSources
  cases active <;> cases immutable
  · exact htables
  · exact .cons (.mem _ _ _) htables
  · exact .cons (.mem _ _ _) htables
  · exact .cons (.mem _ _ _) (.cons (.mem _ _ _) htables)

/-- **A new iterator, sought to its start key.** -/
theorem new_cursor (pq : PriorityQueue HeapNode order.gt) (lists : MemSlot → SkipList) (active immutable : Bool)
    (h : List.Forall₂ Compactor.ReadsTable inputs ts) (startKey endKey : Bytes) :
    let it : DBIterator pq := DBIterator.new lists active immutable inputs startKey endKey
    ∃ ns W, Merge.Merged order (cutItems (fromKey startKey) (memTables lists active immutable ++ ts)) W ∧
      W.length ≤ bound (memTables lists active immutable ++ ts) ns ∧
      Cursor lists (memTables lists active immutable ++ ts) ns
        (if startKey ≠ [] then it.seek lists startKey else it.seekToFirst lists) (livePairs endKey W) := by
  intro it
  obtain ⟨ns, hover⟩ := Over.of_forall₂ (initSources_over lists active immutable h) pq.empty
  have hstate : Over lists (memTables lists active immutable ++ ts) ns
      (⟨startKey, endKey, ⟨initSources active immutable inputs, pq.empty⟩, [], [], false⟩ : DBIterator pq).state :=
    hover
  -- the constructor seeks the first key, and the scan then seeks its start
  obtain ⟨_, -, -, hcur, hs, he⟩ := hstate.seekToFirst
  have hs' : it.startKey = startKey := hs
  have he' : it.endKey = endKey := he
  refine ⟨ns, ?_⟩
  by_cases hstart : startKey = []
  · obtain ⟨W, hm, hb, hcur', -, -⟩ := hcur.ranges.seekToFirst
    rw [if_neg (by simp [hstart])]
    change Merge.Merged order (cutItems (fromKey it.startKey) _) W at hm
    rw [hs'] at hm
    change Cursor lists _ ns (it.seekToFirst lists) (livePairs it.endKey W) at hcur'
    rw [he'] at hcur'
    exact ⟨W, hm, hb, hcur'⟩
  · obtain ⟨W, hm, hb, hcur', -⟩ := hcur.ranges.seek startKey
    have htarget : it.seekTarget startKey = startKey := by
      unfold seekTarget
      rw [hs', if_neg (by simp)]
    rw [if_pos hstart]
    change Merge.Merged order (cutItems (fromKey (it.seekTarget startKey)) _) W at hm
    rw [htarget] at hm
    change Cursor lists _ ns (it.seek lists startKey) (livePairs it.endKey W) at hcur'
    rw [he'] at hcur'
    exact ⟨W, hm, hb, hcur'⟩

end DBIterator

open DBIterator

/-! ## `Scan` -/

/-- The pairs in range that the view has live, ascending. -/
structure LivePairs (V : Bytes → Option Bytes) (startKey endKey : Bytes) (L : List (Bytes × Bytes)) : Prop where
  asc : Ascending Prod.fst L
  mem : ∀ key value, (key, value) ∈ L ↔ startKey ≤ key ∧ (endKey = [] ∨ key ≤ endKey) ∧ V key = some value

/-- What the memtables and tables of an engine say, with the generations of an iterator. -/
def scanLayers (hash : Bytes → UInt64) (e : StorageEngine) : List (ℕ × Layer Bytes Bytes) :=
  (e.active.map fun m => (2 ^ 64 - 1, m.layer)).toList ++
  (e.immutable.map fun m => (2 ^ 64 - 2, m.layer)).toList ++
    ranked (namedLayers hash e.sstables)

theorem map_snd_scanLayers (e : StorageEngine) : (scanLayers hash e).map Prod.snd = e.layers hash := by
  unfold scanLayers layers memLayers
  rw [List.map_append, List.map_append, map_snd_ranked, map_snd_namedLayers]
  cases e.active <;> cases e.immutable <;> rfl

/-- The tables that an iterator ranges over say what the memtables and tables of the engine say. -/
theorem TablesOK.scanTables (h : TablesOK hash e d) : ∃ inputs ts, openInputs e.sstables d = .ok inputs ∧
    List.Forall₂ Compactor.ReadsTable inputs ts ∧
    (memTables e.memList e.active.isSome e.immutable.isSome ++ ts).map Compactor.RankedTable.layer =
      scanLayers hash e := by
  obtain ⟨inputs, hopen⟩ := openInputs_onDisk h.live
  obtain ⟨recs, hrecs, hreads⟩ := openInputs_reads h.live hopen
  refine ⟨inputs, (fileIds e.sstables).zip recs, hopen, hreads, ?_⟩
  have htables : ((fileIds e.sstables).zip recs).map Compactor.RankedTable.layer =
      ranked (namedLayers hash e.sstables) := map_layer_zip hrecs
  rw [List.map_append, htables]
  unfold scanLayers memTables StorageEngine.memList
  cases ha : e.active with
  | none =>
    cases hi : e.immutable with
    | none => rfl
    | some m =>
      simp [Compactor.RankedTable.layer, ← MemTable.recordLayer_records, SkipList.records, MemTable.records]
  | some m =>
    cases hi : e.immutable with
    | none =>
      simp [Compactor.RankedTable.layer, ← MemTable.recordLayer_records, SkipList.records, MemTable.records]
    | some m' =>
      simp [Compactor.RankedTable.layer, ← MemTable.recordLayer_records, SkipList.records, MemTable.records]

/-- Their view is the live one. -/
theorem view_scanTables {ts : List Compactor.RankedTable}
    (h : ts.map Compactor.RankedTable.layer = scanLayers hash e) :
    view (ts.map fun t => recordLayer t.2) = e.liveValue hash := by
  rw [liveValue_eq, ← map_snd_scanLayers, ← h, List.map_map]
  rfl

/-- **A new iterator** of the engine ranges over the same tables for every start key. -/
theorem TablesOK.newIterator (h : TablesOK hash e d) : ∃ ts,
    ts.map Compactor.RankedTable.layer = scanLayers hash e ∧ (∀ t ∈ ts, Ascending SSTableRecord.key t.2) ∧
    ∀ (heaps : Heaps) (startKey endKey : Bytes), ∃ ns W it, Merge.Merged order (cutItems (fromKey startKey) ts) W ∧
      e.newIterator heaps startKey endKey d = .ok it ∧ Cursor e.memList ts ns it (livePairs endKey W) ∧
      (livePairs endKey W).length < it.rounds e.memList + 1 := by
  obtain ⟨inputs, tables, hopen, hreads, hlayers⟩ := h.scanTables
  refine ⟨_, hlayers, fun t ht => ?_, fun heaps startKey endKey => ?_⟩
  · obtain ⟨i, hi, rfl⟩ := List.mem_iff_getElem.1 ht
    have hsrc := initSources_over e.memList e.active.isSome e.immutable.isSome hreads
    exact ((List.forall₂_iff_get.1 hsrc).2 i hi (hsrc.length_eq ▸ hi)).ascending
  · obtain ⟨ns, W, hm, hb, hcur⟩ := new_cursor heaps.scan e.memList e.active.isSome e.immutable.isSome hreads
      startKey endKey
    refine ⟨ns, W, _, hm, ?_, hcur, ?_⟩
    · unfold StorageEngine.newIterator
      rw [hopen]
      rfl
    · have htake := (List.takeWhile_prefix (within endKey) (l := W)).length_le
      rw [hcur.ranges.rounds]
      unfold livePairs
      exact Nat.lt_succ_of_le (((List.length_filterMap_le _ _).trans htake).trans hb)

/-- `Scan` collects what the new iterator has to show. -/
theorem scan_of_cursor {heaps : Heaps} {it : DBIterator heaps.scan} {ts : List Compactor.RankedTable} {ns : ℕ → ℕ}
    {startKey endKey : Bytes} {L : List (Bytes × Bytes)} (hnew : e.newIterator heaps startKey endKey d = .ok it)
    (hcur : Cursor e.memList ts ns it L) (hlen : L.length < it.rounds e.memList + 1) (limit : ℕ) :
    e.scan heaps startKey endKey limit d = .ok (upTo limit L) := by
  unfold StorageEngine.scan
  rw [hnew]
  exact congrArg Except.ok (collect_eq limit hcur hlen)

/-- **What `Scan` returns** if the record of greatest generation is the newest one. -/
theorem scan_spec (heaps : Heaps) (h : TablesOK hash e d)
    (hpref : ∀ key r, Preferred (scanLayers hash e) key r → r = e.liveValue hash key)
    (startKey endKey : Bytes) (limit : ℕ) :
    ∃ L, LivePairs (e.liveValue hash) startKey endKey L ∧
      e.scan heaps startKey endKey limit d = .ok (if limit = 0 then L else L.take limit) := by
  obtain ⟨ts, hlayers, hasc, hits⟩ := h.newIterator
  obtain ⟨ns, W, it, hm, hnew, hcur, hlen⟩ := hits heaps startKey endKey
  have hview : view (ts.map fun t => recordLayer t.2) = e.liveValue hash := view_scanTables hlayers
  refine ⟨livePairs endKey W, ⟨livePairs_ascending hm endKey, fun key value => ?_⟩, ?_⟩
  · rw [← hview]
    refine mem_livePairs hasc hm (fun key r hpr => ?_) key value
    rw [hview]
    rw [hlayers] at hpr
    exact hpref key r hpr
  · exact scan_of_cursor hnew hcur hlen limit

/-- **Without harmful ties the record of greatest generation is the newest one.** -/
theorem Steady.preferred (h : Steady hash e d) (htie : TieHarmless hash e) {key : Bytes} {r : Option Bytes}
    (hr : Preferred (scanLayers hash e) key r) : r = e.liveValue hash key := by
  obtain ⟨m, ha, -⟩ := h.active
  have hlayers : scanLayers hash e = (2 ^ 64 - 1, m.layer) :: ranked (namedLayers hash e.sstables) := by
    unfold scanLayers
    rw [ha, h.immutable]
    rfl
  -- the names go down from table to table, and so do the ids
  have hnames : DescendingNames ((namedLayers hash e.sstables).map Prod.fst) := by
    unfold namedLayers
    rw [List.map_map]
    exact (descending_iff e.sstables).1 h.descending
  have hcounter : e.idCounter.toNat < 2 ^ 64 := e.idCounter.toNat_lt
  have hids : ∀ t ∈ namedLayers hash e.sstables, extractFileId t.1 < e.idCounter.toNat := by
    intro t ht
    obtain ⟨r, hr, rfl⟩ := List.mem_map.1 ht
    exact (h.tables.live r hr).named.extractFileId hcounter.le
  have hlt : ∀ b ∈ ranked (namedLayers hash e.sstables), b.1 < 2 ^ 64 - 1 := by
    intro b hb
    have hrank := rank_lt hnames hids b hb
    omega
  have hmono : (scanLayers hash e).Pairwise fun a b => b.1 ≤ a.1 := by
    rw [hlayers]
    exact List.pairwise_cons.2 ⟨fun b hb => (hlt b hb).le, rank_mono hnames⟩
  -- the memtable has a rank of its own, and ties among the tables are harmless
  have hfree : TieFree (scanLayers hash e) key := by
    rw [hlayers]
    refine TieFree.cons hlt fun hm => htie key ?_
    unfold memLayers
    rw [ha, h.immutable]
    change (m.layer key).or (stack [] key) = none
    rw [show m.layer key = none from hm]
    rfl
  rw [preferred_eq_view hmono hfree hr, map_snd_scanLayers, liveValue_eq]

/-- **`Scan` returns the live pairs in range**, up to the limit. -/
theorem scan_eq {config : Config} (hopen : StorageEngine.new config .ok (World.ofDisk Disk.empty) = (.ok e, w))
    {rs : List Request} (hshort : ∀ r ∈ rs, r.Short) (hrun : runRequests hash heaps rs ⟨e, w⟩ = some s)
    (htie : TieHarmless hash s.engine) (startKey endKey : Bytes) (limit : ℕ) :
    ∃ L, LivePairs (s.engine.liveValue hash) startKey endKey L ∧
      s.engine.scan heaps startKey endKey limit s.world.disk = .ok (if limit = 0 then L else L.take limit) := by
  have hs := runRequests_steady hshort (steady_fresh hopen) hrun
  exact scan_spec heaps hs.tables (fun key r hr => hs.preferred htie hr) startKey endKey limit

/-- A written key in front of a compacted table. -/
theorem scan_eq_untied : ∃ s,
    runRequests (fun _ => 0) firstInHeaps untiedRequests ⟨unloggedEngine 1, .ofDisk .empty⟩ = some s ∧
      ∃ L, LivePairs (s.engine.liveValue fun _ => 0) (bytes "a") [] L ∧
        s.engine.scan firstInHeaps (bytes "a") [] 2 s.world.disk = .ok (L.take 2) := by
  have hopen : StorageEngine.new (unloggedEngine 1).config .ok (World.ofDisk Disk.empty) =
      (.ok (unloggedEngine 1), .ofDisk .empty) := rfl
  have hshort : ∀ r ∈ untiedRequests, r.Short := by decide +kernel
  have hsome : (runRequests (fun _ => 0) firstInHeaps untiedRequests ⟨unloggedEngine 1, .ofDisk .empty⟩).any
      (fun s => decide (fileIds s.engine.sstables).Nodup) = true := by decide +kernel
  obtain ⟨s, hrun, hnodup⟩ := Option.any_eq_true _ _ |>.1 hsome
  obtain ⟨L, hL, hscan⟩ := scan_eq hopen hshort hrun (TieHarmless.of_nodup (of_decide_eq_true hnodup))
    (bytes "a") [] 2
  exact ⟨s, hrun, L, hL, hscan⟩

/-- Key `k` is in table 0 and, behind another key, in table 1. -/
def tiedTables : List Request := tiedRequests ++ [.flushMemTable]

/-- The iterator takes the two tables for one generation and shows the old value. -/
theorem scan_eq_fails :
    ¬ ∀ (hash : Bytes → UInt64) (heaps : Heaps) (config : Config) (e : StorageEngine) (w : World)
      (rs : List Request) (s : System), StorageEngine.new config .ok (World.ofDisk Disk.empty) = (.ok e, w) →
      (∀ r ∈ rs, r.Short) → runRequests hash heaps rs ⟨e, w⟩ = some s →
      ∀ (startKey endKey : Bytes) (limit : ℕ), ∃ L, LivePairs (s.engine.liveValue hash) startKey endKey L ∧
        s.engine.scan heaps startKey endKey limit s.world.disk = .ok (if limit = 0 then L else L.take limit) := by
  intro hall
  have hopen : StorageEngine.new (unloggedEngine 4).config .ok (World.ofDisk Disk.empty) =
      (.ok (unloggedEngine 4), .ofDisk .empty) := rfl
  have hsome : (runRequests (fun _ => 0) firstInHeaps tiedTables ⟨unloggedEngine 4, .ofDisk .empty⟩).any (fun s =>
        decide ((s.engine.scan firstInHeaps [] [] 0 s.world.disk).toOption =
          some [(bytes "a", bytes "x"), (bytes "k", bytes "old")]) &&
          decide (s.engine.liveValue (fun _ => 0) (bytes "k") = some (bytes "new"))) = true := by decide +kernel
  obtain ⟨s, hrun, hs⟩ := Option.any_eq_true _ _ |>.1 hsome
  obtain ⟨hscan, hlive⟩ := Bool.and_eq_true_iff.1 hs
  have hshort : ∀ r ∈ tiedTables, r.Short := by decide +kernel
  obtain ⟨L, hL, hok⟩ := hall _ _ _ _ _ tiedTables s hopen hshort hrun [] [] 0
  rw [hok] at hscan
  obtain rfl : L = [(bytes "a", bytes "x"), (bytes "k", bytes "old")] := by simpa [Except.toOption] using hscan
  have hold := ((hL.mem (bytes "k") (bytes "old")).1 (List.mem_cons_of_mem _ List.mem_cons_self)).2.2
  rw [of_decide_eq_true hlive] at hold
  exact absurd hold (by decide)

end LsmTree

import LsmTree.Base.PrefixBlock
import LsmTree.Proof.AnyRun
import LsmTree.Proof.CursorCalls

/-!
# Prefix scans

The keys that start with a prefix stand together in a scan, so the loop of `PrefixScan`
may end at the first one that does not.

* `prefixScan_of_cursor`: `PrefixScan` on a new iterator.
* `listed_filter`: the pairs shown from the prefix on and all pairs shown have the same
  ones with the prefix.
* `prefixScan_filters`: **`PrefixScan` is a filter of the full scan**, in every state of a
  run with short keys.
* `prefixScan_filters_fails`: a key of `2^32` bytes.
-/

namespace LsmTree

open Base StorageEngine DBIterator

variable {hash : Bytes → UInt64} {heaps : Heaps} {e : StorageEngine} {w : World} {d : Disk} {s : System}
  {ts : List Compactor.RankedTable} {ns : ℕ → ℕ} {pre : Bytes}

/-- `PrefixScan` returns the first `limit` of those pairs of `Scan(startKey, "", 0)` whose
key starts with the prefix. -/
def FiltersScan (heaps : Heaps) (s : System) (startKey pre : Bytes) (limit : ℕ) : Prop :=
  ∃ L, s.engine.scan heaps startKey [] 0 s.world.disk = .ok L ∧
    s.engine.prefixScan heaps pre limit s.world.disk = .ok (upTo limit (L.filter fun x => pre.isPrefixOf x.1))

/-- The file ids of the tables are different, and none is the generation that a memtable has
in an iterator. -/
structure IdsApart (e : StorageEngine) : Prop where
  nodup : (fileIds e.sstables).Nodup
  active : 2 ^ 64 - 1 ∉ fileIds e.sstables
  immutable : 2 ^ 64 - 2 ∉ fileIds e.sstables

instance (e : StorageEngine) : Decidable (IdsApart e) :=
  decidable_of_iff ((fileIds e.sstables).Nodup ∧ 2 ^ 64 - 1 ∉ fileIds e.sstables ∧ 2 ^ 64 - 2 ∉ fileIds e.sstables)
    ⟨fun h => ⟨h.1, h.2.1, h.2.2⟩, fun h => ⟨h.nodup, h.active, h.immutable⟩⟩

/-- Then the tables of an iterator have different generations. -/
theorem IdsApart.nodup_layers (h : IdsApart e) : ((scanLayers hash e).map Prod.fst).Nodup := by
  unfold scanLayers
  rw [List.map_append, List.map_append, ← fileIds_eq]
  cases e.active <;> cases e.immutable
  · exact h.nodup
  · exact List.nodup_cons.2 ⟨h.immutable, h.nodup⟩
  · exact List.nodup_cons.2 ⟨h.active, h.nodup⟩
  · refine List.nodup_cons.2 ⟨?_, List.nodup_cons.2 ⟨h.immutable, h.nodup⟩⟩
    exact List.not_mem_cons_of_ne_of_not_mem (show (2 ^ 64 - 1 : ℕ) ≠ 2 ^ 64 - 2 by decide) h.active

/-! ## A scan from the prefix on -/

/-- `PrefixScan` collects what the new iterator has to show, up to the first key without
the prefix. -/
theorem prefixScan_of_cursor {it : DBIterator heaps.scan} {L : List (Bytes × Bytes)}
    (hnew : e.newIterator heaps pre [] d = .ok it) (hcur : Cursor e.memList ts ns it L)
    (hlen : L.length < it.rounds e.memList + 1) (limit : ℕ) :
    e.prefixScan heaps pre limit d = .ok (upTo limit (L.takeWhile fun x => pre.isPrefixOf x.1)) := by
  unfold StorageEngine.prefixScan
  rw [hnew]
  exact congrArg Except.ok (collectPrefix_eq pre limit [] hcur hlen (Or.inr (Nat.zero_le _)))

/-- The pairs with the prefix are among those from the prefix on. -/
theorem listed_filter {L L' : List (Bytes × Bytes)} (h : Listed ts [] [] (fun key => pre ≤ key) L)
    (h' : Listed ts [] [] (fun _ => True) L') :
    L.filter (fun x => pre.isPrefixOf x.1) = L'.filter fun x => pre.isPrefixOf x.1 := by
  refine (h.asc.filter _).ext_mem (h'.asc.filter _) fun x => ?_
  rw [List.mem_filter, List.mem_filter, h.mem, h'.mem, List.isPrefixOf_iff_prefix]
  constructor
  · rintro ⟨⟨-, hrest⟩, hpre⟩
    exact ⟨⟨trivial, hrest⟩, hpre⟩
  · rintro ⟨⟨-, hrest⟩, hpre⟩
    exact ⟨⟨prefix_le hpre, hrest⟩, hpre⟩

/-! ## The theorem -/

/-- On tables that stand on disk. -/
theorem TablesOK.filtersScan (h : TablesOK hash s.engine s.world.disk) (heaps : Heaps) (pre : Bytes) (limit : ℕ) :
    FiltersScan heaps s pre pre limit ∧ (IdsApart s.engine → FiltersScan heaps s [] pre limit) := by
  obtain ⟨ts, hlayers, hasc, hits⟩ := h.newIterator
  obtain ⟨ns, W, it, hm, hnew, hcur, hlen⟩ := hits heaps pre []
  have hfrom : ∀ x ∈ livePairs [] W, pre ≤ x.1 := by
    intro x hx
    obtain ⟨p, hp, hk, -⟩ := (mem_livePairs_iff hm.asc x.1 x.2).1 hx
    rw [← hk]
    exact (merged_preferred hasc hm hp).1
  have hblock := takeWhile_prefix (livePairs_ascending hm []) hfrom
  have hscan := scan_of_cursor hnew hcur hlen 0
  have hprefix := prefixScan_of_cursor hnew hcur hlen limit
  rw [hblock] at hprefix
  refine ⟨⟨_, hscan, hprefix⟩, fun hids => ?_⟩
  obtain ⟨ns₀, W₀, it₀, hm₀, hnew₀, hcur₀, hlen₀⟩ := hits heaps [] []
  have hnodup : (ts.map Prod.fst).Nodup := by
    have hlayer : ts.map Prod.fst = (scanLayers hash s.engine).map Prod.fst := by
      rw [← hlayers, List.map_map]
      rfl
    rw [hlayer]
    exact hids.nodup_layers
  have hlisted : Listed ts [] [] (fun key => pre ≤ key) (livePairs [] W) :=
    listed_livePairs hasc hnodup hm fun key => (and_iff_right (prefix_le List.nil_prefix)).symm
  have hlisted₀ : Listed ts [] [] (fun _ => True) (livePairs [] W₀) :=
    listed_livePairs hasc hnodup hm₀ fun key => (iff_of_eq (and_true _)).symm
  rw [listed_filter hlisted hlisted₀] at hprefix
  exact ⟨_, scan_of_cursor hnew₀ hcur₀ hlen₀ 0, hprefix⟩

/-- **`PrefixScan` is a filter of the full scan.** -/
theorem prefixScan_filters {config : Config} (hopen : StorageEngine.new config .ok (World.ofDisk Disk.empty) =
    (.ok e, w)) {ops : List Op} (hrun : runAny hash heaps ops ⟨e, w⟩ = some s) (pre : Bytes) (limit : ℕ) :
    FiltersScan heaps s pre pre limit ∧ (IdsApart s.engine → FiltersScan heaps s [] pre limit) :=
  (runAny_tables (steady_fresh hopen).tables hrun).filtersScan heaps pre limit

/-- Two keys with the prefix, one of them in a table, and one without. -/
def samplePuts : List Op :=
  [.put (bytes "ab") (bytes "1") 0 .ok .ok, .put (bytes "b") (bytes "2") 0 .ok .ok, .flushMemTable .ok,
    .put (bytes "a") (bytes "3") 0 .ok .ok]

theorem prefixScan_filters_sample : ∃ s,
    runAny (fun _ => 0) firstInHeaps samplePuts ⟨unloggedEngine 4, .ofDisk .empty⟩ = some s ∧
      FiltersScan firstInHeaps s (bytes "a") (bytes "a") 1 ∧ FiltersScan firstInHeaps s [] (bytes "a") 1 := by
  have hopen : StorageEngine.new (unloggedEngine 4).config .ok (World.ofDisk Disk.empty) =
      (.ok (unloggedEngine 4), .ofDisk .empty) := rfl
  have hsome : (runAny (fun _ => 0) firstInHeaps samplePuts ⟨unloggedEngine 4, .ofDisk .empty⟩).any
      (fun s => decide (IdsApart s.engine)) = true := by decide +kernel
  obtain ⟨s, hrun, hids⟩ := Option.any_eq_true _ _ |>.1 hsome
  obtain ⟨hfrom, hall⟩ := prefixScan_filters hopen hrun (bytes "a") 1
  exact ⟨s, hrun, hfrom, hall (of_decide_eq_true hids)⟩

/-! ## A key of `2^32` bytes

Its length is written as 0, so the table has an empty key between two that start with `a`. -/

/-- A key whose length the format takes for 0 is written as the empty one. -/
theorem SSTableBuilder.add_cut {b : SSTableBuilder} {key value : Bytes} {isDeleted : Bool}
    (hkey : key.length % 2 ^ 32 = 0) (hcount : b.entryCount % kSparseIndexInterval ≠ 0) :
    b.add (fun _ => 0) key value isDeleted = b.add (fun _ => 0) [] value isDeleted := by
  have hwrite : writeRecord key value isDeleted b.file = writeRecord [] value isDeleted b.file := by
    unfold writeRecord
    rw [hkey]
    rfl
  unfold add
  simp only [hwrite, if_neg hcount]
  rfl

/-- The immutable memtable makes no difference where the new table opens. -/
theorem install_slot {io : FlushIO} {path : Bytes} {e : StorageEngine} {w : World} {r : SSTableReader}
    (hr : openReader io.readerOpens path w.disk = .ok r) (slot : Option MemTable) :
    install io path { e with immutable := slot } w = install io path e w := by
  unfold install
  rw [hr]
  rfl

/-- The state after a call that returns. -/
def ended : Outcome Unit × StorageEngine × World → Option System
  | (.returned _, e, w) => some ⟨e, w⟩
  | _ => none

/-- The flush of what the builder `b` holds. -/
def flushOf (hash : Bytes → UInt64) (heaps : Heaps) (b : SSTableBuilder) (e : StorageEngine) (w : World) :
    Option System :=
  match b.commit (w.perform (.tableCreate e.flushPath)) with
  | (true, _, w) => ended (installTable hash heaps .ok e.flushPath
      { e with active := none, immutable := none, idCounter := e.idCounter + 1 } w)
  | (false, _, _) => none

theorem flushOf_active (b : SSTableBuilder) (e : StorageEngine) (slot : Option MemTable) (w : World) :
    flushOf hash heaps b { e with active := slot } w = flushOf hash heaps b e w := rfl

/-- Two memtables that give the builder the same entries are flushed to the same state. -/
theorem ended_flush {e : StorageEngine} {m : MemTable} {b : SSTableBuilder} {w : World} (ha : e.active = some m)
    (hne : m.empty = false) (hadd : addEntries hash m.markImmutable (SSTableBuilder.new e.flushPath
      FlushIO.ok.build.opens FlushIO.ok.build.budget) = b) :
    ended (flushMemTableInternal hash heaps .ok e w) = flushOf hash heaps b e w := by
  rw [flushMemTableInternal_eq, flushTable_eq ha hne, hadd, if_pos (show FlushIO.ok.build.opens = true from rfl)]
  unfold flushOf
  generalize b.commit (w.perform (.tableCreate e.flushPath)) = r
  obtain ⟨ok, b', w'⟩ := r
  cases ok with
  | false => rfl
  | true =>
    simp only
    rw [installTable_eq]
    cases hr : openReader FlushIO.ok.readerOpens e.flushPath w'.disk with
    | error what =>
      unfold install
      rw [hr]
      rfl
    | ok r =>
      -- the flush drops the memtable as soon as the new table is open
      have hslot := install_slot (e := { e with active := none, immutable := none, idCounter := e.idCounter + 1 })
        hr (some m.markImmutable)
      rw [show install .ok e.flushPath (e.moved m) w' = _ from hslot]
      generalize install FlushIO.ok e.flushPath _ w' = r'
      obtain ⟨o, e', w''⟩ := r'
      cases o <;> rfl

/-- A `Put` that fills the write buffer. -/
theorem run_put_full {e : StorageEngine} {m : MemTable} {w : World} {key value : Bytes} (ha : e.active = some m)
    (hm : m.isImmutable = false) (hwal : m.wal = false) (hroom : System.HasRoom ⟨e, w⟩)
    (hfull : e.config.writeBufferSize ≤ (m.applyPut key value).approxMemoryUsage) :
    (Request.put key value 0).run hash heaps ⟨e, w⟩ =
      ended (flushMemTableInternal hash heaps .ok { e with active := some (m.applyPut key value) } w) := by
  unfold Request.run
  rw [if_pos hroom]
  rw [Request.op, step_put_ok ha hm, if_pos hfull]
  unfold MemTable.writeWorld
  simp only [hwal, Bool.false_eq_true, if_false]
  generalize flushMemTableInternal hash heaps .ok { e with active := some (m.applyPut key value) } w = r
  obtain ⟨o, e', w'⟩ := r
  cases o <;> rfl

def twoRequests : List Request := [.put (bytes "a") (bytes "1") 0, .put (bytes "ab") (bytes "2") 0]

def twoKeys : MemTable := ((MemTable.blank false).applyPut (bytes "a") (bytes "1")).applyPut (bytes "ab")
    (bytes "2")

def twoEngine : StorageEngine := { unloggedEngine 4 with active := some twoKeys }

/-- What the flush of the three writes, if the table has an empty key in place of the long one. -/
def cutBuilder : SSTableBuilder :=
  [(bytes "a", bytes "1"), ([], bytes "3"), (bytes "ab", bytes "2")].foldl
    (fun b x => (b.add (fun _ => 0) x.1 x.2 false).2) (.new twoEngine.flushPath true none)

/-- The long key stands between the two, whatever is behind its first two bytes. -/
theorem chain_long (rest : Bytes) : (twoKeys.applyPut (bytes "aa" ++ rest) (bytes "3")).list.chain =
    [⟨bytes "a", bytes "1", .kTypeValue⟩, ⟨bytes "aa" ++ rest, bytes "3", .kTypeValue⟩,
      ⟨bytes "ab", bytes "2", .kTypeValue⟩] := by
  rfl

theorem usage_long {rest : Bytes} (hrest : rest.length = 2 ^ 32 - 2) :
    (unloggedEngine 4).config.writeBufferSize ≤
      (twoKeys.applyPut (bytes "aa" ++ rest) (bytes "3")).approxMemoryUsage := by
  have hlen : (bytes "aa" ++ rest).length = 2 ^ 32 := by
    rw [List.length_append, hrest]
    rfl
  change _ ≤ twoKeys.approxMemoryUsage + MemTable.estimateNodeMemory (bytes "aa" ++ rest) (bytes "3")
  unfold MemTable.estimateNodeMemory
  rw [hlen]
  decide +kernel

theorem addEntries_long {rest : Bytes} (hrest : rest.length = 2 ^ 32 - 2) :
    addEntries (fun _ => 0) (twoKeys.applyPut (bytes "aa" ++ rest) (bytes "3")).markImmutable
      (SSTableBuilder.new twoEngine.flushPath true none) = cutBuilder := by
  have hlen : (bytes "aa" ++ rest).length % 2 ^ 32 = 0 := by
    rw [List.length_append, hrest]
    rfl
  unfold addEntries
  rw [show (twoKeys.applyPut (bytes "aa" ++ rest) (bytes "3")).markImmutable.list.chain = _ from chain_long rest]
  simp only [List.foldl_cons, List.foldl_nil]
  rw [SSTableBuilder.add_cut hlen (by decide +kernel)]
  rfl

theorem runRequests_long {rest : Bytes} (hrest : rest.length = 2 ^ 32 - 2) :
    runRequests (fun _ => 0) firstInHeaps (twoRequests ++ [.put (bytes "aa" ++ rest) (bytes "3") 0])
      ⟨unloggedEngine 4, .ofDisk .empty⟩ =
      flushOf (fun _ => 0) firstInHeaps cutBuilder twoEngine (.ofDisk .empty) := by
  have hfirst : twoRequests.foldlM (Request.run (fun _ => 0) firstInHeaps) ⟨unloggedEngine 4, .ofDisk .empty⟩ =
      some ⟨twoEngine, .ofDisk .empty⟩ := rfl
  have hne : (twoKeys.applyPut (bytes "aa" ++ rest) (bytes "3")).empty = false := by
    unfold MemTable.empty SkipList.empty
    rw [chain_long]
    rfl
  unfold runRequests
  rw [List.foldlM_append, hfirst]
  simp only [List.foldlM_cons, List.foldlM_nil, Option.bind_eq_bind, Option.bind_some, Option.pure_def]
  rw [Option.bind_fun_some, run_put_full (e := twoEngine) (m := twoKeys) rfl rfl rfl (by decide)
    (usage_long hrest),
    ended_flush (e := { twoEngine with active := _ }) rfl hne (addEntries_long hrest), flushOf_active]

/-- A key of `2^32` bytes. -/
theorem prefixScan_filters_fails :
    ¬ ∀ (hash : Bytes → UInt64) (heaps : Heaps) (config : Config) (e : StorageEngine) (w : World)
      (rs : List Request) (s : System), StorageEngine.new config .ok (World.ofDisk Disk.empty) = (.ok e, w) →
      runRequests hash heaps rs ⟨e, w⟩ = some s → ∀ (pre : Bytes) (limit : ℕ), FiltersScan heaps s pre pre limit ∧
        ((fileIds s.engine.sstables).Nodup → FiltersScan heaps s [] pre limit) := by
  intro hall
  -- only the length of the rest matters, so the evaluation below never builds it
  obtain ⟨rest, hrest⟩ : ∃ rest : Bytes, rest.length = 2 ^ 32 - 2 :=
    ⟨List.replicate (2 ^ 32 - 2) 97, List.length_replicate⟩
  have hopen : StorageEngine.new (unloggedEngine 4).config .ok (World.ofDisk Disk.empty) =
      (.ok (unloggedEngine 4), .ofDisk .empty) := rfl
  have hsome : (flushOf (fun _ => 0) firstInHeaps cutBuilder twoEngine (.ofDisk .empty)).any (fun s =>
      decide ((s.engine.scan firstInHeaps (bytes "a") [] 0 s.world.disk).toOption =
          some [(bytes "a", bytes "1"), ([], bytes "3"), (bytes "ab", bytes "2")]) &&
        decide ((s.engine.prefixScan firstInHeaps (bytes "a") 0 s.world.disk).toOption =
          some [(bytes "a", bytes "1")])) = true := by decide +kernel
  obtain ⟨s, hs, hscans⟩ := Option.any_eq_true _ _ |>.1 hsome
  obtain ⟨hscan, hprefix⟩ := Bool.and_eq_true_iff.1 hscans
  obtain ⟨L, hL, hfilter⟩ := (hall _ _ _ _ _ _ s hopen ((runRequests_long hrest).trans hs) (bytes "a") 0).1
  rw [hL] at hscan
  rw [hfilter] at hprefix
  obtain rfl : L = [(bytes "a", bytes "1"), ([], bytes "3"), (bytes "ab", bytes "2")] := by
    simpa [Except.toOption] using hscan
  exact absurd hprefix (by decide)

end LsmTree

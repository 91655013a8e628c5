import LsmTree.Base.Fallible
import LsmTree.Proof.MergeTables

/-!
# How a compaction ends

* `openInputs_ok`: the inputs are iterators on the tables, with their file ids.
* `compaction_cases`: the ways `TriggerCompactionInternal` can end, each with the
  engine and the files after.
-/

namespace LsmTree

open Base

variable {hash : Bytes → UInt64} {heaps : Heaps}

namespace Manifest

theorem tables_persist (updated : List Bytes) (io : ReplaceIO) (m : Manifest) (w : World) :
    (m.persist updated io w).2.2.disk.tables = w.disk.tables := by
  unfold persist
  cases io.tmp with
  | openFails => rfl
  | torn n => rfl
  | ok =>
    simp only
    split
    · rfl
    · split <;> split <;> rfl

theorem tables_replaceByNames (old : List Bytes) (new : Bytes) (io : ReplaceIO) (m : Manifest) (w : World) :
    (m.replaceByNames old new io w).2.2.disk.tables = w.disk.tables := by
  unfold replaceByNames
  split
  · rfl
  · split
    · rfl
    · exact tables_persist _ io m w

theorem tables_replaceByIds (old : List ℕ) (new : ℕ) (io : ReplaceIO) (m : Manifest) (w : World) :
    (m.replaceByIds old new io w).2.2.disk.tables = w.disk.tables := by
  unfold replaceByIds
  split
  · rfl
  · split
    · rfl
    · exact tables_persist _ io m w

end Manifest

namespace StorageEngine

theorem tables_replaceInManifest (old : List Bytes) (ids : List ℕ) (path : Bytes) (id : ℕ)
    (io : CompactionIO) (m : Manifest) (w : World) :
    (replaceInManifest old ids path id io m w).2.2.disk.tables = w.disk.tables := by
  have h1 := m.tables_replaceByNames old path io.byNames w
  unfold replaceInManifest
  generalize m.replaceByNames old path io.byNames w = r at h1
  obtain ⟨ok, m', w'⟩ := r
  cases ok with
  | true => exact h1
  | false => exact (m'.tables_replaceByIds ids id io.byIds w').trans h1

/-- The path of the next table a compaction writes. -/
def compactPath (e : StorageEngine) : Bytes := tablePath e.config.dbDir (bytes "sstable_") e.idCounter.toNat

/-- The files the input iterators are opened on. -/
def inputDisk (io : CompactionIO) (w : World) : Disk :=
  if io.inputsOpen then w.disk else { w.disk with tables := fun _ => none }

/-- The files after the merged table was written. -/
def merged (hash : Bytes → UInt64) (heaps : Heaps) (ins : List CompactorInput) (e : StorageEngine) (w : World) :
    World :=
  (w.perform (.tableCreate e.compactPath)).perform
    (.tableWrite e.compactPath (Compactor.mergedTable hash heaps.compaction ins))

/-- The manifest's part of the compaction. -/
def replaced (hash : Bytes → UInt64) (heaps : Heaps) (io : CompactionIO) (ins : List CompactorInput)
    (e : StorageEngine) (w : World) : Bool × Manifest × World :=
  replaceInManifest (e.sstables.map SSTableReader.filepath) (fileIds e.sstables) e.compactPath e.idCounter.toNat
    io e.manifest (merged hash heaps ins e w)

/-- The inputs of the compaction, and the table it writes. -/
structure Merges (hash : Bytes → UInt64) (heaps : Heaps) (io : CompactionIO) (e : StorageEngine) (w : World)
    (ins : List CompactorInput) : Prop where
  ne_nil : e.sstables ≠ []
  opens : openInputs e.sstables (inputDisk io w) = .ok ins
  length : (Compactor.mergedTable hash heaps.compaction ins).length ≤ maxFileSize

/-- The ways a compaction can end. -/
inductive CompactionEnd (hash : Bytes → UInt64) (heaps : Heaps) (io : CompactionIO) (e : StorageEngine)
    (w : World) : Outcome Bool × StorageEngine × World → Prop
  /-- there are too few tables -/
  | below (h : e.sstables.length < e.config.compactionThreshold.toNat) :
    CompactionEnd hash heaps io e w (.returned true, e, w)
  | notOpened (what : Bytes) : CompactionEnd hash heaps io e w (.threw what, e, w)
  /-- there is no table at all -/
  | nothing (h : e.sstables = []) :
    CompactionEnd hash heaps io e w (.returned false, { e with idCounter := e.idCounter + 1 }, w)
  | notBuilt :
    CompactionEnd hash heaps io e w (.returned false, { e with idCounter := e.idCounter + 1 },
      (if io.build.opens then w.perform (.tableCreate e.compactPath) else w).perform
        (.tableRemove e.compactPath))
  | notReplaced (ins : List CompactorInput) (m' : Manifest) (w' : World) (hm : Merges hash heaps io e w ins)
    (hr : replaced hash heaps io ins e w = (false, m', w')) :
    CompactionEnd hash heaps io e w
      (.returned false, { e with idCounter := e.idCounter + 1, manifest := m' }, w')
  | notRead (ins : List CompactorInput) (m' : Manifest) (w' : World) (hm : Merges hash heaps io e w ins)
    (hr : replaced hash heaps io ins e w = (true, m', w')) (ho : io.readerOpens = false) :
    CompactionEnd hash heaps io e w
      (.returned false, { e with idCounter := e.idCounter + 1, manifest := m' }, w')
  | done (ins : List CompactorInput) (m' : Manifest) (w' : World) (r : SSTableReader)
    (hm : Merges hash heaps io e w ins) (hr : replaced hash heaps io ins e w = (true, m', w'))
    (hnew : SSTableReader.new e.compactPath (some (Compactor.mergedTable hash heaps.compaction ins)) = .ok r)
    (hpath : r.filepath = e.compactPath)
    (hreads : r.Reads (Compactor.mergedRecords heaps.compaction ins)
      (SSTableBuilder.filterOf hash (Compactor.mergedRecords heaps.compaction ins))) :
    CompactionEnd hash heaps io e w
      (.returned true, { e with idCounter := e.idCounter + 1, manifest := m', sstables := [r] },
        removeOld io.removes (e.sstables.map SSTableReader.filepath) w')

theorem tablePath_ne_nil (dbDir family : Bytes) (id : ℕ) (h : family ≠ []) : tablePath dbDir family id ≠ [] := by
  unfold tablePath
  split <;> simp [h]

/-- Opening the inputs opens an iterator on each table. -/
theorem openInputs_ok {ts : List SSTableReader} {d : Disk} {ins : List CompactorInput} :
    openInputs ts d = .ok ins ↔ List.Forall₂ (fun input p => ∃ it,
      SSTableIterator.new p.1.filepath (d.tables p.1.filepath) = .ok it ∧ input = ⟨p.2, some it⟩)
      ins (ts.zip (fileIds ts)) := by
  have hstep : ∀ (p : SSTableReader × ℕ) (input : CompactorInput),
      (do
        let it ← SSTableIterator.new p.1.filepath (d.tables p.1.filepath)
        pure (⟨p.2, some it⟩ : CompactorInput)) = Except.ok (ε := Bytes) input ↔
      ∃ it, SSTableIterator.new p.1.filepath (d.tables p.1.filepath) = .ok it ∧ input = ⟨p.2, some it⟩ := by
    intro p input
    cases SSTableIterator.new p.1.filepath (d.tables p.1.filepath) with
    | error what => exact ⟨fun h => (nomatch h), fun ⟨it, h, _⟩ => (nomatch h)⟩
    | ok it =>
      constructor
      · intro h
        exact ⟨it, rfl, (Except.ok.inj h).symm⟩
      · intro ⟨it', h, hi⟩
        rw [Except.ok.inj h, hi]
        rfl
  unfold openInputs
  rw [mapM_ok]
  exact ⟨fun h => h.imp fun input p hp => (hstep p input).1 hp,
    fun h => h.imp fun input p hp => (hstep p input).2 hp⟩

theorem length_fileIds (ts : List SSTableReader) : (fileIds ts).length = ts.length := List.length_mapIdx

theorem length_openInputs {ts : List SSTableReader} {d : Disk} {ins : List CompactorInput}
    (h : openInputs ts d = .ok ins) : ins.length = ts.length := by
  rw [(openInputs_ok.1 h).length_eq, List.length_zip, length_fileIds, Nat.min_self]

/-- A compaction that has opened its inputs. -/
theorem triggerCompactionInternal_eq {io : CompactionIO} {e : StorageEngine} {w : World}
    {ins : List CompactorInput} (hth : ¬ e.sstables.length < e.config.compactionThreshold.toNat)
    (hopen : openInputs e.sstables (inputDisk io w) = .ok ins) :
    triggerCompactionInternal hash heaps io e w =
      match Compactor.compact hash heaps.compaction ins e.compactPath true io.build w with
      | (false, w) => (.returned false, { e with idCounter := e.idCounter + 1 }, w)
      | (true, w) =>
        match replaceInManifest (e.sstables.map SSTableReader.filepath) (fileIds e.sstables) e.compactPath
          e.idCounter.toNat io e.manifest w with
        | (false, m, w) => (.returned false, { e with idCounter := e.idCounter + 1, manifest := m }, w)
        | (true, m, w) =>
          match openReader io.readerOpens e.compactPath w.disk with
          | .error _ => (.returned false, { e with idCounter := e.idCounter + 1, manifest := m }, w)
          | .ok reader =>
            (.returned true, { e with idCounter := e.idCounter + 1, manifest := m, sstables := [reader] },
              removeOld io.removes (e.sstables.map SSTableReader.filepath) w) := by
  unfold inputDisk at hopen
  unfold triggerCompactionInternal
  rw [if_neg hth]
  simp only
  rw [hopen]
  rfl

/-- Where there is no table, nothing is compacted. -/
theorem triggerCompactionInternal_nil {io : CompactionIO} {e : StorageEngine} (hne : e.sstables = [])
    (hth : ¬ e.sstables.length < e.config.compactionThreshold.toNat) (w : World) :
    triggerCompactionInternal hash heaps io e w =
      (.returned false, { e with idCounter := e.idCounter + 1 }, w) := by
  have hopen : openInputs e.sstables (inputDisk io w) = .ok [] := by
    rw [hne]
    rfl
  have hrep : replaceInManifest (e.sstables.map SSTableReader.filepath) (fileIds e.sstables) e.compactPath
      e.idCounter.toNat io e.manifest w = (false, e.manifest, w) := by
    rw [hne]
    rfl
  have hc : Compactor.compact hash heaps.compaction [] e.compactPath true io.build w = (true, w) := rfl
  rw [triggerCompactionInternal_eq hth hopen, hc]
  simp only
  rw [hrep]

/-- **Every way a compaction can end.** -/
theorem compaction_cases (hash : Bytes → UInt64) (heaps : Heaps) (io : CompactionIO) (e : StorageEngine)
    (w : World) : CompactionEnd hash heaps io e w (triggerCompactionInternal hash heaps io e w) := by
  by_cases hth : e.sstables.length < e.config.compactionThreshold.toNat
  · unfold triggerCompactionInternal
    rw [if_pos hth]
    exact .below hth
  by_cases hne : e.sstables = []
  · -- with threshold 0 it counts an id and asks the builder for an empty table
    rw [triggerCompactionInternal_nil hne hth]
    exact .nothing hne
  cases hopen : openInputs e.sstables (inputDisk io w) with
  | error what =>
    unfold inputDisk at hopen
    unfold triggerCompactionInternal
    rw [if_neg hth]
    simp only
    rw [hopen]
    exact .notOpened what
  | ok ins =>
    have hlen := length_openInputs hopen
    rw [triggerCompactionInternal_eq hth hopen]
    have hins : ins ≠ [] := fun h => hne (List.length_eq_zero_iff.1 (by rw [← hlen, h]; rfl))
    have hp : e.compactPath ≠ [] := tablePath_ne_nil _ _ _ (by decide)
    rcases Compactor.compact_cases hash heaps.compaction true hins hp io.build w with ⟨hc, hle⟩ | hc
    · rw [Compactor.mergedTable_eq] at hc hle
      have hm : Merges hash heaps io e w ins := ⟨hne, hopen, hle⟩
      have htables := tables_replaceInManifest (e.sstables.map SSTableReader.filepath) (fileIds e.sstables)
        e.compactPath e.idCounter.toNat io e.manifest (merged hash heaps ins e w)
      rw [hc]
      simp only
      -- the table is written: then the manifest, the reader and the swap
      obtain ⟨ok, m', w', hr⟩ : ∃ ok m' w', replaced hash heaps io ins e w = (ok, m', w') := ⟨_, _, _, rfl⟩
      unfold replaced merged at hr
      unfold merged at htables
      rw [hr] at htables ⊢
      cases ok with
      | false => exact .notReplaced ins m' w' hm hr
      | true =>
        have hfile : w'.disk.tables e.compactPath = some (Compactor.mergedTable hash heaps.compaction ins) := by
          rw [htables]
          simp only [World.disk_perform, Effect.apply, setTable_self]
        -- the reader opens what the builder has left, unless it is refused the file
        obtain ⟨r, hnew, hpath, hreads⟩ := reader_opens hash e.compactPath hle
        unfold openReader
        cases ho : io.readerOpens with
        | false => exact .notRead ins m' w' hm hr ho
        | true =>
          simp only [if_true]
          rw [hfile, show SSTableReader.new e.compactPath
            (some (Compactor.mergedTable hash heaps.compaction ins)) =
            .ok r from hnew]
          exact .done ins m' w' r hm hr hnew hpath hreads
    · rw [hc]
      exact .notBuilt

end StorageEngine

end LsmTree

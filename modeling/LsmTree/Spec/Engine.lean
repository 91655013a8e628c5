import LsmTree.Spec.Manifest
import LsmTree.Spec.DBIterator

/-!
# The storage engine (`engine.cpp`)

Each call runs under the engine's mutex and is one function from the engine and the
files to its outcome, the engine and the files after. Which file operations fail is
part of a call's arguments. `System.step` is one call, closing and opening again
included.
-/

namespace LsmTree

open Base

structure Config where
  writeBufferSize : UInt64
  walPath : Bytes
  dbDir : Bytes
  compactionThreshold : UInt64

/-- The priority queues behind compaction and range iteration. -/
structure Heaps where
  compaction : PriorityQueue Compactor.HeapNode Compactor.order.gt
  scan : PriorityQueue DBIterator.HeapNode DBIterator.order.gt

/-- The file operations of a compaction: the input iterators, the output table, the two
ways to replace the manifest's entries, the new reader, and the old files' removal. -/
structure CompactionIO where
  inputsOpen : Bool
  build : BuildIO
  byNames : ReplaceIO
  byIds : ReplaceIO
  readerOpens : Bool
  removes : Bytes → Bool

/-- The file operations of a flush. -/
structure FlushIO where
  build : BuildIO
  readerOpens : Bool
  addSSTable : AddIO
  truncate : Bool
  memTable : MemTableIO
  compaction : CompactionIO

def CompactionIO.ok : CompactionIO := ⟨true, .ok, .ok, .ok, true, fun _ => true⟩

def FlushIO.ok : FlushIO := ⟨.ok, true, .ok, true, .ok, .ok⟩

structure StorageEngine where
  config : Config
  manifest : Manifest
  active : Option MemTable
  immutable : Option MemTable
  /-- newest first -/
  sstables : List SSTableReader
  idCounter : UInt64

namespace StorageEngine

def extractFileId (filename : Bytes) : ℕ :=
  extractId [bytes "data_", bytes "sstable_", bytes "compacted_"] filename

/-- `<family><id>.sst` in the database directory. -/
def tablePath (dbDir family : Bytes) (id : ℕ) : Bytes :=
  if dbDir = [] ∨ dbDir = bytes "." then family ++ decimal id ++ bytes ".sst"
  else dbDir ++ bytes "/" ++ family ++ decimal id ++ bytes ".sst"

def nextSSTablePath (e : StorageEngine) : Bytes × StorageEngine :=
  (tablePath e.config.dbDir (bytes "data_") e.idCounter.toNat, { e with idCounter := e.idCounter + 1 })

/-- Opening a table that the system may refuse to open. -/
def openReader (opens : Bool) (path : Bytes) (d : Disk) : Except Bytes SSTableReader :=
  SSTableReader.new path (if opens then d.tables path else none)

/-! ## Compaction -/

/-- The file id of each table, with the position as the fallback for id 0. -/
def fileIds (sstables : List SSTableReader) : List ℕ :=
  sstables.mapIdx fun i reader =>
    let fid := extractFileId reader.filepath
    if fid = 0 then sstables.length - i else fid

/-- One iterator for each table, opened by its path. -/
def openInputs (sstables : List SSTableReader) (d : Disk) : Except Bytes (List CompactorInput) :=
  (sstables.zip (fileIds sstables)).mapM fun (reader, fid) => do
    let it ← SSTableIterator.new reader.filepath (d.tables reader.filepath)
    pure ⟨fid, some it⟩

section

variable (hash : Bytes → UInt64) (heaps : Heaps)

/-- The removal of the old files; one that fails is only reported. -/
def removeOld (removes : Bytes → Bool) (oldFiles : List Bytes) (w : World) : World :=
  oldFiles.foldl (fun w f => if removes f then w.perform (.tableRemove f) else w) w

/-- The manifest's part of a compaction: by names, and if that fails by ids. -/
def replaceInManifest (oldFiles : List Bytes) (oldFileIds : List ℕ) (newPath : Bytes) (newFileId : ℕ)
    (io : CompactionIO) (m : Manifest) (w : World) : Bool × Manifest × World :=
  match m.replaceByNames oldFiles newPath io.byNames w with
  | (true, m, w) => (true, m, w)
  | (false, m, w) => m.replaceByIds oldFileIds newFileId io.byIds w

def triggerCompactionInternal (io : CompactionIO) (e : StorageEngine) (w : World) :
    Outcome Bool × StorageEngine × World :=
  if e.sstables.length < e.config.compactionThreshold.toNat then (.returned true, e, w)
  else
    let oldFiles := e.sstables.map SSTableReader.filepath
    let oldFileIds := fileIds e.sstables
    match openInputs e.sstables (if io.inputsOpen then w.disk else { w.disk with tables := fun _ => none }) with
    | .error what => (.threw what, e, w)
    | .ok inputs =>
      let newFileId := e.idCounter.toNat
      let e := { e with idCounter := e.idCounter + 1 }
      let newPath := tablePath e.config.dbDir (bytes "sstable_") newFileId
      match Compactor.compact hash heaps.compaction inputs newPath true io.build w with
      | (false, w) => (.returned false, e, w)
      | (true, w) =>
        match replaceInManifest oldFiles oldFileIds newPath newFileId io e.manifest w with
        | (false, m, w) => (.returned false, { e with manifest := m }, w)
        | (true, m, w) =>
          let e := { e with manifest := m }
          match openReader io.readerOpens newPath w.disk with
          | .error _ => (.returned false, e, w)
          | .ok reader =>
            (.returned true, { e with sstables := [reader] }, removeOld io.removes oldFiles w)

def maybeTriggerCompactionInternal (io : CompactionIO) (e : StorageEngine) (w : World) :
    Outcome Unit × StorageEngine × World :=
  if e.config.compactionThreshold.toNat ≤ e.sstables.length then
    match triggerCompactionInternal hash heaps io e w with
    | (.returned _, e, w) => (.returned (), e, w)
    | (.threw what, e, w) => (.threw what, e, w)
    | (.undefined, e, w) => (.undefined, e, w)
  else (.returned (), e, w)

/-! ## Flush -/

/-- The loop over the memtable's entries; what `Add` returns is not looked at. -/
def addEntries (m : MemTable) (b : SSTableBuilder) : SSTableBuilder :=
  m.list.chain.foldl
    (fun b x => (b.add hash x.key x.entry.value (x.entry.type = .kTypeDeletion)).2) b

/-- Step 6: the immutable memtable is dropped and the log truncated. -/
def truncateLog (io : FlushIO) (e : StorageEngine) (w : World) : StorageEngine × World :=
  ({ e with immutable := none },
    if e.config.walPath ≠ [] && io.truncate then w.perform .walTruncate else w)

/-- Step 7: a fresh memtable, replaying whatever the log holds. -/
def freshMemTable (io : FlushIO) (e : StorageEngine) (w : World) : Outcome Unit × StorageEngine × World :=
  match MemTable.new e.config.walPath io.memTable w with
  | (.error what, w) => (.threw what, e, w)
  | (.ok m, w) => (.returned (), { e with active := some m }, w)

/-- Steps 5 to 8: the new table is installed. -/
def installTable (io : FlushIO) (path : Bytes) (e : StorageEngine) (w : World) :
    Outcome Unit × StorageEngine × World :=
  match openReader io.readerOpens path w.disk with
  | .error what => (.threw what, e, w)
  | .ok reader =>
    let (_, m, w) := e.manifest.addSSTable path io.addSSTable w
    let (e, w) := truncateLog io { e with sstables := reader :: e.sstables, manifest := m } w
    match freshMemTable io e w with
    | (.returned _, e, w) => maybeTriggerCompactionInternal hash heaps io.compaction e w
    | r => r

def flushMemTableInternal (io : FlushIO) (e : StorageEngine) (w : World) :
    Outcome Unit × StorageEngine × World :=
  match e.active with
  | none => (.returned (), e, w)
  | some m =>
    if m.empty then (.returned (), e, w)
    else
      let m := m.markImmutable
      let (path, e) := { e with active := none, immutable := some m }.nextSSTablePath
      let (b, w) := SSTableBuilder.create path io.build w
      match (addEntries hash m b).commit w with
      | (false, b, w) =>
        (.threw (bytes "Failed to finish SSTable writing to " ++ path), e, b.destroy w)
      | (true, _, w) => installTable hash heaps io path e w

/-! ## Calls -/

def put (key value : Bytes) (now : Int64) (append : WAL.AppendIO) (io : FlushIO) (e : StorageEngine)
    (w : World) : Outcome Bool × StorageEngine × World :=
  match e.active with
  | none => (.undefined, e, w)
  | some m =>
    match m.put key value now append w with
    | (false, m, w) => (.returned false, { e with active := some m }, w)
    | (true, m, w) =>
      let e := { e with active := some m }
      if e.config.writeBufferSize ≤ m.approxMemoryUsage then
        match flushMemTableInternal hash heaps io e w with
        | (.returned _, e, w) => (.returned true, e, w)
        | (.threw what, e, w) => (.threw what, e, w)
        | (.undefined, e, w) => (.undefined, e, w)
      else (.returned true, e, w)

def delete (key : Bytes) (now : Int64) (append : WAL.AppendIO) (e : StorageEngine) (w : World) :
    Outcome Bool × StorageEngine × World :=
  match e.active with
  | none => (.undefined, e, w)
  | some m =>
    match m.delete key now append w with
    | (ok, m, w) => (.returned ok, { e with active := some m }, w)

/-- The tables from newest to oldest, up to the first that has the key. -/
def searchTables (key : Bytes) : List SSTableReader → Option (Bytes × Bool)
  | [] => none
  | t :: ts =>
    match t.get hash key with
    | some r => some r
    | none => searchTables key ts

/-- `Get`: `none` where it returns false, else the value and the deletion flag. -/
def get (e : StorageEngine) (key : Bytes) : Option (Bytes × Bool) :=
  match e.active.bind (·.get key) with
  | some r => some r
  | none =>
    match e.immutable.bind (·.get key) with
    | some r => some r
    | none => searchTables hash key e.sstables

def flushMemTable (io : FlushIO) (e : StorageEngine) (w : World) : Outcome Unit × StorageEngine × World :=
  flushMemTableInternal hash heaps io e w

def triggerCompaction (io : CompactionIO) (e : StorageEngine) (w : World) :
    Outcome Bool × StorageEngine × World :=
  triggerCompactionInternal hash heaps io e w

def close (io : FlushIO) (e : StorageEngine) (w : World) : Outcome Unit × StorageEngine × World :=
  match e.active with
  | none => (.returned (), e, w)
  | some m => if m.empty then (.returned (), e, w) else flushMemTableInternal hash heaps io e w

end

/-! ## Opening -/

/-- Phase 1 of the constructor: the tables of the manifest that can be opened, newest
first, and the next file id. -/
def recoverTables (d : Disk) : List Bytes → List SSTableReader → UInt64 →
    Except Bytes (List SSTableReader × UInt64)
  | [], sstables, maxId => .ok (sstables, maxId)
  | filename :: files, sstables, maxId =>
    match d.tables filename with
    | none => recoverTables d files sstables maxId
    | some content =>
      match SSTableReader.new filename (some content) with
      | .error what => .error what
      | .ok reader =>
        let id : UInt64 := .ofNat (extractFileId filename)
        recoverTables d files (reader :: sstables) (if maxId ≤ id then id + 1 else maxId)

/-- The constructor. -/
def new (config : Config) (io : MemTableIO) (w : World) : Except Bytes StorageEngine × World :=
  let manifest := Manifest.load w.disk
  match recoverTables w.disk manifest.sstableFiles [] 0 with
  | .error what => (.error what, w)
  | .ok (sstables, maxId) =>
    match MemTable.new config.walPath io w with
    | (.error what, w) => (.error what, w)
    | (.ok m, w) => (.ok ⟨config, manifest, some m, none, sstables, maxId⟩, w)

/-! ## Range reads -/

section

variable (heaps : Heaps)

/-- The skip list of a memtable slot. -/
def memList (e : StorageEngine) : MemSlot → SkipList
  | .active => (e.active.map MemTable.list).getD .new
  | .immutable => (e.immutable.map MemTable.list).getD .new

def newIterator (startKey endKey : Bytes) (e : StorageEngine) (d : Disk) :
    Except Bytes (DBIterator heaps.scan) := do
  let inputs ← openInputs e.sstables d
  let it := DBIterator.new e.memList e.active.isSome e.immutable.isSome inputs startKey endKey
  pure (if startKey ≠ [] then it.seek e.memList startKey else it.seekToFirst e.memList)

/-- The loop of `Scan`: at most `limit` pairs, all if it is 0. -/
def collect (lists : MemSlot → SkipList) (limit : ℕ) :
    ℕ → DBIterator heaps.scan → List (Bytes × Bytes) → List (Bytes × Bytes)
  | 0, _, results => results
  | fuel + 1, it, results =>
    if !it.valid then results
    else if 0 < limit && limit ≤ results.length then results
    else collect lists limit fuel (it.next lists) (results ++ [(it.currentKey, it.currentValue)])

def scan (startKey endKey : Bytes) (limit : ℕ) (e : StorageEngine) (d : Disk) :
    Except Bytes (List (Bytes × Bytes)) := do
  let it ← newIterator heaps startKey endKey e d
  pure (collect heaps e.memList limit (it.rounds e.memList + 1) it [])

/-- The loop of `PrefixScan`, which ends at the first key without the prefix:
`key.rfind(prefix, 0) != 0`. -/
def collectPrefix (lists : MemSlot → SkipList) (pre : Bytes) (limit : ℕ) :
    ℕ → DBIterator heaps.scan → List (Bytes × Bytes) → List (Bytes × Bytes)
  | 0, _, results => results
  | fuel + 1, it, results =>
    if !it.valid then results
    else if 0 < limit && limit ≤ results.length then results
    else if !pre.isPrefixOf it.currentKey then results
    else collectPrefix lists pre limit fuel (it.next lists) (results ++ [(it.currentKey, it.currentValue)])

def prefixScan (pre : Bytes) (limit : ℕ) (e : StorageEngine) (d : Disk) :
    Except Bytes (List (Bytes × Bytes)) := do
  let it ← newIterator heaps pre [] e d
  pure (collectPrefix heaps e.memList pre limit (it.rounds e.memList + 1) it [])

end

end StorageEngine

/-! ## Runs -/

structure System where
  engine : StorageEngine
  world : World

inductive Op where
  | put (key value : Bytes) (now : Int64) (append : WAL.AppendIO) (io : FlushIO)
  | delete (key : Bytes) (now : Int64) (append : WAL.AppendIO)
  | flushMemTable (io : FlushIO)
  | triggerCompaction (io : CompactionIO)
  | close (io : FlushIO)
  /-- the process ends and the database is opened again with these parameters -/
  | reopen (writeBufferSize compactionThreshold : UInt64) (io : MemTableIO)

namespace System

variable (hash : Bytes → UInt64) (heaps : Heaps)

/-- The outcome of a call that returns nothing counts as true. -/
def unit : Outcome Unit × StorageEngine × World → Outcome Bool × System
  | (.returned _, e, w) => (.returned true, ⟨e, w⟩)
  | (.threw what, e, w) => (.threw what, ⟨e, w⟩)
  | (.undefined, e, w) => (.undefined, ⟨e, w⟩)

def step (op : Op) (s : System) : Outcome Bool × System :=
  match op with
  | .put key value now append io =>
    match s.engine.put hash heaps key value now append io s.world with
    | (r, e, w) => (r, ⟨e, w⟩)
  | .delete key now append =>
    match s.engine.delete key now append s.world with
    | (r, e, w) => (r, ⟨e, w⟩)
  | .flushMemTable io => unit (s.engine.flushMemTable hash heaps io s.world)
  | .triggerCompaction io =>
    match s.engine.triggerCompaction hash heaps io s.world with
    | (r, e, w) => (r, ⟨e, w⟩)
  | .close io => unit (s.engine.close hash heaps io s.world)
  | .reopen writeBufferSize compactionThreshold io =>
    let config := { s.engine.config with
      writeBufferSize := writeBufferSize, compactionThreshold := compactionThreshold }
    match StorageEngine.new config io s.world with
    | (.ok e, w) => (.returned true, ⟨e, w⟩)
    | (.error what, w) => (.threw what, ⟨s.engine, w⟩)

end System

end LsmTree

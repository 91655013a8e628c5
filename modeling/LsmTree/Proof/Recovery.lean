import LsmTree.Proof.FlushFailure

/-!
# What the files recover to

`Recoverable d rs ts` says that the log reads back as the records `rs` and that the manifest
lists the tables `ts`, each of them complete.

* `Recoverable.opens`: a database opened on such files has the records in its memtable, in
  front of the tables.
* `Recoverable.shows`: so it has the live values of `rs` in front of `ts`.
* `Recoverable.setTable`, `Recoverable.listed`, `Recoverable.relisted`,
  `Recoverable.truncated`: what effects on the files make of the two lists.
-/

namespace LsmTree

open Base StorageEngine WAL

variable {hash : Bytes → UInt64} {dbDir : Bytes} {config : Config} {w w' : World} {d d' : Disk}
  {rs : List LogRecord} {ts : List SSTableReader}

/-! ## The log -/

/-- The log reads back as these records. -/
def Decodes (d : Disk) (rs : List LogRecord) : Prop := (WAL.recover true d).2 = rs.map LogRecord.entry

theorem Decodes.congr (h : Decodes d rs) (hwal : d'.wal = d.wal) : Decodes d' rs := by
  unfold Decodes WAL.recover at h ⊢
  rw [hwal]
  exact h

/-- A log that does not exist is created empty. -/
theorem Decodes.walOpen (h : Decodes d rs) : Decodes (Effect.walOpen.apply d) rs := by
  cases hwal : d.wal with
  | none =>
    unfold Decodes WAL.recover at h
    rw [hwal] at h
    have hopened : (Effect.walOpen.apply d).wal = some [] := by simp [Effect.apply, hwal]
    unfold Decodes WAL.recover
    rw [hopened]
    exact h
  | some content => exact h.congr (by simp [Effect.apply, hwal])

theorem decodes_truncated (d : Disk) : Decodes (Effect.walTruncate.apply d) [] := rfl

/-- What a memtable makes of the log: all of it, or nothing if it cannot be read. -/
theorem Decodes.recoverFromWAL (h : Decodes d rs) (io : MemTableIO) (m : MemTable) :
    m.recoverFromWAL io d = (rs.map LogRecord.entry).foldl MemTable.applyEntry m ∨
      io.readable = false ∧ m.recoverFromWAL io d = m := by
  unfold Decodes WAL.recover at h
  unfold MemTable.recoverFromWAL WAL.recover
  cases hwal : d.wal with
  | none =>
    rw [hwal] at h
    exact Or.inl (by rw [← show _ = rs.map LogRecord.entry from h])
  | some content =>
    rw [hwal] at h
    cases hio : io.readable with
    | true => exact Or.inl (by rw [← show _ = rs.map LogRecord.entry from h]; rfl)
    | false => exact Or.inr ⟨rfl, rfl⟩

/-- Behind an append the log reads back with the new record if the append succeeded, and as
before if it failed. -/
def AppendDecodes (r : LogRecord) (io : AppendIO) (w : World) : Prop :=
  (WAL.recover true (r.append io w).2.disk).2 =
    (WAL.recover true w.disk).2 ++ if io = .ok then [r.entry] else []

/-- The records behind an append. -/
def appended (rs : List LogRecord) (r : LogRecord) (io : AppendIO) : List LogRecord :=
  if io = .ok then rs ++ [r] else rs

theorem Decodes.append {r : LogRecord} {io : AppendIO} (h : Decodes w.disk rs) (hread : AppendDecodes r io w) :
    Decodes (r.append io w).2.disk (appended rs r io) := by
  unfold Decodes at h ⊢
  rw [hread, h]
  unfold appended
  split <;> simp

/-- What the log says, if there is one. -/
def logLayer (walPath : Bytes) (rs : List LogRecord) : Layer Bytes Bytes :=
  if walPath = [] then fun _ => none else lastWrite (rs.map LogRecord.write)

theorem logLayer_of_ne {walPath : Bytes} (h : walPath ≠ []) (rs : List LogRecord) :
    logLayer walPath rs = lastWrite (rs.map LogRecord.write) := if_neg h

theorem ShortLog.nil : ShortLog [] := fun _ h => absurd h List.not_mem_nil

theorem ShortLog.snoc (h : ShortLog rs) {r : LogRecord} (hr : r.Short) : ShortLog (rs ++ [r]) := by
  intro x hx
  rcases List.mem_append.1 hx with hx | hx
  · exact h x hx
  · rw [List.mem_singleton.1 hx]
    exact hr

/-- A memtable that replays the records. -/
theorem fresh_replay {walPath : Bytes} (hp : walPath ≠ []) (h : ShortLog rs) :
    Fresh walPath ((rs.map LogRecord.entry).foldl MemTable.applyEntry (.blank true)) := by
  obtain ⟨himm, hwal⟩ := MemTable.foldl_applyEntry_flags (rs.map LogRecord.entry) (.blank true)
  refine ⟨himm, MemTable.short_replay h true, ?_⟩
  rw [hwal]
  exact ⟨fun _ => hp, fun _ => rfl⟩

theorem fresh_blank (walPath : Bytes) : Fresh walPath (.blank (decide (walPath ≠ []))) :=
  ⟨rfl, MemTable.short_blank _, by simp [MemTable.blank]⟩

/-! ## Log and tables -/

/-- The log reads back as `rs`, the manifest lists `ts`, and these stand on disk. -/
structure Recoverable (hash : Bytes → UInt64) (dbDir : Bytes) (d : Disk) (rs : List LogRecord)
    (ts : List SSTableReader) : Prop where
  disk : DiskTables hash dbDir d
  stands : ∀ r ∈ ts, OnDisk hash dbDir d (2 ^ 64 - 1) r
  lists : Lists d (ts.map SSTableReader.filepath).reverse
  log : Decodes d rs
  short : ShortLog rs

/-- The live values of `rs` in front of `ts`. -/
def recoveredView (hash : Bytes → UInt64) (walPath : Bytes) (rs : List LogRecord) (ts : List SSTableReader) :
    Bytes → Option Bytes :=
  view (logLayer walPath rs :: tableLayers hash ts)

/-- Opened again with any parameters, the database has these live values. -/
def Shows (hash : Bytes → UInt64) (config : Config) (d : Disk) (v : Bytes → Option Bytes) : Prop :=
  ∀ writeBufferSize compactionThreshold, ∃ e w,
    StorageEngine.new { config with
      writeBufferSize := writeBufferSize, compactionThreshold := compactionThreshold } .ok (.ofDisk d) =
      (.ok e, w) ∧
      e.liveValue hash = v

/-- The value that the database opened on the files has for a key. -/
def shown (hash : Bytes → UInt64) (config : Config) (d : Disk) (key : Bytes) : Option Bytes :=
  match StorageEngine.new config .ok (.ofDisk d) with
  | (.ok e, _) => e.liveValue hash key
  | (.error _, _) => none

theorem Shows.shown_eq {v : Bytes → Option Bytes} (h : Shows hash config d v) (key : Bytes) :
    shown hash config d key = v key := by
  obtain ⟨e, w, hnew, hv⟩ := h config.writeBufferSize config.compactionThreshold
  unfold shown
  rw [show StorageEngine.new config .ok (.ofDisk d) = (.ok e, w) from hnew]
  exact congrFun hv key

namespace Recoverable

theorem congr (h : Recoverable hash dbDir d rs ts) (ht : d'.tables = d.tables) (hm : d'.manifest = d.manifest)
    (hlog : Decodes d' rs) : Recoverable hash dbDir d' rs ts :=
  ⟨h.disk.congr ht, fun r hr => (h.stands r hr).congr le_rfl ht, h.lists.congr hm, hlog, h.short⟩

/-- The names of the tables are read back. -/
theorem load (h : Recoverable hash dbDir d rs ts) (hdir : newline ∉ dbDir) :
    Manifest.load d = ⟨(ts.map SSTableReader.filepath).reverse⟩ := by
  refine load_unlines h.lists hdir fun f hf => ?_
  rw [List.mem_reverse] at hf
  obtain ⟨r, hr, rfl⟩ := List.mem_map.1 hf
  obtain ⟨family, hfam, id, -, hname⟩ := (h.stands r hr).named
  exact ⟨family, hfam, id, hname⟩

/-- Every listed table exists. -/
theorem listed_exist (h : Recoverable hash dbDir d rs ts) (hdir : newline ∉ dbDir) :
    ∀ f ∈ (Manifest.load d).sstableFiles, Exists d f = true := by
  intro f hf
  rw [h.load hdir, List.mem_reverse] at hf
  obtain ⟨r, hr, rfl⟩ := List.mem_map.1 hf
  simp [Exists, (h.stands r hr).file]

/-! ### Opening -/

/-- A memtable on the log. -/
theorem memTable (h : Recoverable hash dbDir w.disk rs ts) (walPath : Bytes) : ∃ m w',
    MemTable.new walPath .ok w = (.ok m, w') ∧ Fresh walPath m ∧ m.layer = logLayer walPath rs ∧
      Recoverable hash dbDir w'.disk rs ts := by
  unfold logLayer
  by_cases hp : walPath = []
  · subst hp
    exact ⟨_, w, MemTable.new_nil _ w, fresh_blank [], rfl, h⟩
  · have hopened : Decodes (w.perform .walOpen).disk rs := h.log.walOpen
    refine ⟨_, _, MemTable.new_opened hp rfl w, ?_, ?_, h.congr rfl rfl hopened⟩
    · rw [(hopened.recoverFromWAL .ok (.blank true)).resolve_right fun hno => absurd hno.1 (by decide)]
      exact fresh_replay hp h.short
    · rw [if_neg hp, (hopened.recoverFromWAL .ok (.blank true)).resolve_right fun hno => absurd hno.1 (by decide)]
      exact MemTable.layer_replay rs true

/-- **The database opened on the files.** -/
theorem opens (h : Recoverable hash config.dbDir w.disk rs ts) (hdir : newline ∉ config.dbDir) : ∃ m n w',
    StorageEngine.new config .ok w =
      (.ok ⟨config, ⟨(ts.map SSTableReader.filepath).reverse⟩, some m, none, ts, n⟩, w') ∧
      Fresh config.walPath m ∧ m.layer = logLayer config.walPath rs ∧
      Recoverable hash config.dbDir w'.disk rs ts := by
  obtain ⟨m, w', hnew, hfresh, hlayer, hrec⟩ := h.memTable config.walPath
  have hstands : ∀ r ∈ ts.reverse, ∃ bound, OnDisk hash config.dbDir w.disk bound r := fun r hr =>
    ⟨_, h.stands r (List.mem_reverse.1 hr)⟩
  obtain ⟨n, htables⟩ := recoverTables_onDisk [] 0 hstands
  rw [List.map_reverse, List.reverse_reverse, List.append_nil] at htables
  refine ⟨m, n, w', ?_, hfresh, hlayer, hrec⟩
  unfold StorageEngine.new
  simp only [h.load hdir, htables, hnew]

/-- **What the database opened on the files shows.** -/
theorem shows (h : Recoverable hash config.dbDir d rs ts) (hdir : newline ∉ config.dbDir) :
    Shows hash config d (recoveredView hash config.walPath rs ts) := by
  intro writeBufferSize compactionThreshold
  have hopen : Recoverable hash ({ config with
    writeBufferSize := writeBufferSize, compactionThreshold := compactionThreshold } : Config).dbDir
    (World.ofDisk d).disk rs ts := h
  obtain ⟨m, n, w', hnew, -, hlayer, -⟩ := hopen.opens hdir
  refine ⟨_, w', hnew, ?_⟩
  rw [liveValue_eq, layers_active rfl rfl, hlayer]
  rfl

/-! ### Effects -/

/-- A file that is not listed is created, written or removed. -/
theorem setTable (h : Recoverable hash dbDir d rs ts) {path : Bytes} (hpath : ∀ r ∈ ts, r.filepath ≠ path)
    {c : Option Bytes} (hc : ∀ content, c = some content →
      IsTable dbDir (2 ^ 64 - 1) path ∧ (content = [] ∨ ∃ rs, Complete hash content rs)) :
    Recoverable hash dbDir { d with tables := LsmTree.setTable d.tables path c } rs ts :=
  ⟨h.disk.setTable hc, fun r hr => (h.stands r hr).setTable le_rfl (hpath r hr) c, h.lists.congr rfl,
    h.log.congr rfl, h.short⟩

/-- A table is listed behind the others. -/
theorem listed (h : Recoverable hash dbDir d rs ts) {r : SSTableReader}
    (hr : OnDisk hash dbDir d (2 ^ 64 - 1) r) :
    Recoverable hash dbDir (Effect.apply (.manifestAppend (r.filepath ++ [newline])) d) rs (r :: ts) := by
  refine ⟨h.disk.congr rfl, fun t ht => ?_, ?_, h.log.congr rfl, h.short⟩
  · rcases List.mem_cons.1 ht with rfl | ht
    · exact hr.congr le_rfl rfl
    · exact (h.stands t ht).congr le_rfl rfl
  · rw [List.map_cons, List.reverse_cons]
    exact h.lists.append r.filepath

/-- Another list takes the place of the manifest. -/
theorem relisted (h : Recoverable hash dbDir d rs ts) {ts' : List SSTableReader}
    (hts : ∀ r ∈ ts', OnDisk hash dbDir d (2 ^ 64 - 1) r) (ht : d'.tables = d.tables)
    (hm : d'.manifest = some (unlines (ts'.map SSTableReader.filepath).reverse)) (hwal : d'.wal = d.wal) :
    Recoverable hash dbDir d' rs ts' :=
  ⟨h.disk.congr ht, fun r hr => (hts r hr).congr le_rfl ht, Or.inl hm, h.log.congr hwal, h.short⟩

/-- An append to the log. -/
theorem append {r : LogRecord} {io : AppendIO} (h : Recoverable hash dbDir w.disk rs ts) (hr : r.Short)
    (hread : AppendDecodes r io w) : Recoverable hash dbDir (r.append io w).2.disk (appended rs r io) ts := by
  obtain ⟨ht, hm⟩ := disk_append r.op.name r.key r.value r.time io w
  refine ⟨h.disk.congr ht, fun t htm => (h.stands t htm).congr le_rfl ht, h.lists.congr hm, h.log.append hread, ?_⟩
  unfold appended
  split
  · exact h.short.snoc hr
  · exact h.short

theorem truncated (h : Recoverable hash dbDir d rs ts) :
    Recoverable hash dbDir (Effect.walTruncate.apply d) [] ts :=
  ⟨h.disk.congr rfl, fun r hr => (h.stands r hr).congr le_rfl rfl, h.lists.congr rfl, decodes_truncated d, .nil⟩

theorem walOpen (h : Recoverable hash dbDir d rs ts) : Recoverable hash dbDir (Effect.walOpen.apply d) rs ts :=
  h.congr rfl rfl h.log.walOpen

end Recoverable

/-- Nothing is recovered from an empty directory. -/
theorem recoverable_empty (hash : Bytes → UInt64) (dbDir : Bytes) : Recoverable hash dbDir .empty [] [] :=
  ⟨fun _ _ h => absurd h (by simp [Disk.empty]), fun _ h => absurd h List.not_mem_nil, Or.inr ⟨rfl, rfl⟩,
    rfl, .nil⟩

end LsmTree

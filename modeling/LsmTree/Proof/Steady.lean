import LsmTree.Proof.Reopen

/-!
# Runs in which every file operation succeeds

`runRequests` runs calls of the engine, closing and opening again included, whose file
operations all succeed. `Steady` holds in every state reached: the tables stand on disk
in the order of their numbers, the manifest lists them, and there is a memtable to write to.

* `Steady.step`: one call keeps it, whatever it flushes, compacts or opens again.
* `runRequests_steady`: it holds in every state of a run.
-/

namespace LsmTree

open Base StorageEngine WAL

variable {hash : Bytes → UInt64} {heaps : Heaps} {e e' : StorageEngine} {w w' : World} {d : Disk}

/-! ## Calls -/

/-- A call of the engine, or opening it again; every file operation in it succeeds. -/
inductive Request where
  | put (key value : Bytes) (now : Int64)
  | delete (key : Bytes) (now : Int64)
  | flushMemTable
  | triggerCompaction
  | close
  | reopen (writeBufferSize compactionThreshold : UInt64)
  deriving DecidableEq

namespace Request

def op : Request → Op
  | .put key value now => .put key value now .ok .ok
  | .delete key now => .delete key now .ok
  | .flushMemTable => .flushMemTable .ok
  | .triggerCompaction => .triggerCompaction .ok
  | .close => .close .ok
  | .reopen writeBufferSize compactionThreshold => .reopen writeBufferSize compactionThreshold .ok

/-- Key and value are shorter than `2^32` bytes. -/
def Short : Request → Prop
  | .put key value _ => key.length < 2 ^ 32 ∧ value.length < 2 ^ 32
  | .delete key _ => key.length < 2 ^ 32
  | _ => True

instance (r : Request) : Decidable r.Short := by
  cases r <;> (unfold Short; infer_instance)

end Request

/-- Two more table numbers fit the 64-bit counter. -/
def System.HasRoom (s : System) : Prop := s.engine.idCounter.toNat + 2 < 2 ^ 64

instance (s : System) : Decidable s.HasRoom := by
  unfold System.HasRoom
  infer_instance

/-- One call that returns, while the counter of tables has room. -/
def Request.run (hash : Bytes → UInt64) (heaps : Heaps) (s : System) (r : Request) : Option System :=
  if s.HasRoom then
    match s.step hash heaps r.op with
    | (.returned _, s') => some s'
    | _ => none
  else none

/-- Calls one after another. -/
def runRequests (hash : Bytes → UInt64) (heaps : Heaps) (rs : List Request) (s : System) : Option System :=
  rs.foldlM (Request.run hash heaps) s

theorem Request.run_eq_some {r : Request} {s s' : System} (h : r.run hash heaps s = some s') :
    s.HasRoom ∧ ∃ ok, s.step hash heaps r.op = (.returned ok, s') := by
  unfold Request.run at h
  split at h
  · rename_i hroom
    split at h
    · rename_i ok s'' hstep
      obtain rfl := Option.some.inj h
      exact ⟨hroom, ok, hstep⟩
    · exact absurd h (by simp)
  · exact absurd h (by simp)

/-! ## What holds in every state -/

/-- The state between two calls. -/
structure Steady (hash : Bytes → UInt64) (e : StorageEngine) (d : Disk) : Prop where
  tables : TablesOK hash e d
  descending : Descending e.sstables
  /-- a directory with a newline in its name makes the manifest unreadable -/
  listed : newline ∉ e.config.dbDir →
    e.manifest.sstableFiles = (e.sstables.map SSTableReader.filepath).reverse ∧ Lists d e.manifest.sstableFiles
  active : ∃ m, e.active = some m ∧ Fresh e.config.walPath m
  immutable : e.immutable = none
  log : e.config.walPath ≠ [] → ∃ rs, Logs d rs ∧ ShortLog rs

/-- A new table is in front of all others. -/
theorem TablesOK.descending_cons (h : TablesOK hash e d) (hd : Descending e.sstables) {r : SSTableReader}
    (hpath : r.filepath = e.flushPath) : Descending (r :: e.sstables) := by
  have hcounter : e.idCounter.toNat < 2 ^ 64 := e.idCounter.toNat_lt
  refine List.pairwise_cons.2 ⟨fun t ht => ?_, hd⟩
  have hnew : extractFileId r.filepath = e.idCounter.toNat := by
    rw [hpath]
    exact extractFileId_tablePath (by decide) hcounter
  rw [hnew]
  exact (h.live t ht).named.extractFileId hcounter.le

/-! ### Writes -/

theorem Logs.write {rs : List LogRecord} (h : Logs w.disk rs) (r : LogRecord) {m : MemTable} (hm : m.wal = true) :
    Logs (MemTable.writeWorld r m w).disk (rs ++ [r]) := by
  unfold Logs at h ⊢
  unfold MemTable.writeWorld
  rw [hm]
  simp only [if_true, World.disk_perform, Effect.apply, h, Option.getD_some, List.map_append, unlines_append]
  simp [unlines_cons, unlines_nil]

theorem disk_writeWorld (r : LogRecord) (m : MemTable) (w : World) :
    (MemTable.writeWorld r m w).disk.tables = w.disk.tables ∧
      (MemTable.writeWorld r m w).disk.manifest = w.disk.manifest := by
  unfold MemTable.writeWorld
  split
  · exact ⟨rfl, rfl⟩
  · exact ⟨rfl, rfl⟩

/-- A write into the memtable and its log. -/
theorem Steady.write (h : Steady hash e w.disk) {m m' : MemTable} (ha : e.active = some m) {r : LogRecord}
    (hr : r.Short) (hm : Fresh e.config.walPath m') :
    Steady hash { e with active := some m' } (MemTable.writeWorld r m w).disk := by
  obtain ⟨ht, hman⟩ := disk_writeWorld r m w
  obtain ⟨m₀, ha₀, hfresh⟩ := h.active
  obtain rfl : m₀ = m := Option.some.inj (ha₀.symm.trans ha)
  refine ⟨h.tables.congr rfl rfl le_rfl ht, h.descending, fun hdir => ?_, ⟨m', rfl, hm⟩, h.immutable, fun hp => ?_⟩
  · obtain ⟨h1, h2⟩ := h.listed hdir
    exact ⟨h1, h2.congr hman⟩
  · obtain ⟨rs, hrs, hshort⟩ := h.log hp
    refine ⟨rs ++ [r], Logs.write hrs r (hfresh.wal.2 hp), fun x hx => ?_⟩
    rcases List.mem_append.1 hx with hx | hx
    · exact hshort x hx
    · rw [List.mem_singleton.1 hx]
      exact hr

theorem Fresh.applyPut {walPath key value : Bytes} {m : MemTable} (h : Fresh walPath m) (hk : key.length < 2 ^ 32)
    (hv : value.length < 2 ^ 32) : Fresh walPath (m.applyPut key value) :=
  ⟨by rw [MemTable.isImmutable_applyPut, h.mutable], h.short.applyPut hk hv,
    by rw [MemTable.wal_applyPut]; exact h.wal⟩

theorem Fresh.applyDelete {walPath key : Bytes} {m : MemTable} (h : Fresh walPath m) (hk : key.length < 2 ^ 32) :
    Fresh walPath (m.applyDelete key) :=
  ⟨by rw [MemTable.isImmutable_applyDelete, h.mutable], h.short.applyDelete hk,
    by rw [MemTable.wal_applyDelete]; exact h.wal⟩

theorem Steady.put (h : Steady hash e w.disk) {m : MemTable} (ha : e.active = some m) {key value : Bytes}
    {now : Int64} (hk : key.length < 2 ^ 32) (hv : value.length < 2 ^ 32) :
    Steady hash { e with active := some (m.applyPut key value) }
      (MemTable.writeWorld ⟨.put, key, value, now⟩ m w).disk := by
  obtain ⟨m₀, ha₀, hfresh⟩ := h.active
  obtain rfl : m₀ = m := Option.some.inj (ha₀.symm.trans ha)
  exact h.write ha ⟨hk, hv⟩ (hfresh.applyPut hk hv)

/-! ### Flushes -/

/-- The manifest and the log when the new memtable is opened. -/
theorem installedWorld_ok (hash : Bytes → UInt64) (m : MemTable) (e : StorageEngine) (w : World) :
    (e.manifest.addSSTable e.flushPath .ok (built hash m e w)).2.1.sstableFiles =
        e.manifest.sstableFiles ++ [e.flushPath] ∧
      (installedWorld hash .ok m e w).disk.manifest =
        (Effect.apply (.manifestAppend (e.flushPath ++ [newline])) w.disk).manifest ∧
      (e.config.walPath ≠ [] → Logs (installedWorld hash .ok m e w).disk []) := by
  unfold installedWorld truncated
  refine ⟨rfl, ?_, fun hp => ?_⟩
  · split <;> rfl
  · rw [if_pos (by simp [hp, FlushIO.ok])]
    rfl

/-- **A flush that returns.** -/
theorem Steady.flushTable (h : Steady hash e w.disk) (hroom : e.idCounter.toNat + 1 < 2 ^ 64) {b : Bool}
    (hf : flushTable hash .ok e w = (.returned b, e', w')) : Steady hash e' w'.disk := by
  obtain ⟨m, ha, hfresh⟩ := h.active
  have hshort : ∀ m', e.active = some m' → m'.Short := by
    intro m' hm'
    rw [ha] at hm'
    rw [← Option.some.inj hm']
    exact hfresh.short
  have htables := h.tables.flushTable hroom hshort hf
  have hcases := flushTable_cases hash .ok e w
  rw [hf] at hcases
  cases hcases with
  | idle _ => exact h
  | done m₀ m' r _ ha' hne hr hnew =>
    -- the new table is written in the manifest, and the log is emptied
    obtain ⟨hman, hfile, hwal⟩ := installedWorld_ok hash m₀ e w
    obtain ⟨m'', w'', hnew', hopened⟩ := new_logs (fun hp => Or.inl (hwal hp)) fun r hr =>
      absurd hr List.not_mem_nil
    obtain ⟨h1, rfl⟩ := Prod.mk.inj (hnew'.symm.trans hnew)
    obtain rfl := Except.ok.inj h1
    refine ⟨htables, h.tables.descending_cons h.descending hr.filepath, fun hdir => ?_,
      ⟨m'', rfl, hopened.fresh⟩, rfl, fun hp => ⟨[], hopened.log hp, fun r hr => absurd hr List.not_mem_nil⟩⟩
    obtain ⟨h1, h2⟩ := h.listed hdir
    have hpaths : e.manifest.sstableFiles ++ [e.flushPath] =
        ((r :: e.sstables).map SSTableReader.filepath).reverse := by
      rw [List.map_cons, List.reverse_cons, hr.filepath, h1]
    refine ⟨hman.trans hpaths, ?_⟩
    change Lists w''.disk (e.manifest.addSSTable e.flushPath .ok (built hash m₀ e w)).2.1.sstableFiles
    rw [hman]
    exact (h2.append e.flushPath).congr (hopened.manifest.trans hfile)

/-! ### Compactions -/

/-- When the manifest lists the tables, all of them are replaced by name. -/
theorem replaceByNames_listed (hne : e.sstables ≠ [])
    (hlist : e.manifest.sstableFiles = (e.sstables.map SSTableReader.filepath).reverse) (io : ReplaceIO)
    (w : World) :
    e.manifest.replaceByNames (e.sstables.map SSTableReader.filepath) e.compactPath io w =
      e.manifest.persist [e.compactPath] io w := by
  have hold : e.sstables.map SSTableReader.filepath ≠ [] := by simpa using hne
  have hpath : e.compactPath ≠ [] := tablePath_ne_nil _ _ _ (by decide)
  have hsame : ∀ f, f ∈ e.sstables.map SSTableReader.filepath ↔ f ∈ e.manifest.sstableFiles := by
    intro f
    rw [hlist, List.mem_reverse]
  exact Manifest.replaceByNames_all hold hpath (fun f hf => (hsame f).1 hf) (fun f hf => (hsame f).2 hf) io w

theorem replaced_ok {ins : List CompactorInput} (hne : e.sstables ≠ [])
    (hlist : e.manifest.sstableFiles = (e.sstables.map SSTableReader.filepath).reverse) :
    replaced hash heaps .ok ins e w = (true, ⟨[e.compactPath]⟩,
      ((merged hash heaps ins e w).perform (.manifestTmp (unlines [e.compactPath]))).perform .manifestRename) := by
  unfold replaced replaceInManifest
  rw [replaceByNames_listed hne hlist]
  rfl

/-- The log is not touched by a compaction. -/
theorem wal_replaceInManifest (old : List Bytes) (ids : List ℕ) (path : Bytes) (id : ℕ) (io : CompactionIO)
    (m : Manifest) (w : World) :
    (replaceInManifest old ids path id io m w).2.2.disk.wal = w.disk.wal := by
  -- a manifest is written to files of its own
  have hpersist : ∀ (updated : List Bytes) (io : ReplaceIO) (m : Manifest) (w : World),
      (m.persist updated io w).2.2.disk.wal = w.disk.wal := by
    intro updated io m w
    unfold Manifest.persist
    cases io.tmp with
    | openFails => rfl
    | torn n => rfl
    | ok =>
      simp only
      split
      · rfl
      · split <;> split <;> rfl
  have hnames : (m.replaceByNames old path io.byNames w).2.2.disk.wal = w.disk.wal := by
    unfold Manifest.replaceByNames
    split
    · rfl
    · split
      · rfl
      · exact hpersist _ _ m w
  have hids : ∀ (m : Manifest) (w : World), (m.replaceByIds ids id io.byIds w).2.2.disk.wal = w.disk.wal := by
    intro m w
    unfold Manifest.replaceByIds
    split
    · rfl
    · split
      · rfl
      · exact hpersist _ _ m w
  unfold replaceInManifest
  generalize m.replaceByNames old path io.byNames w = r at hnames
  obtain ⟨ok, m', w'⟩ := r
  cases ok with
  | true => exact hnames
  | false => exact (hids m' w').trans hnames

theorem wal_compaction (hash : Bytes → UInt64) (heaps : Heaps) (io : CompactionIO) (e : StorageEngine)
    (w : World) :
    (triggerCompactionInternal hash heaps io e w).2.2.disk.wal = w.disk.wal := by
  have hreplaced : ∀ {ins ok m'} {w' : World}, replaced hash heaps io ins e w = (ok, m', w') →
      w'.disk.wal = w.disk.wal := by
    intro ins ok m' w' hr
    have h := wal_replaceInManifest (e.sstables.map SSTableReader.filepath) (fileIds e.sstables) e.compactPath
      e.idCounter.toNat io e.manifest (merged hash heaps ins e w)
    rw [show replaceInManifest _ _ _ _ _ _ _ = (ok, m', w') from hr] at h
    exact h
  have h := compaction_cases hash heaps io e w
  generalize triggerCompactionInternal hash heaps io e w = r at h
  cases h with
  | below _ => rfl
  | notOpened _ => rfl
  | nothing _ => rfl
  | notBuilt =>
    simp only
    split <;> rfl
  | notReplaced ins m' w' hm hr => exact hreplaced hr
  | notRead ins m' w' hm hr ho => exact hreplaced hr
  | done ins m' w' r hm hr hnew hpath hreads =>
    simp only [disk_removeOld]
    exact hreplaced hr

/-- **A compaction**, however it ends without a failing file operation. -/
theorem Steady.compaction (h : Steady hash e w.disk) (hroom : e.idCounter.toNat + 1 < 2 ^ 64) {o : Outcome Bool}
    (hc : triggerCompactionInternal hash heaps .ok e w = (o, e', w')) : Steady hash e' w'.disk := by
  have htables := h.tables.compaction hroom hc
  have hwal := wal_compaction hash heaps .ok e w
  have hcases := compaction_cases hash heaps .ok e w
  rw [hc] at hcases hwal
  simp only at hwal
  have hlog : e.config.walPath ≠ [] → ∃ rs, Logs w'.disk rs ∧ ShortLog rs := by
    intro hp
    obtain ⟨rs, hrs, hshort⟩ := h.log hp
    exact ⟨rs, hwal.trans hrs, hshort⟩
  -- where every name is listed and every file operation succeeds, `ReplaceSSTables` does not fail
  have hnever : ∀ {ins m' w'}, e.sstables ≠ [] → replaced hash heaps .ok ins e w = (false, m', w') →
      newline ∈ e.config.dbDir := by
    intro ins m' w' hne hr
    by_contra hdir
    rw [replaced_ok hne (h.listed hdir).1] at hr
    exact absurd (Prod.mk.inj hr).1 (by decide)
  cases hcases with
  | below _ => exact h
  | notOpened _ => exact h
  | nothing _ => exact ⟨htables, h.descending, h.listed, h.active, h.immutable, hlog⟩
  | notBuilt => exact ⟨htables, h.descending, h.listed, h.active, h.immutable, hlog⟩
  | notReplaced ins m' _ hm hr =>
    exact ⟨htables, h.descending, fun hdir => absurd (hnever hm.ne_nil hr) hdir, h.active, h.immutable, hlog⟩
  | notRead ins m' _ hm hr ho => exact absurd ho (by decide)
  | done ins m' w₁ r hm hr hnew hpath hreads =>
    refine ⟨htables, List.pairwise_singleton _ r, fun hdir => ?_, h.active, h.immutable, hlog⟩
    rw [replaced_ok hm.ne_nil (h.listed hdir).1] at hr
    obtain ⟨-, h2⟩ := Prod.mk.inj hr
    obtain ⟨rfl, rfl⟩ := Prod.mk.inj h2
    refine ⟨by rw [List.map_singleton, hpath]; rfl, Or.inl ?_⟩
    rw [disk_removeOld]
    rfl

/-! ### Opening again -/

/-- **The database opened again.** -/
theorem Steady.reopen (h : Steady hash e w.disk) {config : Config} (hdir : config.dbDir = e.config.dbDir)
    (hwal : config.walPath = e.config.walPath) (hopen : StorageEngine.new config .ok w = (.ok e', w')) :
    Steady hash e' w'.disk := by
  have hd : DiskTables hash config.dbDir w.disk := by
    rw [hdir]
    exact h.tables.disk
  obtain ⟨htables, hpaths⟩ := TablesOK.reopen hd hopen
  obtain ⟨ts, n, m, hrec, hmem, rfl⟩ := new_engine hopen
  have hlogs : ∃ rs, (config.walPath ≠ [] → Logs w.disk rs) ∧ ShortLog rs := by
    by_cases hp : config.walPath = []
    · exact ⟨[], fun h => absurd hp h, fun r hr => absurd hr List.not_mem_nil⟩
    · obtain ⟨rs, hrs, hshort⟩ := h.log (hwal ▸ hp)
      exact ⟨rs, fun _ => hrs, hshort⟩
  obtain ⟨rs, hrs, hshort⟩ := hlogs
  obtain ⟨m₀, w₀, hm₀, hopened⟩ := new_logs (fun hp => Or.inl (hrs hp)) hshort
  obtain ⟨h1, rfl⟩ := Prod.mk.inj (hm₀.symm.trans hmem)
  obtain rfl := Except.ok.inj h1
  -- the manifest lists what it listed before, oldest first
  have hnewest : Descending ts ∧ (newline ∉ config.dbDir →
      (Manifest.load w.disk).sstableFiles = (ts.map SSTableReader.filepath).reverse ∧
        Lists w₀.disk (Manifest.load w.disk).sstableFiles) := by
    by_cases hnl : newline ∈ config.dbDir
    · -- no line of the manifest is the name of a table
      have hnone : (Manifest.load w.disk).sstableFiles.filter (Exists w.disk) = [] := by
        rw [List.filter_eq_nil_iff]
        intro f hf hexists
        obtain ⟨content, hcontent⟩ := Option.isSome_iff_exists.1 hexists
        obtain ⟨⟨family, -, id, -, hname⟩, -⟩ := hd f content hcontent
        refine newline_notMem_load hf ?_
        rw [hname]
        exact newline_mem_tablePath hnl family id
      rw [hnone] at hpaths
      have hts : ts = [] := List.map_eq_nil_iff.1 hpaths
      rw [hts]
      exact ⟨List.Pairwise.nil, fun hno => absurd hnl hno⟩
    · obtain ⟨hl1, hl2⟩ := h.listed (hdir ▸ hnl)
      have hload : Manifest.load w.disk = ⟨e.manifest.sstableFiles⟩ := by
        refine load_unlines hl2 hnl fun f hf => ?_
        rw [hl1, List.mem_reverse] at hf
        obtain ⟨r, hr, rfl⟩ := List.mem_map.1 hf
        obtain ⟨family, hfam, id, -, hname⟩ := (h.tables.live r hr).named
        exact ⟨family, hfam, id, hdir ▸ hname⟩
      have hall : e.manifest.sstableFiles.filter (Exists w.disk) = e.manifest.sstableFiles := by
        rw [List.filter_eq_self]
        intro f hf
        rw [hl1, List.mem_reverse] at hf
        obtain ⟨r, hr, rfl⟩ := List.mem_map.1 hf
        simp [Exists, (h.tables.live r hr).file]
      rw [hload, hall] at hpaths
      have hsame : ts.map SSTableReader.filepath = e.sstables.map SSTableReader.filepath := by
        rw [hpaths, hl1, List.reverse_reverse]
      refine ⟨?_, fun _ => ⟨?_, ?_⟩⟩
      · rw [descending_iff, hsame, ← descending_iff]
        exact h.descending
      · rw [hload, hsame, hl1]
      · rw [hload]
        exact hl2.congr hopened.manifest
  exact ⟨htables, hnewest.1, hnewest.2, ⟨m₀, rfl, hopened.fresh⟩, rfl, fun hp => ⟨rs, hopened.log hp, hshort⟩⟩

/-- The database opened on an empty directory. -/
theorem steady_fresh {config : Config}
    (hopen : StorageEngine.new config .ok (World.ofDisk Disk.empty) = (.ok e, w)) :
    Steady hash e w.disk := by
  have hd : DiskTables hash config.dbDir Disk.empty := fun p content h => nomatch h
  obtain ⟨htables, -⟩ := TablesOK.reopen hd hopen
  obtain ⟨ts, n, m, hrec, hmem, rfl⟩ := new_engine hopen
  have hlog : config.walPath ≠ [] → Logs (World.ofDisk Disk.empty).disk [] ∨
      (World.ofDisk Disk.empty).disk.wal = none ∧ ([] : List LogRecord) = [] := fun _ => Or.inr ⟨rfl, rfl⟩
  obtain ⟨m₀, w₀, hm₀, hopened⟩ := new_logs hlog fun r hr => absurd hr List.not_mem_nil
  obtain ⟨h1, rfl⟩ := Prod.mk.inj (hm₀.symm.trans hmem)
  obtain rfl := Except.ok.inj h1
  obtain ⟨rfl, -⟩ := Prod.mk.inj (Except.ok.inj hrec)
  refine ⟨htables, List.Pairwise.nil, fun _ => ⟨rfl, Or.inr ⟨hopened.manifest, rfl⟩⟩,
    ⟨m₀, rfl, hopened.fresh⟩, rfl,
    fun hp => ⟨[], hopened.log hp, fun r hr => absurd hr List.not_mem_nil⟩⟩

/-! ## One call -/

theorem idCounter_flushTable (hash : Bytes → UInt64) (io : FlushIO) (e : StorageEngine) (w : World) :
    (StorageEngine.flushTable hash io e w).2.1.idCounter = e.idCounter ∨
      (StorageEngine.flushTable hash io e w).2.1.idCounter = e.idCounter + 1 := by
  have h := flushTable_cases hash io e w
  generalize StorageEngine.flushTable hash io e w = r at h
  cases h with
  | idle _ => exact Or.inl rfl
  | notBuilt m what ha hne => exact Or.inr rfl
  | notOpened m what ha hne hlen ho => exact Or.inr rfl
  | noMemTable m what r w' ha hne hr hnew => exact Or.inr rfl
  | done m m' r w' ha hne hr hnew => exact Or.inr rfl

/-- There is room for the compaction after a flush. -/
theorem room_flushTable (hroom : e.idCounter.toNat + 2 < 2 ^ 64) {io : FlushIO} {o : Outcome Bool}
    (hf : StorageEngine.flushTable hash io e w = (o, e', w')) : e'.idCounter.toNat + 1 < 2 ^ 64 := by
  have h := idCounter_flushTable hash io e w
  rw [hf] at h
  rcases h with h | h
  · simp only at h
    rw [h]
    omega
  · simp only at h
    rw [h, toNat_succ (by omega)]
    omega

/-- A flush and the compaction it triggers. -/
theorem Steady.flush (h : Steady hash e w.disk) (hroom : e.idCounter.toNat + 2 < 2 ^ 64)
    (hf : flushMemTableInternal hash heaps .ok e w = (.returned (), e', w')) : Steady hash e' w'.disk := by
  cases flush_end hf with
  | table htable ho _ =>
    obtain ⟨b, rfl⟩ := Outcome.returned_of_dropped ho
    exact h.flushTable (by omega) htable
  | compacted htable _ hcompact _ =>
    exact (h.flushTable (by omega) htable).compaction (room_flushTable hroom htable) hcompact

variable {s s' : System}

/-- **One call of the run.** -/
theorem Steady.step (h : Steady hash s.engine s.world.disk) {r : Request} (hr : r.Short) (hroom : s.HasRoom)
    {ok : Bool} (hstep : s.step hash heaps r.op = (.returned ok, s')) : Steady hash s'.engine s'.world.disk := by
  obtain ⟨m, ha, hfresh⟩ := h.active
  cases r with
  | put key value now =>
    have hw : Steady hash { s.engine with active := some (m.applyPut key value) }
        (MemTable.writeWorld ⟨.put, key, value, now⟩ m s.world).disk := h.put ha hr.1 hr.2
    rw [Request.op, step_put_ok ha hfresh.mutable] at hstep
    split at hstep
    · exact hw.flush hroom (System.unit_returned hstep)
    · obtain ⟨-, rfl⟩ := Prod.mk.inj hstep
      exact hw
  | delete key now =>
    rw [Request.op, step_delete_ok ha hfresh.mutable] at hstep
    obtain ⟨-, rfl⟩ := Prod.mk.inj hstep
    exact h.write ha ⟨hr, by norm_num⟩ (hfresh.applyDelete hr)
  | flushMemTable => exact h.flush hroom (System.unit_returned hstep)
  | triggerCompaction =>
    unfold System.HasRoom at hroom
    exact h.compaction (by omega) (step_triggerCompaction hstep)
  | close => exact h.flush hroom (System.unit_returned (step_close hstep))
  | reopen writeBufferSize compactionThreshold =>
    unfold System.step Request.op at hstep
    simp only at hstep
    split at hstep
    · rename_i e' w' hopen
      obtain ⟨-, rfl⟩ := Prod.mk.inj hstep
      exact h.reopen (by rfl) (by rfl) hopen
    · exact absurd (Prod.mk.inj hstep).1 (by simp)

/-- **Every state of a run.** -/
theorem runRequests_steady {rs : List Request} (hshort : ∀ r ∈ rs, r.Short) : ∀ {s s' : System},
    Steady hash s.engine s.world.disk → runRequests hash heaps rs s = some s' →
    Steady hash s'.engine s'.world.disk := by
  induction rs with
  | nil =>
    intro s s' h hrun
    obtain rfl := Option.some.inj hrun
    exact h
  | cons r rs ih =>
    intro s s' h hrun
    obtain ⟨s₁, hr, hrest⟩ := Option.bind_eq_some_iff.1 (show (r.run hash heaps s).bind _ = _ from hrun)
    obtain ⟨hroom, ok, hstep⟩ := Request.run_eq_some hr
    exact ih (fun x hx => hshort x (List.mem_cons_of_mem _ hx))
      (h.step (hshort r List.mem_cons_self) hroom hstep) hrest

end LsmTree

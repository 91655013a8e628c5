import LsmTree.Proof.Steady

/-!
# The bookkeeping of tables

Keys and values of any length are written here: a table may hold what 32-bit lengths
leave of them, in any order. What holds all the same, as long as file operations
succeed and the counter of tables does not wrap around:

* `Booked`: the open tables stand on disk, their numbers descend and stay below the
  counter, and the manifest lists them, in memory and in its file.
* `Booked.run`: one action keeps it, a flush, a compaction or opening again included.
* `runActions_books`: so the bookkeeping is right in every state of a run.
-/

namespace LsmTree

open Base StorageEngine WAL

variable {hash : Bytes → UInt64} {heaps : Heaps} {e e' : StorageEngine} {w w' : World} {d d' : Disk}

/-! ## Tables of any records -/

/-- An open table that stands on disk whole. -/
structure Stands (hash : Bytes → UInt64) (dbDir : Bytes) (d : Disk) (n : ℕ) (r : SSTableReader) : Prop where
  named : IsTable dbDir n r.filepath
  file : d.tables r.filepath = some r.data
  reads : ∃ rs, r.Reads rs (SSTableBuilder.filterOf hash rs)

variable {dbDir : Bytes} {n m : ℕ} {r : SSTableReader}

theorem Stands.congr (h : Stands hash dbDir d n r) (hnm : n ≤ m)
    (ht : d'.tables r.filepath = d.tables r.filepath) :
    Stands hash dbDir d' m r :=
  ⟨h.named.mono hnm, by rw [ht]; exact h.file, h.reads⟩

/-- Opening the file again gives the same reader. -/
theorem Stands.reopens (h : Stands hash dbDir d n r) :
    SSTableReader.new r.filepath (d.tables r.filepath) = .ok r := by
  obtain ⟨rs, hr⟩ := h.reads
  have hlen := hr.short
  rw [hr.data] at hlen
  obtain ⟨r', hnew, hpath, hr'⟩ := reader_opens hash r.filepath hlen
  have hsame : r' = r := by
    obtain ⟨p, data, footer, index, bloom⟩ := r
    obtain ⟨p', data', footer', index', bloom'⟩ := r'
    simp only [SSTableReader.mk.injEq]
    exact ⟨hpath, hr'.data.trans hr.data.symm, hr'.footer.trans hr.footer.symm,
      hr'.sparseIndex.trans hr.sparseIndex.symm, hr'.bloomFilter.trans hr.bloomFilter.symm⟩
  rw [h.file, hr.data, hnew, hsame]

/-- A name with the counter's number or a later one is not in use. -/
theorem Stands.path_ne (h : Stands hash dbDir d n r) {family : Bytes} (hf : family ∈ families) (hnm : n ≤ m) :
    r.filepath ≠ tablePath dbDir family m := by
  intro hp
  obtain ⟨family', hf', id, hid, hrp⟩ := h.named
  have hinj := (tablePath_inj hf' hf (hrp.symm.trans hp)).2
  omega

/-- Tables that stand on disk are opened again as they were, below the new counter. -/
theorem recoverTables_stands {ls : List SSTableReader} : ∀ (acc : List SSTableReader) (maxId : UInt64),
    (∀ r ∈ ls, Stands hash dbDir d (2 ^ 64 - 1) r) →
    ∃ n, recoverTables d (ls.map SSTableReader.filepath) acc maxId = .ok (ls.reverse ++ acc, n) ∧
      maxId.toNat ≤ n.toNat ∧ ∀ r ∈ ls, Stands hash dbDir d n.toNat r := by
  induction ls with
  | nil => exact fun acc maxId _ => ⟨maxId, rfl, le_rfl, fun r hr => absurd hr List.not_mem_nil⟩
  | cons r ls ih =>
    intro acc maxId h
    have hr := h r List.mem_cons_self
    obtain ⟨family, hf, id, hid, hname⟩ := hr.named
    have hnum : extractFileId r.filepath = id := by
      rw [hname]
      exact extractFileId_tablePath hf (by omega)
    obtain ⟨n, hrec, hle, hls⟩ := ih (r :: acc) (if maxId ≤ UInt64.ofNat (extractFileId r.filepath) then
      UInt64.ofNat (extractFileId r.filepath) + 1 else maxId) fun t ht => h t (List.mem_cons_of_mem _ ht)
    rw [toNat_nextId (by omega)] at hle
    have hopen := hr.reopens
    rw [hr.file] at hopen
    refine ⟨n, ?_, by omega, fun t ht => ?_⟩
    · rw [List.map_cons, recoverTables, hr.file]
      simp only [hopen]
      rw [hrec, List.reverse_cons, List.append_assoc]
      rfl
    · rcases List.mem_cons.1 ht with rfl | ht
      · exact ⟨⟨family, hf, id, by omega, hname⟩, hr.file, hr.reads⟩
      · exact hls t ht

/-! ## The books of an engine -/

/-- The state between two actions, in a directory whose name fits a line of the manifest. -/
structure Booked (hash : Bytes → UInt64) (e : StorageEngine) (d : Disk) : Prop where
  directory : newline ∉ e.config.dbDir
  tables : ∀ r ∈ e.sstables, Stands hash e.config.dbDir d e.idCounter.toNat r
  descending : Descending e.sstables
  memory : e.manifest.sstableFiles = (e.sstables.map SSTableReader.filepath).reverse
  file : Lists d e.manifest.sstableFiles

/-- The tables and the manifest stay as they are. -/
theorem Booked.congr (h : Booked hash e d) (hs : e'.sstables = e.sstables) (hm : e'.manifest = e.manifest)
    (hc : e'.config = e.config) (hn : e.idCounter.toNat ≤ e'.idCounter.toNat)
    (ht : ∀ r ∈ e.sstables, d'.tables r.filepath = d.tables r.filepath) (hman : d'.manifest = d.manifest) :
    Booked hash e' d' := by
  refine ⟨?_, fun r hr => ?_, ?_, ?_, ?_⟩
  · rw [hc]
    exact h.directory
  · rw [hs] at hr
    rw [hc]
    exact (h.tables r hr).congr hn (ht r hr)
  · rw [hs]
    exact h.descending
  · rw [hm, hs]
    exact h.memory
  · rw [hm]
    exact h.file.congr hman

/-- A table under the counter's number is created, written or removed. -/
theorem Booked.write (h : Booked hash e d) {family : Bytes} (hf : family ∈ families) (c : Option Bytes) :
    Booked hash e
      { d with tables := LsmTree.setTable d.tables (tablePath e.config.dbDir family e.idCounter.toNat) c } :=
  h.congr rfl rfl rfl le_rfl (fun r hr => setTable_of_ne c ((h.tables r hr).path_ne hf le_rfl)) rfl

/-- The counter went on without wrapping around. -/
theorem toNat_counted {c : UInt64} (h : c.toNat ≤ (c + 1).toNat) : (c + 1).toNat = c.toNat + 1 := by
  have hlt := c.toNat_lt
  have h1 : (1 : UInt64).toNat = 1 := rfl
  rw [UInt64.toNat_add, h1] at h ⊢
  by_cases hwrap : c.toNat + 1 = 2 ^ 64
  · rw [hwrap, Nat.mod_self] at h
    omega
  · exact Nat.mod_eq_of_lt (by omega)

/-- A number is taken or not. -/
theorem toNat_taken {c c' : UInt64} (h : c' = c ∨ c' = c + 1) :
    c'.toNat = c.toNat ∨ c'.toNat = (c.toNat + 1) % 2 ^ 64 := by
  rcases h with rfl | rfl
  · exact Or.inl rfl
  · exact Or.inr (UInt64.toNat_add c 1)

/-! ### Flushes -/

/-- Opening a memtable changes the log only. -/
theorem manifest_new {walPath : Bytes} {io : MemTableIO} {res : Except Bytes MemTable}
    (h : MemTable.new walPath io w = (res, w')) : w'.disk.manifest = w.disk.manifest := by
  have hw : (MemTable.new walPath io w).2.disk.manifest = w.disk.manifest := by
    unfold MemTable.new
    split
    · rfl
    · split <;> rfl
  rw [h] at hw
  exact hw

/-- A new table is in front of all others and on the manifest's last line. -/
theorem Booked.installed (h : Booked hash e w.disk) (hn : e.idCounter.toNat ≤ (e.idCounter + 1).toNat)
    {m : MemTable}
    {r : SSTableReader} (hr : TableReader hash m e.flushPath r) (hs : e'.sstables = r :: e.sstables)
    (hm : e'.manifest.sstableFiles = e.manifest.sstableFiles ++ [e.flushPath]) (hc : e'.config = e.config)
    (hid : e'.idCounter = e.idCounter + 1) (ht : d.tables = (built hash m e w).disk.tables)
    (hman : d.manifest = (Effect.apply (.manifestAppend (e.flushPath ++ [newline])) w.disk).manifest) :
    Booked hash e' d := by
  have hdata : bytes "data_" ∈ families := by decide
  have hcount := toNat_counted hn
  have hbuilt : Booked hash e (built hash m e w).disk :=
    (h.write hdata (some [])).write hdata (some (tableOf hash m))
  -- the counter numbers the new table, so its id is above all others
  have hnumber : extractFileId r.filepath = e.idCounter.toNat := by
    rw [hr.filepath]
    exact extractFileId_tablePath hdata e.idCounter.toNat_lt
  refine ⟨?_, fun t htm => ?_, ?_, ?_, ?_⟩
  · rw [hc]
    exact h.directory
  · rw [hs] at htm
    rw [hc, hid, hcount]
    rcases List.mem_cons.1 htm with rfl | htm
    · refine ⟨⟨bytes "data_", hdata, e.idCounter.toNat, by omega, hr.filepath⟩, ?_, m.records, hr.reads⟩
      rw [ht, hr.filepath, hr.reads.data]
      exact setTable_self _ _ _
    · exact (hbuilt.tables t htm).congr (by omega) (by rw [ht])
  · rw [hs]
    refine List.pairwise_cons.2 ⟨fun t htm => ?_, h.descending⟩
    rw [hnumber]
    exact (h.tables t htm).named.extractFileId e.idCounter.toNat_lt.le
  · rw [hm, hs, List.map_cons, List.reverse_cons, hr.filepath, h.memory]
  · rw [hm]
    exact (h.file.append e.flushPath).congr hman

/-- **A flush**, however it ends. -/
theorem Booked.flushTable (h : Booked hash e w.disk) {o : Outcome Bool}
    (hf : StorageEngine.flushTable hash .ok e w = (o, e', w')) (hn : e.idCounter.toNat ≤ e'.idCounter.toNat) :
    Booked hash e' w'.disk := by
  have hcases := flushTable_cases hash .ok e w
  rw [hf] at hcases
  have hdata : bytes "data_" ∈ families := by decide
  have hnew : ∀ m res w', MemTable.new e.config.walPath FlushIO.ok.memTable (installedWorld hash .ok m e w) =
      (res, w') →
      w'.disk.tables = (built hash m e w).disk.tables ∧
        w'.disk.manifest = (Effect.apply (.manifestAppend (e.flushPath ++ [newline])) w.disk).manifest :=
    fun m res w' hm => ⟨(tables_new hm).trans (tables_installedWorld .ok m e w),
      (manifest_new hm).trans (installedWorld_ok hash m e w).2.1⟩
  cases hcases with
  | idle _ => exact h
  | notBuilt m what ha hne =>
    have hremove : Booked hash e (unbuilt .ok e w).disk := (h.write hdata (some [])).write hdata none
    exact hremove.congr rfl rfl rfl hn (fun _ _ => rfl) rfl
  | notOpened m what ha hne hlen ho => exact absurd ho (by decide)
  | noMemTable m what r _ ha hne hr hm =>
    exact h.installed hn hr rfl rfl rfl rfl (hnew m _ _ hm).1 (hnew m _ _ hm).2
  | done m m' r _ ha hne hr hm => exact h.installed hn hr rfl rfl rfl rfl (hnew m _ _ hm).1 (hnew m _ _ hm).2

/-! ### Compactions -/

/-- **A compaction**, however it ends. -/
theorem Booked.compaction (h : Booked hash e w.disk) {o : Outcome Bool}
    (hc : triggerCompactionInternal hash heaps .ok e w = (o, e', w'))
    (hn : e.idCounter.toNat ≤ e'.idCounter.toNat) :
    Booked hash e' w'.disk := by
  have hcases := compaction_cases hash heaps .ok e w
  rw [hc] at hcases
  have hsst : bytes "sstable_" ∈ families := by decide
  cases hcases with
  | below _ => exact h
  | notOpened _ => exact h
  | nothing _ => exact h.congr rfl rfl rfl hn (fun _ _ => rfl) rfl
  | notBuilt =>
    -- the file of a table that could not be finished is removed
    have hremove : Booked hash e
      ((w.perform (.tableCreate e.compactPath)).perform (.tableRemove e.compactPath)).disk :=
      (h.write hsst (some [])).write hsst none
    exact hremove.congr rfl rfl rfl hn (fun _ _ => rfl) rfl
  | notReplaced ins m' _ hm hr =>
    -- every file operation comes through, so the renaming does
    rw [replaced_ok hm.ne_nil h.memory] at hr
    exact absurd (Prod.mk.inj hr).1 (by decide)
  | notRead ins m' _ hm hr ho => exact absurd ho (by decide)
  | done ins m' w₁ r hm hr hnew hpath hreads =>
    rw [replaced_ok hm.ne_nil h.memory] at hr
    obtain ⟨-, h2⟩ := Prod.mk.inj hr
    obtain ⟨rfl, rfl⟩ := Prod.mk.inj h2
    -- the new table is not one of its inputs, so it is not swept with them
    have hold : e.compactPath ∉ e.sstables.map SSTableReader.filepath := by
      intro hmem
      obtain ⟨t, ht, hp⟩ := List.mem_map.1 hmem
      exact (h.tables t ht).path_ne hsst le_rfl hp
    refine ⟨h.directory, fun t ht => ?_, List.pairwise_singleton _ r, ?_, ?_⟩
    · rw [List.mem_singleton.1 ht, disk_removeOld]
      refine ⟨⟨bytes "sstable_", hsst, e.idCounter.toNat, ?_, hpath⟩, ?_, _, hreads⟩
      · have hcount := toNat_counted hn
        simp only
        omega
      · unfold swept
        rw [hpath, hreads.data]
        simp only [hold, false_and, if_false]
        exact setTable_self _ _ _
    · rw [List.map_singleton, hpath]
      rfl
    · rw [disk_removeOld]
      exact Or.inl rfl

theorem idCounter_compaction (hash : Bytes → UInt64) (heaps : Heaps) (io : CompactionIO) (e : StorageEngine)
    (w : World) : (triggerCompactionInternal hash heaps io e w).2.1.idCounter = e.idCounter ∨
      (triggerCompactionInternal hash heaps io e w).2.1.idCounter = e.idCounter + 1 := by
  have h := compaction_cases hash heaps io e w
  generalize triggerCompactionInternal hash heaps io e w = r at h
  cases h with
  | below _ => exact Or.inl rfl
  | notOpened _ => exact Or.inl rfl
  | nothing _ => exact Or.inr rfl
  | notBuilt => exact Or.inr rfl
  | notReplaced ins m' w' hm hr => exact Or.inr rfl
  | notRead ins m' w' hm hr ho => exact Or.inr rfl
  | done ins m' w' r hm hr hnew hpath hreads => exact Or.inr rfl

/-- **A flush and the compaction it triggers.** -/
theorem Booked.flush (h : Booked hash e w.disk) {o : Outcome Unit}
    (hf : flushMemTableInternal hash heaps .ok e w = (o, e', w')) (hn : e.idCounter.toNat ≤ e'.idCounter.toNat) :
    Booked hash e' w'.disk := by
  cases flush_end hf with
  | table htable _ _ => exact h.flushTable htable hn
  | @compacted _ _ e₁ _ w₁ _ htable _ hcompact _ =>
    -- neither of the two numbers taken wrapped around, since the second is not below the first
    have hcompact : triggerCompactionInternal hash heaps .ok e₁ w₁ = _ := hcompact
    have hid₁ := idCounter_flushTable hash .ok e w
    have hid₂ := idCounter_compaction hash heaps .ok e₁ w₁
    rw [htable] at hid₁
    rw [hcompact] at hid₂
    have hlt := e.idCounter.toNat_lt
    have hone : e₁.idCounter.toNat = e.idCounter.toNat ∨
        e₁.idCounter.toNat = (e.idCounter.toNat + 1) % 2 ^ 64 := toNat_taken hid₁
    have htwo : e'.idCounter.toNat = e₁.idCounter.toNat ∨
        e'.idCounter.toNat = (e₁.idCounter.toNat + 1) % 2 ^ 64 := toNat_taken hid₂
    have hcount : e.idCounter.toNat ≤ e₁.idCounter.toNat ∧ e₁.idCounter.toNat ≤ e'.idCounter.toNat := by omega
    exact (h.flushTable htable hcount.1).compaction hcompact hcount.2

/-! ### Opening again -/

theorem new_ok (walPath : Bytes) (w : World) : ∃ m w', MemTable.new walPath .ok w = (.ok m, w') := by
  by_cases hp : walPath = []
  · subst hp
    exact ⟨_, _, MemTable.new_nil _ w⟩
  · exact ⟨_, _, MemTable.new_opened hp rfl w⟩

theorem Booked.load (h : Booked hash e d) : Manifest.load d = e.manifest := by
  refine load_unlines h.file h.directory fun f hf => ?_
  rw [h.memory, List.mem_reverse] at hf
  obtain ⟨r, hr, rfl⟩ := List.mem_map.1 hf
  obtain ⟨family, hfam, id, -, hname⟩ := (h.tables r hr).named
  exact ⟨family, hfam, id, hname⟩

/-- **Opening again in the same directory** gives the same tables in the same order. -/
theorem Booked.reopen (h : Booked hash e w.disk) {config : Config}
    (hsame : config.dbDir = e.config.dbDir) : ∃ e' w', StorageEngine.new config .ok w = (.ok e', w') ∧
      e'.sstables = e.sstables ∧ e'.config = config ∧ Booked hash e' w'.disk := by
  have hlt := e.idCounter.toNat_lt
  have hstands : ∀ r ∈ e.sstables.reverse, Stands hash config.dbDir w.disk (2 ^ 64 - 1) r := by
    intro r hr
    rw [hsame]
    exact (h.tables r (List.mem_reverse.1 hr)).congr (by omega) rfl
  obtain ⟨n, hrec, -, htables⟩ := recoverTables_stands [] 0 hstands
  rw [List.reverse_reverse, List.append_nil, List.map_reverse, ← h.memory] at hrec
  obtain ⟨m, w', hm⟩ := new_ok config.walPath w
  have hload := h.load
  have hdir : newline ∉ config.dbDir := by
    rw [hsame]
    exact h.directory
  refine ⟨⟨config, e.manifest, some m, none, e.sstables, n⟩, w', ?_, rfl, rfl, hdir, fun r hr => ?_, h.descending,
    h.memory, h.file.congr (manifest_new hm)⟩
  · unfold StorageEngine.new
    simp only [hload, hrec, hm]
  · exact (htables r (List.mem_reverse.2 hr)).congr le_rfl (by rw [tables_new hm])

/-- The database opened on an empty directory. -/
theorem booked_fresh {config : Config} (hdir : newline ∉ config.dbDir)
    (hopen : StorageEngine.new config .ok (World.ofDisk Disk.empty) = (.ok e, w)) :
    Booked hash e w.disk := by
  obtain ⟨ts, n, m, hrec, hmem, rfl⟩ := new_engine hopen
  obtain ⟨rfl, -⟩ := Prod.mk.inj (Except.ok.inj hrec)
  exact ⟨hdir, fun r hr => absurd hr List.not_mem_nil, List.Pairwise.nil, rfl, Or.inr ⟨manifest_new hmem, rfl⟩⟩

/-! ### Writes -/

theorem disk_append (operation key value : Bytes) (now : Int64) (io : AppendIO) (w : World) :
    (WAL.append operation key value now io w).2.disk.tables = w.disk.tables ∧
      (WAL.append operation key value now io w).2.disk.manifest = w.disk.manifest := by
  unfold WAL.append
  cases io <;> exact ⟨rfl, rfl⟩

theorem disk_put {m m' : MemTable} {key value : Bytes} {now : Int64} {io : AppendIO} {ok : Bool}
    (hput : m.put key value now io w = (ok, m', w')) :
    w'.disk.tables = w.disk.tables ∧ w'.disk.manifest = w.disk.manifest := by
  obtain rfl : (m.put key value now io w).2.2 = w' := by rw [hput]
  have happend := disk_append (bytes "PUT") key value now io w
  unfold MemTable.put
  generalize WAL.append (bytes "PUT") key value now io w = r at happend
  obtain ⟨ok, w'⟩ := r
  split
  · exact ⟨rfl, rfl⟩
  · split
    · cases ok <;> exact happend
    · exact ⟨rfl, rfl⟩

theorem disk_delete {m m' : MemTable} {key : Bytes} {now : Int64} {io : AppendIO} {ok : Bool}
    (hdelete : m.delete key now io w = (ok, m', w')) :
    w'.disk.tables = w.disk.tables ∧ w'.disk.manifest = w.disk.manifest := by
  obtain rfl : (m.delete key now io w).2.2 = w' := by rw [hdelete]
  have happend := disk_append (bytes "DELETE") key [] now io w
  unfold MemTable.delete
  generalize WAL.append (bytes "DELETE") key [] now io w = r at happend
  obtain ⟨ok, w'⟩ := r
  split
  · exact ⟨rfl, rfl⟩
  · split
    · cases ok <;> exact happend
    · exact ⟨rfl, rfl⟩

/-- Another memtable, and files of which neither tables nor manifest changed. -/
theorem Booked.withActive (h : Booked hash e w.disk) (m : MemTable)
    (hd : w'.disk.tables = w.disk.tables ∧ w'.disk.manifest = w.disk.manifest) :
    Booked hash { e with active := some m } w'.disk :=
  h.congr rfl rfl rfl le_rfl (fun _ _ => by rw [hd.1]) hd.2

/-! ## Runs -/

/-- A call, whatever it returns, or the database opened again in its directory. -/
inductive Action where
  | call (r : Request)
  | openAgain (writeBufferSize : UInt64) (walPath : Bytes) (compactionThreshold : UInt64)

/-- One action; a call may not take the last number of the counter. -/
def Action.run (hash : Bytes → UInt64) (heaps : Heaps) (s : System) : Action → Option System
  | .call r =>
    let s' := (s.step hash heaps r.op).2
    if s.engine.idCounter.toNat ≤ s'.engine.idCounter.toNat then some s' else none
  | .openAgain writeBufferSize walPath compactionThreshold =>
    match StorageEngine.new ⟨writeBufferSize, walPath, s.engine.config.dbDir, compactionThreshold⟩ .ok s.world with
    | (.ok e, w) => some ⟨e, w⟩
    | (.error _, _) => none

def runActions (hash : Bytes → UInt64) (heaps : Heaps) (actions : List Action) (s : System) : Option System :=
  actions.foldlM (Action.run hash heaps) s

variable {s s' : System}

theorem Booked.put (h : Booked hash s.engine s.world.disk) {key value : Bytes} {now : Int64} {o : Outcome Bool}
    (hend : PutEnd hash heaps key value now .ok .ok s (o, s'))
    (hn : s.engine.idCounter.toNat ≤ s'.engine.idCounter.toNat) : Booked hash s'.engine s'.world.disk := by
  cases hend with
  | closed _ => exact h
  | refused _ hput => exact h.withActive _ (disk_put hput)
  | room _ hput _ => exact h.withActive _ (disk_put hput)
  | full _ hput _ hflush =>
    obtain rfl := System.unit_eq hflush
    exact (h.withActive _ (disk_put hput)).flush rfl hn

theorem Booked.delete (h : Booked hash s.engine s.world.disk) {key : Bytes} {now : Int64} {o : Outcome Bool}
    (hend : DeleteEnd key now .ok s (o, s')) : Booked hash s'.engine s'.world.disk := by
  cases hend with
  | closed _ => exact h
  | refused _ hdelete => exact h.withActive _ (disk_delete hdelete)
  | done _ hdelete => exact h.withActive _ (disk_delete hdelete)

/-- **One call.** -/
theorem Booked.step (h : Booked hash s.engine s.world.disk) {r : Request} {o : Outcome Bool}
    (hstep : s.step hash heaps r.op = (o, s')) (hn : s.engine.idCounter.toNat ≤ s'.engine.idCounter.toNat) :
    Booked hash s'.engine s'.world.disk := by
  cases r with
  | put key value now => exact h.put (step_put hstep) hn
  | delete key now => exact h.delete (step_delete hstep)
  | flushMemTable =>
    obtain rfl := System.unit_eq hstep
    exact h.flush rfl hn
  | triggerCompaction => exact h.compaction (step_triggerCompaction hstep) hn
  | close =>
    obtain rfl := System.unit_eq (step_close hstep)
    exact h.flush rfl hn
  | reopen writeBufferSize compactionThreshold =>
    have hsame : ({ s.engine.config with
      writeBufferSize := writeBufferSize, compactionThreshold := compactionThreshold } : Config).dbDir =
        s.engine.config.dbDir := rfl
    obtain ⟨e', w', hnew, -, -, hb⟩ := h.reopen hsame
    unfold System.step Request.op at hstep
    simp only [hnew] at hstep
    obtain ⟨-, rfl⟩ := Prod.mk.inj hstep
    exact hb

/-- **One action.** -/
theorem Booked.run (h : Booked hash s.engine s.world.disk) {a : Action} (hrun : a.run hash heaps s = some s') :
    Booked hash s'.engine s'.world.disk := by
  cases a with
  | call r =>
    unfold Action.run at hrun
    simp only at hrun
    split at hrun
    · rename_i hn
      obtain rfl := Option.some.inj hrun
      exact h.step rfl hn
    · exact absurd hrun (by simp)
  | openAgain writeBufferSize walPath compactionThreshold =>
    have hsame : (⟨writeBufferSize, walPath, s.engine.config.dbDir, compactionThreshold⟩ : Config).dbDir =
      s.engine.config.dbDir := rfl
    obtain ⟨e', w', hnew, -, -, hb⟩ := h.reopen hsame
    unfold Action.run at hrun
    simp only [hnew] at hrun
    obtain rfl := Option.some.inj hrun
    exact hb

theorem Booked.runActions {actions : List Action} : ∀ {s : System}, Booked hash s.engine s.world.disk →
    LsmTree.runActions hash heaps actions s = some s' → Booked hash s'.engine s'.world.disk := by
  induction actions with
  | nil =>
    intro s h hrun
    obtain rfl := Option.some.inj hrun
    exact h
  | cons a actions ih =>
    intro s h hrun
    obtain ⟨s₁, ha, hrest⟩ := Option.bind_eq_some_iff.1 (show (a.run hash heaps s).bind _ = _ from hrun)
    exact ih (h.run ha) hrest

/-- The books are right: the two lists of the manifest are the open tables from back to
front, each table is another file and complete, no file the next flush or compaction
opens is one of them, and opening again gives the same tables. -/
structure Books (hash : Bytes → UInt64) (s : System) : Prop where
  memory : (s.engine.sstables.map SSTableReader.filepath).reverse = s.engine.manifest.sstableFiles
  file : (s.engine.sstables.map SSTableReader.filepath).reverse = (Manifest.load s.world.disk).sstableFiles
  nodup : (s.engine.sstables.map SSTableReader.filepath).Nodup
  complete : ∀ r ∈ s.engine.sstables, ∃ rs,
    s.world.disk.tables r.filepath = some (tableBytes rs (SSTableBuilder.filterOf hash rs)) ∧
      SSTableReader.new r.filepath (s.world.disk.tables r.filepath) = .ok r
  below : ∀ r ∈ s.engine.sstables, StorageEngine.extractFileId r.filepath < s.engine.idCounter.toNat
  flush : s.engine.flushPath ∉ s.engine.sstables.map SSTableReader.filepath
  compact : s.engine.compactPath ∉ s.engine.sstables.map SSTableReader.filepath
  later : ∀ family ∈ families, ∀ n ≥ s.engine.idCounter.toNat,
    tablePath s.engine.config.dbDir family n ∉ s.engine.sstables.map SSTableReader.filepath
  reopen : ∀ config : Config, config.dbDir = s.engine.config.dbDir → ∃ e' w',
    StorageEngine.new config .ok s.world = (.ok e', w') ∧ e'.sstables = s.engine.sstables

theorem Booked.books (h : Booked hash s.engine s.world.disk) : Books hash s := by
  have hlater : ∀ family ∈ families, ∀ n ≥ s.engine.idCounter.toNat,
      tablePath s.engine.config.dbDir family n ∉ s.engine.sstables.map SSTableReader.filepath := by
    intro family hf n hn hmem
    obtain ⟨r, hr, hp⟩ := List.mem_map.1 hmem
    exact (h.tables r hr).path_ne hf hn hp
  have hnodup : (s.engine.sstables.map SSTableReader.filepath).Nodup := by
    refine List.pairwise_map.2 (h.descending.imp fun {r r'} hlt hp => ?_)
    rw [hp] at hlt
    exact absurd hlt (lt_irrefl _)
  refine ⟨h.memory.symm, by rw [h.load, h.memory], hnodup, fun r hr => ?_, fun r hr => ?_,
    hlater _ (by decide) _ le_rfl, hlater _ (by decide) _ le_rfl, hlater, fun config hsame => ?_⟩
  · obtain ⟨rs, hrs⟩ := (h.tables r hr).reads
    exact ⟨rs, by rw [(h.tables r hr).file, hrs.data], (h.tables r hr).reopens⟩
  · exact (h.tables r hr).named.extractFileId s.engine.idCounter.toNat_lt.le
  · obtain ⟨e', w', hnew, hs, -, -⟩ := h.reopen hsame
    exact ⟨e', w', hnew, hs⟩

/-- **The books are right in every state of a run** that starts in an empty directory. -/
theorem runActions_books {config : Config} (hdir : newline ∉ config.dbDir) {e : StorageEngine} {w : World}
    (hopen : StorageEngine.new config .ok (World.ofDisk Disk.empty) = (.ok e, w)) {actions : List Action}
    {s : System} (hrun : runActions hash heaps actions ⟨e, w⟩ = some s) : Books hash s :=
  ((booked_fresh hdir hopen).runActions hrun).books

/-- Two tables compacted to one, opened again, and another table. -/
def bookedActions : List Action :=
  [.call (.put (bytes "a") (bytes "1") 0), .call .flushMemTable, .call (.put (bytes "b") (bytes "2") 0),
    .call .flushMemTable, .openAgain 100 [] 3, .call (.delete (bytes "a") 0), .call .close]

theorem runActions_books_compacted : ∃ s,
    runActions (fun _ => 0) firstInHeaps bookedActions ⟨unloggedEngine 2, .ofDisk .empty⟩ = some s ∧
      Books (fun _ => 0) s := by
  have hopen : StorageEngine.new (unloggedEngine 2).config .ok (World.ofDisk Disk.empty) =
      (.ok (unloggedEngine 2), .ofDisk .empty) := rfl
  have hsome : (runActions (fun _ => 0) firstInHeaps bookedActions
      ⟨unloggedEngine 2, .ofDisk .empty⟩).isSome = true := by decide +kernel
  obtain ⟨s, hrun⟩ := Option.isSome_iff_exists.1 hsome
  exact ⟨s, hrun, runActions_books (by decide) hopen hrun⟩

end LsmTree

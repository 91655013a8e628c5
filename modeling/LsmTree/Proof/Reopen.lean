import LsmTree.Proof.Ranks

/-!
# The manifest's file, the log's file, and opening an engine on them

* `persist_cases`: the ways the manifest's new list can be written, or not, or lost.
* `recoverTables_ok`: the tables an engine opens are those listed that exist, the last
  one listed first, with a counter above all their numbers.
* `new_logs`: the memtable of an engine opened on a log records its last writes.
-/

namespace LsmTree

open Base StorageEngine WAL

variable {hash : Bytes → UInt64} {heaps : Heaps} {e : StorageEngine} {w : World} {d : Disk}

/-! ## The manifest -/

/-- The file holds these lines; a file that does not exist holds none. -/
def Lists (d : Disk) (fs : List Bytes) : Prop :=
  d.manifest = some (unlines fs) ∨ d.manifest = none ∧ fs = []

theorem Lists.congr {d' : Disk} {fs : List Bytes} (h : Lists d fs) (hm : d'.manifest = d.manifest) :
    Lists d' fs := by
  unfold Lists
  rw [hm]
  exact h

/-- A line more. -/
theorem Lists.append {fs : List Bytes} (h : Lists d fs) (f : Bytes) :
    Lists (Effect.apply (.manifestAppend (f ++ [newline])) d) (fs ++ [f]) := by
  have hlines : unlines (fs ++ [f]) = unlines fs ++ (f ++ [newline]) := by
    rw [unlines_append, unlines_cons, unlines_nil]
  rcases h with h | ⟨h, rfl⟩
  · exact Or.inl (by rw [hlines]; simp [Effect.apply, h])
  · exact Or.inl (by rw [hlines]; simp [Effect.apply, h, unlines_nil])

/-- The old file is removed and the new one cannot take its place. -/
def ReplaceIO.Loses (io : ReplaceIO) : Prop :=
  io.tmp = .ok ∧ io.rename = false ∧ io.remove = true ∧ io.renameAgain = false

instance (io : ReplaceIO) : Decidable io.Loses := by
  unfold ReplaceIO.Loses
  infer_instance

/-- The manifest's file is written anew: it is replaced, or left as it was. -/
inductive PersistEnd (updated : List Bytes) (m : Manifest) (w : World) : Bool × Manifest × World → Prop
  | replaced (w' : World) (hd : { w'.disk with manifestTmp := none } =
      { w.disk with manifest := some (unlines updated), manifestTmp := none }) :
    PersistEnd updated m w (true, ⟨updated⟩, w')
  | kept (w' : World) (hd : { w'.disk with manifestTmp := none } = { w.disk with manifestTmp := none }) :
    PersistEnd updated m w (false, m, w')

namespace Manifest

/-- Unless it loses the file, a replacement is all or nothing. -/
theorem persist_cases (updated : List Bytes) {io : ReplaceIO} (hio : ¬ io.Loses) (m : Manifest) (w : World) :
    PersistEnd updated m w (m.persist updated io w) := by
  unfold persist
  cases htmp : io.tmp with
  | openFails => exact .kept _ rfl
  | torn n => exact .kept _ rfl
  | ok =>
    simp only
    cases hren : io.rename with
    | true => exact .replaced _ rfl
    | false =>
      simp only [Bool.false_eq_true, if_false]
      cases hagain : io.renameAgain with
      | true =>
        simp only [if_true]
        cases io.remove <;> exact .replaced _ rfl
      | false =>
        have hrem : io.remove = false := by
          by_contra hrem
          exact hio ⟨htmp, hren, by simpa using hrem, hagain⟩
        simp only [hrem, Bool.false_eq_true, if_false]
        exact .kept _ rfl

/-- When every entry is replaced, the new name is all that is left. -/
theorem replaceWhere_all {old : Bytes → Bool} (newFile : Bytes) {fs : List Bytes} (hold : ∀ f ∈ fs, old f = true) :
    replaceWhere old newFile fs = [newFile] := by
  cases fs with
  | nil => rfl
  | cons f fs =>
    have hrest : fs.filter (fun g => !old g) = [] := by
      rw [List.filter_eq_nil_iff]
      intro g hg
      simp [hold g (List.mem_cons_of_mem _ hg)]
    unfold replaceWhere
    rw [if_pos (hold f List.mem_cons_self), hrest]

/-- All entries are replaced by name. -/
theorem replaceByNames_all {m : Manifest} {old : List Bytes} {newFile : Bytes} (hne : old ≠ [])
    (hnew : newFile ≠ [])
    (hsub : ∀ f ∈ old, f ∈ m.sstableFiles) (hall : ∀ f ∈ m.sstableFiles, f ∈ old) (io : ReplaceIO) (w : World) :
    m.replaceByNames old newFile io w = m.persist [newFile] io w := by
  have hnames : m.hasNames old = true := by
    unfold hasNames
    simpa using hsub
  unfold replaceByNames
  rw [if_neg hne, hnames]
  simp only [Bool.not_true, Bool.false_eq_true, if_false, if_neg hnew]
  rw [replaceWhere_all newFile (by simpa using hall)]

/-- A name that is not listed cannot be replaced. -/
theorem replaceByNames_missing {m : Manifest} {old : List Bytes} {f : Bytes} (hf : f ∈ old)
    (hmiss : f ∉ m.sstableFiles) (newFile : Bytes) (io : ReplaceIO) (w : World) :
    m.replaceByNames old newFile io w = (false, m, w) := by
  have hnames : m.hasNames old = false := by
    unfold hasNames
    rw [List.all_eq_false]
    exact ⟨f, hf, by simpa using hmiss⟩
  unfold replaceByNames
  rw [hnames]
  split <;> rfl

end Manifest

/-! ## The tables of a manifest -/

/-- The file at a path exists. -/
def Exists (d : Disk) (f : Bytes) : Bool := (d.tables f).isSome

/-- The counter after a table was recovered. -/
theorem toNat_nextId {maxId : UInt64} {id : ℕ} (hid : id < 2 ^ 64 - 1) :
    (if maxId ≤ UInt64.ofNat id then UInt64.ofNat id + 1 else maxId).toNat = max maxId.toNat (id + 1) := by
  have hof : (UInt64.ofNat id).toNat = id := by
    rw [UInt64.toNat_ofNat']
    exact Nat.mod_eq_of_lt (by omega)
  have hsucc : (UInt64.ofNat id + 1).toNat = id + 1 := by
    rw [UInt64.toNat_add, hof]
    have h1 : (1 : UInt64).toNat = 1 := rfl
    exact Nat.mod_eq_of_lt (by omega)
  split
  · rename_i hle
    rw [UInt64.le_iff_toNat_le, hof] at hle
    rw [hsucc]
    omega
  · rename_i hlt
    rw [UInt64.le_iff_toNat_le, hof] at hlt
    omega

/-- A table that opens is complete and stays below the counter. -/
theorem DiskTables.opened {dbDir filename content : Bytes} (hd : DiskTables hash dbDir d)
    (hfile : d.tables filename = some content) {r : SSTableReader}
    (hr : SSTableReader.new filename (some content) = .ok r) {n : ℕ} (hn : extractFileId filename < n) :
    OnDisk hash dbDir d n r ∧ r.filepath = filename ∧ extractFileId filename < 2 ^ 64 - 1 := by
  obtain ⟨⟨family, hf, id, hid, hname⟩, hcontent⟩ := hd filename content hfile
  have hnum : extractFileId filename = id := by
    rw [hname]
    exact extractFileId_tablePath hf (by omega)
  rcases hcontent with rfl | ⟨rs, hrs⟩
  · -- an empty file does not open
    exact absurd hr (by simp [SSTableReader.new, openTable, SSTableFooter.size])
  · obtain ⟨r', hr', hpath, hdata, hholds⟩ := hrs.opens filename
    obtain rfl : r' = r := Except.ok.inj (hr'.symm.trans hr)
    refine ⟨⟨⟨family, hf, id, by omega, hpath.trans hname⟩, by rw [hpath, hdata, hfile], rs, hholds⟩, hpath,
      by omega⟩

/-- **The tables an engine opens**: the listed files that exist, last listed first. -/
theorem recoverTables_ok {dbDir : Bytes} (hd : DiskTables hash dbDir d) :
    ∀ {files : List Bytes} {acc : List SSTableReader} {maxId : UInt64} {ts : List SSTableReader} {n : UInt64},
    recoverTables d files acc maxId = .ok (ts, n) → (∀ r ∈ acc, OnDisk hash dbDir d maxId.toNat r) →
    (∀ r ∈ ts, OnDisk hash dbDir d n.toNat r) ∧
      ts.map SSTableReader.filepath = (files.filter (Exists d)).reverse ++ acc.map SSTableReader.filepath := by
  intro files
  induction files with
  | nil =>
    intro acc maxId ts n h hacc
    obtain ⟨rfl, rfl⟩ := Prod.mk.inj (Except.ok.inj h)
    exact ⟨hacc, rfl⟩
  | cons f files ih =>
    intro acc maxId ts n h hacc
    unfold recoverTables at h
    cases hfile : d.tables f with
    | none =>
      rw [hfile] at h
      -- a file that is listed and missing is passed over
      have hno : Exists d f = false := by simp [Exists, hfile]
      rw [List.filter_cons_of_neg (by simp [hno])]
      exact ih h hacc
    | some content =>
      rw [hfile] at h
      simp only at h
      have hyes : Exists d f = true := by simp [Exists, hfile]
      cases hr : SSTableReader.new f (some content) with
      | error what =>
        rw [hr] at h
        exact nomatch h
      | ok r =>
        rw [hr] at h
        obtain ⟨hon, hpath, hid⟩ := hd.opened hfile hr (Nat.lt_succ_self _)
        -- the counter goes past the number in the name
        have hnext : (if maxId ≤ UInt64.ofNat (extractFileId f) then UInt64.ofNat (extractFileId f) + 1
            else maxId).toNat = max maxId.toNat (extractFileId f + 1) := toNat_nextId hid
        obtain ⟨h1, h2⟩ := ih h (fun t ht => by
          rw [hnext]
          rcases List.mem_cons.1 ht with rfl | ht
          · exact hon.congr (by omega) rfl
          · exact (hacc t ht).congr (by omega) rfl)
        refine ⟨h1, ?_⟩
        rw [h2, List.filter_cons_of_pos hyes, List.reverse_cons, List.map_cons, hpath]
        simp

/-- Tables that stand on disk are opened again as they were. -/
theorem recoverTables_onDisk {dbDir : Bytes} {ls : List SSTableReader} :
    ∀ (acc : List SSTableReader) (maxId : UInt64), (∀ r ∈ ls, ∃ n, OnDisk hash dbDir d n r) →
    ∃ n, recoverTables d (ls.map SSTableReader.filepath) acc maxId = .ok (ls.reverse ++ acc, n) := by
  induction ls with
  | nil => exact fun _ _ _ => ⟨_, rfl⟩
  | cons r ls ih =>
    intro acc maxId h
    obtain ⟨m, hr⟩ := h r List.mem_cons_self
    obtain ⟨n, hn⟩ := ih (r :: acc) (if maxId ≤ UInt64.ofNat (extractFileId r.filepath) then
      UInt64.ofNat (extractFileId r.filepath) + 1 else maxId) fun t ht => h t (List.mem_cons_of_mem _ ht)
    have hopen := hr.reopens
    rw [hr.file] at hopen
    refine ⟨n, ?_⟩
    rw [List.map_cons, recoverTables, hr.file]
    simp only [hopen]
    rw [hn, List.reverse_cons, List.append_assoc]
    rfl

/-! ## Opening -/

/-- Records that fit 32-bit lengths. -/
def ShortLog (rs : List LogRecord) : Prop := ∀ r ∈ rs, r.Short

/-- The memtable of a slot that takes writes. -/
structure Fresh (walPath : Bytes) (m : MemTable) : Prop where
  mutable : m.isImmutable = false
  short : m.Short
  wal : m.wal = true ↔ walPath ≠ []

theorem ShortLog.reached {rs : List LogRecord} (h : ShortLog rs) : ShortLog (reached rs) := fun r hr =>
  h r ((List.takeWhile_prefix _).subset hr)

/-- What a memtable opened on the log of `rs` is like, and the files after. -/
structure OpenedOn (walPath : Bytes) (rs : List LogRecord) (w : World) (m : MemTable) (w' : World) : Prop where
  fresh : Fresh walPath m
  layer : m.layer = if walPath = [] then fun _ => none else lastWrite ((WAL.reached rs).map LogRecord.write)
  log : walPath ≠ [] → Logs w'.disk rs
  tables : w'.disk.tables = w.disk.tables
  manifest : w'.disk.manifest = w.disk.manifest

/-- **A memtable opened on a log** records the last writes the replay reaches. A log that
does not exist is created. -/
theorem new_logs {walPath : Bytes} {rs : List LogRecord}
    (hlog : walPath ≠ [] → Logs w.disk rs ∨ w.disk.wal = none ∧ rs = []) (hshort : ShortLog rs) :
    ∃ m w', MemTable.new walPath .ok w = (.ok m, w') ∧ OpenedOn walPath rs w m w' := by
  by_cases hp : walPath = []
  · subst hp
    have hblank : Fresh [] (.blank false) :=
      ⟨rfl, MemTable.short_blank false, ⟨fun h => absurd h (by decide), fun h => absurd rfl h⟩⟩
    exact ⟨.blank false, w, MemTable.new_nil _ w, hblank, rfl, fun h => absurd rfl h, rfl, rfl⟩
  · have hopened : Logs (w.perform .walOpen).disk rs := by
      unfold Logs at hlog ⊢
      rcases hlog hp with hwal | ⟨hwal, rfl⟩
      · simp [Effect.apply, hwal]
      · simp [Effect.apply, hwal, unlines_nil]
    have hrec : ∀ m : MemTable, m.recoverFromWAL .ok (w.perform .walOpen).disk =
        ((WAL.reached rs).map LogRecord.entry).foldl MemTable.applyEntry m := by
      intro m
      unfold MemTable.recoverFromWAL
      rw [show MemTableIO.ok.readable = true from rfl, hopened.recover]
    obtain ⟨h1, h2⟩ := MemTable.foldl_applyEntry_flags ((WAL.reached rs).map LogRecord.entry) (.blank true)
    refine ⟨_, _, MemTable.new_opened hp rfl w, ⟨?_, ?_, ?_⟩, ?_, fun _ => hopened, rfl, rfl⟩
    · rw [hrec]
      exact h1
    · rw [hrec]
      exact MemTable.short_replay hshort.reached true
    · rw [hrec, h2]
      exact ⟨fun _ => hp, fun _ => rfl⟩
    · rw [hrec, if_neg hp]
      exact MemTable.layer_replay _ true

/-- What the constructor puts together. -/
theorem new_engine {config : Config} {io : MemTableIO} {w' : World}
    (h : StorageEngine.new config io w = (.ok e, w')) :
    ∃ ts n m, recoverTables w.disk (Manifest.load w.disk).sstableFiles [] 0 = .ok (ts, n) ∧
      MemTable.new config.walPath io w = (.ok m, w') ∧
      e = ⟨config, Manifest.load w.disk, some m, none, ts, n⟩ := by
  unfold StorageEngine.new at h
  simp only at h
  split at h
  · exact nomatch (Prod.mk.inj h).1
  · rename_i ts n hrec
    split at h
    · exact nomatch (Prod.mk.inj h).1
    · rename_i m w₁ hmem
      obtain ⟨h1, rfl⟩ := Prod.mk.inj h
      exact ⟨ts, n, m, hrec, hmem, (Except.ok.inj h1).symm⟩

/-- **An engine opened on complete tables has them**, whatever the manifest lists. -/
theorem TablesOK.reopen {config : Config} (hd : DiskTables hash config.dbDir w.disk) {io : MemTableIO} {w' : World}
    (h : StorageEngine.new config io w = (.ok e, w')) :
    TablesOK hash e w'.disk ∧
      e.sstables.map SSTableReader.filepath =
        ((Manifest.load w.disk).sstableFiles.filter (Exists w.disk)).reverse := by
  obtain ⟨ts, n, m, hrec, hmem, rfl⟩ := new_engine h
  have ht := tables_new hmem
  obtain ⟨h1, h2⟩ := recoverTables_ok hd hrec fun r hr => absurd hr List.not_mem_nil
  refine ⟨⟨fun r hr => (h1 r hr).congr le_rfl ht, hd.congr ht⟩, ?_⟩
  rw [h2, List.map_nil, List.append_nil]

end LsmTree

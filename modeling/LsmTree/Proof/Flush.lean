import LsmTree.Proof.MemLayer
import LsmTree.Spec.Engine

/-!
# What the engine answers, and what a flush does

* `get_eq`: `Get` answers the newest record of the engine's layers.
* `flushMemTableInternal_eq`: a flush writes and installs a table, `flushTable`, and
  may then compact.
* `flushTable_cases`: the ways `flushTable` can end, each with the engine and the
  files after.
-/

namespace LsmTree

open Base

variable {hash : Bytes → UInt64} {heaps : Heaps}

namespace StorageEngine

/-! ## Layers -/

def memLayers (e : StorageEngine) : List (Layer Bytes Bytes) :=
  (e.active.map MemTable.layer).toList ++ (e.immutable.map MemTable.layer).toList

def tableLayers (hash : Bytes → UInt64) (ts : List SSTableReader) : List (Layer Bytes Bytes) :=
  ts.map (SSTableReader.layer hash)

/-- What the engine records, newest first. -/
def layers (hash : Bytes → UInt64) (e : StorageEngine) : List (Layer Bytes Bytes) :=
  e.memLayers ++ tableLayers hash e.sstables

@[simp] theorem tableLayers_nil : tableLayers hash [] = [] := rfl

@[simp] theorem tableLayers_cons (t : SSTableReader) (ts : List SSTableReader) :
    tableLayers hash (t :: ts) = t.layer hash :: tableLayers hash ts := rfl

theorem searchTables_eq (ts : List SSTableReader) (key : Bytes) :
    (searchTables hash key ts).map answer = stack (tableLayers hash ts) key := by
  induction ts with
  | nil => rfl
  | cons t ts ih =>
    rw [tableLayers_cons, stack_cons, ← ih, searchTables]
    unfold SSTableReader.layer
    cases t.get hash key <;> rfl

/-- A memtable slot in front of the layers behind it. -/
theorem stack_slot (m : Option MemTable) (Ls : List (Layer Bytes Bytes)) (key : Bytes) :
    stack ((m.map MemTable.layer).toList ++ Ls) key =
      (((m.bind (·.get key)).map answer).or (stack Ls key)) := by
  cases m with
  | none => rfl
  | some m =>
    change ((m.layer key).or (stack Ls key)) = _
    rw [← MemTable.get_eq]
    rfl

/-- **`Get` answers the newest record.** -/
theorem get_eq (e : StorageEngine) (key : Bytes) :
    (e.get hash key).map answer = stack (e.layers hash) key := by
  unfold layers memLayers
  rw [List.append_assoc, stack_slot, stack_slot, ← searchTables_eq]
  unfold get
  cases e.active.bind (·.get key) with
  | some r => rfl
  | none =>
    cases e.immutable.bind (·.get key) with
    | some r => rfl
    | none => rfl

/-- The value of a key that `Get` finds and does not report deleted. -/
def liveValue (hash : Bytes → UInt64) (e : StorageEngine) (key : Bytes) : Option Bytes :=
  match e.get hash key with
  | some (value, false) => some value
  | _ => none

theorem liveValue_eq (e : StorageEngine) : e.liveValue hash = view (e.layers hash) := by
  funext key
  unfold view liveValue
  rw [← get_eq]
  cases e.get hash key with
  | none => rfl
  | some r =>
    obtain ⟨v, d⟩ := r
    cases d <;> rfl

/-! ## Building a table -/

end StorageEngine

namespace SSTableBuilder

variable {b : SSTableBuilder} {rs : List SSTableRecord}

theorem isOpen_add (hash : Bytes → UInt64) (r : SSTableRecord) (b : SSTableBuilder) :
    (b.add hash r.key r.value r.isDeleted).2.file.isOpen = b.file.isOpen := by
  have hw := (writes_writeRecord r b.file).isOpen
  unfold add
  split
  · rfl
  · simp only
    split
    · exact hw
    · exact hw

/-- How `Finish` ends, with the destructor after a failure. -/
theorem Building.commit (h : Building hash b rs) (w : World) :
    (∃ b', b.commit w = (true, b', w.perform (.tableWrite b.filePath (tableBytes rs (filterOf hash rs)))) ∧
      b'.finished = true ∧ b.file.isOpen = true ∧
      (tableBytes rs (filterOf hash rs)).length ≤ maxFileSize) ∨
    ∃ b', b.commit w = (false, b', w) ∧ b'.finished = false ∧ b'.filePath = b.filePath := by
  unfold SSTableBuilder.commit
  obtain ⟨ok, b', hfin⟩ : ∃ ok b', b.finish = (ok, b') := ⟨_, _, rfl⟩
  cases ok with
  | true =>
    obtain ⟨h1, h2, h3, h4⟩ := h.finish hfin
    refine Or.inl ⟨b', by simp only [hfin, h2, h3], h1, ?_, by rw [← h3]; exact h4⟩
    by_contra hno
    unfold SSTableBuilder.finish at hfin
    rw [if_pos (by simp [hno])] at hfin
    exact absurd (Prod.mk.inj hfin).1 (by decide)
  | false =>
    refine Or.inr ⟨b', by rw [hfin], ?_⟩
    unfold SSTableBuilder.finish at hfin
    split at hfin
    · obtain ⟨-, rfl⟩ := Prod.mk.inj hfin
      exact ⟨h.finished, rfl⟩
    · simp only at hfin
      split at hfin
      · obtain ⟨-, rfl⟩ := Prod.mk.inj hfin
        exact ⟨h.finished, rfl⟩
      · exact absurd (Prod.mk.inj hfin).1 (by decide)

end SSTableBuilder

namespace StorageEngine

/-- The entries of a memtable go into the builder one by one. -/
theorem addEntries_spec (m : MemTable) (b : SSTableBuilder) {rs : List SSTableRecord}
    (hb : b.Building hash rs) :
    (addEntries hash m b).Building hash (rs ++ m.records) ∧
      (addEntries hash m b).filePath = b.filePath ∧ (addEntries hash m b).file.isOpen = b.file.isOpen := by
  unfold addEntries MemTable.records
  generalize m.list.chain = chain
  induction chain generalizing b rs with
  | nil =>
    rw [List.map_nil, List.append_nil]
    exact ⟨hb, rfl, rfl⟩
  | cons x chain ih =>
    set r : SSTableRecord := ⟨x.key, x.entry.value, x.entry.type = .kTypeDeletion⟩ with hr
    obtain ⟨h1, h2, h3⟩ := ih _ (hb.add r).1
    rw [List.append_assoc] at h1
    refine ⟨h1, h2.trans (SSTableBuilder.filePath_add hash _ _ _ b), h3.trans (SSTableBuilder.isOpen_add hash r b)⟩

/-! ## The flush without its compaction -/

/-- Steps 5 to 7. -/
def install (io : FlushIO) (path : Bytes) (e : StorageEngine) (w : World) :
    Outcome Unit × StorageEngine × World :=
  match openReader io.readerOpens path w.disk with
  | .error what => (.threw what, e, w)
  | .ok reader =>
    let (_, m, w) := e.manifest.addSSTable path io.addSSTable w
    let (e, w) := truncateLog io { e with sstables := reader :: e.sstables, manifest := m } w
    freshMemTable io e w

/-- Steps 1 to 7: whether a table was written and installed. -/
def flushTable (hash : Bytes → UInt64) (io : FlushIO) (e : StorageEngine) (w : World) :
    Outcome Bool × StorageEngine × World :=
  match e.active with
  | none => (.returned false, e, w)
  | some m =>
    if m.empty then (.returned false, e, w)
    else
      let m := m.markImmutable
      let (path, e) := { e with active := none, immutable := some m }.nextSSTablePath
      let (b, w) := SSTableBuilder.create path io.build w
      match (addEntries hash m b).commit w with
      | (false, b, w) =>
        (.threw (bytes "Failed to finish SSTable writing to " ++ path), e, b.destroy w)
      | (true, _, w) =>
        match install io path e w with
        | (.returned _, e, w) => (.returned true, e, w)
        | (.threw what, e, w) => (.threw what, e, w)
        | (.undefined, e, w) => (.undefined, e, w)

theorem installTable_eq (io : FlushIO) (path : Bytes) (e : StorageEngine) (w : World) :
    installTable hash heaps io path e w = match install io path e w with
      | (.returned _, e, w) => maybeTriggerCompactionInternal hash heaps io.compaction e w
      | (.threw what, e, w) => (.threw what, e, w)
      | (.undefined, e, w) => (.undefined, e, w) := by
  unfold installTable install
  cases openReader io.readerOpens path w.disk with
  | error what => rfl
  | ok reader =>
    simp only
    generalize freshMemTable io _ _ = r
    obtain ⟨o, e, w⟩ := r
    cases o <;> rfl

/-- A flush is `flushTable` and, if it installed a table, the compaction it triggers. -/
theorem flushMemTableInternal_eq (io : FlushIO) (e : StorageEngine) (w : World) :
    flushMemTableInternal hash heaps io e w = match flushTable hash io e w with
      | (.returned true, e, w) => maybeTriggerCompactionInternal hash heaps io.compaction e w
      | (.returned false, e, w) => (.returned (), e, w)
      | (.threw what, e, w) => (.threw what, e, w)
      | (.undefined, e, w) => (.undefined, e, w) := by
  unfold flushMemTableInternal flushTable
  cases e.active with
  | none => rfl
  | some m =>
    simp only
    split
    · rfl
    · generalize hc : (addEntries hash m.markImmutable _).commit _ = c
      obtain ⟨ok, b, w'⟩ := c
      cases ok with
      | false => rfl
      | true =>
        simp only [installTable_eq]
        generalize install io _ _ w' = r
        obtain ⟨o, e', w''⟩ := r
        cases o <;> rfl

/-! ## How it ends -/

/-- The path of the next table a flush writes. -/
def flushPath (e : StorageEngine) : Bytes := tablePath e.config.dbDir (bytes "data_") e.idCounter.toNat

/-- The file a memtable is written to. -/
def tableOf (hash : Bytes → UInt64) (m : MemTable) : Bytes :=
  tableBytes m.records (SSTableBuilder.filterOf hash m.records)

/-- The memtable is taken out of its slot. -/
def moved (m : MemTable) (e : StorageEngine) : StorageEngine :=
  { e with active := none, immutable := some m.markImmutable, idCounter := e.idCounter + 1 }

/-- The files after a table was built. -/
def built (hash : Bytes → UInt64) (m : MemTable) (e : StorageEngine) (w : World) : World :=
  (w.perform (.tableCreate e.flushPath)).perform (.tableWrite e.flushPath (tableOf hash m))

/-- The files after a table could not be built. -/
def unbuilt (io : FlushIO) (e : StorageEngine) (w : World) : World :=
  (if io.build.opens then w.perform (.tableCreate e.flushPath) else w).perform (.tableRemove e.flushPath)

/-- The files after the log was truncated. -/
def truncated (io : FlushIO) (e : StorageEngine) (w : World) : World :=
  if e.config.walPath ≠ [] && io.truncate then w.perform .walTruncate else w

/-- The engine with the new table in front, and no memtable. -/
def withTable (io : FlushIO) (r : SSTableReader) (w : World) (e : StorageEngine) : StorageEngine :=
  { e with
    active := none
    immutable := none
    idCounter := e.idCounter + 1
    sstables := r :: e.sstables
    manifest := (e.manifest.addSSTable e.flushPath io.addSSTable w).2.1 }

/-- The files when the new memtable opens the log. -/
def installedWorld (hash : Bytes → UInt64) (io : FlushIO) (m : MemTable) (e : StorageEngine) (w : World) : World :=
  truncated io e (e.manifest.addSSTable e.flushPath io.addSSTable (built hash m e w)).2.2

/-- The reader of the table a memtable was written to. -/
structure TableReader (hash : Bytes → UInt64) (m : MemTable) (path : Bytes) (r : SSTableReader) : Prop where
  opens : SSTableReader.new path (some (tableOf hash m)) = .ok r
  filepath : r.filepath = path
  reads : r.Reads m.records (SSTableBuilder.filterOf hash m.records)

/-- `Add` and `Finish` of the table's builder succeed. -/
def Builds (hash : Bytes → UInt64) (io : BuildIO) (m : MemTable) (e : StorageEngine) : Prop :=
  (addEntries hash m.markImmutable (SSTableBuilder.new e.flushPath io.opens io.budget)).finish.1 = true

instance (io : BuildIO) (m : MemTable) (e : StorageEngine) : Decidable (Builds hash io m e) := by
  unfold Builds
  infer_instance

/-- The ways `flushTable` can end. -/
inductive FlushEnd (hash : Bytes → UInt64) (io : FlushIO) (e : StorageEngine) (w : World) :
    Outcome Bool × StorageEngine × World → Prop
  /-- there is nothing to flush -/
  | idle (h : e.active = none ∨ ∃ m, e.active = some m ∧ m.empty = true) :
    FlushEnd hash io e w (.returned false, e, w)
  | notBuilt (m : MemTable) (what : Bytes) (ha : e.active = some m) (hne : m.empty = false)
    (hb : ¬ Builds hash io.build m e) :
    FlushEnd hash io e w (.threw what, e.moved m, unbuilt io e w)
  | notOpened (m : MemTable) (what : Bytes) (ha : e.active = some m) (hne : m.empty = false)
    (hlen : (tableOf hash m).length ≤ maxFileSize) (ho : io.readerOpens = false) :
    FlushEnd hash io e w (.threw what, e.moved m, built hash m e w)
  | noMemTable (m : MemTable) (what : Bytes) (r : SSTableReader) (w' : World) (ha : e.active = some m)
    (hne : m.empty = false) (hr : TableReader hash m e.flushPath r)
    (hnew : MemTable.new e.config.walPath io.memTable (installedWorld hash io m e w) = (.error what, w'))
    (hb : Builds hash io.build m e) (ho : io.readerOpens = true) :
    FlushEnd hash io e w (.threw what, e.withTable io r (built hash m e w), w')
  | done (m m' : MemTable) (r : SSTableReader) (w' : World) (ha : e.active = some m)
    (hne : m.empty = false) (hr : TableReader hash m e.flushPath r)
    (hnew : MemTable.new e.config.walPath io.memTable (installedWorld hash io m e w) = (.ok m', w'))
    (hb : Builds hash io.build m e) (ho : io.readerOpens = true) :
    FlushEnd hash io e w
      (.returned true, { e.withTable io r (built hash m e w) with active := some m' }, w')

/-- The table is built where writing it out succeeds. -/
theorem builds_iff (hash : Bytes → UInt64) (io : BuildIO) (m : MemTable) (e : StorageEngine) (w : World) :
    Builds hash io m e ↔ ((addEntries hash m.markImmutable
      (SSTableBuilder.new e.flushPath io.opens io.budget)).commit w).1 = true := by
  unfold Builds SSTableBuilder.commit
  generalize (addEntries hash m.markImmutable _).finish = r
  obtain ⟨ok, b⟩ := r
  cases ok <;> rfl

/-- A complete table file opens. -/
theorem reader_opens (hash : Bytes → UInt64) {rs : List SSTableRecord} (path : Bytes)
    (hlen : (tableBytes rs (SSTableBuilder.filterOf hash rs)).length ≤ maxFileSize) :
    ∃ r, SSTableReader.new path (some (tableBytes rs (SSTableBuilder.filterOf hash rs))) = .ok r ∧
      r.filepath = path ∧ r.Reads rs (SSTableBuilder.filterOf hash rs) :=
  SSTableReader.new_ok (BloomFilter.default_ok.foldl_add _) hlen path

theorem install_refused {io : FlushIO} (ho : io.readerOpens = false) (path : Bytes) (e : StorageEngine)
    (w : World) : ∃ what, install io path e w = (.threw what, e, w) := by
  unfold install openReader
  rw [ho, if_neg (by decide)]
  exact ⟨_, rfl⟩

theorem install_opened {io : FlushIO} (ho : io.readerOpens = true) {path : Bytes} {e : StorageEngine}
    {w : World} {r : SSTableReader} (hr : SSTableReader.new path (w.disk.tables path) = .ok r) :
    install io path e w =
      freshMemTable io
        { e with
          immutable := none
          sstables := r :: e.sstables
          manifest := (e.manifest.addSSTable path io.addSSTable w).2.1 }
        (truncated io e (e.manifest.addSSTable path io.addSSTable w).2.2) := by
  unfold install openReader
  rw [ho, if_pos rfl, hr]
  rfl

theorem freshMemTable_error {io : FlushIO} {e : StorageEngine} {w w' : World} {what : Bytes}
    (h : MemTable.new e.config.walPath io.memTable w = (.error what, w')) :
    freshMemTable io e w = (.threw what, e, w') := by
  unfold freshMemTable
  rw [h]

theorem freshMemTable_ok {io : FlushIO} {e : StorageEngine} {w w' : World} {m : MemTable}
    (h : MemTable.new e.config.walPath io.memTable w = (.ok m, w')) :
    freshMemTable io e w = (.returned (), { e with active := some m }, w') := by
  unfold freshMemTable
  rw [h]

/-- The table opens and the log does not. -/
theorem install_error {io : FlushIO} (ho : io.readerOpens = true) {m : MemTable} {e : StorageEngine} {w w' : World}
    {r : SSTableReader} (hr : SSTableReader.new e.flushPath (some (tableOf hash m)) = .ok r) {what : Bytes}
    (hnew : MemTable.new e.config.walPath io.memTable (installedWorld hash io m e w) = (.error what, w')) :
    install io e.flushPath (e.moved m) (built hash m e w) =
      (.threw what, e.withTable io r (built hash m e w), w') := by
  have hdisk : (built hash m e w).disk.tables e.flushPath = some (tableOf hash m) := by
    unfold built
    simp only [World.disk_perform, Effect.apply, setTable_self]
  rw [install_opened ho (e := e.moved m) (by rw [hdisk]; exact hr)]
  exact freshMemTable_error hnew

/-- The table and the log open. -/
theorem install_ok {io : FlushIO} (ho : io.readerOpens = true) {m m' : MemTable} {e : StorageEngine} {w w' : World}
    {r : SSTableReader} (hr : SSTableReader.new e.flushPath (some (tableOf hash m)) = .ok r)
    (hnew : MemTable.new e.config.walPath io.memTable (installedWorld hash io m e w) = (.ok m', w')) :
    install io e.flushPath (e.moved m) (built hash m e w) =
      (.returned (), { e.withTable io r (built hash m e w) with active := some m' }, w') := by
  have hdisk : (built hash m e w).disk.tables e.flushPath = some (tableOf hash m) := by
    unfold built
    simp only [World.disk_perform, Effect.apply, setTable_self]
  rw [install_opened ho (e := e.moved m) (by rw [hdisk]; exact hr)]
  exact freshMemTable_ok hnew

/-- The flush of a memtable with entries. -/
theorem flushTable_eq {m : MemTable} {e : StorageEngine} (ha : e.active = some m) (hne : m.empty = false)
    (io : FlushIO) (w : World) :
    flushTable hash io e w =
      match (addEntries hash m.markImmutable
          (SSTableBuilder.new e.flushPath io.build.opens io.build.budget)).commit
          (if io.build.opens then w.perform (.tableCreate e.flushPath) else w) with
      | (false, b, w) => (.threw (bytes "Failed to finish SSTable writing to " ++ e.flushPath), e.moved m,
          b.destroy w)
      | (true, _, w) => match install io e.flushPath (e.moved m) w with
        | (.returned _, e, w) => (.returned true, e, w)
        | (.threw what, e, w) => (.threw what, e, w)
        | (.undefined, e, w) => (.undefined, e, w) := by
  unfold flushTable
  rw [ha]
  simp only [hne]
  rfl

/-- **Every way `flushTable` can end.** -/
theorem flushTable_cases (hash : Bytes → UInt64) (io : FlushIO) (e : StorageEngine) (w : World) :
    FlushEnd hash io e w (flushTable hash io e w) := by
  cases ha : e.active with
  | none =>
    unfold flushTable
    rw [ha]
    exact .idle (Or.inl ha)
  | some m =>
    cases hne : m.empty with
    | true =>
      unfold flushTable
      rw [ha]
      simp only [hne, if_true]
      exact .idle (Or.inr ⟨m, ha, hne⟩)
    | false =>
      rw [flushTable_eq ha hne]
      obtain ⟨hb, hpath, hopen⟩ := addEntries_spec m.markImmutable _
        (SSTableBuilder.building_new hash e.flushPath io.build.opens io.build.budget)
      have hbuilds := builds_iff hash io.build m e
        (if io.build.opens then w.perform (.tableCreate e.flushPath) else w)
      rcases hb.commit (if io.build.opens then w.perform (.tableCreate e.flushPath) else w) with
        ⟨b, hc, -, hio, hlen⟩ | ⟨b, hc, hfin, hbp⟩
      · -- the table is finished: `install` takes it, and each of its ways to end is one of ours
        have hopens : io.build.opens = true := hopen.symm.trans hio
        obtain ⟨r, hr, hrp, hreads⟩ := reader_opens hash e.flushPath hlen
        have htr : TableReader hash m e.flushPath r := ⟨hr, hrp, hreads⟩
        have hb : Builds hash io.build m e := hbuilds.2 (by rw [hc])
        rw [hc, hpath, hopens, if_pos rfl]
        change FlushEnd hash io e w (match install io e.flushPath (e.moved m) (built hash m e w) with
          | (.returned _, e, w) => (.returned true, e, w)
          | (.threw what, e, w) => (.threw what, e, w)
          | (.undefined, e, w) => (.undefined, e, w))
        cases ho : io.readerOpens with
        | false =>
          obtain ⟨what, hi⟩ := install_refused ho e.flushPath (e.moved m) (built hash m e w)
          rw [hi]
          exact .notOpened m what ha hne hlen ho
        | true =>
          cases hnew : MemTable.new e.config.walPath io.memTable (installedWorld hash io m e w) with
          | mk res w' =>
            cases res with
            | error what =>
              rw [install_error (m := m) ho hr hnew]
              exact .noMemTable m what r w' ha hne htr hnew hb ho
            | ok m' =>
              rw [install_ok (m := m) ho hr hnew]
              exact .done m m' r w' ha hne htr hnew hb ho
      · -- the builder gives up, and its destructor removes the file
        rw [hc] at hbuilds ⊢
        simp only
        unfold SSTableBuilder.destroy
        rw [hfin, hbp, hpath]
        exact .notBuilt m _ ha hne fun hb => Bool.noConfusion (hbuilds.1 hb)

end StorageEngine

end LsmTree

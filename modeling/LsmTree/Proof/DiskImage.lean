import LsmTree.Proof.Api
import LsmTree.Proof.Bookkeeping

/-!
# What stands in the directory

Where no file operation fails, no file is left behind: besides the log and the manifest the
directory holds the open tables, and these are few.

* `Serving.keeps`: what the parts of a call keep, a call keeps.
* `directory_clean`: **in every run the table files are those of the open tables**, which the
  manifest lists.
* `tables_bounded`: **their number stays below the compaction threshold**.
-/

namespace LsmTree

open Base StorageEngine

variable {hash : Bytes → UInt64} {heaps : Heaps} {clock : System → Int64} {e e' : StorageEngine} {w w' : World}
  {d d' : Disk} {s p : System} {config : Config}

/-! ## The parts of a call -/

theorem Steady.booked (h : Steady hash e d) (hdir : newline ∉ e.config.dbDir) : Booked hash e d := by
  refine ⟨hdir, fun r hr => ?_, h.descending, (h.listed hdir).1, (h.listed hdir).2⟩
  obtain ⟨hnamed, hfile, rs, hholds⟩ := h.tables.live r hr
  exact ⟨hnamed, hfile, rs, hholds.reads⟩

theorem Serving.directory (hs : Serving hash s) : newline ∉ s.engine.config.dbDir := by
  obtain ⟨rs, ts, hkept⟩ := hs.kept
  exact hkept.directory

/-- The tables when the database is opened again. -/
theorem Serving.reopen (hs : Serving hash s) (heaps : Heaps) (writeBufferSize compactionThreshold : UInt64) :
    ∃ e' w', s.step hash heaps (.reopen writeBufferSize compactionThreshold .ok) = (.returned true, ⟨e', w'⟩) ∧
      e'.config = { s.engine.config with
        writeBufferSize := writeBufferSize, compactionThreshold := compactionThreshold } ∧
      e'.sstables = s.engine.sstables ∧
      ∃ m, MemTable.new s.engine.config.walPath .ok s.world = (.ok m, w') := by
  have hsame : ({ s.engine.config with
    writeBufferSize := writeBufferSize, compactionThreshold := compactionThreshold } : Config).dbDir =
      s.engine.config.dbDir := rfl
  obtain ⟨e', w', hnew, htables, hconfig, -⟩ := (hs.steady.booked hs.directory).reopen hsame
  obtain ⟨ts, n, m, -, hmem, -⟩ := new_engine hnew
  refine ⟨e', w', ?_, hconfig, htables, m, hmem⟩
  unfold System.step
  simp only [hnew]

/-- A flush that compacts nothing. -/
theorem flush_notDue (hpoint : flushPoint hash .ok e w = none)
    (hf : flushMemTableInternal hash heaps .ok e w = (.returned (), e', w')) :
    ∃ b, flushTable hash .ok e w = (.returned b, e', w') ∧
      (b = true → e'.sstables.length < e'.config.compactionThreshold.toNat) := by
  cases flush_end hf with
  | table htable ho hdue =>
    obtain ⟨b, rfl⟩ := Outcome.returned_of_dropped ho
    exact ⟨b, htable, fun hb => hdue (by rw [hb])⟩
  | compacted htable hdue _ _ => exact absurd (hpoint.symm.trans (flushPoint_of htable hdue)) (by simp)

/-- The parts of a call keep this: a write into the memtable and the log, a table flushed, a compaction, and
opening again. -/
structure PartsKeep (hash : Bytes → UInt64) (heaps : Heaps) (P : StorageEngine → Disk → Prop) (c : Request)
    (s : System) : Prop where
  write : ∀ {e : StorageEngine} {d d' : Disk} (m : MemTable), P e d → d'.tables = d.tables →
    d'.manifestTmp = d.manifestTmp → P { e with active := some m } d'
  flush : ∀ {e e' : StorageEngine} {w w' : World} {b : Bool}, P e w.disk →
    flushTable hash .ok e w = (.returned b, e', w') →
    (b = true → e'.sstables.length < e'.config.compactionThreshold.toNat) → P e' w'.disk
  compact : ∀ {e : StorageEngine} {w : World} {p : System}, P e w.disk → flushPoint hash .ok e w = some p →
    compactionPoint hash c.op s = some p →
    P (p.compacted hash heaps .ok).engine (p.compacted hash heaps .ok).world.disk
  trigger : P s.engine s.world.disk → compactionPoint hash c.op s = some s →
    P (s.compacted hash heaps .ok).engine (s.compacted hash heaps .ok).world.disk
  reopen : ∀ {writeBufferSize compactionThreshold : UInt64} {e : StorageEngine} {d : Disk},
    c = .reopen writeBufferSize compactionThreshold → P s.engine s.world.disk → e.sstables = s.engine.sstables →
    e.config.compactionThreshold = compactionThreshold → d.tables = s.world.disk.tables →
    d.manifestTmp = s.world.disk.manifestTmp → P e d

theorem manifestTmp_new {walPath : Bytes} {io : MemTableIO} {res : Except Bytes MemTable}
    (h : MemTable.new walPath io w = (res, w')) : w'.disk.manifestTmp = w.disk.manifestTmp := by
  have hw : (MemTable.new walPath io w).2.disk.manifestTmp = w.disk.manifestTmp := by
    unfold MemTable.new
    split
    · rfl
    · split <;> rfl
  rw [h] at hw
  exact hw

theorem manifestTmp_writeWorld (r : WAL.LogRecord) (m : MemTable) (w : World) :
    (MemTable.writeWorld r m w).disk.manifestTmp = w.disk.manifestTmp := by
  unfold MemTable.writeWorld
  split <;> rfl

/-- **What the parts of a call keep, a call keeps.** -/
theorem Serving.keeps {P : StorageEngine → Disk → Prop} (hs : Serving hash s) {c : Request} (hc : c.Good hash s)
    (hparts : PartsKeep hash heaps P c s) (h : P s.engine s.world.disk) :
    P (s.step hash heaps c.op).2.engine (s.step hash heaps c.op).2.world.disk := by
  obtain ⟨m, ha, hfresh⟩ := hs.steady.active
  have hio : c.op.compactionIO = .ok := by cases c <;> rfl
  obtain ⟨ok, s', hstep, -, -⟩ := hc.returns hs heaps
  have hcompacted : ∀ {p}, compactionPoint hash c.op s = some p → s' = p.compacted hash heaps .ok := by
    intro p hp
    have hafter : (s.step hash heaps c.op).2 = p.compacted hash heaps c.op.compactionIO := step_compactionPoint hp
    rw [hstep, hio] at hafter
    exact hafter
  -- a flush, with the compaction behind it or without one
  have hflush : ∀ {e w}, P e w.disk → flushPoint hash .ok e w = compactionPoint hash c.op s →
      flushMemTableInternal hash heaps .ok e w = (.returned (), s'.engine, s'.world) →
      P s'.engine s'.world.disk := by
    intro e w hP hpoint hf
    cases hp : flushPoint hash .ok e w with
    | some p =>
      rw [hp] at hpoint
      rw [hcompacted hpoint.symm]
      exact hparts.compact hP hp hpoint.symm
    | none =>
      obtain ⟨b, htable, hdue⟩ := flush_notDue hp hf
      exact hparts.flush hP htable hdue
  rw [hstep]
  change P s'.engine s'.world.disk
  cases c with
  | put key value now =>
    have hput := MemTable.put_ok hfresh.mutable key value now s.world
    have hwrite : P { s.engine with active := some (m.applyPut key value) }
        (MemTable.writeWorld ⟨.put, key, value, now⟩ m s.world).disk :=
      hparts.write _ h (disk_writeWorld _ m s.world).1 (manifestTmp_writeWorld _ m s.world)
    rw [Request.op, step_put_ok ha hfresh.mutable] at hstep
    split at hstep
    · rename_i hfull
      refine hflush hwrite ?_ (System.unit_returned hstep)
      simp only [compactionPoint, Request.op, ha, hput, if_pos hfull]
    · obtain ⟨-, rfl⟩ := Prod.mk.inj hstep
      exact hwrite
  | delete key now =>
    rw [Request.op, step_delete_ok ha hfresh.mutable] at hstep
    obtain ⟨-, rfl⟩ := Prod.mk.inj hstep
    exact hparts.write _ h (disk_writeWorld _ m s.world).1 (manifestTmp_writeWorld _ m s.world)
  | flushMemTable => exact hflush h rfl (System.unit_returned hstep)
  | triggerCompaction =>
    rw [hcompacted rfl]
    exact hparts.trigger h rfl
  | close => exact hflush h rfl (System.unit_returned (step_close hstep))
  | reopen writeBufferSize compactionThreshold =>
    obtain ⟨e', w', hnew, hconfig, htables, m', hmem⟩ := hs.reopen heaps writeBufferSize compactionThreshold
    have hsame : s' = ⟨e', w'⟩ := (Prod.mk.inj (hstep.symm.trans hnew)).2
    rw [hsame]
    exact hparts.reopen rfl h htables (by rw [hconfig]) (tables_new hmem) (manifestTmp_new hmem)

/-! ## Files left behind -/

/-- In the directory stand only the log, the manifest and the open tables. -/
structure Clean (e : StorageEngine) (d : Disk) : Prop where
  tables : ∀ p, (d.tables p).isSome = true → p ∈ e.sstables.map SSTableReader.filepath
  tmp : d.manifestTmp = none

theorem Clean.congr (h : Clean e d) (hs : e'.sstables = e.sstables) (ht : d'.tables = d.tables)
    (htmp : d'.manifestTmp = d.manifestTmp) : Clean e' d' := by
  refine ⟨fun p hp => ?_, htmp.trans h.tmp⟩
  rw [ht] at hp
  rw [hs]
  exact h.tables p hp

theorem Clean.flushTable (h : Clean e w.disk) {b : Bool}
    (hf : StorageEngine.flushTable hash .ok e w = (.returned b, e', w')) : Clean e' w'.disk := by
  have hcases := flushTable_cases hash .ok e w
  rw [hf] at hcases
  cases hcases with
  | idle _ => exact h
  | done m m' r _ ha hne hr hnew =>
    have htables : w'.disk.tables = (built hash m e w).disk.tables :=
      (tables_new hnew).trans (tables_installedWorld .ok m e w)
    have htmp : w'.disk.manifestTmp = w.disk.manifestTmp := by
      refine (manifestTmp_new hnew).trans ?_
      unfold installedWorld truncated
      split <;> rfl
    refine ⟨fun p hp => ?_, htmp.trans h.tmp⟩
    simp only [withTable, List.map_cons, List.mem_cons, hr.filepath]
    by_cases hpath : p = e.flushPath
    · exact Or.inl hpath
    · refine Or.inr (h.tables p ?_)
      rw [htables] at hp
      simpa [built, Effect.apply, setTable_of_ne _ hpath] using hp

/-- **A compaction** removes the old tables, or its own. -/
theorem Clean.compaction (h : Clean e w.disk) (hbooked : Booked hash e w.disk) {o : Outcome Bool}
    (hc : triggerCompactionInternal hash heaps .ok e w = (o, e', w')) : Clean e' w'.disk := by
  have hcases := compaction_cases hash heaps .ok e w
  rw [hc] at hcases
  cases hcases with
  | below _ => exact h
  | notOpened _ => exact h
  | nothing _ => exact h.congr rfl rfl rfl
  | notBuilt =>
    refine ⟨fun p hp => h.tables p ?_, h.tmp⟩
    by_cases hpath : p = e.compactPath
    · simp [Effect.apply, hpath] at hp
    · simpa [ CompactionIO.ok, BuildIO.ok, Effect.apply, setTable_of_ne _ hpath] using hp
  | notReplaced ins m' _ hm hr =>
    rw [replaced_ok hm.ne_nil hbooked.memory] at hr
    exact absurd (Prod.mk.inj hr).1 (by decide)
  | notRead ins m' _ hm hr ho => exact absurd ho (by decide)
  | done ins m' w₁ r hm hr hnew hpath hreads =>
    rw [replaced_ok hm.ne_nil hbooked.memory] at hr
    obtain ⟨-, h2⟩ := Prod.mk.inj hr
    obtain ⟨rfl, rfl⟩ := Prod.mk.inj h2
    rw [disk_removeOld]
    refine ⟨fun p hp => ?_, rfl⟩
    rw [List.map_singleton, List.mem_singleton, hpath]
    -- any other file that is still there was listed before, and is swept
    by_contra hne
    unfold swept at hp
    simp only at hp
    split at hp
    · exact absurd hp (by simp)
    · rename_i hold
      refine hold ⟨h.tables p ?_, rfl⟩
      simpa [merged, Effect.apply, setTable_of_ne _ hne] using hp

theorem Clean.parts (hs : Serving hash s) {c : Request} (hc : c.Good hash s) : PartsKeep hash heaps Clean c s where
  write m h ht htmp := h.congr rfl ht htmp
  flush h hf _ := h.flushTable hf
  compact {e w p} h hp hpoint := by
    have hsteady : Steady hash p.engine p.world.disk := Steady.compactionPoint hs.steady hc.short hc.room hpoint
    have hdir : newline ∉ p.engine.config.dbDir := by
      rw [config_compactionPoint hpoint]
      exact hs.directory
    exact (h.flushTable (flushPoint_eq_some hp).1).compaction (hsteady.booked hdir) rfl
  trigger h _ := h.compaction (hs.steady.booked hs.directory) rfl
  reopen _ h hs' _ ht htmp := h.congr hs' ht htmp

/-- Where no file operation fails, a call leaves nothing behind. -/
theorem Clean.step (h : Clean s.engine s.world.disk) (hs : Serving hash s) {c : Request} (hc : c.Good hash s)
    (heaps : Heaps) : Clean (s.step hash heaps c.op).2.engine (s.step hash heaps c.op).2.world.disk :=
  hs.keeps hc (Clean.parts hs hc) h

/-! ## Runs -/

/-- A call without a request changes nothing. -/
theorem machine_state (hash : Bytes → UInt64) (heaps : Heaps) (clock : System → Int64) (s : System) (c : ApiCall) :
    (System.machine hash heaps clock s c).2 = match c.request (clock s) with
      | none => s
      | some r => (s.step hash heaps r.op).2 := by
  cases c <;> rfl

theorem ApiCall.Good.request {c : ApiCall} (h : c.Good hash clock s) {r : Request}
    (hr : c.request (clock s) = some r) :
    r.Good hash s := by
  cases c <;> first | exact h r hr | exact absurd hr (by simp [ApiCall.request])

theorem clean_fresh (hopen : StorageEngine.new config .ok (World.ofDisk Disk.empty) = (.ok e, w)) :
    Clean e w.disk := by
  obtain ⟨ts, n, m, -, hmem, -⟩ := new_engine hopen
  refine ⟨fun p hp => ?_, manifestTmp_new hmem⟩
  rw [tables_new hmem] at hp
  exact absurd hp (by simp [World.ofDisk, Disk.empty])

/-- A call of a client, of an engine that serves. -/
theorem serving_machine (hs : Serving hash s) {c : ApiCall} (hc : c.Good hash clock s) (heaps : Heaps) :
    Serving hash (System.machine hash heaps clock s c).2 := by
  rw [machine_state]
  cases hr : c.request (clock s) with
  | none => exact hs
  | some r =>
    obtain ⟨ok, s', hstep, -, hserving, -⟩ := hs.step (hc.request hr) heaps
    simp only [hstep]
    exact hserving

/-- **No file is left behind.** Behind any client the table files are those of the open tables, the
manifest lists them, and no temporary is left. -/
theorem directory_clean (hdir : newline ∉ config.dbDir) (hp : config.walPath ≠ [])
    (hopen : StorageEngine.new config .ok (World.ofDisk Disk.empty) = (.ok e, w)) {α : Type}
    (client : Client api α)
    (hmeets : (System.machine hash heaps clock).Meets (ApiCall.Good hash clock) client ⟨e, w⟩) :
    let s := ((System.machine hash heaps clock).run client ⟨e, w⟩).2
    (∀ p, (s.world.disk.tables p).isSome = true ↔ p ∈ (Manifest.load s.world.disk).sstableFiles) ∧
      (Manifest.load s.world.disk).sstableFiles = (s.engine.sstables.map SSTableReader.filepath).reverse ∧
      s.world.disk.manifestTmp = none := by
  -- the invariant through one call
  have hinv : ∀ s c, Serving hash s ∧ Clean s.engine s.world.disk → ApiCall.Good hash clock s c →
      Serving hash (System.machine hash heaps clock s c).2 ∧
        Clean (System.machine hash heaps clock s c).2.engine
          (System.machine hash heaps clock s c).2.world.disk := by
    rintro s c ⟨hs, hclean⟩ hc
    refine ⟨serving_machine hs hc heaps, ?_⟩
    rw [machine_state]
    cases hr : c.request (clock s) with
    | none => exact hclean
    | some r => exact hclean.step hs (hc.request hr) heaps
  obtain ⟨hserving, hclean⟩ := Machine.Meets.invariant hinv
    ⟨(represents_fresh hash hdir hp hopen).serving, clean_fresh hopen⟩ hmeets
  intro s
  have hbooked : Booked hash s.engine s.world.disk := hserving.steady.booked hserving.directory
  have hlist : (Manifest.load s.world.disk).sstableFiles =
      (s.engine.sstables.map SSTableReader.filepath).reverse := by
    rw [hbooked.load, hbooked.memory]
  refine ⟨fun p => ?_, hlist, hclean.tmp⟩
  rw [hlist, List.mem_reverse]
  constructor
  · exact hclean.tables p
  · intro hmem
    obtain ⟨r, hr, rfl⟩ := List.mem_map.1 hmem
    rw [(hbooked.tables r hr).file]
    rfl

/-- Flushes, a compaction at each of them, and a last write. -/
def compactingClient : Client api (Option Bytes) :=
  .call (.put (bytes "a") (bytes "1")) fun _ => .call .flushMemTable fun _ =>
    .call (.put (bytes "a") (bytes "2")) fun _ => .call (.delete (bytes "b")) fun _ => .call .close fun _ =>
      .call (.put (bytes "c") (bytes "3")) fun _ => Bindings.get (bytes "a")

theorem directory_clean_compacting :
    let s := ((System.machine (fun _ => 0) firstInHeaps fun _ => 0).run compactingClient
      ⟨loggedEngine 1000 1, loggedDisk⟩).2
    (∀ p, (s.world.disk.tables p).isSome = true ↔ p ∈ (Manifest.load s.world.disk).sstableFiles) ∧
      (Manifest.load s.world.disk).sstableFiles = [bytes "sstable_3.sst"] := by
  have hopen : StorageEngine.new (loggedEngine 1000 1).config .ok (World.ofDisk Disk.empty) =
      (.ok (loggedEngine 1000 1), loggedDisk) := rfl
  have huntied : (System.machine (fun _ => 0) firstInHeaps fun _ => 0).Meets
    (ApiCall.Untied (fun _ => 0) fun _ => 0)
      compactingClient ⟨loggedEngine 1000 1, loggedDisk⟩ := by decide +kernel
  obtain ⟨hfiles, -, -⟩ := directory_clean (by decide) (by decide) hopen compactingClient
    (Machine.Meets.mono (fun _ _ h => h.good) huntied)
  exact ⟨hfiles, by decide +kernel⟩

/-! ## Few tables -/

/-- Fewer tables than `n`, and the next flush that makes them `n` compacts. -/
structure Few (n : ℕ) (e : StorageEngine) : Prop where
  count : e.sstables.length < n
  threshold : e.config.compactionThreshold.toNat ≤ n

/-- The compaction threshold that a call sets, 0 if none. -/
def Request.threshold : Request → UInt64
  | .reopen _ compactionThreshold => compactionThreshold
  | _ => 0

/-- A compaction of the call can write its table, and the call sets no threshold above `n`. -/
def Request.Bounded (hash : Bytes → UInt64) (heaps : Heaps) (n : ℕ) (s : System) (r : Request) : Prop :=
  (∀ p ∈ compactionPoint hash r.op s,
    (triggerCompactionInternal hash heaps .ok p.engine p.world).1 = .returned true) ∧ r.threshold.toNat ≤ n

instance (heaps : Heaps) (n : ℕ) (s : System) (r : Request) : Decidable (r.Bounded hash heaps n s) :=
  inferInstanceAs (Decidable ((∀ p ∈ compactionPoint hash r.op s,
    (triggerCompactionInternal hash heaps .ok p.engine p.world).1 = .returned true) ∧ r.threshold.toNat ≤ n))

/-- What a call needs besides. -/
def ApiCall.Bounded (hash : Bytes → UInt64) (heaps : Heaps) (clock : System → Int64) (n : ℕ) (s : System)
    (c : ApiCall) : Prop := ∀ r ∈ c.request (clock s), r.Bounded hash heaps n s

instance (heaps : Heaps) (n : ℕ) (s : System) (c : ApiCall) : Decidable (c.Bounded hash heaps clock n s) :=
  inferInstanceAs (Decidable (∀ r ∈ c.request (clock s), r.Bounded hash heaps n s))

variable {n : ℕ}

/-- A compaction that returns true leaves one table, or was not due. -/
theorem Few.compacted (hn : 2 ≤ n) (hth : p.engine.config.compactionThreshold.toNat ≤ n)
    (hret : (triggerCompactionInternal hash heaps .ok p.engine p.world).1 = .returned true) :
    Few n (p.compacted hash heaps .ok).engine := by
  have hcases := compaction_cases hash heaps .ok p.engine p.world
  unfold System.compacted
  generalize triggerCompactionInternal hash heaps .ok p.engine p.world = r at hcases hret
  cases hcases with
  | below h => exact ⟨h.trans_le hth, hth⟩
  | notOpened _ => exact absurd hret (by simp)
  | nothing _ => exact absurd hret (by simp)
  | notBuilt => exact absurd hret (by simp)
  | notReplaced => exact absurd hret (by simp)
  | notRead => exact absurd hret (by simp)
  | done ins m' w₁ r hm hr hnew hpath hreads => exact ⟨hn, hth⟩

theorem Few.parts (hn : 2 ≤ n) {c : Request} (hc : c.Bounded hash heaps n s) :
    PartsKeep hash heaps (fun e _ => Few n e) c s where
  write m h _ _ := ⟨h.count, h.threshold⟩
  flush {e e' w w' b} h hf hdue := by
    have hconfig := config_flushTable hash .ok e w
    have hcases := flushTable_cases hash .ok e w
    rw [hf] at hconfig hcases
    have hle : e'.config.compactionThreshold.toNat ≤ n := by
      rw [hconfig]
      exact h.threshold
    cases hcases with
    | idle _ => exact h
    | done m m' r _ ha hne hr hnew => exact ⟨(hdue rfl).trans_le hle, hle⟩
  compact {e w p} h hp hpoint := by
    refine Few.compacted hn ?_ (hc.1 _ hpoint)
    have hconfig := config_flushTable hash .ok e w
    rw [(flushPoint_eq_some hp).1] at hconfig
    rw [hconfig]
    exact h.threshold
  trigger h hpoint := Few.compacted hn h.threshold (hc.1 _ hpoint)
  reopen hr h hs' hconfig _ _ := by
    refine ⟨?_, ?_⟩
    · rw [hs']
      exact h.count
    · have hth := hc.2
      rw [hr] at hth
      rw [hconfig]
      exact hth

/-- **The number of tables stays below the compaction threshold.** -/
theorem tables_bounded (hn : 2 ≤ n) (hdir : newline ∉ config.dbDir) (hp : config.walPath ≠ [])
    (hth : config.compactionThreshold.toNat ≤ n)
    (hopen : StorageEngine.new config .ok (World.ofDisk Disk.empty) = (.ok e, w)) {α : Type}
    (client : Client api α)
    (hmeets : (System.machine hash heaps clock).Meets
      (fun s c => c.Good hash clock s ∧ c.Bounded hash heaps clock n s) client ⟨e, w⟩) :
    ((System.machine hash heaps clock).run client ⟨e, w⟩).2.engine.sstables.length < n := by
  have hinv : ∀ s c, Serving hash s ∧ Few n s.engine → c.Good hash clock s ∧ c.Bounded hash heaps clock n s →
      Serving hash (System.machine hash heaps clock s c).2 ∧
      Few n (System.machine hash heaps clock s c).2.engine := by
    rintro s c ⟨hs, hfew⟩ ⟨hgood, hbounded⟩
    refine ⟨serving_machine hs hgood heaps, ?_⟩
    rw [machine_state]
    cases hr : c.request (clock s) with
    | none => exact hfew
    | some r => exact hs.keeps (hgood.request hr) (Few.parts hn (hbounded r hr)) hfew
  have hfresh : Few n e := by
    obtain ⟨ts, id, m, hrec, -, rfl⟩ := new_engine hopen
    obtain ⟨rfl, -⟩ := Prod.mk.inj (Except.ok.inj hrec)
    exact ⟨Nat.zero_lt_of_lt hn, hth⟩
  exact (Machine.Meets.invariant hinv ⟨(represents_fresh hash hdir hp hopen).serving, hfresh⟩ hmeets).2.count

theorem tables_bounded_compacting :
    ((System.machine (fun _ => 0) firstInHeaps fun _ => 0).run compactingClient
      ⟨loggedEngine 1000 1, loggedDisk⟩).2.engine.sstables.length < 2 := by
  have hopen : StorageEngine.new (loggedEngine 1000 1).config .ok (World.ofDisk Disk.empty) =
      (.ok (loggedEngine 1000 1), loggedDisk) := rfl
  have hmeets : (System.machine (fun _ => 0) firstInHeaps fun _ => 0).Meets
      (fun s c => c.Untied (fun _ => 0) (fun _ => 0) s ∧ c.Bounded (fun _ => 0) firstInHeaps (fun _ => 0) 2 s)
      compactingClient ⟨loggedEngine 1000 1, loggedDisk⟩ := by decide +kernel
  exact tables_bounded le_rfl (by decide) (by decide) (by decide) hopen compactingClient
    (Machine.Meets.mono (fun _ _ h => ⟨h.1.good, h.2⟩) hmeets)

end LsmTree

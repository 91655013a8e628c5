import LsmTree.Proof.AnyRun
import LsmTree.Proof.CompactionView

/-!
# Flushes that fail

The memtable leaves its slot first, and a new one takes its place last.

* `Completes`: the table is built and read again, and the log opens.
* `active_flush_iff`: a flush ends with a memtable to write to if and only if it found one
  that is empty, or completes.
* `view_flushTable`: what the new memtable replays of a log that was not truncated must not
  contradict the live values.
* `flush_usable`: **a flush that completes leaves the engine usable and changes no live
  value**, in every state of a run, whatever failed before.
* `flush_usable_fails`: a table that cannot be created.
-/

namespace LsmTree

open Base StorageEngine WAL

variable {hash : Bytes → UInt64} {heaps : Heaps} {e e' : StorageEngine} {w w' : World} {s : System}
  {m m' : MemTable} {io : FlushIO}

namespace StorageEngine

/-! ## The file operations of a flush -/

/-- The file operations that a flush of `m` cannot do without succeed. -/
structure Completes (hash : Bytes → UInt64) (io : FlushIO) (e : StorageEngine) (m : MemTable) : Prop where
  build : Builds hash io.build m e
  reader : io.readerOpens = true
  memTable : e.config.walPath = [] ∨ io.memTable.openError = none

instance (io : FlushIO) (m : MemTable) : Decidable (Completes hash io e m) :=
  decidable_of_iff (Builds hash io.build m e ∧ io.readerOpens = true ∧
    (e.config.walPath = [] ∨ io.memTable.openError = none))
      ⟨fun h => ⟨h.1, h.2.1, h.2.2⟩, fun h => ⟨h.1, h.2, h.3⟩⟩

/-- The memtable that takes the place of the flushed one. -/
def nextMemTable (io : FlushIO) (e : StorageEngine) (d : Disk) : MemTable :=
  if e.config.walPath = [] then .blank false
  else if io.truncate then .blank true
  else (MemTable.blank true).recoverFromWAL io.memTable d

/-- The log is opened or not. -/
theorem new_isOk (walPath : Bytes) (io : MemTableIO) (w : World) :
    (∃ m' w', MemTable.new walPath io w = (.ok m', w')) ↔ walPath = [] ∨ io.openError = none := by
  by_cases hp : walPath = []
  · subst hp
    exact ⟨fun _ => Or.inl rfl, fun _ => ⟨_, _, MemTable.new_nil io w⟩⟩
  · cases ho : io.openError with
    | none => exact ⟨fun _ => Or.inr rfl, fun _ => ⟨_, _, MemTable.new_opened hp ho w⟩⟩
    | some reason =>
      obtain ⟨what, hnew⟩ := MemTable.new_refused hp ho w
      refine ⟨fun ⟨m', w', h⟩ => ?_, fun h => absurd (h.resolve_left hp) (by simp)⟩
      rw [hnew] at h
      exact absurd (Prod.mk.inj h).1 (by simp)

/-- A log that does not exist is as good as an empty one. -/
theorem recover_walOpen (io : MemTableIO) (m : MemTable) (d : Disk) :
    m.recoverFromWAL io (Effect.walOpen.apply d) = m.recoverFromWAL io d := by
  unfold MemTable.recoverFromWAL WAL.recover Effect.apply
  cases hw : d.wal with
  | none =>
    simp only [hw, Option.getD_none]
    cases io.readable <;> rfl
  | some content => simp only [hw, Option.getD_some]

theorem recover_congr {d d' : Disk} (h : d'.wal = d.wal) (io : MemTableIO) (m : MemTable) :
    m.recoverFromWAL io d' = m.recoverFromWAL io d := by
  unfold MemTable.recoverFromWAL WAL.recover
  rw [h]

/-- The memtable behind the truncation. -/
theorem memTable_installed {io : FlushIO}
    (hnew : MemTable.new e.config.walPath io.memTable (installedWorld hash io m e w) = (.ok m', w')) :
    m' = nextMemTable io e w.disk := by
  unfold nextMemTable
  by_cases hp : e.config.walPath = []
  · rw [hp, MemTable.new_nil] at hnew
    rw [if_pos hp]
    exact (Except.ok.inj (Prod.mk.inj hnew).1).symm
  · have ho : io.memTable.openError = none :=
      ((new_isOk _ _ _).1 ⟨_, _, hnew⟩).resolve_left hp
    rw [MemTable.new_opened hp ho] at hnew
    rw [if_neg hp, ← Except.ok.inj (Prod.mk.inj hnew).1, World.disk_perform, recover_walOpen]
    cases ht : io.truncate with
    | true =>
      refine MemTable.recover_empty ?_ _ _
      unfold installedWorld truncated
      rw [ht, if_pos (by simp [hp])]
      rfl
    | false =>
      refine recover_congr ?_ _ _
      unfold installedWorld truncated
      rw [ht, if_neg (by simp)]
      unfold Manifest.addSSTable
      cases io.addSSTable <;> rfl

/-! ## How it ends -/

/-- **A flush that finds something to flush** ends with a memtable exactly if it completes. -/
theorem active_flushTable (ha : e.active = some m) (hne : m.empty = false) (io : FlushIO) (w : World) :
    (flushTable hash io e w).2.1.active.isSome = true ↔ Completes hash io e m := by
  have hsame : ∀ {m'}, e.active = some m' → m' = m := fun ha' => Option.some.inj (ha'.symm.trans ha)
  have hcases := flushTable_cases hash io e w
  generalize flushTable hash io e w = r at hcases
  cases hcases with
  | idle h =>
    rcases h with hnone | ⟨m', ha', hempty⟩
    · exact absurd (hnone.symm.trans ha) (by simp)
    · rw [hsame ha', hne] at hempty
      exact absurd hempty (by decide)
  | notBuilt m' what ha' hne' hb =>
    obtain rfl := hsame ha'
    exact ⟨fun h => absurd h (by simp [moved]), fun h => absurd h.build hb⟩
  | notOpened m' what ha' hne' hlen ho =>
    exact ⟨fun h => absurd h (by simp [moved]), fun h => absurd (ho.symm.trans h.reader) (by decide)⟩
  | noMemTable m' what r w' ha' hne' hr hnew =>
    obtain rfl := hsame ha'
    refine ⟨fun h => absurd h (by simp [withTable]), fun h => ?_⟩
    obtain ⟨m₁, w₁, hok⟩ := (new_isOk _ _ _).2 h.memTable
    exact absurd (Prod.mk.inj (hnew.symm.trans hok)).1 (by simp)
  | done m' m₁ r w' ha' hne' hr hnew hb ho =>
    obtain rfl := hsame ha'
    exact ⟨fun _ => ⟨hb, ho, (new_isOk _ _ _).1 ⟨m₁, w', hnew⟩⟩, fun _ => rfl⟩

/-- A flush that finds nothing to flush changes nothing. -/
theorem flushTable_idle (h : Flushable e = false) (io : FlushIO) (w : World) :
    flushTable hash io e w = (.returned false, e, w) := by
  unfold Flushable at h
  unfold flushTable
  cases ha : e.active with
  | none => rfl
  | some m =>
    rw [ha, Option.any_some, Bool.not_eq_false'] at h
    simp only [h, if_true]

/-- The compaction that a flush triggers leaves the memtables. -/
theorem active_flush (hash : Bytes → UInt64) (heaps : Heaps) (io : FlushIO) (e : StorageEngine) (w : World) :
    (flushMemTableInternal hash heaps io e w).2.1.active = (flushTable hash io e w).2.1.active := by
  rw [flushMemTableInternal_eq]
  generalize flushTable hash io e w = r
  obtain ⟨o, e₁, w₁⟩ := r
  cases o with
  | returned b =>
    cases b with
    | true => exact (slots_compaction hash heaps io.compaction e₁ w₁).1
    | false => rfl
  | threw what => rfl
  | undefined => rfl

/-- **When a flush ends with a memtable to write to.** -/
theorem active_flush_iff (hash : Bytes → UInt64) (heaps : Heaps) (io : FlushIO) (e : StorageEngine) (w : World) :
    (flushMemTableInternal hash heaps io e w).2.1.active.isSome = true ↔
      ∃ m, e.active = some m ∧ (m.empty = true ∨ Completes hash io e m) := by
  rw [active_flush]
  cases ha : e.active with
  | none =>
    rw [flushTable_idle (not_flushable (Or.inl ha))]
    simp [ha]
  | some m =>
    cases hne : m.empty with
    | true =>
      rw [flushTable_idle (not_flushable (Or.inr ⟨m, ha, hne⟩))]
      simp [ha, hne]
    | false =>
      rw [active_flushTable ha hne]
      simp [hne]

/-! ## Live values -/

/-- What the log still holds of a key is its live value. -/
def LogAgrees (hash : Bytes → UInt64) (io : FlushIO) (e : StorageEngine) (d : Disk) : Prop :=
  ∀ key r, (nextMemTable io e d).layer key = some r → r = e.liveValue hash key

/-- A log that is truncated holds nothing. -/
theorem LogAgrees.of_truncate {io : FlushIO} (h : e.config.walPath = [] ∨ io.truncate = true) (d : Disk) :
    LogAgrees hash io e d := by
  intro key r hr
  unfold nextMemTable at hr
  split at hr
  · exact absurd hr (by simp [MemTable.layer_blank])
  · rename_i hp
    rw [if_pos (h.resolve_left hp)] at hr
    exact absurd hr (by simp [MemTable.layer_blank])

/-- **The new memtable in front of the new table.** -/
theorem view_flushTable (ha : e.active = some m) (hi : e.immutable = none) (hshort : m.Short) (io : FlushIO)
    {r : SSTableReader} (hr : TableReader hash m e.flushPath r)
    (hlog : ∀ key x, m'.layer key = some x → x = e.liveValue hash key) :
    ({ e.withTable io r w with active := some m' } : StorageEngine).liveValue hash = e.liveValue hash := by
  have hbefore : e.layers hash = m.layer :: tableLayers hash e.sstables := layers_active ha hi
  have hafter : ({ e.withTable io r w with active := some m' } : StorageEngine).layers hash =
      m'.layer :: r.layer hash :: tableLayers hash e.sstables := layers_active rfl rfl
  rw [liveValue_eq, hafter, hr.layer_eq hshort]
  funext key
  cases hk : m'.layer key with
  | none =>
    rw [liveValue_eq, hbefore]
    unfold view
    rw [stack_cons, hk, Option.none_or]
  | some x =>
    unfold view
    rw [stack_cons, hk, Option.some_or]
    exact hlog key x hk

end StorageEngine

/-! ## The engine after a flush -/

/-- There is a memtable to write to, and every key has the live value it had. -/
structure Usable (hash : Bytes → UInt64) (e e' : StorageEngine) : Prop where
  active : e'.active.isSome = true
  live : ∀ key, e'.liveValue hash key = e.liveValue hash key

/-- The flush does not fail, and neither what it replays nor the compaction it triggers
contradicts a live value. -/
structure CanFlush (hash : Bytes → UInt64) (io : FlushIO) (s : System) : Prop where
  completes : ∃ m, s.engine.active = some m ∧ (m.empty = true ∨ Completes hash io s.engine m)
  log : Flushable s.engine = true → LogAgrees hash io s.engine s.world.disk
  ranks : ∀ p, flushPoint hash io s.engine s.world = some p → RanksAgree hash p.engine

/-- On tables that stand on disk. -/
theorem CanFlush.usable (h : CanFlush hash io s) (htables : TablesOK hash s.engine s.world.disk)
    (hslot : OneSlot s.engine) (hfits : s.Fits) (heaps : Heaps) :
    Usable hash s.engine (flushMemTableInternal hash heaps io s.engine s.world).2.1 := by
  refine ⟨(active_flush_iff hash heaps io s.engine s.world).2 h.completes, fun key => congrFun ?_ key⟩
  have hroom : s.engine.idCounter.toNat + 2 < 2 ^ 64 := hfits.room
  rw [flushMemTableInternal_eq]
  cases hflush : Flushable s.engine with
  | false => rw [flushTable_idle hflush]
  | true =>
    obtain ⟨m, ha, hm⟩ := h.completes
    have hne : m.empty = false := by
      by_contra hempty
      rw [not_flushable (Or.inr ⟨m, ha, by simpa using hempty⟩)] at hflush
      cases hflush
    have hsome := (active_flushTable ha hne io s.world).2 (hm.resolve_left (by simp [hne]))
    have hcases := flushTable_cases hash io s.engine s.world
    obtain ⟨o, e₁, w₁, hr⟩ : ∃ o e₁ w₁, flushTable hash io s.engine s.world = (o, e₁, w₁) := ⟨_, _, _, rfl⟩
    have htables₁ := htables.flushTable (by omega) hfits.short hr
    have hpoint : o = .returned true → e₁.config.compactionThreshold.toNat ≤ e₁.sstables.length →
        RanksAgree hash e₁ := by
      rintro rfl hdue
      exact h.ranks ⟨e₁, w₁⟩ (flushPoint_of hr hdue)
    rw [hr] at hcases hsome ⊢
    cases hcases with
    | idle hidle =>
      rcases hidle with hnone | ⟨m₀, ha₀, hempty⟩
      · exact absurd (ha.symm.trans hnone) (by simp)
      · obtain rfl := Option.some.inj (ha.symm.trans ha₀)
        exact absurd (hne.symm.trans hempty) (by decide)
    | notBuilt _ _ _ _ => exact absurd hsome (by simp [moved])
    | notOpened _ _ _ _ _ _ => exact absurd hsome (by simp [moved])
    | noMemTable _ _ _ _ _ _ _ _ => exact absurd hsome (by simp [withTable])
    | done m₀ m' r w' ha₀ _ hreader hnew =>
      obtain rfl := Option.some.inj (ha.symm.trans ha₀)
      -- the flush has gone through, so the slot it moved the memtable to was free
      have hi : s.engine.immutable = none := by simpa using hslot (by rw [ha]; rfl)
      have hlog := h.log hflush
      rw [LogAgrees, ← memTable_installed hnew] at hlog
      -- the new table takes the place of the memtable, and a compaction shows what its inputs showed
      have hview := view_flushTable (w := built hash m s.engine s.world) ha hi (hfits.short m ha) io hreader hlog
      exact (maybeCompaction_view htables₁ (fun hdue => (hpoint rfl hdue).mergePreserves htables₁) _).trans hview

/-- **A flush leaves the engine usable**, in every state of a run, if it completes: it ends
with a memtable to write to only then. -/
theorem flush_usable {config : Config}
    (hopen : StorageEngine.new config .ok (World.ofDisk Disk.empty) = (.ok e, w))
    {ops : List Op} (hrun : runAny hash heaps ops ⟨e, w⟩ = some s) (hfits : s.Fits) (io : FlushIO) :
    ((flushMemTableInternal hash heaps io s.engine s.world).2.1.active.isSome = true ↔
      ∃ m, s.engine.active = some m ∧ (m.empty = true ∨ Completes hash io s.engine m)) ∧
    (CanFlush hash io s → Usable hash s.engine (flushMemTableInternal hash heaps io s.engine s.world).2.1) :=
  ⟨active_flush_iff hash heaps io s.engine s.world, fun h =>
    h.usable (runAny_tables (steady_fresh hopen).tables hrun)
      (oneSlot_runAny (oneSlot_new hopen) hrun) hfits heaps⟩

/-- A memtable with one entry. -/
def onePut : List Op := [.put (bytes "a") (bytes "1") 0 .ok .ok]

/-- The manifest's line may be lost: in the running engine nothing changes. -/
theorem flush_usable_unlisted : ∃ s,
    runAny (fun _ => 0) firstInHeaps onePut ⟨unloggedEngine 4, .ofDisk .empty⟩ = some s ∧
      Usable (fun _ => 0) s.engine (flushMemTableInternal (fun _ => 0) firstInHeaps
        { FlushIO.ok with addSSTable := .openFails } s.engine s.world).2.1 := by
  have hopen : StorageEngine.new (unloggedEngine 4).config .ok (World.ofDisk Disk.empty) =
      (.ok (unloggedEngine 4), .ofDisk .empty) := rfl
  have hsome : (runAny (fun _ => 0) firstInHeaps onePut ⟨unloggedEngine 4, .ofDisk .empty⟩).any (fun s =>
      decide s.Fits && decide (s.engine.config.walPath = []) &&
        s.engine.active.any (fun m =>
          decide (Completes (fun _ => 0) { FlushIO.ok with addSSTable := .openFails } s.engine m)) &&
        (flushPoint (fun _ => 0) { FlushIO.ok with addSSTable := .openFails } s.engine s.world).isNone) =
        true := by
    decide +kernel
  obtain ⟨s, hrun, hs⟩ := Option.any_eq_true _ _ |>.1 hsome
  simp only [Bool.and_eq_true, decide_eq_true_eq] at hs
  obtain ⟨⟨⟨hfits, hwal⟩, hm⟩, hpoint⟩ := hs
  obtain ⟨m, ha, hcompletes⟩ := Option.any_eq_true _ _ |>.1 hm
  refine ⟨s, hrun, (flush_usable hopen hrun hfits _).2 ⟨⟨m, ha, Or.inr (of_decide_eq_true hcompletes)⟩,
    fun _ => LogAgrees.of_truncate (Or.inl hwal) _, fun p hp => ?_⟩⟩
  rw [hp] at hpoint
  exact absurd hpoint (by simp)

/-- The table's file cannot be created: the call throws, and there is no memtable left. -/
theorem flush_usable_fails :
    ¬ ∀ (hash : Bytes → UInt64) (heaps : Heaps) (config : Config) (e : StorageEngine) (w : World) (ops : List Op)
      (s : System) (io : FlushIO), StorageEngine.new config .ok (World.ofDisk Disk.empty) = (.ok e, w) →
      reach hash heaps ops ⟨e, w⟩ = some s →
      Usable hash s.engine (flushMemTableInternal hash heaps io s.engine s.world).2.1 := by
  intro hall
  have hopen : StorageEngine.new (unloggedEngine 4).config .ok (World.ofDisk Disk.empty) =
      (.ok (unloggedEngine 4), .ofDisk .empty) := rfl
  have hsome : (reach (fun _ => 0) firstInHeaps onePut ⟨unloggedEngine 4, .ofDisk .empty⟩).any (fun s =>
      (flushMemTableInternal (fun _ => 0) firstInHeaps { FlushIO.ok with build := ⟨false, none⟩ } s.engine
        s.world).2.1.active.isNone) = true := by decide +kernel
  obtain ⟨s, hreach, hnone⟩ := Option.any_eq_true _ _ |>.1 hsome
  have husable := hall _ _ _ _ _ onePut s { FlushIO.ok with build := ⟨false, none⟩ } hopen hreach
  have hactive := husable.active
  rw [Option.isNone_iff_eq_none] at hnone
  rw [hnone] at hactive
  exact absurd hactive (by decide)

end LsmTree

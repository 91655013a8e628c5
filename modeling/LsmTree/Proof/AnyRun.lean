import LsmTree.Proof.Bookkeeping
import LsmTree.Proof.ScanThread

/-!
# Runs in which file operations may fail

`runAny` runs calls of the engine, closing and opening again included, whatever they
return or throw and whatever file operations fail in them.

* `TablesOK.step`, `runAny_tables`: in every state reached the open tables stand on
  disk, if keys and values are short enough for the table format and the counter of
  tables has room.
* `oneSlot_runAny`: at most one of the two memtables is there.
-/

namespace LsmTree

open Base StorageEngine

variable {hash : Bytes → UInt64} {heaps : Heaps} {e e' : StorageEngine} {w w' : World} {s s' : System}
  {o : Outcome Bool}

/-- Key and value of the call are shorter than `2^32` bytes. -/
def Op.Short : Op → Prop
  | .put key value _ _ _ => key.length < 2 ^ 32 ∧ value.length < 2 ^ 32
  | .delete key _ _ => key.length < 2 ^ 32
  | _ => True

instance (op : Op) : Decidable op.Short := by
  cases op <;> (unfold Op.Short; infer_instance)

/-- The counter of tables has room, and what the memtable holds is short. -/
structure System.Fits (s : System) : Prop where
  room : s.HasRoom
  short : ∀ m ∈ s.engine.active, m.Short

instance (m : MemTable) : Decidable m.Short := by
  unfold MemTable.Short
  infer_instance

instance (s : System) : Decidable s.Fits :=
  decidable_of_iff (s.HasRoom ∧ ∀ m ∈ s.engine.active, m.Short) ⟨fun h => ⟨h.1, h.2⟩, fun h => ⟨h.room, h.short⟩⟩

/-- One call, whatever it returns or throws. -/
def Op.runAny (hash : Bytes → UInt64) (heaps : Heaps) (s : System) (op : Op) : Option System :=
  if s.Fits ∧ op.Short then
    match s.step hash heaps op with
    | (.undefined, _) => none
    | (_, s') => some s'
  else none

/-- Calls one after another. -/
def runAny (hash : Bytes → UInt64) (heaps : Heaps) (ops : List Op) (s : System) : Option System :=
  ops.foldlM (Op.runAny hash heaps) s

theorem Op.runAny_eq_some {op : Op} (h : op.runAny hash heaps s = some s') :
    s.Fits ∧ op.Short ∧ ∃ o, s.step hash heaps op = (o, s') ∧ o ≠ .undefined := by
  unfold Op.runAny at h
  split at h
  · rename_i hfits
    obtain ⟨o, s₁, hstep⟩ : ∃ o s₁, s.step hash heaps op = (o, s₁) := ⟨_, _, rfl⟩
    rw [hstep] at h
    cases o with
    | undefined => cases h
    | returned a =>
      obtain rfl := Option.some.inj h
      exact ⟨hfits.1, hfits.2, _, hstep, by simp⟩
    | threw what =>
      obtain rfl := Option.some.inj h
      exact ⟨hfits.1, hfits.2, _, hstep, by simp⟩
  · cases h

/-! ## Tables -/

/-- A flush, and the compaction it triggers. -/
theorem TablesOK.flush (h : TablesOK hash e w.disk) (hroom : e.idCounter.toNat + 2 < 2 ^ 64)
    (hshort : ∀ m ∈ e.active, m.Short) {io : FlushIO} {o : Outcome Unit}
    (hf : flushMemTableInternal hash heaps io e w = (o, e', w')) : TablesOK hash e' w'.disk := by
  cases flush_end hf with
  | table htable _ _ => exact h.flushTable (by omega) hshort htable
  | compacted htable _ hcompact _ =>
    exact (h.flushTable (by omega) hshort htable).compaction (room_flushTable hroom htable) hcompact

theorem TablesOK.withActive (h : TablesOK hash e w.disk) (m : MemTable) (ht : w'.disk.tables = w.disk.tables) :
    TablesOK hash { e with active := some m } w'.disk :=
  h.congr rfl rfl le_rfl ht

theorem TablesOK.put (h : TablesOK hash s.engine s.world.disk) (hfits : s.Fits) {key value : Bytes}
    (hk : key.length < 2 ^ 32) (hv : value.length < 2 ^ 32) {now : Int64} {append : WAL.AppendIO} {io : FlushIO}
    (hend : PutEnd hash heaps key value now append io s (o, s')) : TablesOK hash s'.engine s'.world.disk := by
  cases hend with
  | closed _ => exact h
  | refused _ hput => exact h.withActive _ (disk_put hput).1
  | room _ hput _ => exact h.withActive _ (disk_put hput).1
  | full ha hput _ hflush =>
    obtain rfl := System.unit_eq hflush
    refine (h.withActive _ (disk_put hput).1).flush hfits.room (fun m' hm' => ?_) rfl
    obtain rfl := Option.some.inj hm'
    exact (hfits.short _ ha).applyPut hk hv

theorem TablesOK.delete (h : TablesOK hash s.engine s.world.disk) {key : Bytes} {now : Int64}
    {append : WAL.AppendIO} (hend : DeleteEnd key now append s (o, s')) :
    TablesOK hash s'.engine s'.world.disk := by
  cases hend with
  | closed _ => exact h
  | refused _ hdelete => exact h.withActive _ (disk_delete hdelete).1
  | done _ hdelete => exact h.withActive _ (disk_delete hdelete).1

/-- Opening the database, if it fails, leaves the table files. -/
theorem tables_engine_new {config : Config} {io : MemTableIO} {r : Except Bytes StorageEngine}
    (h : StorageEngine.new config io w = (r, w')) : w'.disk.tables = w.disk.tables := by
  unfold StorageEngine.new at h
  simp only at h
  split at h
  · obtain ⟨-, rfl⟩ := Prod.mk.inj h
    rfl
  · split at h
    · rename_i hmem
      obtain ⟨-, rfl⟩ := Prod.mk.inj h
      exact tables_new hmem
    · rename_i hmem
      obtain ⟨-, rfl⟩ := Prod.mk.inj h
      exact tables_new hmem

/-- **One call**, whatever file operations fail in it. -/
theorem TablesOK.step (h : TablesOK hash s.engine s.world.disk) (hfits : s.Fits) {op : Op} (hop : op.Short)
    (hstep : s.step hash heaps op = (o, s')) : TablesOK hash s'.engine s'.world.disk := by
  have hroom : s.engine.idCounter.toNat + 2 < 2 ^ 64 := hfits.room
  cases op with
  | put key value now append io => exact h.put hfits hop.1 hop.2 (step_put hstep)
  | delete key now append => exact h.delete (step_delete hstep)
  | flushMemTable io =>
    obtain rfl := System.unit_eq hstep
    exact h.flush hroom hfits.short rfl
  | triggerCompaction io => exact h.compaction (by omega) (step_triggerCompaction hstep)
  | close io =>
    obtain rfl := System.unit_eq (step_close hstep)
    exact h.flush hroom hfits.short rfl
  | reopen writeBufferSize compactionThreshold io =>
    simp only [System.step] at hstep
    obtain ⟨r, w₁, hnew⟩ : ∃ r w₁, StorageEngine.new { s.engine.config with
      writeBufferSize := writeBufferSize, compactionThreshold := compactionThreshold } io s.world = (r, w₁) :=
      ⟨_, _, rfl⟩
    rw [hnew] at hstep
    cases r with
    | ok e₁ =>
      obtain ⟨-, rfl⟩ := Prod.mk.inj hstep
      refine (TablesOK.reopen ?_ hnew).1
      exact h.disk
    | error what =>
      obtain ⟨-, rfl⟩ := Prod.mk.inj hstep
      exact h.congr rfl rfl le_rfl (tables_engine_new hnew)

/-- **Every state of a run.** -/
theorem runAny_tables {ops : List Op} : ∀ {s : System}, TablesOK hash s.engine s.world.disk →
    runAny hash heaps ops s = some s' → TablesOK hash s'.engine s'.world.disk := by
  induction ops with
  | nil =>
    intro s h hrun
    obtain rfl := Option.some.inj hrun
    exact h
  | cons op ops ih =>
    intro s h hrun
    obtain ⟨s₁, hone, hrest⟩ := Option.bind_eq_some_iff.1 (show (op.runAny hash heaps s).bind _ = _ from hrun)
    obtain ⟨hfits, hop, o, hstep, -⟩ := Op.runAny_eq_some hone
    exact ih (h.step hfits hop hstep) hrest

theorem oneSlot_runAny {ops : List Op} : ∀ {s : System}, OneSlot s.engine → runAny hash heaps ops s = some s' →
    OneSlot s'.engine := by
  induction ops with
  | nil =>
    intro s h hrun
    obtain rfl := Option.some.inj hrun
    exact h
  | cons op ops ih =>
    intro s h hrun
    obtain ⟨s₁, hone, hrest⟩ := Option.bind_eq_some_iff.1 (show (op.runAny hash heaps s).bind _ = _ from hrun)
    obtain ⟨-, -, o, hstep, ho⟩ := Op.runAny_eq_some hone
    exact ih (oneSlot_step h hstep ho) hrest

end LsmTree

import LsmTree.Proof.Steady

/-!
# Compaction and the live view

`compactionPoint` is the state in which a call runs a compaction: before
`TriggerCompaction`, or behind the flush that triggers one.

* `compaction_preserves`: **no live value is changed by a compaction** in a run without
  failing file operations, for every queue behind the merge, if no tie of file ids
  matters.
* `compaction_preserves_fails`: one tie that does. Table 0 has no id of its own, and its
  position from the end may be the id of table 1.
-/

namespace LsmTree

open Base StorageEngine

variable {hash : Bytes → UInt64} {heaps : Heaps} {e : StorageEngine} {w : World} {s p : System}

/-- The state in which a flush triggers a compaction, if it does. -/
def flushPoint (hash : Bytes → UInt64) (io : FlushIO) (e : StorageEngine) (w : World) : Option System :=
  match flushTable hash io e w with
  | (.returned true, e, w) =>
    if e.config.compactionThreshold.toNat ≤ e.sstables.length then some ⟨e, w⟩ else none
  | _ => none

/-- The state in which a call runs a compaction, if it does. -/
def compactionPoint (hash : Bytes → UInt64) (op : Op) (s : System) : Option System :=
  match op with
  | .put key value now append io =>
    match s.engine.active with
    | none => none
    | some m =>
      match m.put key value now append s.world with
      | (false, _, _) => none
      | (true, m, w) =>
        if s.engine.config.writeBufferSize ≤ m.approxMemoryUsage then
          flushPoint hash io { s.engine with active := some m } w
        else none
  | .delete _ _ _ => none
  | .flushMemTable io => flushPoint hash io s.engine s.world
  | .close io => flushPoint hash io s.engine s.world
  | .triggerCompaction _ => some s
  | .reopen _ _ _ => none

def Op.compactionIO : Op → CompactionIO
  | .put _ _ _ _ io => io.compaction
  | .flushMemTable io => io.compaction
  | .close io => io.compaction
  | .triggerCompaction io => io
  | _ => .ok

/-- The engine and the files after the compaction of a state. -/
def System.compacted (hash : Bytes → UInt64) (heaps : Heaps) (io : CompactionIO) (p : System) : System :=
  let r := triggerCompactionInternal hash heaps io p.engine p.world
  ⟨r.2.1, r.2.2⟩

theorem flushPoint_eq_some {io : FlushIO} (h : flushPoint hash io e w = some p) :
    flushTable hash io e w = (.returned true, p.engine, p.world) ∧
      p.engine.config.compactionThreshold.toNat ≤ p.engine.sstables.length := by
  unfold flushPoint at h
  split at h
  · rename_i e' w' hf
    split at h
    · rename_i hdue
      obtain rfl := Option.some.inj h
      exact ⟨hf, hdue⟩
    · exact absurd h (by simp)
  · exact absurd h (by simp)

theorem flushPoint_of {io : FlushIO} {e₁ : StorageEngine} {w₁ : World}
    (hf : flushTable hash io e w = (.returned true, e₁, w₁))
    (hdue : e₁.config.compactionThreshold.toNat ≤ e₁.sstables.length) :
    flushPoint hash io e w = some ⟨e₁, w₁⟩ := by
  unfold flushPoint
  rw [hf]
  exact if_pos hdue

/-- The compaction is the last thing a flush does. -/
theorem flush_flushPoint (heaps : Heaps) {io : FlushIO} (h : flushPoint hash io e w = some p) :
    (flushMemTableInternal hash heaps io e w).2.1 = (p.compacted hash heaps io.compaction).engine ∧
      (flushMemTableInternal hash heaps io e w).2.2 = (p.compacted hash heaps io.compaction).world := by
  obtain ⟨hf, hdue⟩ := flushPoint_eq_some h
  rw [flushMemTableInternal_eq, hf]
  simp only
  unfold maybeTriggerCompactionInternal System.compacted
  rw [if_pos hdue]
  generalize triggerCompactionInternal hash heaps io.compaction p.engine p.world = r
  obtain ⟨o, e', w'⟩ := r
  cases o <;> exact ⟨rfl, rfl⟩

/-- **The state after a call is that after its compaction.** -/
theorem step_compactionPoint {op : Op} (h : compactionPoint hash op s = some p) :
    (s.step hash heaps op).2 = p.compacted hash heaps op.compactionIO := by
  have hflush : ∀ {io : FlushIO} {e : StorageEngine} {w : World}, flushPoint hash io e w = some p →
      (⟨(flushMemTableInternal hash heaps io e w).2.1, (flushMemTableInternal hash heaps io e w).2.2⟩ : System) =
        p.compacted hash heaps io.compaction := by
    intro io e w hp
    obtain ⟨h1, h2⟩ := flush_flushPoint heaps hp
    rw [h1, h2]
  obtain ⟨o, s', hstep⟩ : ∃ o s', s.step hash heaps op = (o, s') := ⟨_, _, rfl⟩
  rw [hstep]
  cases op with
  | put key value now append io =>
    unfold compactionPoint at h
    cases step_put hstep with
    | closed ha => simp [ha] at h
    | refused ha hput => simp [ha, hput] at h
    | room ha hput hroom => simp [ha, hput, hroom] at h
    | full ha hput hfull hend =>
      simp only [ha, hput, if_pos hfull] at h
      exact (System.unit_eq hend).trans (hflush h)
  | delete key now append => exact absurd h (by simp [compactionPoint])
  | flushMemTable io => exact (System.unit_eq hstep).trans (hflush h)
  | triggerCompaction io =>
    obtain rfl : s = p := Option.some.inj h
    exact (Prod.mk.inj hstep).2.symm
  | close io => exact (System.unit_eq (step_close hstep)).trans (hflush h)
  | reopen writeBufferSize compactionThreshold io => exact absurd h (by simp [compactionPoint])

/-- What holds between two calls holds before a compaction too. -/
theorem Steady.compactionPoint (h : Steady hash s.engine s.world.disk) {r : Request} (hr : r.Short)
    (hroom : s.HasRoom) (hp : compactionPoint hash r.op s = some p) : Steady hash p.engine p.world.disk := by
  have hflush : ∀ {e : StorageEngine} {w : World}, Steady hash e w.disk → e.idCounter.toNat + 2 < 2 ^ 64 →
      flushPoint hash .ok e w = some p → Steady hash p.engine p.world.disk := by
    intro e w he hroom hpoint
    exact he.flushTable (by omega) (flushPoint_eq_some hpoint).1
  cases r with
  | put key value now =>
    obtain ⟨m, ha, hfresh⟩ := h.active
    have hput := MemTable.put_ok hfresh.mutable key value now s.world
    have hw : Steady hash { s.engine with active := some (m.applyPut key value) }
        (MemTable.writeWorld ⟨.put, key, value, now⟩ m s.world).disk := h.put ha hr.1 hr.2
    unfold LsmTree.compactionPoint Request.op at hp
    simp only [ha, hput] at hp
    split at hp
    · exact hflush hw hroom hp
    · exact absurd hp (by simp)
  | delete key now => exact absurd hp (by simp [Request.op, LsmTree.compactionPoint])
  | flushMemTable => exact hflush h hroom hp
  | triggerCompaction =>
    obtain rfl : s = p := Option.some.inj hp
    exact h
  | close => exact hflush h hroom hp
  | reopen writeBufferSize compactionThreshold => exact absurd hp (by simp [Request.op, LsmTree.compactionPoint])

/-- **A compaction changes no live value.** -/
theorem compaction_preserves {config : Config} (hopen : StorageEngine.new config .ok (World.ofDisk Disk.empty) =
    (.ok e, w)) {rs : List Request} (hshort : ∀ r ∈ rs, r.Short) (hrun : runRequests hash heaps rs ⟨e, w⟩ = some s)
    {r : Request} (hr : r.Short) (hroom : s.HasRoom) (hp : compactionPoint hash r.op s = some p)
    (htie : TieHarmless hash p.engine) :
    (s.step hash heaps r.op).2.engine.liveValue hash = p.engine.liveValue hash := by
  have hs := runRequests_steady hshort (steady_fresh hopen) hrun
  have hpoint := Steady.compactionPoint hs hr hroom hp
  rw [step_compactionPoint hp]
  exact compaction_view hpoint.tables (htie.mergePreserves hpoint.tables hpoint.descending) _

/-- Two tables without a common file id. -/
def untiedRequests : List Request :=
  [.put (bytes "a") (bytes "1") 0, .flushMemTable, .put (bytes "a") (bytes "2") 0]

/-- A flush that finds the table of an earlier compaction, and compacts it with its own. -/
theorem compaction_preserves_untied : ∃ s p,
    runRequests (fun _ => 0) firstInHeaps untiedRequests ⟨unloggedEngine 1, .ofDisk .empty⟩ = some s ∧
      compactionPoint (fun _ => 0) Request.flushMemTable.op s = some p ∧
      (s.step (fun _ => 0) firstInHeaps Request.flushMemTable.op).2.engine.liveValue (fun _ => 0) =
        p.engine.liveValue fun _ => 0 := by
  have hopen : StorageEngine.new (unloggedEngine 1).config .ok (World.ofDisk Disk.empty) =
      (.ok (unloggedEngine 1), .ofDisk .empty) := rfl
  have hshort : ∀ r ∈ untiedRequests, r.Short := by decide +kernel
  have hsome : ((runRequests (fun _ => 0) firstInHeaps untiedRequests
      ⟨unloggedEngine 1, .ofDisk .empty⟩).bind fun s =>
        if s.HasRoom then compactionPoint (fun _ => 0) Request.flushMemTable.op s else none).any
          (fun p => decide (fileIds p.engine.sstables).Nodup) = true := by decide +kernel
  obtain ⟨p, hp, hnodup⟩ := Option.any_eq_true _ _ |>.1 hsome
  obtain ⟨s, hrun, hpoint⟩ := Option.bind_eq_some_iff.1 hp
  have hroom : s.HasRoom := by
    by_contra hno
    rw [if_neg hno] at hpoint
    exact absurd hpoint (by simp)
  rw [if_pos hroom] at hpoint
  exact ⟨s, p, hrun, hpoint, compaction_preserves hopen hshort hrun trivial hroom hpoint
    (TieHarmless.of_nodup (by simpa using hnodup))⟩

/-- Key `k` is in table 0 and, behind another key, in table 1. -/
def tiedRequests : List Request :=
  [.put (bytes "k") (bytes "old") 0, .flushMemTable, .put (bytes "a") (bytes "x") 0,
    .put (bytes "k") (bytes "new") 0]

/-- The position of table 0 from the end is 1, which is also the id of table 1. The old record
of the key is in the heap while `a` is merged, the new one is pushed after it, and neither is
before the other: the old value takes the place of the new one. -/
theorem compaction_preserves_fails :
    ¬ ∀ (hash : Bytes → UInt64) (heaps : Heaps) (config : Config) (e : StorageEngine) (w : World)
      (rs : List Request) (s : System) (r : Request) (p : System),
      StorageEngine.new config .ok (World.ofDisk Disk.empty) = (.ok e, w) → (∀ r ∈ rs, r.Short) →
      runRequests hash heaps rs ⟨e, w⟩ = some s → r.Short → s.HasRoom → compactionPoint hash r.op s = some p →
      (s.step hash heaps r.op).2.engine.liveValue hash = p.engine.liveValue hash := by
  intro hall
  have hopen : StorageEngine.new (unloggedEngine 2).config .ok (World.ofDisk Disk.empty) =
      (.ok (unloggedEngine 2), .ofDisk .empty) := rfl
  have hsome : (runRequests (fun _ => 0) firstInHeaps tiedRequests ⟨unloggedEngine 2, .ofDisk .empty⟩).any
      (fun s => decide s.HasRoom && (compactionPoint (fun _ => 0) Request.flushMemTable.op s).any fun p =>
        decide ((s.step (fun _ => 0) firstInHeaps Request.flushMemTable.op).2.engine.liveValue (fun _ => 0)
          (bytes "k") ≠ p.engine.liveValue (fun _ => 0) (bytes "k"))) = true := by decide +kernel
  obtain ⟨s, hrun, hs⟩ := Option.any_eq_true _ _ |>.1 hsome
  obtain ⟨hroom, hpoint⟩ := Bool.and_eq_true_iff.1 hs
  obtain ⟨p, hp, hne⟩ := Option.any_eq_true _ _ |>.1 hpoint
  have heq := hall _ _ _ _ _ tiedRequests s .flushMemTable p hopen (by decide +kernel) hrun trivial
    (by simpa using hroom) hp
  exact absurd (congrFun heq (bytes "k")) (by simpa using hne)

end LsmTree

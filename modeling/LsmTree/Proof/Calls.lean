import LsmTree.Proof.Flush

/-!
# What a call can do

* `step_put`, `step_delete`: the ways a `Put` and a `Delete` can end, whatever file
  operations fail.
* `step_put_ok`, `step_delete_ok`: the state after them, where every file operation succeeds.
* `step_close`: `Close` does what `FlushMemTable` does.
* `flush_end`: a flush ends with its table, or with the compaction that the table makes due.
-/

namespace LsmTree

open Base StorageEngine WAL

variable {hash : Bytes → UInt64} {heaps : Heaps} {s s' : System} {o : Outcome Bool}

/-! ## Calls that return nothing -/

namespace System

theorem unit_snd (r : Outcome Unit × StorageEngine × World) : (unit r).2 = ⟨r.2.1, r.2.2⟩ := by
  obtain ⟨o, e, w⟩ := r
  cases o <;> rfl

theorem unit_eq {r : Outcome Unit × StorageEngine × World} (h : unit r = (o, s')) : s' = ⟨r.2.1, r.2.2⟩ := by
  rw [← unit_snd, h]

theorem unit_returned {r : Outcome Unit × StorageEngine × World} {ok : Bool} (h : unit r = (.returned ok, s')) :
    r = (.returned (), s'.engine, s'.world) := by
  obtain ⟨o, e, w⟩ := r
  cases o with
  | returned u =>
    obtain ⟨-, rfl⟩ := Prod.mk.inj h
    rfl
  | threw what => exact absurd (Prod.mk.inj h).1 (by simp)
  | undefined => exact absurd (Prod.mk.inj h).1 (by simp)

end System

/-! ## Memtable writes without an error -/

namespace MemTable

/-- The files after a write. -/
def writeWorld (r : LogRecord) (m : MemTable) (w : World) : World :=
  if m.wal then (w.perform (.walAppend (r.line ++ [newline]))).perform .walSync else w

theorem put_ok {m : MemTable} (hm : m.isImmutable = false) (key value : Bytes) (now : Int64) (w : World) :
    m.put key value now .ok w = (true, m.applyPut key value, writeWorld ⟨.put, key, value, now⟩ m w) := by
  unfold put writeWorld
  rw [hm]
  cases m.wal <;> rfl

theorem delete_ok {m : MemTable} (hm : m.isImmutable = false) (key : Bytes) (now : Int64) (w : World) :
    m.delete key now .ok w = (true, m.applyDelete key, writeWorld ⟨.delete, key, [], now⟩ m w) := by
  unfold delete writeWorld
  rw [hm]
  cases m.wal <;> rfl

end MemTable

/-! ## Writes -/

/-- How a `Put` ends. -/
inductive PutEnd (hash : Bytes → UInt64) (heaps : Heaps) (key value : Bytes) (now : Int64) (append : AppendIO)
    (io : FlushIO) (s : System) : Outcome Bool × System → Prop
  | closed (ha : s.engine.active = none) : PutEnd hash heaps key value now append io s (.undefined, s)
  /-- the log refuses the record -/
  | refused {m : MemTable} {w : World} (ha : s.engine.active = some m)
    (hput : m.put key value now append s.world = (false, m, w)) :
    PutEnd hash heaps key value now append io s (.returned false, ⟨{ s.engine with active := some m }, w⟩)
  | room {m : MemTable} {w : World} (ha : s.engine.active = some m)
    (hput : m.put key value now append s.world = (true, m.applyPut key value, w))
    (hroom : ¬ s.engine.config.writeBufferSize ≤ (m.applyPut key value).approxMemoryUsage) :
    PutEnd hash heaps key value now append io s
      (.returned true, ⟨{ s.engine with active := some (m.applyPut key value) }, w⟩)
  | full {m : MemTable} {w : World} {o : Outcome Bool} {s' : System} (ha : s.engine.active = some m)
    (hput : m.put key value now append s.world = (true, m.applyPut key value, w))
    (hfull : s.engine.config.writeBufferSize ≤ (m.applyPut key value).approxMemoryUsage)
    (hflush : System.unit (flushMemTableInternal hash heaps io
      { s.engine with active := some (m.applyPut key value) } w) = (o, s')) :
    PutEnd hash heaps key value now append io s (o, s')

/-- **What a `Put` can do.** -/
theorem step_put {key value : Bytes} {now : Int64} {append : AppendIO} {io : FlushIO}
    (hstep : s.step hash heaps (.put key value now append io) = (o, s')) :
    PutEnd hash heaps key value now append io s (o, s') := by
  unfold System.step StorageEngine.put at hstep
  cases ha : s.engine.active with
  | none =>
    simp only [ha] at hstep
    rw [← hstep]
    exact .closed ha
  | some m =>
    obtain ⟨ok, m', w, hput⟩ : ∃ ok m' w, m.put key value now append s.world = (ok, m', w) := ⟨_, _, _, rfl⟩
    have hresult := MemTable.put_result key value now append m s.world
    simp only [ha, hput] at hstep hresult
    cases ok with
    | false =>
      obtain rfl : m' = m := hresult
      rw [← hstep]
      exact .refused ha hput
    | true =>
      obtain rfl : m' = m.applyPut key value := hresult
      simp only at hstep
      split at hstep
      · rename_i hfull
        refine .full ha hput hfull ?_
        rw [← hstep]
        generalize flushMemTableInternal hash heaps io _ w = r
        obtain ⟨o', e', w'⟩ := r
        cases o' <;> rfl
      · rename_i hroom
        rw [← hstep]
        exact .room ha hput hroom

/-- How a `Delete` ends. -/
inductive DeleteEnd (key : Bytes) (now : Int64) (append : AppendIO) (s : System) : Outcome Bool × System → Prop
  | closed (ha : s.engine.active = none) : DeleteEnd key now append s (.undefined, s)
  /-- the log refuses the record -/
  | refused {m : MemTable} {w : World} (ha : s.engine.active = some m)
    (hdelete : m.delete key now append s.world = (false, m, w)) :
    DeleteEnd key now append s (.returned false, ⟨{ s.engine with active := some m }, w⟩)
  | done {m : MemTable} {w : World} (ha : s.engine.active = some m)
    (hdelete : m.delete key now append s.world = (true, m.applyDelete key, w)) :
    DeleteEnd key now append s (.returned true, ⟨{ s.engine with active := some (m.applyDelete key) }, w⟩)

/-- **What a `Delete` can do.** It never flushes. -/
theorem step_delete {key : Bytes} {now : Int64} {append : AppendIO}
    (hstep : s.step hash heaps (.delete key now append) = (o, s')) : DeleteEnd key now append s (o, s') := by
  unfold System.step StorageEngine.delete at hstep
  cases ha : s.engine.active with
  | none =>
    simp only [ha] at hstep
    rw [← hstep]
    exact .closed ha
  | some m =>
    obtain ⟨ok, m', w, hdelete⟩ : ∃ ok m' w, m.delete key now append s.world = (ok, m', w) := ⟨_, _, _, rfl⟩
    have hresult := MemTable.delete_result key now append m s.world
    simp only [ha, hdelete] at hstep hresult
    rw [← hstep]
    cases ok with
    | false =>
      obtain rfl : m' = m := hresult
      exact .refused ha hdelete
    | true =>
      obtain rfl : m' = m.applyDelete key := hresult
      exact .done ha hdelete

theorem step_put_ok {m : MemTable} (ha : s.engine.active = some m) (hm : m.isImmutable = false) (key value : Bytes)
    (now : Int64) (io : FlushIO) : s.step hash heaps (.put key value now .ok io) =
      if s.engine.config.writeBufferSize ≤ (m.applyPut key value).approxMemoryUsage then
        System.unit (flushMemTableInternal hash heaps io { s.engine with active := some (m.applyPut key value) }
          (m.writeWorld ⟨.put, key, value, now⟩ s.world))
      else (.returned true, ⟨{ s.engine with active := some (m.applyPut key value) },
        MemTable.writeWorld ⟨.put, key, value, now⟩ m s.world⟩) := by
  unfold System.step StorageEngine.put
  simp only [ha, MemTable.put_ok hm]
  split
  · generalize flushMemTableInternal hash heaps io _ _ = r
    obtain ⟨o', e', w'⟩ := r
    cases o' <;> rfl
  · rfl

theorem step_delete_ok {m : MemTable} (ha : s.engine.active = some m) (hm : m.isImmutable = false) (key : Bytes)
    (now : Int64) : s.step hash heaps (.delete key now .ok) =
      (.returned true, ⟨{ s.engine with active := some (m.applyDelete key) },
        MemTable.writeWorld ⟨.delete, key, [], now⟩ m s.world⟩) := by
  unfold System.step StorageEngine.delete
  simp only [ha, MemTable.delete_ok hm]

/-! ## Flushes and compactions -/

/-- How a call ends that drops its answer. -/
def Outcome.dropped {α : Type} : Outcome α → Outcome Unit
  | .returned _ => .returned ()
  | .threw what => .threw what
  | .undefined => .undefined

theorem Outcome.returned_of_dropped {α : Type} {o : Outcome α} {u : Unit} (h : o.dropped = .returned u) :
    ∃ a, o = .returned a := by
  cases o with
  | returned a => exact ⟨a, rfl⟩
  | threw what => cases h
  | undefined => cases h

/-- How a flush ends. -/
inductive FlushEnd (hash : Bytes → UInt64) (heaps : Heaps) (io : FlushIO) (e : StorageEngine) (w : World) :
    Outcome Unit × StorageEngine × World → Prop
  | table {b : Outcome Bool} {o : Outcome Unit} {e' : StorageEngine} {w' : World}
    (htable : flushTable hash io e w = (b, e', w')) (ho : b.dropped = o)
    (hdue : b = .returned true → e'.sstables.length < e'.config.compactionThreshold.toNat) :
    FlushEnd hash heaps io e w (o, e', w')
  | compacted {b : Outcome Bool} {o : Outcome Unit} {e₁ e' : StorageEngine} {w₁ w' : World}
    (htable : flushTable hash io e w = (.returned true, e₁, w₁))
    (hdue : e₁.config.compactionThreshold.toNat ≤ e₁.sstables.length)
    (hcompact : triggerCompactionInternal hash heaps io.compaction e₁ w₁ = (b, e', w')) (ho : b.dropped = o) :
    FlushEnd hash heaps io e w (o, e', w')

/-- **What a flush can do.** -/
theorem flush_end {io : FlushIO} {o : Outcome Unit} {e e' : StorageEngine} {w w' : World}
    (hf : flushMemTableInternal hash heaps io e w = (o, e', w')) : FlushEnd hash heaps io e w (o, e', w') := by
  rw [flushMemTableInternal_eq] at hf
  obtain ⟨b, e₁, w₁, htable⟩ : ∃ b e₁ w₁, flushTable hash io e w = (b, e₁, w₁) := ⟨_, _, _, rfl⟩
  rw [htable] at hf
  cases b with
  | threw what =>
    rw [← hf]
    exact .table htable rfl (by simp)
  | undefined =>
    rw [← hf]
    exact .table htable rfl (by simp)
  | returned ok =>
    cases ok with
    | false =>
      rw [← hf]
      exact .table htable rfl (by simp)
    | true =>
      simp only [maybeTriggerCompactionInternal] at hf
      split at hf
      · rename_i hdue
        obtain ⟨b, e₂, w₂, hcompact⟩ : ∃ b e₂ w₂, triggerCompactionInternal hash heaps io.compaction e₁ w₁ =
          (b, e₂, w₂) := ⟨_, _, _, rfl⟩
        rw [hcompact] at hf
        cases b <;>
          · rw [← hf]
            exact .compacted htable hdue hcompact rfl
      · rename_i hdue
        rw [← hf]
        exact .table htable rfl fun _ => Nat.lt_of_not_le hdue

theorem step_triggerCompaction {io : CompactionIO}
    (hstep : s.step hash heaps (.triggerCompaction io) = (o, s')) :
    triggerCompactionInternal hash heaps io s.engine s.world = (o, s'.engine, s'.world) := by
  obtain ⟨rfl, rfl⟩ := Prod.mk.inj hstep
  rfl

/-- A memtable is there to be flushed. -/
def Flushable (e : StorageEngine) : Bool := e.active.any fun m => !m.empty

theorem flushable_of {e : StorageEngine} {m : MemTable} (ha : e.active = some m) (hne : m.empty = false) :
    Flushable e = true := by
  unfold Flushable
  rw [ha, Option.any_some, hne]
  rfl

theorem not_flushable {e : StorageEngine} (h : e.active = none ∨ ∃ m, e.active = some m ∧ m.empty = true) :
    Flushable e = false := by
  unfold Flushable
  rcases h with ha | ⟨m, ha, hempty⟩
  · rw [ha]
    rfl
  · rw [ha, Option.any_some, hempty]
    rfl

/-- A flush that finds nothing to flush changes nothing. -/
theorem flush_idle {e : StorageEngine} (h : Flushable e = false) (io : FlushIO) (w : World) :
    flushMemTableInternal hash heaps io e w = (.returned (), e, w) := by
  unfold flushMemTableInternal
  cases ha : e.active with
  | none => rfl
  | some m =>
    simp only
    split
    · rfl
    · rename_i hne
      exact absurd (h.symm.trans (flushable_of ha (by simpa using hne))) (by decide)

/-- **`Close` does what `FlushMemTable` does**: what it asks first, the flush asks again. -/
theorem close_eq (io : FlushIO) (e : StorageEngine) (w : World) :
    e.close hash heaps io w = flushMemTableInternal hash heaps io e w := by
  unfold StorageEngine.close
  cases ha : e.active with
  | none => exact (flush_idle (not_flushable (Or.inl ha)) io w).symm
  | some m =>
    simp only
    split
    · rename_i hempty
      exact (flush_idle (not_flushable (Or.inr ⟨m, ha, hempty⟩)) io w).symm
    · rfl

theorem step_close {io : FlushIO} (hstep : s.step hash heaps (.close io) = (o, s')) :
    System.unit (flushMemTableInternal hash heaps io s.engine s.world) = (o, s') := by
  rw [← close_eq]
  exact hstep

end LsmTree

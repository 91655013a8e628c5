import LsmTree.Proof.Losses

/-!
# A process that stops in a call

* `crash_atomic`: **stopped between two effects on the files, a call has happened or has
  not**: the database opened again shows the live values before it or those after it.
* `crash_atomic_fails`: a compaction of two tables with one file id, which stops halfway.
-/

namespace LsmTree

open Base StorageEngine WAL

variable {hash : Bytes → UInt64} {heaps : Heaps} {e : StorageEngine} {w : World} {s : System} {config : Config}

/-- **A call has happened or has not**, wherever in it the process stops. -/
theorem crash_atomic (hdir : newline ∉ config.dbDir) (hp : config.walPath ≠ [])
    (hopen : StorageEngine.new config .ok (World.ofDisk Disk.empty) = (.ok e, w))
    (hrun : SoundRun hash heaps ⟨e, w⟩ s) (hroom : s.HasRoom) {op : Op} (hop : op.Short) (hsound : op.Sound hash s)
    (hwhole : op.compactionIO.Whole) (n : ℕ) :
    Shows hash s.engine.config (crashDisk s.world (s.step hash heaps op).2.world n) (s.engine.liveValue hash) ∨
      Shows hash s.engine.config (crashDisk s.world (s.step hash heaps op).2.world n)
        ((s.step hash heaps op).2.engine.liveValue hash) := by
  obtain ⟨hwal, rs, ts, hkept⟩ := hrun.kept hdir hopen
  have hpath : s.engine.config.walPath ≠ [] := by
    rw [hwal]
    exact hp
  obtain ⟨o, s', hstep⟩ : ∃ o s', s.step hash heaps op = (o, s') := ⟨_, _, rfl⟩
  rw [hstep]
  have hstepped := hkept.step hroom hop hsound hstep
  rcases (hstepped.points hwhole).crash n with hbefore | hafter
  · exact Or.inl (hbefore.shows hpath)
  · exact Or.inr (hafter.shows hpath)

/-- The process stops before the log of a flush is truncated. -/
theorem crash_atomic_flush : ∃ s, SoundRun (fun _ => 0) firstInHeaps ⟨loggedEngine 1000 4, loggedDisk⟩ s ∧
    (Shows (fun _ => 0) s.engine.config (crashDisk s.world
      (s.step (fun _ => 0) firstInHeaps (.flushMemTable .ok)).2.world 3) (s.engine.liveValue fun _ => 0) ∨
    Shows (fun _ => 0) s.engine.config (crashDisk s.world
      (s.step (fun _ => 0) firstInHeaps (.flushMemTable .ok)).2.world 3)
        ((s.step (fun _ => 0) firstInHeaps (.flushMemTable .ok)).2.engine.liveValue fun _ => 0)) := by
  have hopen : StorageEngine.new (loggedEngine 1000 4).config .ok (World.ofDisk Disk.empty) =
      (.ok (loggedEngine 1000 4), loggedDisk) := rfl
  have hsome : (runQuiet (fun _ => 0) firstInHeaps [putOne] ⟨loggedEngine 1000 4, loggedDisk⟩).any (fun s =>
      decide s.HasRoom && decide ((Op.flushMemTable .ok).Quiet (fun _ => 0) s)) = true := by decide +kernel
  obtain ⟨s, hquiet, hs⟩ := Option.any_eq_true _ _ |>.1 hsome
  simp only [Bool.and_eq_true, decide_eq_true_eq] at hs
  have hrun := SoundRun.start.quiet hquiet
  have hshort : (Op.flushMemTable .ok).Short := trivial
  exact ⟨s, hrun, crash_atomic (by decide) (by decide) hopen hrun hs.1 hshort hs.2.sound (by decide) 3⟩

/-- A put; a write buffer of 116 bytes is full after one of `k` or two of any kind. -/
def smallPut (key value : String) : Op := .put (bytes key) (bytes value) 0 .ok .ok

/-- Key `k` is in table 0, and another key in the write buffer. A put of `k` is flushed, and the
process stops before the compaction behind it, which would bring the old value back. -/
theorem crash_atomic_fails :
    ¬ ∀ (hash : Bytes → UInt64) (heaps : Heaps) (config : Config) (e : StorageEngine) (w : World) (s : System)
      (r : Request) (n : ℕ), newline ∉ config.dbDir → config.walPath ≠ [] →
      StorageEngine.new config .ok (World.ofDisk Disk.empty) = (.ok e, w) → SoundRun hash heaps ⟨e, w⟩ s →
      s.HasRoom → r.Short → r.op.LogDecodes s →
      Shows hash s.engine.config (crashDisk s.world (s.step hash heaps r.op).2.world n) (s.engine.liveValue hash) ∨
        Shows hash s.engine.config (crashDisk s.world (s.step hash heaps r.op).2.world n)
          ((s.step hash heaps r.op).2.engine.liveValue hash) := by
  intro hall
  have hopen : StorageEngine.new (loggedEngine 116 2).config .ok (World.ofDisk Disk.empty) =
      (.ok (loggedEngine 116 2), loggedDisk) := rfl
  have hsome : (runQuiet (fun _ => 0) firstInHeaps [smallPut "k" "old", smallPut "a" "x"]
    ⟨loggedEngine 116 2, loggedDisk⟩).any (fun s =>
      decide s.HasRoom && decide ((smallPut "k" "new").LogDecodes s) &&
        decide (shown (fun _ => 0) s.engine.config (crashDisk s.world
          (s.step (fun _ => 0) firstInHeaps (smallPut "k" "new")).2.world 7) (bytes "k") ≠
            s.engine.liveValue (fun _ => 0) (bytes "k")) &&
        decide (shown (fun _ => 0) s.engine.config (crashDisk s.world
          (s.step (fun _ => 0) firstInHeaps (smallPut "k" "new")).2.world 7) (bytes "k") ≠
            (s.step (fun _ => 0) firstInHeaps (smallPut "k" "new")).2.engine.liveValue (fun _ => 0) (bytes "k"))) =
      true := by decide +kernel
  obtain ⟨s, hquiet, hs⟩ := Option.any_eq_true _ _ |>.1 hsome
  simp only [Bool.and_eq_true, decide_eq_true_eq] at hs
  obtain ⟨⟨⟨hroom, hread⟩, hbefore⟩, hafter⟩ := hs
  rcases hall _ _ _ _ _ s (.put (bytes "k") (bytes "new") 0) 7 (by decide) (by decide) hopen
    (SoundRun.start.quiet hquiet) hroom (by decide +kernel) hread with hshows | hshows
  · exact hbefore (hshows.shown_eq (bytes "k"))
  · exact hafter (hshows.shown_eq (bytes "k"))

end LsmTree

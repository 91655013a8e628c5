import LsmTree.Proof.Compaction

/-!
# The effects of a call, one after another

`Through P w w'` says that effects lead from `w` to `w'` and that the files satisfy
`P` before the first of them and after each: what holds at every point at which the
process can stop. `Extends` is `Through` with nothing to satisfy.
-/

namespace LsmTree

open Base

variable {hash : Bytes → UInt64} {heaps : Heaps} {P Q : Disk → Prop} {w w' w'' : World}

/-- Effects lead from `w` to `w'`, and `P` holds of the files all the way. -/
inductive Through (P : Disk → Prop) (w : World) : World → Prop
  | refl (h : P w.disk) : Through P w w
  | step {w' : World} (e : Effect) (hw : Through P w w') (h : P (e.apply w'.disk)) : Through P w (w'.perform e)

namespace Through

theorem first (h : Through P w w') : P w.disk := by
  induction h with
  | refl h => exact h
  | step _ _ _ ih => exact ih

theorem last (h : Through P w w') : P w'.disk := by
  cases h with
  | refl h => exact h
  | step _ _ h => exact h

theorem trans (h : Through P w w') (h' : Through P w' w'') : Through P w w'' := by
  induction h' with
  | refl _ => exact h
  | step e _ hp ih => exact .step e ih hp

theorem mono (h : Through P w w') (hPQ : ∀ d, P d → Q d) : Through Q w w' := by
  induction h with
  | refl h => exact .refl (hPQ _ h)
  | step e _ hp ih => exact .step e ih (hPQ _ hp)

/-- One effect. -/
theorem one (e : Effect) (h : P w.disk) (h' : P (e.apply w.disk)) : Through P w (w.perform e) :=
  .step e (.refl h) h'

/-- An effect that may not happen. -/
theorem opt (c : Bool) (e : Effect) (h : P w.disk) (h' : P (e.apply w.disk)) :
    Through P w (if c then w.perform e else w) := by
  cases c with
  | true => exact one e h h'
  | false => exact .refl h

end Through

/-- The files after some effects. -/
def runEffects (es : List Effect) (d : Disk) : Disk := es.foldl (fun d e => e.apply d) d

/-- The files if the process stops after `n` of the effects between `w` and `w'`. -/
def crashDisk (w w' : World) (n : ℕ) : Disk := runEffects ((w'.trace.drop w.trace.length).take n) w.disk

/-- **Wherever the process stops, the files are those of a point on the way.** -/
theorem Through.crash (h : Through P w w') (n : ℕ) : P (crashDisk w w' n) := by
  have key : ∃ es, w'.trace = w.trace ++ es ∧ w'.disk = runEffects es w.disk ∧
      ∀ n, P (runEffects (es.take n) w.disk) := by
    induction h with
    | refl h => exact ⟨[], (List.append_nil _).symm, rfl, fun n => by rw [List.take_nil]; exact h⟩
    | step e _ hp ih =>
      obtain ⟨es, ht, hd, hall⟩ := ih
      have hrun : ∀ d, runEffects (es ++ [e]) d = e.apply (runEffects es d) := fun d => by
        unfold runEffects
        rw [List.foldl_append]
        rfl
      refine ⟨es ++ [e], by rw [World.trace_perform, ht, List.append_assoc], by rw [hrun, ← hd]; rfl, fun n => ?_⟩
      rcases Nat.lt_or_ge es.length n with hn | hn
      · rw [List.take_of_length_le (by rw [List.length_append]; exact hn), hrun, ← hd]
        exact hp
      · rw [List.take_append_of_le_length hn]
        exact hall n
  obtain ⟨es, ht, -, hall⟩ := key
  unfold crashDisk
  rw [ht, List.drop_left]
  exact hall n

/-- Effects lead from `w` to `w'`. -/
abbrev Extends (w w' : World) : Prop := Through (fun _ => True) w w'

theorem Extends.rfl : Extends w w := .refl trivial

theorem Extends.one (e : Effect) (w : World) : Extends w (w.perform e) := Through.one e trivial trivial

theorem Extends.opt (c : Bool) (e : Effect) (w : World) : Extends w (if c then w.perform e else w) :=
  Through.opt c e trivial trivial

theorem Extends.trace (h : Extends w w') : w.trace <+: w'.trace := by
  induction h with
  | refl _ => exact List.prefix_rfl
  | step e _ _ ih => exact ih.trans (List.prefix_append _ _)

namespace Manifest

theorem persist_extends (updated : List Bytes) (io : ReplaceIO) (m : Manifest) (w : World) :
    Extends w (m.persist updated io w).2.2 := by
  unfold persist
  cases io.tmp with
  | openFails => exact Extends.rfl
  | torn n => exact Extends.one _ w
  | ok =>
    simp only
    have htmp := Extends.one (.manifestTmp (unlines updated)) w
    split
    · exact htmp.trans (Extends.one _ _)
    · have hrem := htmp.trans (Extends.opt io.remove .manifestRemove _)
      split
      · exact hrem.trans (Extends.one _ _)
      · exact hrem

end Manifest

namespace StorageEngine

theorem replaceInManifest_extends (old : List Bytes) (ids : List ℕ) (path : Bytes) (id : ℕ)
    (io : CompactionIO) (m : Manifest) (w : World) :
    Extends w (replaceInManifest old ids path id io m w).2.2 := by
  have hnames : Extends w (m.replaceByNames old path io.byNames w).2.2 := by
    unfold Manifest.replaceByNames
    split
    · exact Extends.rfl
    · split
      · exact Extends.rfl
      · exact m.persist_extends _ _ w
  have hids : ∀ (m : Manifest) (w : World), Extends w (m.replaceByIds ids id io.byIds w).2.2 := by
    intro m w
    unfold Manifest.replaceByIds
    split
    · exact Extends.rfl
    · split
      · exact Extends.rfl
      · exact m.persist_extends _ _ w
  unfold replaceInManifest
  generalize m.replaceByNames old path io.byNames w = r at hnames
  obtain ⟨ok, m', w'⟩ := r
  cases ok with
  | true => exact hnames
  | false => exact Through.trans hnames (hids m' w')

theorem removeOld_extends (removes : Bytes → Bool) (old : List Bytes) : ∀ w : World,
    Extends w (removeOld removes old w) := by
  induction old with
  | nil => exact fun w => Extends.rfl
  | cons f fs ih => exact fun w => Through.trans (Extends.opt (removes f) _ w) (ih _)

theorem merged_extends (ins : List CompactorInput) (e : StorageEngine) (w : World) :
    Extends w (merged hash heaps ins e w) :=
  (Extends.one _ w).trans (Extends.one _ _)

theorem replaced_extends {io : CompactionIO} {ins : List CompactorInput} {e : StorageEngine} {ok : Bool}
    {m' : Manifest} (h : replaced hash heaps io ins e w = (ok, m', w')) : Extends w w' := by
  have hr := replaceInManifest_extends (e.sstables.map SSTableReader.filepath) (fileIds e.sstables) e.compactPath
    e.idCounter.toNat io e.manifest (merged hash heaps ins e w)
  rw [show replaceInManifest _ _ _ _ _ _ _ = (ok, m', w') from h] at hr
  exact (merged_extends ins e w).trans hr

theorem compaction_extends (hash : Bytes → UInt64) (heaps : Heaps) (io : CompactionIO) (e : StorageEngine)
    (w : World) :
    Extends w (triggerCompactionInternal hash heaps io e w).2.2 := by
  have h := compaction_cases hash heaps io e w
  generalize triggerCompactionInternal hash heaps io e w = r at h
  cases h with
  | below _ => exact Extends.rfl
  | notOpened _ => exact Extends.rfl
  | nothing _ => exact Extends.rfl
  | notBuilt => exact (Extends.opt io.build.opens _ w).trans (Extends.one _ _)
  | notReplaced ins m' w' hm hr => exact replaced_extends hr
  | notRead ins m' w' hm hr ho => exact replaced_extends hr
  | done ins m' w' r hm hr hnew hpath hreads => exact (replaced_extends hr).trans (removeOld_extends _ _ w')

theorem maybeCompaction_extends (hash : Bytes → UInt64) (heaps : Heaps) (io : CompactionIO) (e : StorageEngine)
    (w : World) :
    Extends w (maybeTriggerCompactionInternal hash heaps io e w).2.2 := by
  have h := compaction_extends hash heaps io e w
  unfold maybeTriggerCompactionInternal
  split
  · generalize triggerCompactionInternal hash heaps io e w = r at h
    obtain ⟨o, e', w'⟩ := r
    cases o <;> exact h
  · exact Extends.rfl

end StorageEngine

end LsmTree

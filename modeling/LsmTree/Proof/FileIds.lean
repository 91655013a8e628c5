import LsmTree.Proof.ManifestFile

/-!
# Two parsers of file ids

The engine and the manifest each read the number of a table off its name.

* `readBack_iff`: both read it, in any directory, unless the name is of the family
  `sstable_` with a number other than 0. The manifest does not know that family and takes 0.
* `sameOthers_iff`: so the two ways to replace entries keep the same others unless an entry
  to be replaced has such a name, or one that stays has and an entry to be replaced has
  number 0.
-/

namespace LsmTree

open Base

/-- A table by its directory, its family and its number. -/
structure TableFile where
  dir : Bytes
  family : Bytes
  id : ℕ
  isDirectory : IsDirectory dir
  named : family ∈ families
  fits : id < 2 ^ 64

namespace TableFile

def path (t : TableFile) : Bytes := t.dir ++ tableName t.family t.id

variable {t t' : TableFile}

theorem baseName_path (t : TableFile) : baseName t.path = tableName t.family t.id :=
  baseName_directory t.isDirectory t.named

theorem id_of_path (h : t.path = t'.path) : t.id = t'.id := by
  have hbase := t.baseName_path
  rw [h, t'.baseName_path] at hbase
  exact (tableName_inj t.named t'.named hbase.symm).2

theorem path_ne_nil (t : TableFile) : t.path ≠ [] := by
  intro hnil
  have hlen := congrArg List.length hnil
  unfold path tableName at hlen
  simp only [List.length_append, List.length_nil] at hlen
  have hsst : (bytes ".sst").length = 4 := rfl
  omega

/-- Both parsers return the number. -/
def ReadBack (t : TableFile) : Prop :=
  StorageEngine.extractFileId t.path = t.id ∧ Manifest.extractFileId t.path = t.id

/-- The manifest knows the family, or takes the right number all the same. -/
def Known (t : TableFile) : Prop := t.family ≠ bytes "sstable_" ∨ t.id = 0

instance (t : TableFile) : Decidable t.Known := by
  unfold Known
  infer_instance

theorem manifestId_path (t : TableFile) :
    Manifest.extractFileId t.path = if t.family = bytes "sstable_" then 0 else t.id :=
  manifestId t.baseName_path t.named t.fits

theorem Known.manifestId (h : t.Known) : Manifest.extractFileId t.path = t.id := by
  rw [t.manifestId_path]
  split
  · rename_i hfam
    exact (h.resolve_left fun hne => hne hfam).symm
  · rfl

theorem manifestId_of_unknown (h : ¬ t.Known) : Manifest.extractFileId t.path = 0 ∧ t.id ≠ 0 := by
  unfold Known at h
  rw [not_or, not_not] at h
  rw [t.manifestId_path, if_pos h.1]
  exact ⟨rfl, h.2⟩

/-- **When both parsers agree.** -/
theorem readBack_iff (t : TableFile) : t.ReadBack ↔ t.Known := by
  refine ⟨fun h => ?_, fun h => ⟨engineId t.baseName_path t.named t.fits, h.manifestId⟩⟩
  by_contra hun
  obtain ⟨hzero, hid⟩ := manifestId_of_unknown hun
  exact hid (h.2.symm.trans hzero)

end TableFile

/-! ## Both ways to replace -/

/-- The temporary is written and takes the manifest's place. -/
def ReplaceIO.Succeeds (io : ReplaceIO) : Bool := decide (io.tmp = .ok) && (io.rename || io.renameAgain)

namespace Manifest

theorem persist_fst (updated : List Bytes) (io : ReplaceIO) (m : Manifest) (w : World) :
    (m.persist updated io w).1 = io.Succeeds := by
  unfold persist ReplaceIO.Succeeds
  cases io.tmp with
  | openFails => rfl
  | torn n => rfl
  | ok =>
    cases io.rename with
    | true => rfl
    | false => cases io.renameAgain <;> rfl

theorem persist_snd (updated : List Bytes) (io : ReplaceIO) (m : Manifest) (w : World) :
    (m.persist updated io w).2.1 = if io.Succeeds then ⟨updated⟩ else m := by
  unfold persist ReplaceIO.Succeeds
  cases io.tmp with
  | openFails => rfl
  | torn n => rfl
  | ok =>
    cases io.rename with
    | true => rfl
    | false => cases io.renameAgain <;> rfl

end Manifest

theorem length_swap (old : Bytes → Bool) (new : Bytes) (fs : List Bytes) :
    (swap old new fs).length = (fs.filter fun f => !old f).length + 1 := by
  unfold swap
  induction fs with
  | nil => rfl
  | cons f fs ih =>
    cases hf : old f with
    | true => simp [hf]
    | false =>
      simp only [List.length_append, List.length_cons] at ih
      simp only [hf, Bool.not_false, List.takeWhile_cons_of_pos, List.dropWhile_cons_of_pos,
        List.filter_cons_of_pos,
        List.length_append, List.length_cons]
      omega

theorem swap_congr {old old' : Bytes → Bool} {fs : List Bytes} (h : ∀ f ∈ fs, old f = old' f) (new : Bytes) :
    swap old new fs = swap old' new fs := by
  induction fs with
  | nil => rfl
  | cons f fs ih =>
    have hf := h f List.mem_cons_self
    have hrest : ∀ g ∈ fs, old g = old' g := fun g hg => h g (List.mem_cons_of_mem _ hg)
    rw [← Manifest.replaceWhere_eq, ← Manifest.replaceWhere_eq] at ih ⊢
    unfold Manifest.replaceWhere
    rw [hf, ih hrest, List.filter_congr fun g hg => by rw [hrest g hg]]

/-- Entries are replaced by their numbers and by their names: both ways succeed or fail,
and around the new entry they leave the same others in the same places. -/
structure SameOthers (chosen : List TableFile) (new : TableFile) (io : ReplaceIO) (m : Manifest)
    (w : World) : Prop where
  agree : (m.replaceByIds (chosen.map TableFile.id) new.id io w).1 =
    (m.replaceByNames (chosen.map TableFile.path) new.path io w).1
  replaced : (m.replaceByIds (chosen.map TableFile.id) new.id io w).1 = true → ∃ before after,
    (m.replaceByIds (chosen.map TableFile.id) new.id io w).2.1.sstableFiles =
        before ++ compactedName m.sstableFiles new.id :: after ∧
      (m.replaceByNames (chosen.map TableFile.path) new.path io w).2.1.sstableFiles = before ++ new.path :: after
  kept : (m.replaceByIds (chosen.map TableFile.id) new.id io w).1 = false →
    (m.replaceByIds (chosen.map TableFile.id) new.id io w).2.1 = m ∧
      (m.replaceByNames (chosen.map TableFile.path) new.path io w).2.1 = m

section

variable {ts chosen : List TableFile} (hdistinct : (ts.map TableFile.id).Nodup) (hsub : ∀ t ∈ chosen, t ∈ ts)

/-- The names that are to go. -/
def oldNames (chosen : List TableFile) (f : Bytes) : Bool := f ∈ chosen.map TableFile.path

/-- The names whose numbers are to go. -/
def oldNumbers (chosen : List TableFile) (f : Bytes) : Bool := Manifest.extractFileId f ∈ chosen.map TableFile.id

theorem replaceByNames_chosen (hsub : ∀ t ∈ chosen, t ∈ ts) (hne : chosen ≠ []) (new : TableFile) (io : ReplaceIO)
    (w : World) : Manifest.replaceByNames (chosen.map TableFile.path) new.path io ⟨ts.map TableFile.path⟩ w =
      Manifest.persist (swap (oldNames chosen) new.path (ts.map TableFile.path)) io ⟨ts.map TableFile.path⟩ w := by
  have hnames : Manifest.hasNames ⟨ts.map TableFile.path⟩ (chosen.map TableFile.path) = true := by
    unfold Manifest.hasNames
    rw [List.all_eq_true]
    intro f hf
    obtain ⟨t, ht, rfl⟩ := List.mem_map.1 hf
    simpa using ⟨t, hsub t ht, rfl⟩
  unfold Manifest.replaceByNames
  rw [if_neg (by simpa using hne), hnames]
  simp only [Bool.not_true, Bool.false_eq_true, if_false, if_neg new.path_ne_nil]
  rw [Manifest.replaceWhere_eq]
  rfl

theorem replaceByIds_chosen (hne : chosen ≠ [])
    (hids : ∀ t ∈ chosen, t.id ∈ (ts.map TableFile.path).map Manifest.extractFileId) (new : TableFile)
    (io : ReplaceIO)
    (w : World) : Manifest.replaceByIds (chosen.map TableFile.id) new.id io ⟨ts.map TableFile.path⟩ w =
      Manifest.persist (swap (oldNumbers chosen) (compactedName (ts.map TableFile.path) new.id)
        (ts.map TableFile.path)) io ⟨ts.map TableFile.path⟩ w := by
  have hall : Manifest.hasIds ⟨ts.map TableFile.path⟩ (chosen.map TableFile.id) = true := by
    unfold Manifest.hasIds
    rw [List.all_eq_true]
    intro id hid
    obtain ⟨t, ht, rfl⟩ := List.mem_map.1 hid
    rw [decide_eq_true_eq]
    exact hids t ht
  unfold Manifest.replaceByIds
  rw [if_neg (by simpa using hne), hall]
  simp only [Bool.not_true, Bool.false_eq_true, if_false]
  rw [Manifest.replaceWhere_eq]
  rfl

include hdistinct

theorem eq_of_id {t t' : TableFile} (ht : t ∈ ts) (ht' : t' ∈ ts) (h : t.id = t'.id) : t = t' :=
  List.inj_on_of_nodup_map hdistinct ht ht' h

include hsub

/-- What is to go by name. -/
theorem oldNames_iff {t : TableFile} (ht : t ∈ ts) : oldNames chosen t.path = true ↔ t ∈ chosen := by
  unfold oldNames
  rw [decide_eq_true_eq]
  constructor
  · intro h
    obtain ⟨c, hc, hp⟩ := List.mem_map.1 h
    rwa [← eq_of_id hdistinct (hsub c hc) ht (TableFile.id_of_path hp)]
  · exact List.mem_map_of_mem

/-- What is to go by its number, where the manifest reads it. -/
theorem oldNumbers_known {t : TableFile} (ht : t ∈ ts) (hk : t.Known) :
    oldNumbers chosen t.path = true ↔ t ∈ chosen := by
  unfold oldNumbers
  rw [decide_eq_true_eq, hk.manifestId]
  constructor
  · intro h
    obtain ⟨c, hc, hp⟩ := List.mem_map.1 h
    rwa [← eq_of_id hdistinct (hsub c hc) ht hp]
  · exact List.mem_map_of_mem

/-- The numbers of the entries to be replaced, as the manifest reads them. -/
theorem hasIds_iff {c : TableFile} (hc : c ∈ chosen) :
    c.id ∈ (ts.map TableFile.path).map Manifest.extractFileId ↔ c.Known := by
  constructor
  · intro h
    obtain ⟨f, hf, hid⟩ := List.mem_map.1 h
    obtain ⟨t, ht, rfl⟩ := List.mem_map.1 hf
    by_contra hun
    obtain ⟨-, hne⟩ := TableFile.manifestId_of_unknown hun
    by_cases hk : t.Known
    · rw [hk.manifestId] at hid
      exact hun (eq_of_id hdistinct ht (hsub c hc) hid ▸ hk)
    · exact hne (hid.symm.trans (TableFile.manifestId_of_unknown hk).1)
  · intro hk
    rw [← hk.manifestId]
    exact List.mem_map_of_mem (List.mem_map_of_mem (hsub c hc))

/-- **Known entries**: the manifest finds the same ones by number and by name. -/
theorem sameOthers_of_known (hknown : ∀ t ∈ chosen, t.Known)
    (hzero : (∃ t ∈ ts, ¬ t.Known) → ∀ t ∈ chosen, t.id ≠ 0) (new : TableFile) (io : ReplaceIO) (w : World) :
    SameOthers chosen new io ⟨ts.map TableFile.path⟩ w := by
  by_cases hne : chosen = []
  · subst hne
    exact ⟨rfl, fun h => absurd h (by simp [Manifest.replaceByIds]), fun _ => ⟨rfl, rfl⟩⟩
  have hsame : ∀ f ∈ ts.map TableFile.path, oldNumbers chosen f = oldNames chosen f := by
    intro f hf
    obtain ⟨t, ht, rfl⟩ := List.mem_map.1 hf
    rw [Bool.eq_iff_iff, oldNames_iff hdistinct hsub ht]
    by_cases hk : t.Known
    · exact oldNumbers_known hdistinct hsub ht hk
    · -- read as number 0, which no entry to be replaced has
      have hnot : t ∉ chosen := fun h => hk (hknown t h)
      refine ⟨fun h => ?_, fun h => absurd h hnot⟩
      unfold oldNumbers at h
      rw [decide_eq_true_eq, (TableFile.manifestId_of_unknown hk).1] at h
      obtain ⟨c, hc, hid⟩ := List.mem_map.1 h
      exact absurd hid (hzero ⟨t, ht, hk⟩ c hc)
  -- both ways build the same list, and persist it
  have hids := replaceByIds_chosen hne (fun t ht => (hasIds_iff hdistinct hsub ht).2 (hknown t ht)) new io w
  have hnames := replaceByNames_chosen hsub hne new io w
  rw [swap_congr hsame] at hids
  refine ⟨?_, fun h => ?_, fun h => ?_⟩
  · rw [hids, hnames, Manifest.persist_fst, Manifest.persist_fst]
  · rw [hids, Manifest.persist_fst] at h
    rw [hids, hnames, Manifest.persist_snd, Manifest.persist_snd, if_pos h, if_pos h]
    exact ⟨_, _, rfl, rfl⟩
  · rw [hids, Manifest.persist_fst] at h
    have hfalse : ¬ io.Succeeds = true := by simp [h]
    rw [hids, hnames, Manifest.persist_snd, Manifest.persist_snd, if_neg hfalse, if_neg hfalse]
    exact ⟨rfl, rfl⟩

/-- Replacing by number without a failing file operation, as replacing by name does. -/
theorem known_of_sameOthers {new : TableFile} {w : World}
    (h : SameOthers chosen new .ok ⟨ts.map TableFile.path⟩ w) :
    (∀ t ∈ chosen, t.Known) ∧ ((∃ t ∈ ts, ¬ t.Known) → ∀ t ∈ chosen, t.id ≠ 0) := by
  by_cases hne : chosen = []
  · subst hne
    exact ⟨fun t ht => absurd ht List.not_mem_nil, fun _ t ht => absurd ht List.not_mem_nil⟩
  have hnames := replaceByNames_chosen hsub hne new .ok w
  have hdone := h.agree
  have hok : ReplaceIO.ok.Succeeds = true := rfl
  rw [hnames, Manifest.persist_fst, hok] at hdone
  have hknown : ∀ t ∈ chosen, t.Known := by
    intro t ht
    rw [← hasIds_iff hdistinct hsub ht]
    by_contra hmiss
    have hrejected : Manifest.hasIds ⟨ts.map TableFile.path⟩ (chosen.map TableFile.id) = false := by
      unfold Manifest.hasIds
      rw [List.all_eq_false]
      exact ⟨t.id, List.mem_map_of_mem ht, by simpa using hmiss⟩
    unfold Manifest.replaceByIds at hdone
    rw [if_neg (by simpa using hne), hrejected] at hdone
    exact absurd (show false = true from hdone) (by decide)
  refine ⟨hknown, fun ⟨t, ht, hun⟩ c hc hid => ?_⟩
  -- the entry with the unknown name goes by its number and stays by its name
  have hids := replaceByIds_chosen hne (fun t ht => (hasIds_iff hdistinct hsub ht).2 (hknown t ht)) new .ok w
  obtain ⟨before, after, hb, ha⟩ := h.replaced hdone
  rw [hids, Manifest.persist_snd, if_pos hok] at hb
  rw [hnames, Manifest.persist_snd, if_pos hok] at ha
  have hlen :
      (swap (oldNumbers chosen) (compactedName (ts.map TableFile.path) new.id) (ts.map TableFile.path)).length =
      (swap (oldNames chosen) new.path (ts.map TableFile.path)).length := by
    rw [show swap _ _ _ = _ from hb, show swap _ _ _ = _ from ha, List.length_append, List.length_append,
      List.length_cons, List.length_cons]
  rw [length_swap, length_swap] at hlen
  have hless : ∀ f ∈ ts.map TableFile.path, (!oldNumbers chosen f) = true → (!oldNames chosen f) = true := by
    intro f hf hstays
    obtain ⟨t', ht', rfl⟩ := List.mem_map.1 hf
    by_contra hgoes
    have hmem := (oldNames_iff hdistinct hsub ht').1 (by simpa using hgoes)
    have hnum := (oldNumbers_known hdistinct hsub ht' (hknown t' hmem)).2 hmem
    rw [hnum] at hstays
    exact absurd hstays (by decide)
  have hsubl : List.Sublist ((ts.map TableFile.path).filter fun f => !oldNumbers chosen f)
      ((ts.map TableFile.path).filter fun f => !oldNames chosen f) := by
    have hfilter : (ts.map TableFile.path).filter (fun f => !oldNumbers chosen f) =
        ((ts.map TableFile.path).filter fun f => !oldNames chosen f).filter fun f => !oldNumbers chosen f := by
      rw [List.filter_filter]
      refine List.filter_congr fun f hf => ?_
      cases hn : !oldNumbers chosen f with
      | false => rfl
      | true => rw [hless f hf hn]; rfl
    rw [hfilter]
    exact List.filter_sublist
  have heq := hsubl.eq_of_length (by omega)
  have hstays : t.path ∈ (ts.map TableFile.path).filter fun f => !oldNames chosen f := by
    refine List.mem_filter.2 ⟨List.mem_map_of_mem ht, ?_⟩
    by_contra hgoes
    exact hun (hknown t ((oldNames_iff hdistinct hsub ht).1 (by simpa using hgoes)))
  rw [← heq] at hstays
  have hgoes : oldNumbers chosen t.path = true := by
    unfold oldNumbers
    rw [decide_eq_true_eq, (TableFile.manifestId_of_unknown hun).1, ← hid]
    exact List.mem_map_of_mem hc
  have hkept := (List.mem_filter.1 hstays).2
  rw [hgoes] at hkept
  exact absurd hkept (by decide)

end

/-- Table 0 in the current directory. -/
def firstTable : TableFile := ⟨[], bytes "data_", 0, Or.inl rfl, by decide, by norm_num⟩

/-- **Where the two parsers agree**, and where the two ways to replace entries keep the same
others. -/
theorem fileIds_iff (t : TableFile) {ts chosen : List TableFile} (hdistinct : (ts.map TableFile.id).Nodup)
    (hsub : ∀ t ∈ chosen, t ∈ ts) :
    (t.ReadBack ↔ t.Known) ∧
    ((∀ (new : TableFile) (io : ReplaceIO) (w : World), SameOthers chosen new io ⟨ts.map TableFile.path⟩ w) ↔
      (∀ t ∈ chosen, t.Known) ∧ ((∃ t ∈ ts, ¬ t.Known) → ∀ t ∈ chosen, t.id ≠ 0)) :=
  ⟨t.readBack_iff, fun h => known_of_sameOthers hdistinct hsub (h firstTable .ok (.ofDisk .empty)),
    fun h => sameOthers_of_known hdistinct hsub h.1 h.2⟩

/-- A flushed table, and one that a compaction left. -/
def flushedTable : TableFile := ⟨bytes "db/", bytes "data_", 2, by decide, by decide, by norm_num⟩

def mergedTable : TableFile := ⟨bytes "db/", bytes "sstable_", 1, by decide, by decide, by norm_num⟩

/-- The flushed table is replaced, and the merged one stays. -/
theorem fileIds_flushed : flushedTable.ReadBack ∧
    SameOthers [flushedTable] firstTable .ok ⟨[mergedTable, flushedTable].map TableFile.path⟩
      (.ofDisk .empty) := by
  have hdistinct : ([mergedTable, flushedTable].map TableFile.id).Nodup := by decide
  have hsub : ∀ t ∈ [flushedTable], t ∈ [mergedTable, flushedTable] := by simp
  have h := fileIds_iff flushedTable hdistinct hsub
  refine ⟨h.1.2 (by decide), h.2.2 ⟨fun t ht => ?_, fun _ t ht => ?_⟩ _ _ _⟩
  · rw [List.mem_singleton.1 ht]
    decide
  · rw [List.mem_singleton.1 ht]
    decide

/-- Of `db/sstable_1.sst` the manifest takes number 0, and cannot replace it by number 1. -/
theorem fileIds_fail : ¬ (∀ t : TableFile, t.ReadBack) ∧
    ¬ ∀ ts chosen : List TableFile, (ts.map TableFile.id).Nodup → (∀ t ∈ chosen, t ∈ ts) →
      ∀ (new : TableFile) (io : ReplaceIO) (w : World), SameOthers chosen new io ⟨ts.map TableFile.path⟩ w := by
  refine ⟨fun h => ?_, fun h => ?_⟩
  · exact absurd (h mergedTable).2 (by decide +kernel)
  · have hagree := (h [mergedTable] [mergedTable] (by decide) (fun t ht => ht) firstTable .ok
      (.ofDisk .empty)).agree
    exact absurd hagree (by decide +kernel)

end LsmTree

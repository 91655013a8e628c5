import LsmTree.Proof.Reopen

/-!
# The manifest in memory and in its file

A history of `AddSSTable` and `ReplaceSSTables` in which any file operation may fail.

* `ManifestCall.Clean`: an addition that fails has written nothing, and no replacement
  ends with the old file removed and the new one not in its place.
* `Recorded.exec`: a clean call keeps file and memory alike, and does what it reports.
* `history_faithful`: so does every call of a clean history.
* `history_faithful_fails`: an addition that fails after its first byte leaves a line.
-/

namespace LsmTree

open Base

/-- A call of the manifest, with what becomes of its file operations. -/
inductive ManifestCall where
  | addSSTable (filename : Bytes) (io : AddIO)
  | replaceByNames (oldFiles : List Bytes) (newFile : Bytes) (io : ReplaceIO)
  | replaceByIds (oldFileIds : List ℕ) (newFileId : ℕ) (io : ReplaceIO)

/-- The file operations of an addition: one that fails has written nothing. -/
def AddIO.Clean : AddIO → Prop
  | .torn written => written = 0
  | _ => True

instance (io : AddIO) : Decidable io.Clean := by
  cases io <;> (unfold AddIO.Clean; infer_instance)

/-- The first of some entries makes place for a new one, and the others of them go. -/
def swap (old : Bytes → Bool) (new : Bytes) (fs : List Bytes) : List Bytes :=
  fs.takeWhile (fun f => !old f) ++ new :: (fs.dropWhile fun f => !old f).filter fun f => !old f

theorem Manifest.replaceWhere_eq (old : Bytes → Bool) (new : Bytes) (fs : List Bytes) :
    replaceWhere old new fs = swap old new fs := by
  induction fs with
  | nil => rfl
  | cons f fs ih =>
    unfold replaceWhere swap
    cases hf : old f with
    | true => simp [hf]
    | false =>
      simp only [Bool.false_eq_true, if_false, ih]
      simp [swap, hf]

/-- The name of a table that is known by its number only. -/
def compactedName (fs : List Bytes) (id : ℕ) : Bytes :=
  Manifest.dirPrefix fs ++ bytes "compacted_" ++ decimal id ++ bytes ".sst"

namespace ManifestCall

def exec : ManifestCall → Manifest × World → Bool × Manifest × World
  | addSSTable filename io, (m, w) => m.addSSTable filename io w
  | replaceByNames oldFiles newFile io, (m, w) => m.replaceByNames oldFiles newFile io w
  | replaceByIds oldFileIds newFileId io, (m, w) => m.replaceByIds oldFileIds newFileId io w

/-- The new name fits a line. -/
def Named : ManifestCall → Prop
  | addSSTable filename _ => FileName filename
  | replaceByNames _ newFile _ => FileName newFile
  | replaceByIds _ _ _ => True

/-- The file is not left with part of a line, and not lost. A replacement of entries that
are not there touches no file. -/
def Clean (m : Manifest) : ManifestCall → Prop
  | addSSTable _ io => io.Clean
  | replaceByNames oldFiles _ io => oldFiles ≠ [] → m.hasNames oldFiles = true → ¬ io.Loses
  | replaceByIds oldFileIds _ io => oldFileIds ≠ [] → m.hasIds oldFileIds = true → ¬ io.Loses

instance (m : Manifest) (c : ManifestCall) : Decidable (c.Clean m) := by
  cases c <;> (unfold Clean; infer_instance)

/-- The list after a call that succeeds. -/
def result (fs : List Bytes) : ManifestCall → List Bytes
  | addSSTable filename _ => fs ++ [filename]
  | replaceByNames oldFiles newFile _ => swap (fun f => f ∈ oldFiles) newFile fs
  | replaceByIds oldFileIds newFileId _ =>
    swap (fun f => Manifest.extractFileId f ∈ oldFileIds) (compactedName fs newFileId) fs

/-- The call leaves file and memory alike, changes neither if it returns false, and else
adds or replaces the entries it names. -/
structure Faithful (c : ManifestCall) (s : Manifest × World) : Prop where
  agrees : Manifest.load (c.exec s).2.2.disk = (c.exec s).2.1
  failed : (c.exec s).1 = false →
    (c.exec s).2.1 = s.1 ∧ Manifest.load (c.exec s).2.2.disk = Manifest.load s.2.disk
  succeeded : (c.exec s).1 = true → (c.exec s).2.1.sstableFiles = c.result s.1.sstableFiles

end ManifestCall

/-- The file holds the list, line by line. -/
structure Recorded (s : Manifest × World) : Prop where
  lists : Lists s.2.disk s.1.sstableFiles
  names : ∀ f ∈ s.1.sstableFiles, FileName f

variable {s s' : Manifest × World} {c : ManifestCall}

theorem Recorded.load (h : Recorded s) : Manifest.load s.2.disk = s.1 := load_fileNames h.lists h.names

/-- A call that ends in one of two ways: with the list it names, or with nothing changed. -/
inductive CallEnd (s : Manifest × World) (updated : List Bytes) : Bool × Manifest × World → Prop
  | done (w' : World) (hd : w'.disk.manifest = some (unlines updated)) : CallEnd s updated (true, ⟨updated⟩, w')
  | kept (w' : World) (hd : Lists w'.disk s.1.sstableFiles) : CallEnd s updated (false, s.1, w')

theorem CallEnd.faithful (h : Recorded s) (hnames : ∀ f ∈ c.result s.1.sstableFiles, FileName f)
    (hend : CallEnd s (c.result s.1.sstableFiles) (c.exec s)) : Recorded (c.exec s).2 ∧ c.Faithful s := by
  generalize hr : c.exec s = r at hend
  cases hend with
  | done w' hd =>
    have hrec : Recorded (⟨c.result s.1.sstableFiles⟩, w') := ⟨Or.inl hd, hnames⟩
    refine ⟨hrec, ?_, ?_, ?_⟩
    · rw [hr]
      exact hrec.load
    · rw [hr]
      exact fun hfalse => absurd (show true = false from hfalse) (by decide)
    · rw [hr]
      exact fun _ => rfl
  | kept w' hd =>
    have hrec : Recorded (s.1, w') := ⟨hd, h.names⟩
    refine ⟨hrec, ?_, ?_, ?_⟩
    · rw [hr]
      exact hrec.load
    · rw [hr]
      exact fun _ => ⟨rfl, hrec.load.trans h.load.symm⟩
    · rw [hr]
      exact fun htrue => absurd (show false = true from htrue) (by decide)

/-! ## One call -/

theorem Recorded.persist (h : Recorded s) (updated : List Bytes) {io : ReplaceIO} (hio : ¬ io.Loses) :
    CallEnd s updated (s.1.persist updated io s.2) := by
  have hcases := Manifest.persist_cases updated hio s.1 s.2
  generalize s.1.persist updated io s.2 = r at hcases
  cases hcases with
  | replaced w' hd => exact .done w' (congrArg Disk.manifest hd)
  | kept w' hd =>
    have hman : w'.disk.manifest = s.2.disk.manifest := by
      have hfile := congrArg Disk.manifest hd
      exact hfile
    exact .kept w' (h.lists.congr hman)

/-- A replacement that loses the file returns false, keeps the list in memory, and leaves
nothing to load. -/
theorem Manifest.persist_loses (updated : List Bytes) {io : ReplaceIO} (hio : io.Loses) (m : Manifest)
    (w : World) :
    ∃ w', m.persist updated io w = (false, m, w') ∧ Manifest.load w'.disk = ⟨[]⟩ := by
  obtain ⟨htmp, hren, hrem, hagain⟩ := hio
  refine ⟨(w.perform (.manifestTmp (unlines updated))).perform .manifestRemove, ?_, rfl⟩
  unfold Manifest.persist
  rw [htmp]
  simp [hren, hrem, hagain]

theorem newline_notMem_dirPrefix {fs : List Bytes} (h : ∀ f ∈ fs, FileName f) :
    newline ∉ Manifest.dirPrefix fs := by
  induction fs with
  | nil => exact List.not_mem_nil
  | cons f fs ih =>
    unfold Manifest.dirPrefix
    split
    · exact fun hmem => (h f List.mem_cons_self).newline (List.mem_of_mem_take hmem)
    · exact ih fun g hg => h g (List.mem_cons_of_mem _ hg)

theorem fileName_compactedName {fs : List Bytes} (h : ∀ f ∈ fs, FileName f) (id : ℕ) :
    FileName (compactedName fs id) := by
  have hlast : (compactedName fs id).getLast? = some 116 := by
    unfold compactedName
    rw [List.getLast?_append]
    rfl
  refine ⟨fun hnil => ?_, fun hmem => ?_, by rw [hlast]; decide⟩
  · rw [hnil] at hlast
    exact absurd hlast (by simp)
  · unfold compactedName at hmem
    simp only [List.append_assoc, List.mem_append] at hmem
    rcases hmem with hmem | hmem | hmem | hmem
    · exact newline_notMem_dirPrefix h hmem
    · exact absurd hmem (by decide)
    · exact notMem_decimal (by decide) id hmem
    · exact absurd hmem (by decide)

theorem mem_swap {old : Bytes → Bool} {new f : Bytes} {fs : List Bytes} (h : f ∈ swap old new fs) :
    f = new ∨ f ∈ fs := by
  unfold swap at h
  rcases List.mem_append.1 h with h | h
  · exact Or.inr ((List.takeWhile_prefix _).subset h)
  rcases List.mem_cons.1 h with h | h
  · exact Or.inl h
  · exact Or.inr ((List.dropWhile_suffix _).subset (List.mem_filter.1 h).1)

theorem Recorded.result (h : Recorded s) (hc : c.Named) : ∀ f ∈ c.result s.1.sstableFiles, FileName f := by
  intro f hf
  cases c with
  | addSSTable filename io =>
    rcases List.mem_append.1 hf with hf | hf
    · exact h.names f hf
    · rw [List.mem_singleton.1 hf]
      exact hc
  | replaceByNames oldFiles newFile io =>
    rcases mem_swap hf with rfl | hf
    · exact hc
    · exact h.names f hf
  | replaceByIds oldFileIds newFileId io =>
    rcases mem_swap hf with rfl | hf
    · exact fileName_compactedName h.names newFileId
    · exact h.names f hf

/-- **A clean call** keeps file and memory alike, and does what it reports. -/
theorem Recorded.exec (h : Recorded s) (hc : c.Named) (hclean : c.Clean s.1) :
    Recorded (c.exec s).2 ∧ c.Faithful s := by
  refine CallEnd.faithful h (h.result hc) ?_
  obtain ⟨m, w⟩ := s
  cases c with
  | addSSTable filename io =>
    change CallEnd _ _ (m.addSSTable filename io w)
    cases io with
    | openFails => exact .kept _ h.lists
    | ok =>
      have hlines := h.lists.append filename
      rcases hlines with hfile | ⟨-, hnil⟩
      · exact .done _ hfile
      · exact absurd hnil (by simp)
    | torn n =>
      -- nothing was written, but the file exists now
      obtain rfl : n = 0 := hclean
      refine .kept _ ?_
      rcases h.lists with hfile | ⟨hfile, hnil⟩
      · exact Or.inl (by simp only at hfile; simp [Effect.apply, hfile])
      · exact Or.inl (by simp only at hfile hnil; simp [Effect.apply, hfile, hnil])
  | replaceByNames oldFiles newFile io =>
    change CallEnd _ _ (m.replaceByNames oldFiles newFile io w)
    unfold Manifest.replaceByNames
    by_cases hnil : oldFiles = []
    · rw [if_pos hnil]
      exact .kept _ h.lists
    rw [if_neg hnil]
    cases hnames : m.hasNames oldFiles with
    | false => exact .kept _ h.lists
    | true =>
      have hp := h.persist (swap (fun f => f ∈ oldFiles) newFile m.sstableFiles) (hclean hnil hnames)
      simp only [Bool.not_true, Bool.false_eq_true, if_false, if_neg hc.ne_nil]
      rw [Manifest.replaceWhere_eq]
      exact hp
  | replaceByIds oldFileIds newFileId io =>
    change CallEnd _ _ (m.replaceByIds oldFileIds newFileId io w)
    unfold Manifest.replaceByIds
    by_cases hnil : oldFileIds = []
    · rw [if_pos hnil]
      exact .kept _ h.lists
    rw [if_neg hnil]
    cases hids : m.hasIds oldFileIds with
    | false => exact .kept _ h.lists
    | true =>
      have hp := h.persist (swap (fun f => Manifest.extractFileId f ∈ oldFileIds)
        (compactedName m.sstableFiles newFileId) m.sstableFiles) (hclean hnil hids)
      simp only [Bool.not_true, Bool.false_eq_true, if_false]
      rw [Manifest.replaceWhere_eq]
      exact hp

/-! ## Histories -/

/-- One call of a clean history. -/
def ManifestCall.run (s : Manifest × World) (c : ManifestCall) : Option (Manifest × World) :=
  if c.Clean s.1 then some (c.exec s).2 else none

def runManifest (calls : List ManifestCall) (s : Manifest × World) : Option (Manifest × World) :=
  calls.foldlM ManifestCall.run s

theorem Recorded.runManifest {calls : List ManifestCall} (hnamed : ∀ c ∈ calls, c.Named) :
    ∀ {s : Manifest × World}, Recorded s → LsmTree.runManifest calls s = some s' → Recorded s' := by
  induction calls with
  | nil =>
    intro s h hrun
    obtain rfl := Option.some.inj hrun
    exact h
  | cons c calls ih =>
    intro s h hrun
    obtain ⟨s₁, hc, hrest⟩ := Option.bind_eq_some_iff.1 (show (c.run s).bind _ = _ from hrun)
    unfold ManifestCall.run at hc
    split at hc
    · rename_i hclean
      obtain rfl := Option.some.inj hc
      exact ih (fun x hx => hnamed x (List.mem_cons_of_mem _ hx))
        (h.exec (hnamed c List.mem_cons_self) hclean).1 hrest
    · exact absurd hc (by simp)

/-- **Every call of a clean history** on a manifest whose file holds whole lines leaves
file and memory alike and does what it reports. -/
theorem history_faithful {d : Disk} {fs : List Bytes} (hd : Lists d fs) (hfs : ∀ f ∈ fs, FileName f)
    {calls : List ManifestCall} (hnamed : ∀ c ∈ calls, c.Named)
    (hrun : runManifest calls (Manifest.load d, .ofDisk d) = some s) (hc : c.Named) (hclean : c.Clean s.1) :
    c.Faithful s := by
  have hload : Manifest.load d = ⟨fs⟩ := load_fileNames hd hfs
  have hstart : Recorded (Manifest.load d, World.ofDisk d) := by
    rw [hload]
    exact ⟨hd, hfs⟩
  exact ((hstart.runManifest hnamed hrun).exec hc hclean).2

/-- A torn addition is not clean, but nothing is torn here: an addition that cannot open
the file, one that succeeds, and a replacement by way of removing the old file. -/
def cleanCalls : List ManifestCall :=
  [.addSSTable (bytes "data_0.sst") .openFails, .addSSTable (bytes "data_0.sst") .ok,
    .replaceByNames [bytes "data_0.sst"] (bytes "sstable_1.sst") ⟨.ok, false, true, true⟩]

theorem fileName_bytes {f : Bytes}
    (h : (decide (f ≠ []) && !f.contains newline && decide (f.getLast? ≠ some 13)) = true) :
    FileName f := by
  simp only [Bool.and_eq_true, decide_eq_true_eq, Bool.not_eq_true', List.contains_eq_mem,
    decide_eq_false_iff_not] at h
  exact ⟨h.1.1, h.1.2, h.2⟩

theorem history_faithful_clean : ∃ s, runManifest cleanCalls (Manifest.load .empty, .ofDisk .empty) = some s ∧
    (ManifestCall.replaceByIds [0] 2 ⟨.torn 3, true, true, true⟩).Faithful s := by
  have hnamed : ∀ c ∈ cleanCalls, c.Named := by
    intro c hc
    simp only [cleanCalls, List.mem_cons, List.not_mem_nil, or_false] at hc
    rcases hc with rfl | rfl | rfl
    all_goals exact fileName_bytes (by decide +kernel)
  have hsome : (runManifest cleanCalls (Manifest.load .empty, .ofDisk .empty)).any
      (fun s => decide ((ManifestCall.replaceByIds [0] 2 ⟨.torn 3, true, true, true⟩).Clean s.1)) = true := by
    decide +kernel
  obtain ⟨s, hrun, hclean⟩ := (Option.any_eq_true _ _).1 hsome
  have hempty : Lists Disk.empty [] := Or.inr ⟨rfl, rfl⟩
  exact ⟨s, hrun, history_faithful hempty (fun f hf => absurd hf List.not_mem_nil) hnamed hrun trivial
    (by simpa using hclean)⟩

/-- An addition that fails after one byte returns false, and the byte is a line of the file. -/
theorem history_faithful_fails :
    ¬ ∀ (d : Disk) (fs : List Bytes) (calls : List ManifestCall) (c : ManifestCall), Lists d fs →
      (∀ f ∈ fs, FileName f) → (∀ c' ∈ calls, c'.Named) → c.Named →
      c.Faithful (calls.foldl (fun s c => (c.exec s).2) (Manifest.load d, .ofDisk d)) := by
  intro hall
  have hname : FileName (bytes "data_0.sst") := fileName_bytes (by decide +kernel)
  have hfaithful := hall .empty [] [] (.addSSTable (bytes "data_0.sst") (.torn 1)) (Or.inr ⟨rfl, rfl⟩)
    (fun f hf => absurd hf List.not_mem_nil) (fun c hc => absurd hc List.not_mem_nil) hname
  have hlists := congrArg Manifest.sstableFiles hfaithful.agrees
  have hneq : (Manifest.load ((ManifestCall.addSSTable (bytes "data_0.sst") (.torn 1)).exec
      (Manifest.load .empty, .ofDisk .empty)).2.2.disk).sstableFiles ≠ [] := by decide +kernel
  exact hneq hlists

end LsmTree

import LsmTree.Spec.Engine

/-!
# The names of table files

A table file is named by its family, `data_`, `sstable_` or `compacted_`, and a number.

* `engineId`: the engine reads the number back from the name.
* `manifestId`: so does the manifest, but for the family `sstable_` it finds no number and
  takes 0.
* `tablePath_inj`: different families or numbers give different names.
* `load_fileNames`: names that fit a line are read back from a manifest.
-/

namespace LsmTree

open Base

/-- The families of table files. -/
def families : List Bytes := [bytes "data_", bytes "sstable_", bytes "compacted_"]

theorem families_eq : families = [[100, 97, 116, 97, 95], [115, 115, 116, 97, 98, 108, 101, 95],
    [99, 111, 109, 112, 97, 99, 116, 101, 100, 95]] := rfl

/-- The name of a table without its directory. -/
def tableName (family : Bytes) (id : ℕ) : Bytes := family ++ (decimal id ++ bytes ".sst")

variable {dbDir family family' : Bytes} {id id' : ℕ}

theorem tablePath_eq (dbDir family : Bytes) (id : ℕ) :
    StorageEngine.tablePath dbDir family id =
      (if dbDir = [] ∨ dbDir = bytes "." then [] else dbDir ++ bytes "/") ++ tableName family id := by
  unfold StorageEngine.tablePath tableName
  split
  · rw [List.nil_append, List.append_assoc]
  · simp only [List.append_assoc]

theorem notMem_decimal {c : UInt8} (hc : isDigit c = false) (id : ℕ) : c ∉ decimal id := by
  intro h
  have := isDigit_of_mem_decimal c h
  rw [hc] at this
  exact absurd this (by decide)

/-- What stands behind the family. -/
theorem notMem_tail {c : UInt8} (hd : isDigit c = false) (hs : c ∉ bytes ".sst") (id : ℕ) :
    c ∉ decimal id ++ bytes ".sst" := by
  intro h
  rcases List.mem_append.1 h with h | h
  · exact notMem_decimal hd id h
  · exact hs h

/-- Nothing, or a path with its slash at the end. -/
def IsDirectory (dir : Bytes) : Prop := dir = [] ∨ dir.getLast?.any isSlash = true

instance (dir : Bytes) : Decidable (IsDirectory dir) := by
  unfold IsDirectory
  infer_instance

theorem isSlash_tableName (hf : family ∈ families) (id : ℕ) : ∀ x ∈ tableName family id, isSlash x = false := by
  have hfam : ∀ f ∈ families, ∀ x ∈ f, isSlash x = false := by simp [families_eq, isSlash]
  intro x hx
  rcases List.mem_append.1 hx with hx | hx
  · exact hfam family hf x hx
  · by_contra hsl
    have hcase : x = 47 ∨ x = 92 := Classical.or_iff_not_imp_left.2 (by simpa [isSlash] using hsl)
    rcases hcase with rfl | rfl
    · exact notMem_tail (by decide) (by decide) id hx
    · exact notMem_tail (by decide) (by decide) id hx

/-- The base name is what stands behind the directory. -/
theorem baseName_directory {dir : Bytes} (hdir : IsDirectory dir) (hf : family ∈ families) :
    baseName (dir ++ tableName family id) = tableName family id := by
  have hname := isSlash_tableName hf id
  unfold baseName
  rcases List.eq_nil_or_concat dir with rfl | ⟨d, c, rfl⟩
  · rw [List.nil_append, findLastOf_none hname]
  · have hc : isSlash c = true := by
      rcases hdir with hnil | hlast
      · exact absurd hnil (by simp)
      · simpa using hlast
    have hsplit : d.concat c ++ tableName family id = d ++ c :: tableName family id := by
      rw [List.concat_eq_append, List.append_assoc, List.singleton_append]
    have hlen : (d ++ c :: tableName family id).drop (d.length + 1) = tableName family id := by
      rw [← List.singleton_append, ← List.append_assoc]
      exact List.drop_left' (by simp)
    rw [hsplit, findLastOf_append hc hname]
    exact hlen

theorem baseName_tablePath (hf : family ∈ families) :
    baseName (StorageEngine.tablePath dbDir family id) = tableName family id := by
  have hdir : IsDirectory (if dbDir = [] ∨ dbDir = bytes "." then [] else dbDir ++ bytes "/") := by
    split
    · exact Or.inl rfl
    · refine Or.inr ?_
      rw [List.getLast?_append]
      rfl
  rw [tablePath_eq, baseName_directory hdir hf]

/-- The last occurrence of a prefix lies in the family. -/
theorem rfindFirst_tableName {prefixes : List Bytes} (hp : ∀ p ∈ prefixes, p.getLast? = some 95) :
    rfindFirst (tableName family id) prefixes = rfindFirst family prefixes := by
  induction prefixes with
  | nil => rfl
  | cons p ps ih =>
    have hb : (95 : UInt8) ∉ decimal id ++ bytes ".sst" := notMem_tail (by decide) (by decide) id
    unfold rfindFirst
    rw [show rfind (tableName family id) p = rfind family p from rfind_append (hp p List.mem_cons_self) hb,
      ih fun q hq => hp q (List.mem_cons_of_mem _ hq)]

/-- The end of the number. -/
theorem find_sst (family : Bytes) (id : ℕ) :
    find (tableName family id) (bytes ".sst") family.length = some (family.length + (decimal id).length) := by
  have hsplit : tableName family id = (family ++ decimal id) ++ bytes ".sst" := by
    unfold tableName
    rw [List.append_assoc]
  rw [hsplit, find_append (by rw [List.length_append]; omega), find_self (by simp) (by simp)]
  · rw [Option.map_some, List.length_append, Nat.add_zero]
  · intro j h1 h2 ⟨t, ht⟩
    rw [List.length_append] at h2
    have hdot : ((family ++ decimal id) ++ bytes ".sst")[j]? = some 46 := by
      have hhead : (((family ++ decimal id) ++ bytes ".sst").drop j)[0]? = some 46 := by
        rw [← ht]
        rfl
      rw [List.getElem?_drop, Nat.add_zero] at hhead
      exact hhead
    rw [List.append_assoc, List.getElem?_append_right h1, List.getElem?_append_left (by omega)] at hdot
    exact notMem_decimal (by decide) id (List.mem_of_getElem? hdot)

/-- **The number is read back** where the family is the first prefix found. -/
theorem extractId_tableName {prefixes : List Bytes} {filename : Bytes}
    (hbase : baseName filename = tableName family id)
    (hp : ∀ p ∈ prefixes, p.getLast? = some 95) (hfirst : rfindFirst family prefixes = some family.length)
    (hid : id < 2 ^ 64) : extractId prefixes filename = id := by
  have hnum : ((tableName family id).drop family.length).take
      (family.length + (decimal id).length - family.length) = decimal id := by
    unfold tableName
    rw [List.drop_left, Nat.add_sub_cancel_left, List.take_left]
  unfold extractId
  rw [hbase]
  simp only [rfindFirst_tableName hp, hfirst, Option.bind_eq_bind, Option.bind_some, find_sst, hnum,
    stoull_decimal hid]
  rfl

/-- The engine knows all families. -/
theorem engineId {filename : Bytes} (hbase : baseName filename = tableName family id) (hf : family ∈ families)
    (hid : id < 2 ^ 64) : StorageEngine.extractFileId filename = id := by
  have hfirst : ∀ f ∈ families, rfindFirst f [bytes "data_", bytes "sstable_", bytes "compacted_"] =
      some f.length := by decide +kernel
  exact extractId_tableName hbase (by decide +kernel) (hfirst family hf) hid

/-- The manifest does not know the family `sstable_`. -/
theorem manifestId {filename : Bytes} (hbase : baseName filename = tableName family id) (hf : family ∈ families)
    (hid : id < 2 ^ 64) : Manifest.extractFileId filename = if family = bytes "sstable_" then 0 else id := by
  split
  · rename_i hfam
    subst hfam
    have hnone : rfindFirst (bytes "sstable_") [bytes "data_", bytes "compacted_"] = none := by decide +kernel
    have hstoull : stoull (tableName (bytes "sstable_") id) = none :=
      stoull_eq_none (by decide) (by decide) (by decide) (by decide)
    have hfirst : rfindFirst (tableName (bytes "sstable_") id) [bytes "data_", bytes "compacted_"] =
        rfindFirst (bytes "sstable_") [bytes "data_", bytes "compacted_"] :=
          rfindFirst_tableName (by decide +kernel)
    unfold Manifest.extractFileId extractId
    rw [hbase]
    simp only [hfirst, hnone, Option.bind_eq_bind, Option.bind_none, Option.none_or, hstoull]
    rfl
  · rename_i hfam
    have hfirst : ∀ f ∈ families, f ≠ bytes "sstable_" → rfindFirst f [bytes "data_", bytes "compacted_"] =
        some f.length := by decide +kernel
    exact extractId_tableName hbase (by decide +kernel) (hfirst family hf hfam) hid

theorem extractFileId_tablePath (hf : family ∈ families) (hid : id < 2 ^ 64) :
    StorageEngine.extractFileId (StorageEngine.tablePath dbDir family id) = id :=
  engineId (baseName_tablePath hf) hf hid

/-! ## Different tables have different names -/

theorem decimal_inj (h : decimal id = decimal id') : id = id' := by
  rw [← digitsValue_decimal id, h, digitsValue_decimal]

/-- The family and the number are determined by the name. -/
theorem tableName_inj (hf : family ∈ families) (hf' : family' ∈ families)
    (h : tableName family id = tableName family' id') : family = family' ∧ id = id' := by
  have hfam : family = family' := by
    have hhead : family.head? = family'.head? := by
      have hne : ∀ f ∈ families, ∀ t : Bytes, (f ++ t).head? = f.head? := by
        intro f hf t
        have hf : f ≠ [] := by
          have hall : ∀ f ∈ families, f ≠ [] := by decide
          exact hall f hf
        exact List.head?_append_of_ne_nil f hf
      have := congrArg List.head? h
      unfold tableName at this
      rwa [hne family hf, hne family' hf'] at this
    have hinj : ∀ f ∈ families, ∀ g ∈ families, f.head? = g.head? → f = g := by decide
    exact hinj family hf family' hf' hhead
  subst hfam
  unfold tableName at h
  exact ⟨rfl, decimal_inj (List.append_cancel_right (List.append_cancel_left h))⟩

theorem tablePath_inj (hf : family ∈ families) (hf' : family' ∈ families)
    (h : StorageEngine.tablePath dbDir family id = StorageEngine.tablePath dbDir family' id') :
    family = family' ∧ id = id' := by
  rw [tablePath_eq, tablePath_eq] at h
  exact tableName_inj hf hf' (List.append_cancel_left h)

/-! ## Names in the manifest -/

theorem newline_notMem_tablePath (hdir : newline ∉ dbDir) (hf : family ∈ families) :
    newline ∉ StorageEngine.tablePath dbDir family id := by
  have hfam : ∀ f ∈ families, newline ∉ f := by decide
  intro h
  rw [tablePath_eq] at h
  rcases List.mem_append.1 h with h | h
  · split at h
    · exact absurd h List.not_mem_nil
    · rcases List.mem_append.1 h with h | h
      · exact hdir h
      · exact absurd h (by decide)
  · rcases List.mem_append.1 h with h | h
    · exact hfam family hf h
    · exact notMem_tail (by decide) (by decide) id h

/-- A directory with a newline shows in every name. -/
theorem newline_mem_tablePath (hdir : newline ∈ dbDir) (family : Bytes) (id : ℕ) :
    newline ∈ StorageEngine.tablePath dbDir family id := by
  rw [tablePath_eq]
  split
  · rename_i h
    rcases h with h | h
    · rw [h] at hdir
      exact absurd hdir List.not_mem_nil
    · rw [h] at hdir
      exact absurd hdir (by decide)
  · exact List.mem_append_left _ (List.mem_append_left _ hdir)

theorem getLast?_tablePath (dbDir family : Bytes) (id : ℕ) :
    (StorageEngine.tablePath dbDir family id).getLast? = some 116 := by
  rw [tablePath_eq]
  unfold tableName
  rw [← List.append_assoc, ← List.append_assoc, List.getLast?_append]
  rfl

/-- A name read from the manifest is a line of it. -/
theorem newline_notMem_load {d : Disk} {f : Bytes} (hf : f ∈ (Manifest.load d).sstableFiles) : newline ∉ f := by
  unfold Manifest.load at hf
  split at hf
  · exact absurd hf List.not_mem_nil
  · obtain ⟨l, hl, rfl⟩ := List.mem_map.1 (List.mem_filter.1 hf).1
    have hline := newline_notMem_of_mem_getlines l hl
    unfold Manifest.stripCR
    split
    · exact fun h => hline (List.dropLast_subset l h)
    · exact hline

/-- A name that fits a line of the manifest: not empty, without a newline, and without
a carriage return at its end. -/
structure FileName (f : Bytes) : Prop where
  ne_nil : f ≠ []
  newline : newline ∉ f
  noCR : f.getLast? ≠ some 13

theorem FileName.stripCR {f : Bytes} (h : FileName f) : Manifest.stripCR f = f := by
  unfold Manifest.stripCR
  rw [if_neg h.noCR]

/-- **Names that fit a line are read back from the manifest.** -/
theorem load_fileNames {d : Disk} {fs : List Bytes}
    (hd : d.manifest = some (unlines fs) ∨ d.manifest = none ∧ fs = [])
    (hfs : ∀ f ∈ fs, FileName f) : Manifest.load d = ⟨fs⟩ := by
  unfold Manifest.load
  rcases hd with hd | ⟨hd, rfl⟩
  · have hstrip : ∀ f ∈ fs, Manifest.stripCR f = id f := fun f hf => (hfs f hf).stripCR
    have hne : ∀ f ∈ fs, decide (f ≠ []) = true := fun f hf => by simpa using (hfs f hf).ne_nil
    rw [hd]
    simp only
    rw [getlines_unlines fun f hf => (hfs f hf).newline, List.map_congr_left hstrip, List.map_id,
      List.filter_eq_self.2 hne]
  · rw [hd]

theorem fileName_tablePath (hdir : newline ∉ dbDir) (hf : family ∈ families) :
    FileName (StorageEngine.tablePath dbDir family id) := by
  have hlast := getLast?_tablePath dbDir family id
  refine ⟨fun h => ?_, newline_notMem_tablePath hdir hf, ?_⟩
  · rw [h] at hlast
    exact absurd hlast (by simp)
  · rw [hlast]
    decide

/-- Names of tables in a directory without a newline are read back. -/
theorem load_unlines {d : Disk} {fs : List Bytes}
    (hd : d.manifest = some (unlines fs) ∨ d.manifest = none ∧ fs = []) (hdir : newline ∉ dbDir)
    (hfs : ∀ f ∈ fs, ∃ family ∈ families, ∃ id, f = StorageEngine.tablePath dbDir family id) :
    Manifest.load d = ⟨fs⟩ := by
  refine load_fileNames hd fun f hf => ?_
  obtain ⟨family, hfam, id, rfl⟩ := hfs f hf
  exact fileName_tablePath hdir hfam

end LsmTree

import LsmTree.Base.Ascending

/-!
# Ordered maps

What a client takes a key-value store to be: a finite map whose keys can be gone through
in ascending order. It is kept as the ascending list of its pairs, so equal maps are
equal (`OrderedMap.ext`).

* `get_put`, `get_delete`: an update shows at its key only.
* `mem_scan`: a scan shows the pairs whose key passes a test, in ascending order, and
  `scan_ext` recognises the list it gives.
* `get_deleteAll`: deleting what a scan showed deletes the keys that pass the test.
-/

namespace LsmTree.Base

structure OrderedMap (K V : Type*) [LinearOrder K] where
  pairs : List (K × V)
  ascending : Ascending Prod.fst pairs

namespace OrderedMap

variable {K V : Type*} [LinearOrder K]

def empty : OrderedMap K V := ⟨[], ascending_nil⟩

def get (m : OrderedMap K V) (k : K) : Option V := (findKey Prod.fst k m.pairs).map Prod.snd

def put (k : K) (v : V) (m : OrderedMap K V) : OrderedMap K V :=
  ⟨insertKey Prod.fst (k, v) m.pairs, m.ascending.insertKey (k, v)⟩

def delete (k : K) (m : OrderedMap K V) : OrderedMap K V :=
  ⟨m.pairs.filter fun e => e.1 ≠ k, m.ascending.filter _⟩

/-- The pairs whose key passes the test, in the order of their keys. -/
def scan (p : K → Bool) (m : OrderedMap K V) : List (K × V) := m.pairs.filter fun e => p e.1

def deleteAll (ks : List K) (m : OrderedMap K V) : OrderedMap K V := ks.foldl (fun m k => m.delete k) m

variable {m m' : OrderedMap K V} {k k' : K} {v : V} {p : K → Bool}

@[simp] theorem get_empty (k : K) : (empty : OrderedMap K V).get k = none := rfl

theorem get_put (k k' : K) (v : V) (m : OrderedMap K V) :
    (m.put k v).get k' = if k = k' then some v else m.get k' := by
  unfold get put
  rw [findKey_insertKey m.ascending]
  split <;> rfl

@[simp] theorem get_put_self (k : K) (v : V) (m : OrderedMap K V) : (m.put k v).get k = some v := by
  rw [get_put, if_pos rfl]

theorem get_put_of_ne (h : k ≠ k') (v : V) (m : OrderedMap K V) : (m.put k v).get k' = m.get k' := by
  rw [get_put, if_neg h]

theorem mem_pairs : (k, v) ∈ m.pairs ↔ m.get k = some v := by
  unfold get
  rw [Option.map_eq_some_iff]
  constructor
  · intro h
    exact ⟨(k, v), (findKey_eq_some m.ascending).2 ⟨h, rfl⟩, rfl⟩
  · rintro ⟨⟨k', v'⟩, hfind, hv⟩
    obtain ⟨hmem, hk⟩ := (findKey_eq_some m.ascending).1 hfind
    simp only at hk hv
    rwa [hk, hv] at hmem

/-- Maps that answer every key alike are equal. -/
theorem ext (h : ∀ k, m.get k = m'.get k) : m = m' := by
  have hpairs : m.pairs = m'.pairs := by
    refine m.ascending.ext m'.ascending fun k => ?_
    have hk := h k
    unfold get at hk
    cases hf : findKey Prod.fst k m.pairs with
    | none =>
      rw [hf] at hk
      exact (Option.map_eq_none_iff.1 hk.symm).symm
    | some e =>
      rw [hf, Option.map_some, eq_comm, Option.map_eq_some_iff] at hk
      obtain ⟨e', hf', hv⟩ := hk
      have hkey := (key_of_findKey hf).2
      have hkey' := (key_of_findKey hf').2
      rw [hf', Prod.ext (hkey'.trans hkey.symm) hv]
  obtain ⟨pairs, asc⟩ := m
  obtain ⟨pairs', asc'⟩ := m'
  simp only at hpairs
  subst hpairs
  rfl

theorem get_delete (k k' : K) (m : OrderedMap K V) : (m.delete k).get k' = if k = k' then none else m.get k' := by
  have hmem : ∀ v, (m.delete k).get k' = some v ↔ k ≠ k' ∧ m.get k' = some v := by
    intro v
    rw [← mem_pairs, ← mem_pairs]
    unfold delete
    rw [List.mem_filter, and_comm]
    simp [ne_comm]
  split
  · rename_i h
    by_contra hne
    obtain ⟨v, hv⟩ := Option.ne_none_iff_exists'.1 hne
    exact ((hmem v).1 hv).1 h
  · rename_i h
    refine Option.ext fun v => ?_
    rw [hmem v]
    exact ⟨fun hv => hv.2, fun hv => ⟨h, hv⟩⟩

theorem get_deleteAll (ks : List K) (k : K) : ∀ m : OrderedMap K V,
    (m.deleteAll ks).get k = if k ∈ ks then none else m.get k := by
  induction ks with
  | nil => exact fun m => by simp [deleteAll]
  | cons k' ks ih =>
    intro m
    change ((m.delete k').deleteAll ks).get k = _
    rw [ih, get_delete]
    by_cases hk : k' = k
    · simp [hk]
    · simp [hk, Ne.symm hk]

/-! ## Scans -/

theorem mem_scan : (k, v) ∈ m.scan p ↔ m.get k = some v ∧ p k = true := by
  unfold scan
  rw [List.mem_filter, mem_pairs]

theorem scan_ascending (p : K → Bool) (m : OrderedMap K V) : Ascending Prod.fst (m.scan p) := m.ascending.filter _

/-- The keys that pass the test are all deleted. -/
theorem get_deleteAll_scan (p : K → Bool) (k : K) (m : OrderedMap K V) :
    (m.deleteAll ((m.scan p).map Prod.fst)).get k = if p k then none else m.get k := by
  rw [get_deleteAll]
  by_cases hmem : k ∈ (m.scan p).map Prod.fst
  · obtain ⟨⟨k', v⟩, hv, rfl⟩ := List.mem_map.1 hmem
    rw [if_pos hmem, if_pos (mem_scan.1 hv).2]
  · rw [if_neg hmem]
    split
    · rename_i hp
      by_contra hne
      obtain ⟨v, hv⟩ := Option.ne_none_iff_exists'.1 hne
      exact hmem (List.mem_map.2 ⟨(k, v), mem_scan.2 ⟨hv, hp⟩, rfl⟩)
    · rfl

/-- An ascending list of exactly these pairs is what the scan shows. -/
theorem scan_ext {L : List (K × V)} (hasc : Ascending Prod.fst L)
    (hmem : ∀ k v, (k, v) ∈ L ↔ m.get k = some v ∧ p k = true) : m.scan p = L := by
  have hsame : ∀ e, e ∈ m.scan p ↔ e ∈ L := fun e => by
    obtain ⟨k, v⟩ := e
    rw [mem_scan, hmem]
  refine (scan_ascending p m).ext hasc fun k => ?_
  refine Option.ext fun e => ?_
  rw [findKey_eq_some (scan_ascending p m), findKey_eq_some hasc, hsame]

/-- A scan depends on the keys that pass the test only. -/
theorem scan_congr (h : ∀ k, p k = true → m.get k = m'.get k) : m.scan p = m'.scan p :=
  scan_ext (scan_ascending p m') fun k v => by
    rw [mem_scan]
    exact and_congr_left fun hk => by rw [h k hk]

end OrderedMap

end LsmTree.Base

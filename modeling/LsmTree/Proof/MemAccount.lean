import LsmTree.Proof.MemLayer

/-!
# The counters of a memtable

* `Accounted`: the two counters are the sum and the number of the nodes, in the arithmetic
  of `size_t`; `accounted_foldl`: writes keep it.
* `usage_eq`: the nodes are those of the keys written, each with its last value.
* `accounting`: so the counters are exact after any successful calls, nothing is taken off
  them that they do not hold, and a replay of the same operations ends with the same
  contents and counters.
-/

namespace LsmTree

open Base

namespace MemTable

/-! ## Calls -/

inductive MemOp where
  | put (key value : Bytes)
  | delete (key : Bytes)
  deriving DecidableEq

namespace MemOp

def key : MemOp → Bytes
  | put key _ => key
  | delete key => key

/-- The entry the operation leaves. -/
def entry : MemOp → MemTableEntry
  | put _ value => ⟨value, .kTypeValue⟩
  | delete _ => ⟨[], .kTypeDeletion⟩

/-- Operation, key and value as they are logged. -/
def triple : MemOp → Bytes × Bytes × Bytes
  | put key value => (bytes "PUT", key, value)
  | delete key => (bytes "DELETE", key, [])

/-- The part of the operation after the log. -/
def apply : MemOp → MemTable → MemTable
  | put key value => applyPut key value
  | delete key => applyDelete key

end MemOp

/-- A call of `Put` or `Delete`, with the time and the I/O it meets. -/
structure MemCall where
  op : MemOp
  now : Int64
  io : WAL.AppendIO

def MemCall.run (c : MemCall) (m : MemTable) (w : World) : Bool × MemTable × World :=
  match c.op with
  | .put key value => m.put key value c.now c.io w
  | .delete key => m.delete key c.now c.io w

/-- Calls one after another, as long as each returns true. -/
def runMemCalls : List MemCall → MemTable → World → Option (MemTable × World)
  | [], m, w => some (m, w)
  | c :: cs, m, w =>
    match c.run m w with
    | (true, m, w) => runMemCalls cs m w
    | (false, _, _) => none

variable {m m' : MemTable} {w w' : World} {wal : Bool} {ops : List MemOp} {calls : List MemCall}

/-- A call that returns true has applied its operation. -/
theorem MemCall.run_true {c : MemCall} (h : c.run m w = (true, m', w')) : m' = c.op.apply m := by
  unfold MemCall.run MemTable.put MemTable.delete at h
  unfold MemOp.apply
  cases hop : c.op with
  | put key value =>
    rw [hop] at h
    simp only at h
    split at h
    · exact absurd h (by simp)
    split at h
    · split at h
      · exact absurd h (by simp)
      · exact (Prod.mk.inj (Prod.mk.inj h).2).1.symm
    · exact (Prod.mk.inj (Prod.mk.inj h).2).1.symm
  | delete key =>
    rw [hop] at h
    simp only at h
    split at h
    · exact absurd h (by simp)
    split at h
    · split at h
      · exact absurd h (by simp)
      · exact (Prod.mk.inj (Prod.mk.inj h).2).1.symm
    · exact (Prod.mk.inj (Prod.mk.inj h).2).1.symm

theorem runMemCalls_eq (calls : List MemCall) :
    ∀ {m : MemTable} {w : World}, runMemCalls calls m w = some (m', w') →
    m' = (calls.map MemCall.op).foldl (fun m op => op.apply m) m := by
  induction calls with
  | nil =>
    intro m w h
    exact (Prod.mk.inj (Option.some.inj h)).1.symm
  | cons c calls ih =>
    intro m w h
    unfold runMemCalls at h
    split at h
    · rename_i m₁ w₁ hc
      rw [List.map_cons, List.foldl_cons, ← MemCall.run_true hc]
      exact ih h
    · exact absurd h (by simp)

/-! ## The counters and the nodes -/

/-- What a node counts for: `sizeof(Node)` and 32 bytes, the key and the value. -/
def nodeSize (x : SkipList.Node) : ℕ := 112 + x.key.length + x.entry.value.length

/-- The counters are those of the nodes. -/
structure Accounted (m : MemTable) : Prop where
  usage : m.approxMemoryUsage = .ofNat (m.list.chain.map nodeSize).sum
  count : m.numEntries = .ofNat m.list.chain.length

theorem estimateNodeMemory_eq (key value : Bytes) :
    estimateNodeMemory key value = .ofNat (112 + key.length + value.length) := by
  unfold estimateNodeMemory sizeofNode
  rw [show (80 : UInt64) = .ofNat 80 from rfl, show (32 : UInt64) = .ofNat 32 from rfl, ← UInt64.ofNat_add,
    ← UInt64.ofNat_add, ← UInt64.ofNat_add]
  congr 1
  omega

/-- An insertion, and what it adds to sum and number. -/
theorem chain_insert (l : SkipList) (key : Bytes) (x : MemTableEntry) :
    match l.find key with
    | some existing => ((l.insert key x).chain.map nodeSize).sum + existing.value.length =
        (l.chain.map nodeSize).sum + x.value.length ∧ (l.insert key x).chain.length = l.chain.length
    | none => ((l.insert key x).chain.map nodeSize).sum =
        (l.chain.map nodeSize).sum + (112 + key.length + x.value.length) ∧
        (l.insert key x).chain.length = l.chain.length + 1 := by
  have hsum := sum_insertKey l.sorted ⟨key, x⟩ nodeSize
  have hlen := sum_insertKey l.sorted ⟨key, x⟩ fun _ => 1
  simp only [List.map_const', List.sum_replicate, smul_eq_mul, mul_one] at hlen
  rw [SkipList.find_eq]
  unfold SkipList.insert
  simp only
  cases hfind : findKey SkipList.Node.key key l.chain with
  | none =>
    simp only [hfind, Option.map_none, Option.getD_none, add_zero] at hsum hlen ⊢
    exact ⟨hsum, hlen⟩
  | some existing =>
    have hkey := (key_of_findKey hfind).2
    simp only [hfind, Option.map_some, Option.getD_some, nodeSize, hkey] at hsum hlen ⊢
    exact ⟨by omega, by omega⟩

/-- The counter after an overwrite, from what it was raised and lowered by. -/
theorem usage_found {u u' : UInt64} {s s' old new : ℕ} (hu : u = .ofNat s) (hs : s' + old = s + new)
    (hu' : u' + .ofNat old = u + .ofNat new) : u' = .ofNat s' := by
  rw [hu, ← UInt64.ofNat_add, ← hs, UInt64.ofNat_add] at hu'
  exact (UInt64.add_left_inj _).1 hu'

theorem Accounted.applyPut (h : Accounted m) (key value : Bytes) : Accounted (m.applyPut key value) := by
  have hchain := chain_insert m.list key ⟨value, .kTypeValue⟩
  unfold MemTable.applyPut
  cases hfind : m.list.find key with
  | none =>
    rw [hfind] at hchain
    obtain ⟨hsum, hlen⟩ := hchain
    refine ⟨?_, ?_⟩
    · simp only [h.usage, estimateNodeMemory_eq, hsum, UInt64.ofNat_add]
    · simp only [h.count, hlen, UInt64.ofNat_add]
      rfl
  | some existing =>
    rw [hfind] at hchain
    obtain ⟨hsum, hlen⟩ := hchain
    refine ⟨usage_found h.usage hsum ?_, by simp only [h.count, hlen]⟩
    simp only
    split
    · rename_i hle
      rw [UInt64.add_assoc, ← UInt64.ofNat_add, Nat.sub_add_cancel hle]
    · rename_i hlt
      have hsplit : existing.value.length = existing.value.length - value.length + value.length := by omega
      conv_lhs => rw [hsplit, UInt64.ofNat_add, Nat.add_sub_cancel]
      rw [← UInt64.add_assoc, UInt64.sub_add_cancel]

theorem Accounted.applyDelete (h : Accounted m) (key : Bytes) : Accounted (m.applyDelete key) := by
  have hchain := chain_insert m.list key ⟨[], .kTypeDeletion⟩
  unfold MemTable.applyDelete
  cases hfind : m.list.find key with
  | none =>
    rw [hfind] at hchain
    obtain ⟨hsum, hlen⟩ := hchain
    refine ⟨?_, ?_⟩
    · simp only [h.usage, estimateNodeMemory_eq, hsum, UInt64.ofNat_add]
    · simp only [h.count, hlen, UInt64.ofNat_add]
      rfl
  | some existing =>
    rw [hfind] at hchain
    obtain ⟨hsum, hlen⟩ := hchain
    refine ⟨usage_found h.usage hsum ?_, by simp only [h.count, hlen]⟩
    simp only [List.length_nil]
    split
    · rw [UInt64.sub_add_cancel]
      exact (UInt64.add_zero _).symm
    · rename_i hzero
      rw [show existing.value.length = 0 by omega]

theorem Accounted.apply (h : Accounted m) (op : MemOp) : Accounted (op.apply m) := by
  cases op with
  | put key value => exact h.applyPut key value
  | delete key => exact h.applyDelete key

theorem accounted_blank (wal : Bool) : Accounted (blank wal) := ⟨rfl, rfl⟩

/-- The memtable after the operations. -/
def after (wal : Bool) (ops : List MemOp) : MemTable := ops.foldl (fun m op => op.apply m) (blank wal)

theorem after_snoc (wal : Bool) (ops : List MemOp) (op : MemOp) :
    after wal (ops ++ [op]) = op.apply (after wal ops) := by
  unfold after
  rw [List.foldl_append]
  rfl

/-- **Writes keep the counters those of the nodes.** -/
theorem accounted_after (wal : Bool) (ops : List MemOp) : Accounted (after wal ops) := by
  induction ops using List.reverseRecOn with
  | nil => exact accounted_blank wal
  | append_singleton ops op ih =>
    rw [after_snoc]
    exact ih.apply op

/-! ## The nodes and the operations -/

/-- The last operation on a key. -/
def lastOp (ops : List MemOp) (key : Bytes) : Option MemOp := ops.reverse.find? fun op => op.key = key

/-- The keys written. -/
def written (ops : List MemOp) : Finset Bytes := (ops.map MemOp.key).toFinset

/-- The current value of a key, empty where it is deleted. -/
def currentValue (ops : List MemOp) (key : Bytes) : Bytes :=
  ((lastOp ops key).map fun op => op.entry.value).getD []

/-- What the keys written count for, each with its current value. -/
def usage (ops : List MemOp) : ℕ :=
  (written ops).sum fun key => 80 + 32 + key.length + (currentValue ops key).length

theorem lastOp_snoc (ops : List MemOp) (op : MemOp) (key : Bytes) :
    lastOp (ops ++ [op]) key = if op.key = key then some op else lastOp ops key := by
  unfold lastOp
  rw [List.reverse_append, List.reverse_singleton, List.singleton_append, List.find?_cons]
  by_cases h : op.key = key <;> simp [h]

theorem list_apply (op : MemOp) (m : MemTable) : (op.apply m).list = m.list.insert op.key op.entry := by
  cases op with
  | put key value => exact list_applyPut key value m
  | delete key => exact list_applyDelete key m

/-- The entry of a key is that of the last operation on it. -/
theorem find_after (wal : Bool) (ops : List MemOp) (key : Bytes) :
    (after wal ops).list.find key = (lastOp ops key).map MemOp.entry := by
  induction ops using List.reverseRecOn with
  | nil => rfl
  | append_singleton ops op ih =>
    rw [after_snoc, list_apply, SkipList.find_insert, lastOp_snoc, ih]
    split <;> rfl

theorem mem_written {key : Bytes} : key ∈ written ops ↔ (lastOp ops key).isSome := by
  unfold written lastOp
  rw [List.mem_toFinset, List.mem_map, List.find?_isSome]
  simp

/-- **The nodes are the keys written**, each with its current value. -/
theorem usage_eq (wal : Bool) (ops : List MemOp) :
    ((after wal ops).list.chain.map nodeSize).sum = usage ops ∧
      (after wal ops).list.chain.length = (written ops).card := by
  set l := (after wal ops).list with hl
  have hfind : ∀ key, (findKey SkipList.Node.key key l.chain).map SkipList.Node.entry =
      (lastOp ops key).map MemOp.entry := fun key => by
    rw [← SkipList.find_eq, hl, find_after]
  have hnodup : (l.chain.map SkipList.Node.key).Nodup :=
    List.pairwise_map.2 (l.sorted.imp fun h => ne_of_lt h)
  -- the keys of the list are those that were written
  have hkeys : (l.chain.map SkipList.Node.key).toFinset = written ops := by
    ext key
    have hsome := congrArg Option.isSome (hfind key)
    rw [Option.isSome_map, Option.isSome_map] at hsome
    rw [mem_written, ← hsome, List.mem_toFinset, List.mem_map]
    unfold findKey
    rw [List.find?_isSome]
    simp
  -- and each node has the size of the last value of its key
  have hsize : l.chain.map nodeSize = (l.chain.map SkipList.Node.key).map fun key =>
      80 + 32 + key.length + (currentValue ops key).length := by
    rw [List.map_map]
    refine List.map_congr_left fun x hx => ?_
    have hx' := hfind x.key
    rw [(findKey_eq_some l.sorted).2 ⟨hx, rfl⟩] at hx'
    obtain ⟨op, hop, hentry⟩ := Option.map_eq_some_iff.1 hx'.symm
    unfold currentValue nodeSize
    simp only [Function.comp_apply]
    rw [hop, Option.map_some, Option.getD_some, hentry]
  refine ⟨?_, ?_⟩
  · unfold usage
    rw [hsize, ← hkeys, List.sum_toFinset _ hnodup]
  · rw [← hkeys, List.toFinset_card_of_nodup hnodup, List.length_map]

/-! ## What is taken off the counter -/

/-- By how much the operation lowers the usage counter. -/
def MemOp.subtracted (op : MemOp) (m : MemTable) : ℕ :=
  match m.list.find op.key with
  | none => 0
  | some existing => existing.value.length - op.entry.value.length

/-- The counter holds the value that is replaced. -/
theorem Accounted.subtracted_le (h : Accounted m) (hfits : (m.list.chain.map nodeSize).sum < 2 ^ 64) (op : MemOp) :
    op.subtracted m ≤ m.approxMemoryUsage.toNat := by
  rw [h.usage, UInt64.toNat_ofNat_of_lt' hfits]
  unfold MemOp.subtracted
  rw [SkipList.find_eq]
  cases hfind : findKey SkipList.Node.key op.key m.list.chain with
  | none => exact Nat.zero_le _
  | some x =>
    have hx : nodeSize x ∈ m.list.chain.map nodeSize := List.mem_map_of_mem (key_of_findKey hfind).1
    have hle := List.le_sum_of_mem hx
    have hsize : nodeSize x = 112 + x.key.length + x.entry.value.length := rfl
    simp only [Option.map_some]
    omega

/-! ## Replay -/

theorem apply_wal (op : MemOp) (m : MemTable) (b : Bool) :
    op.apply { m with wal := b } = { op.apply m with wal := b } := by
  cases op with
  | put key value =>
    unfold MemOp.apply MemTable.applyPut
    simp only
    cases m.list.find key <;> rfl
  | delete key =>
    unfold MemOp.apply MemTable.applyDelete
    simp only
    cases m.list.find key <;> rfl

/-- An entry with the operation's fields is replayed as the operation was applied. -/
theorem applyEntry_eq {e : LogEntry} {op : MemOp} (h : e.triple = op.triple) (m : MemTable) :
    m.applyEntry e = op.apply m := by
  have hne : bytes "DELETE" ≠ bytes "PUT" := by decide
  unfold LogEntry.triple at h
  unfold MemTable.applyEntry MemOp.apply
  cases op with
  | put key value =>
    obtain ⟨hop, hkv⟩ := Prod.mk.inj h
    obtain ⟨hkey, hvalue⟩ := Prod.mk.inj hkv
    rw [hop, hkey, hvalue, if_pos rfl]
  | delete key =>
    obtain ⟨hop, hkv⟩ := Prod.mk.inj h
    obtain ⟨hkey, -⟩ := Prod.mk.inj hkv
    rw [hop, hkey, if_neg hne, if_pos rfl]

/-- **A replay ends where the writes ended.** -/
theorem replay_eq (wal : Bool) (ops : List MemOp) :
    ∀ es : List LogEntry, es.map LogEntry.triple = ops.map MemOp.triple →
    es.foldl applyEntry (blank true) = { after wal ops with wal := true } := by
  induction ops using List.reverseRecOn with
  | nil =>
    intro es h
    rw [List.map_nil, List.map_eq_nil_iff] at h
    rw [h]
    rfl
  | append_singleton ops op ih =>
    intro es h
    rw [List.map_append, List.map_singleton, List.map_eq_append_iff] at h
    obtain ⟨es, last, rfl, hes, hlast⟩ := h
    obtain ⟨e, rfl, he⟩ := List.map_eq_singleton_iff.1 hlast
    rw [List.foldl_append, ih es hes, after_snoc]
    change applyEntry _ e = _
    rw [applyEntry_eq he, apply_wal]

/-- **The counters of a memtable are exact**, and a replay agrees with the live writes. -/
theorem accounting {calls : List MemCall} {w₀ : World} (hrun : runMemCalls calls (blank wal) w₀ = some (m, w))
    (hfits : ∀ n, usage ((calls.map MemCall.op).take n) < 2 ^ 64) :
    let ops := calls.map MemCall.op
    m.numEntries.toNat = (written ops).card ∧ m.approxMemoryUsage.toNat = usage ops ∧
      (∀ (before : List MemCall) (c : MemCall) (later : List MemCall) (m₁ : MemTable) (w₁ : World),
        calls = before ++ c :: later → runMemCalls before (blank wal) w₀ = some (m₁, w₁) →
          c.op.subtracted m₁ ≤ m₁.approxMemoryUsage.toNat) ∧
      ∀ (io : MemTableIO) (d : Disk) (es : List LogEntry), WAL.recover io.readable d = (true, es) →
        es.map LogEntry.triple = ops.map MemOp.triple →
          let m' := (blank true).recoverFromWAL io d
          m'.list = m.list ∧ m'.numEntries = m.numEntries ∧ m'.approxMemoryUsage = m.approxMemoryUsage := by
  have hm : m = after wal (calls.map MemCall.op) := runMemCalls_eq calls hrun
  obtain ⟨hsum, hcard⟩ := usage_eq wal (calls.map MemCall.op)
  have hacc := accounted_after wal (calls.map MemCall.op)
  have hall := hfits (calls.map MemCall.op).length
  rw [List.take_length] at hall
  -- every key counts at least 1 of the usage, so the number of keys fits as well
  have hcount : (written (calls.map MemCall.op)).card ≤ usage (calls.map MemCall.op) := by
    unfold usage
    rw [Finset.card_eq_sum_ones]
    exact Finset.sum_le_sum fun key _ => by omega
  refine ⟨?_, ?_, fun before c later m₁ w₁ hcalls hbefore => ?_, fun io d es hrec hes => ?_⟩
  · rw [hm, hacc.count, hcard, UInt64.toNat_ofNat_of_lt' (lt_of_le_of_lt hcount hall)]
  · rw [hm, hacc.usage, hsum, UInt64.toNat_ofNat_of_lt' hall]
  · have hm₁ : m₁ = after wal (before.map MemCall.op) := runMemCalls_eq before hbefore
    have hpart := hfits (before.map MemCall.op).length
    rw [hcalls, List.map_append, List.take_left] at hpart
    rw [hm₁]
    refine (accounted_after wal _).subtracted_le ?_ c.op
    rw [(usage_eq wal _).1]
    exact hpart
  · have hreplay : (blank true).recoverFromWAL io d = es.foldl applyEntry (blank true) := by
      unfold recoverFromWAL
      rw [hrec]
    simp only
    rw [hreplay, replay_eq wal _ es hes, hm]
    exact ⟨rfl, rfl, rfl⟩

/-- A put, its overwriting with less, and a deletion. -/
def sampleCalls : List MemCall :=
  [⟨.put (bytes "a") (bytes "long"), 1, .ok⟩, ⟨.put (bytes "a") (bytes "1"), 2, .ok⟩,
    ⟨.delete (bytes "b"), 3, .ok⟩]

theorem accounting_sample : ∃ m w, runMemCalls sampleCalls (blank false) (World.ofDisk Disk.empty) = some (m, w) ∧
    m.numEntries.toNat = 2 ∧ m.approxMemoryUsage.toNat = 227 := by
  have hfits : ∀ n, usage ((sampleCalls.map MemCall.op).take n) < 2 ^ 64 := by
    intro n
    rcases n with _ | _ | _ | n
    · decide +kernel
    · decide +kernel
    · decide +kernel
    · rw [List.take_of_length_le (by simp [sampleCalls])]
      decide +kernel
  obtain ⟨hcount, husage, -, -⟩ :=
    accounting (show runMemCalls sampleCalls (blank false) (World.ofDisk Disk.empty) =
    some (_, _) from rfl) hfits
  refine ⟨_, _, rfl, ?_, ?_⟩
  · rw [hcount]
    decide +kernel
  · rw [husage]
    decide +kernel

end MemTable

end LsmTree

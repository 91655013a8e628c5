import LsmTree.Base.Layers
import LsmTree.Proof.WalRecover
import LsmTree.Proof.TableRead
import LsmTree.Spec.MemTable

/-!
# Memtables and tables as layers

What a memtable or a table records of a key is a `Layer`: nothing, a deletion, or a
value.

* `layer_applyPut`, `layer_applyDelete`: a write into a memtable is its last write.
* `layer_replay`: a memtable that replays a log records the last write of each key.
* `layer_of_reads`: the table built from a memtable records what the memtable did.
-/

namespace LsmTree

open Base

/-- A value with its deletion flag, as what is recorded. -/
def answer (r : Bytes × Bool) : Option Bytes := if r.2 then none else some r.1

/-! ## The memtable -/

namespace MemTableEntry

def answer (x : MemTableEntry) : Option Bytes := if x.type = .kTypeDeletion then none else some x.value

end MemTableEntry

namespace SkipList

variable (l : SkipList)

theorem find_eq (key : Bytes) : l.find key = (findKey Node.key key l.chain).map Node.entry := by
  have hhead : findKey Node.key key l.chain =
      (l.findGreaterOrEqual key).head?.filter fun a => decide (a.key = key) := by
    rw [findKey_eq_head l.sorted]
    unfold findGreaterOrEqual
    congr!
  rw [hhead]
  unfold find
  cases l.findGreaterOrEqual key with
  | nil => rfl
  | cons x t =>
    by_cases h : x.key = key
    · rw [List.head?_cons, Option.filter_some_pos (by simpa using h)]
      simp [h]
    · rw [List.head?_cons, Option.filter_some_neg (by simpa using h)]
      simp [h]

theorem find_insert (key key' : Bytes) (x : MemTableEntry) :
    (l.insert key x).find key' = if key = key' then some x else l.find key' := by
  rw [find_eq, find_eq]
  unfold insert
  simp only
  rw [findKey_insertKey l.sorted]
  split <;> rfl

end SkipList

namespace MemTable

variable {m : MemTable} {key value : Bytes}

/-- What the memtable records. -/
def layer (m : MemTable) : Layer Bytes Bytes := fun key => (m.list.find key).map MemTableEntry.answer

theorem get_eq (m : MemTable) (key : Bytes) : (m.get key).map answer = m.layer key := by
  unfold get layer
  cases m.list.find key with
  | none => rfl
  | some x =>
    cases hx : x.type <;> simp [hx, answer, MemTableEntry.answer]

theorem layer_insert {m' : MemTable} {x : MemTableEntry} (h : m'.list = m.list.insert key x) :
    m'.layer = Function.update m.layer key (some x.answer) := by
  funext key'
  unfold layer
  rw [h, SkipList.find_insert]
  by_cases hk : key = key'
  · subst hk
    rw [if_pos rfl, Function.update_self]
    rfl
  · rw [if_neg hk, Function.update_of_ne (Ne.symm hk)]

theorem list_applyPut (key value : Bytes) (m : MemTable) :
    (m.applyPut key value).list = m.list.insert key ⟨value, .kTypeValue⟩ := by
  unfold applyPut
  split <;> rfl

theorem list_applyDelete (key : Bytes) (m : MemTable) :
    (m.applyDelete key).list = m.list.insert key ⟨[], .kTypeDeletion⟩ := by
  unfold applyDelete
  split <;> rfl

theorem layer_applyPut (key value : Bytes) (m : MemTable) :
    (m.applyPut key value).layer = Function.update m.layer key (some (some value)) :=
  layer_insert (list_applyPut key value m)

theorem layer_applyDelete (key : Bytes) (m : MemTable) :
    (m.applyDelete key).layer = Function.update m.layer key (some none) :=
  layer_insert (list_applyDelete key m)

@[simp] theorem layer_markImmutable (m : MemTable) : m.markImmutable.layer = m.layer := rfl

theorem layer_blank (wal : Bool) : (blank wal).layer = fun _ => none := rfl

theorem isImmutable_applyPut (key value : Bytes) (m : MemTable) :
    (m.applyPut key value).isImmutable = m.isImmutable := by
  unfold applyPut
  split <;> rfl

theorem isImmutable_applyDelete (key : Bytes) (m : MemTable) :
    (m.applyDelete key).isImmutable = m.isImmutable := by
  unfold applyDelete
  split <;> rfl

theorem wal_applyPut (key value : Bytes) (m : MemTable) : (m.applyPut key value).wal = m.wal := by
  unfold applyPut
  split <;> rfl

theorem wal_applyDelete (key : Bytes) (m : MemTable) : (m.applyDelete key).wal = m.wal := by
  unfold applyDelete
  split <;> rfl

/-- The keys and values fit 32-bit lengths. -/
def Short (m : MemTable) : Prop := ∀ x ∈ m.list.chain, x.key.length < 2 ^ 32 ∧ x.entry.value.length < 2 ^ 32

theorem short_blank (wal : Bool) : (blank wal).Short := fun _ hx => absurd hx List.not_mem_nil

theorem Short.insert {m' : MemTable} {x : MemTableEntry} (hm : m.Short)
    (h : m'.list = m.list.insert key x) (hk : key.length < 2 ^ 32) (hv : x.value.length < 2 ^ 32) :
    m'.Short := by
  intro y hy
  rw [h] at hy
  rcases mem_insertKey hy with rfl | hy
  · exact ⟨hk, hv⟩
  · exact hm y hy

theorem Short.applyPut (hm : m.Short) (hk : key.length < 2 ^ 32) (hv : value.length < 2 ^ 32) :
    (m.applyPut key value).Short :=
  hm.insert (list_applyPut key value m) hk hv

theorem Short.applyDelete (hm : m.Short) (hk : key.length < 2 ^ 32) : (m.applyDelete key).Short :=
  hm.insert (list_applyDelete key m) hk (by norm_num)

theorem empty_iff (m : MemTable) : m.empty = true ↔ m.list.chain = [] := List.isEmpty_iff

/-- A write that the log refuses leaves the memtable. -/
theorem put_result (key value : Bytes) (now : Int64) (io : WAL.AppendIO) (m : MemTable) (w : World) :
    (m.put key value now io w).2.1 = if (m.put key value now io w).1 then m.applyPut key value else m := by
  unfold put
  split
  · rfl
  split
  · split <;> rfl
  · rfl

theorem delete_result (key : Bytes) (now : Int64) (io : WAL.AppendIO) (m : MemTable) (w : World) :
    (m.delete key now io w).2.1 = if (m.delete key now io w).1 then m.applyDelete key else m := by
  unfold delete
  split
  · rfl
  split
  · split <;> rfl
  · rfl

end MemTable

/-! ## Replay -/

namespace WAL

namespace LogRecord

/-- The key and what is recorded of it. -/
def write (r : LogRecord) : Bytes × Option Bytes :=
  (r.key, match r.op with
    | .put => some r.value
    | .delete => none)

/-- Key and value fit 32-bit lengths. -/
structure Short (r : LogRecord) : Prop where
  key : r.key.length < 2 ^ 32
  value : r.value.length < 2 ^ 32

end LogRecord

/-- The log holds the lines of these records. -/
def Logs (d : Disk) (rs : List LogRecord) : Prop := d.wal = some (unlines (rs.map LogRecord.line))

/-- The records a replay reaches. -/
def reached (rs : List LogRecord) : List LogRecord := rs.takeWhile fun r => ¬ HidesTimestamp r.key

theorem reached_eq {rs : List LogRecord} (h : ∀ r ∈ rs, ¬ HidesTimestamp r.key) : reached rs = rs :=
  List.takeWhile_eq_self_iff.2 fun r hr => by simpa using h r hr

theorem Logs.recover {d : Disk} {rs : List LogRecord} (h : Logs d rs) :
    recover true d = (true, (reached rs).map LogRecord.entry) := by
  have hn : ∀ l ∈ rs.map LogRecord.line, newline ∉ l := by
    intro l hl
    obtain ⟨r, -, rfl⟩ := List.mem_map.1 hl
    exact newline_notMem_line r
  unfold WAL.recover
  rw [show d.wal = _ from h]
  simp only [if_true]
  rw [getlines_unlines hn, replay_map_line]
  rfl

end WAL

namespace MemTable

open WAL

variable {m : MemTable}

/-- A replayed record is written like the first time. -/
theorem applyEntry_record (r : LogRecord) (m : MemTable) :
    m.applyEntry r.entry = match r.op with
      | .put => m.applyPut r.key r.value
      | .delete => m.applyDelete r.key := by
  unfold applyEntry LogRecord.entry LogOp.name
  cases r.op with
  | put => exact if_pos rfl
  | delete =>
    have hne : bytes "DELETE" ≠ bytes "PUT" := by decide
    rw [if_neg hne]
    exact if_pos rfl

theorem layer_applyEntry (r : LogRecord) (m : MemTable) :
    (m.applyEntry r.entry).layer = Function.update m.layer r.write.1 (some r.write.2) := by
  rw [applyEntry_record]
  unfold LogRecord.write
  cases r.op with
  | put => exact layer_applyPut r.key r.value m
  | delete => exact layer_applyDelete r.key m

theorem Short.applyEntry (hm : m.Short) {r : LogRecord} (hr : r.Short) : (m.applyEntry r.entry).Short := by
  rw [applyEntry_record]
  cases r.op with
  | put => exact hm.applyPut hr.key hr.value
  | delete => exact hm.applyDelete hr.key

/-- **A replay records the last write of each key.** -/
theorem layer_replay (rs : List LogRecord) (wal : Bool) :
    ((rs.map LogRecord.entry).foldl applyEntry (blank wal)).layer = lastWrite (rs.map LogRecord.write) := by
  induction rs using List.reverseRecOn with
  | nil => rfl
  | append_singleton rs r ih =>
    rw [List.map_append, List.foldl_append, List.map_append]
    change (applyEntry _ r.entry).layer = lastWrite (_ ++ [r.write])
    rw [layer_applyEntry, ih, lastWrite_snoc]

theorem short_replay {rs : List LogRecord} (h : ∀ r ∈ rs, r.Short) (wal : Bool) :
    ((rs.map LogRecord.entry).foldl applyEntry (blank wal)).Short := by
  induction rs using List.reverseRecOn with
  | nil => exact short_blank wal
  | append_singleton rs r ih =>
    rw [List.map_append, List.foldl_append]
    exact (ih fun x hx => h x (List.mem_append_left _ hx)).applyEntry
      (h r (List.mem_append_right _ (List.mem_singleton.2 rfl)))

theorem applyEntry_flags (e : LogEntry) (m : MemTable) :
    (m.applyEntry e).isImmutable = m.isImmutable ∧ (m.applyEntry e).wal = m.wal := by
  unfold applyEntry
  split
  · exact ⟨isImmutable_applyPut _ _ m, wal_applyPut _ _ m⟩
  · split
    · exact ⟨isImmutable_applyDelete _ m, wal_applyDelete _ m⟩
    · exact ⟨rfl, rfl⟩

theorem foldl_applyEntry_flags (es : List LogEntry) : ∀ m : MemTable,
    (es.foldl applyEntry m).isImmutable = m.isImmutable ∧ (es.foldl applyEntry m).wal = m.wal := by
  induction es with
  | nil => exact fun m => ⟨rfl, rfl⟩
  | cons e es ih =>
    intro m
    obtain ⟨h1, h2⟩ := applyEntry_flags e m
    obtain ⟨h3, h4⟩ := ih (m.applyEntry e)
    exact ⟨h3.trans h1, h4.trans h2⟩

/-! ## Tables -/

/-- The records a flush writes. -/
def records (m : MemTable) : List SSTableRecord :=
  m.list.chain.map fun x => ⟨x.key, x.entry.value, x.entry.type = .kTypeDeletion⟩

theorem records_ascending (m : MemTable) : Ascending SSTableRecord.key m.records := by
  unfold records
  exact List.pairwise_map.2 m.list.sorted

theorem Short.records (hm : m.Short) : ∀ r ∈ m.records, r.Short := by
  intro r hr
  obtain ⟨x, hx, rfl⟩ := List.mem_map.1 hr
  exact ⟨(hm x hx).1, (hm x hx).2⟩

end MemTable

/-- What the records of a table say of a key. -/
def recordLayer (rs : List SSTableRecord) : Layer Bytes Bytes := fun key =>
  (findKey SSTableRecord.key key rs).map fun r => answer (r.value, r.isDeleted)

theorem MemTable.recordLayer_records (m : MemTable) : recordLayer m.records = m.layer := by
  funext key
  unfold recordLayer MemTable.layer MemTable.records
  rw [SkipList.find_eq]
  unfold findKey
  rw [List.find?_map, Option.map_map, Option.map_map]
  congr 1
  funext x
  simp [answer, MemTableEntry.answer]

namespace SSTableReader

variable {hash : Bytes → UInt64} {r : SSTableReader} {rs : List SSTableRecord}

/-- What the table says of a key. -/
def layer (hash : Bytes → UInt64) (r : SSTableReader) : Layer Bytes Bytes := fun key =>
  (r.get hash key).map answer

/-- `r` reads a table that a builder made of the short ascending records `rs`. -/
structure Holds (hash : Bytes → UInt64) (r : SSTableReader) (rs : List SSTableRecord) : Prop where
  reads : Reads r rs (SSTableBuilder.filterOf hash rs)
  asc : Ascending SSTableRecord.key rs
  short : ∀ x ∈ rs, x.Short

/-- **A table records what its records say.** -/
theorem Holds.layer_eq (h : Holds hash r rs) : r.layer hash = recordLayer rs := by
  funext key
  unfold layer recordLayer
  have hbloom : ∀ x ∈ rs, (SSTableBuilder.filterOf hash rs).mayContain hash x.key = true := fun x hx =>
    BloomFilter.default_ok.mayContain_foldl (List.mem_map_of_mem hx)
  rw [h.reads.get h.asc h.short hbloom, Option.map_map]
  rfl

end SSTableReader

end LsmTree

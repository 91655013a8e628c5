import LsmTree.Base.Client
import LsmTree.Spec.Engine
import LsmTree.Spec.Python

/-!
# The calls of an open database (`engine.hpp`, `python_bindings.cpp`)

The public calls of the engine, the end of the process and the next opening included, as one
interface. Its machine is the engine with its files, no operation of which fails.

`Bindings` are the methods of `pylsm.StorageEngine`, as clients of that interface. What the
engine throws reaches Python as an exception.
-/

namespace LsmTree

open Base

inductive ApiCall where
  | put (key value : Bytes)
  | delete (key : Bytes)
  /-- `Get` -/
  | find (key : Bytes)
  | scan (startKey endKey : Bytes) (limit : ℕ)
  | prefixScan (pre : Bytes) (limit : ℕ)
  | flushMemTable
  | triggerCompaction
  | close
  /-- the process ends and the database is opened again with these parameters -/
  | reopen (writeBufferSize compactionThreshold : UInt64)

namespace ApiCall

abbrev Result : ApiCall → Type
  | find _ => Option (Bytes × Bool)
  | scan _ _ _ => Except Bytes (List (Bytes × Bytes))
  | prefixScan _ _ => Except Bytes (List (Bytes × Bytes))
  | _ => Outcome Bool

end ApiCall

abbrev api : Interface := ⟨ApiCall, ApiCall.Result⟩

/-- The engine with its files. The time of a write is what the clock shows then. -/
def System.machine (hash : Bytes → UInt64) (heaps : Heaps) (clock : System → Int64) : Machine api System
  | s, .put key value => s.step hash heaps (.put key value (clock s) .ok .ok)
  | s, .delete key => s.step hash heaps (.delete key (clock s) .ok)
  | s, .find key => (s.engine.get hash key, s)
  | s, .scan startKey endKey limit => (s.engine.scan heaps startKey endKey limit s.world.disk, s)
  | s, .prefixScan pre limit => (s.engine.prefixScan heaps pre limit s.world.disk, s)
  | s, .flushMemTable => s.step hash heaps (.flushMemTable .ok)
  | s, .triggerCompaction => s.step hash heaps (.triggerCompaction .ok)
  | s, .close => s.step hash heaps (.close .ok)
  | s, .reopen writeBufferSize compactionThreshold =>
    s.step hash heaps (.reopen writeBufferSize compactionThreshold .ok)

namespace Bindings

/-- `pylsm.StorageEngine(db_dir, memtable_capacity)`: the log stands in the directory, and the
compaction threshold is the engine's own. -/
def config (dbDir : Bytes) (memtableCapacity : UInt64) : Config :=
  ⟨memtableCapacity, if dbDir = [] ∨ dbDir = bytes "." then bytes "wal.log"
    else dbDir ++ bytes "/wal.log", dbDir, 4⟩

/-- What a call of the engine is in Python. Behind a call without defined behaviour nothing
is known of the process. -/
def raised : Outcome Bool → Except PyError Bool
  | .returned ok => .ok ok
  | .threw _ => .error .other
  | .undefined => .error .other

def put (key value : Bytes) : Client api (Except PyError Bool) :=
  .call (.put key value) fun r => .ret (raised r)

/-- The value of a key that is found and not deleted. -/
def answer : Option (Bytes × Bool) → Option Bytes
  | some (val, false) => some val
  | _ => none

def get (key : Bytes) : Client api (Option Bytes) := .call (.find key) fun r => .ret (answer r)

def delete (key : Bytes) : Client api (Except PyError Bool) := .call (.delete key) fun r => .ret (raised r)

def scan (startKey endKey : Bytes) (limit : ℕ) : Client api (Except PyError (List (Bytes × Bytes))) :=
  .call (.scan startKey endKey limit) fun r => .ret (r.mapError fun _ => .other)

def prefixScan (pre : Bytes) (limit : ℕ) : Client api (Except PyError (List (Bytes × Bytes))) :=
  .call (.prefixScan pre limit) fun r => .ret (r.mapError fun _ => .other)

def close : Client api (Except PyError Bool) := .call .close fun r => .ret (raised r)

/-- A new process opens the database again. -/
def reopen (memtableCapacity : UInt64) : Client api (Except PyError Bool) :=
  .call (.reopen memtableCapacity 4) fun r => .ret (raised r)

end Bindings

end LsmTree

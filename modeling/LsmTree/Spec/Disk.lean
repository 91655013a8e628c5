import LsmTree.Base.Stream

/-!
# The files of a database

The engine keeps four kinds of files: the write-ahead log at `wal_path_`, the
manifest, the manifest's temporary, and the SSTables, which are named by their
path. The first three and the tables are taken to be different files.

Every change the code makes to a file is an `Effect`. A `World` is the present
state of the files together with the effects so far, in the order in which the
operating system saw them: a process that stops leaves the files as some prefix
of the effects made them.
-/

namespace LsmTree

open Base

structure Disk where
  wal : Option Bytes
  manifest : Option Bytes
  manifestTmp : Option Bytes
  tables : Bytes → Option Bytes

/-- An empty directory. -/
def Disk.empty : Disk := ⟨none, none, none, fun _ => none⟩

/-- One file-system effect. -/
inductive Effect where
  /-- `open(wal_path, O_CREAT | O_APPEND)` -/
  | walOpen
  /-- the bytes one `WAL::Append` got into the log -/
  | walAppend (b : Bytes)
  /-- `fsync` of the log -/
  | walSync
  | walTruncate
  /-- `SSTableBuilder`'s open with truncation -/
  | tableCreate (path : Bytes)
  /-- the whole content of a finished table -/
  | tableWrite (path content : Bytes)
  | tableRemove (path : Bytes)
  /-- the bytes one `AddSSTable` got into the manifest -/
  | manifestAppend (b : Bytes)
  /-- the temporary, created with its content -/
  | manifestTmp (content : Bytes)
  | manifestRename
  | manifestRemove
  deriving DecidableEq

/-- The table files with one of them changed. -/
def setTable (tables : Bytes → Option Bytes) (path : Bytes) (content : Option Bytes) :
    Bytes → Option Bytes :=
  fun p => if p = path then content else tables p

def Effect.apply : Effect → Disk → Disk
  | .walOpen, d => { d with wal := some (d.wal.getD []) }
  | .walAppend b, d => { d with wal := some (d.wal.getD [] ++ b) }
  | .walSync, d => d
  | .walTruncate, d => { d with wal := some [] }
  | .tableCreate path, d => { d with tables := setTable d.tables path (some []) }
  | .tableWrite path content, d => { d with tables := setTable d.tables path (some content) }
  | .tableRemove path, d => { d with tables := setTable d.tables path none }
  | .manifestAppend b, d => { d with manifest := some (d.manifest.getD [] ++ b) }
  | .manifestTmp content, d => { d with manifestTmp := some content }
  | .manifestRename, d => { d with manifest := d.manifestTmp, manifestTmp := none }
  | .manifestRemove, d => { d with manifest := none }

/-- How a call ends: it returns, throws with a text, or dereferences a null pointer. -/
inductive Outcome (α : Type) where
  | returned (a : α)
  | threw (what : Bytes)
  | undefined
  deriving DecidableEq

structure World where
  disk : Disk
  trace : List Effect

namespace World

def perform (e : Effect) (w : World) : World := ⟨e.apply w.disk, w.trace ++ [e]⟩

/-- No effects yet. -/
def ofDisk (d : Disk) : World := ⟨d, []⟩

@[simp] theorem disk_perform (e : Effect) (w : World) : (w.perform e).disk = e.apply w.disk := rfl

@[simp] theorem trace_perform (e : Effect) (w : World) : (w.perform e).trace = w.trace ++ [e] := rfl

end World

@[simp] theorem setTable_self (t : Bytes → Option Bytes) (p : Bytes) (c : Option Bytes) :
    setTable t p c p = c := by simp [setTable]

theorem setTable_of_ne {t : Bytes → Option Bytes} {p q : Bytes} (c : Option Bytes) (h : q ≠ p) :
    setTable t p c q = t q := by simp [setTable, h]

end LsmTree

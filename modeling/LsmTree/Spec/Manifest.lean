import LsmTree.Spec.Disk
import LsmTree.Base.Search

/-!
# The manifest (`manifest.cpp`)

The list of tables, one path a line, oldest first, kept in memory and in a file. A new
table is appended as a line; a compaction writes the new list to a temporary file and
renames it over the old one, removing the old one first if the rename is refused.
-/

namespace LsmTree

open Base

/-- `/` or `\` -/
def isSlash (b : UInt8) : Bool := b == 47 || b == 92

/-- The part of a path after its last slash. -/
def baseName (filename : Bytes) : Bytes :=
  match findLastOf isSlash filename with
  | none => filename
  | some lastSlash => filename.drop (lastSlash + 1)

/-- The last occurrence of the first of the prefixes that occurs at all, and the index
behind it. -/
def rfindFirst (base : Bytes) : List Bytes → Option ℕ
  | [] => none
  | p :: ps =>
    match rfind base p with
    | some pos => some (pos + p.length)
    | none => rfindFirst base ps

/-- The number between one of the prefixes and `.sst`, else the number the base name
starts with, else 0. -/
def extractId (prefixes : List Bytes) (filename : Bytes) : ℕ :=
  let base := baseName filename
  let named := do
    let start ← rfindFirst base prefixes
    let end_ ← find base (bytes ".sst") start
    stoull ((base.drop start).take (end_ - start))
  (named.or (stoull base)).getD 0

structure Manifest where
  sstableFiles : List Bytes
  deriving DecidableEq, Repr

/-- How the calls of `AddSSTable` end: the file cannot be opened, an error is seen when
it holds the first `written` bytes of the line, or all succeed. -/
inductive AddIO where
  | openFails
  | torn (written : ℕ)
  | ok
  deriving DecidableEq

/-- How writing the temporary ends, and whether each later call succeeds. -/
structure ReplaceIO where
  tmp : AddIO
  rename : Bool
  remove : Bool
  renameAgain : Bool
  deriving DecidableEq

def ReplaceIO.ok : ReplaceIO := ⟨.ok, true, true, true⟩

namespace Manifest

/-- One line as `LoadInternal` takes it: without a carriage return at its end. -/
def stripCR (line : Bytes) : Bytes := if line.getLast? = some 13 then line.dropLast else line

def load (d : Disk) : Manifest :=
  match d.manifest with
  | none => ⟨[]⟩
  | some content => ⟨((getlines content).map stripCR).filter (· ≠ [])⟩

def extractFileId (filename : Bytes) : ℕ :=
  extractId [bytes "data_", bytes "compacted_"] filename

def addSSTable (filename : Bytes) (io : AddIO) (m : Manifest) (w : World) :
    Bool × Manifest × World :=
  match io with
  | .openFails => (false, m, w)
  | .torn n => (false, m, w.perform (.manifestAppend ((filename ++ [newline]).take n)))
  | .ok => (true, ⟨m.sstableFiles ++ [filename]⟩, w.perform (.manifestAppend (filename ++ [newline])))

/-- The temporary and the rename, shared by both ways to replace. -/
def persist (updated : List Bytes) (io : ReplaceIO) (m : Manifest) (w : World) :
    Bool × Manifest × World :=
  match io.tmp with
  | .openFails => (false, m, w)
  | .torn n => (false, m, w.perform (.manifestTmp ((unlines updated).take n)))
  | .ok =>
    let w := w.perform (.manifestTmp (unlines updated))
    if io.rename then (true, ⟨updated⟩, w.perform .manifestRename)
    else
      let w := if io.remove then w.perform .manifestRemove else w
      if io.renameAgain then (true, ⟨updated⟩, w.perform .manifestRename) else (false, m, w)

/-- The list with the entries of a property replaced by one new name, in the place of
the first. -/
def replaceWhere (old : Bytes → Bool) (newFile : Bytes) : List Bytes → List Bytes
  | [] => [newFile]
  | f :: fs => if old f then newFile :: fs.filter (fun g => !old g) else f :: replaceWhere old newFile fs

/-- The directory of the first entry that has one, with its slash. -/
def dirPrefix : List Bytes → Bytes
  | [] => []
  | f :: fs =>
    match findLastOf isSlash f with
    | some lastSlash => f.take (lastSlash + 1)
    | none => dirPrefix fs

/-- Every id belongs to an entry. -/
def hasIds (m : Manifest) (ids : List ℕ) : Bool :=
  ids.all fun id => id ∈ m.sstableFiles.map extractFileId

/-- `ReplaceSSTables` by ids. -/
def replaceByIds (oldFileIds : List ℕ) (newFileId : ℕ) (io : ReplaceIO) (m : Manifest) (w : World) :
    Bool × Manifest × World :=
  if oldFileIds = [] then (false, m, w)
  else if !m.hasIds oldFileIds then (false, m, w)
  else
    let newFile := dirPrefix m.sstableFiles ++ bytes "compacted_" ++ decimal newFileId ++ bytes ".sst"
    m.persist (replaceWhere (fun f => extractFileId f ∈ oldFileIds) newFile m.sstableFiles) io w

/-- Every name is an entry. -/
def hasNames (m : Manifest) (names : List Bytes) : Bool := names.all fun f => f ∈ m.sstableFiles

/-- `ReplaceSSTables` by names; the engine's new name is never empty. -/
def replaceByNames (oldFiles : List Bytes) (newFile : Bytes) (io : ReplaceIO) (m : Manifest) (w : World) :
    Bool × Manifest × World :=
  if oldFiles = [] then (false, m, w)
  else if !m.hasNames oldFiles then (false, m, w)
  else
    let others := m.sstableFiles.filter fun f => f ∉ oldFiles
    m.persist (if newFile = [] then others
      else replaceWhere (fun f => f ∈ oldFiles) newFile m.sstableFiles) io w

end Manifest

end LsmTree

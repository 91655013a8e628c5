import LsmTree.Spec.BloomFilter
import LsmTree.Base.Search

/-!
# Sorted tables (`sstable_format.hpp`, `sstable_builder.cpp`, `sstable_reader.cpp`,
`sstable_iterator.cpp`)

A table file is a data block of records, a sparse index with every sixteenth record's
key and offset, a Bloom filter, and a footer of 40 bytes. Lengths are written as
32-bit, offsets as 64-bit little-endian integers.

A reader and an iterator hold the file open. The path of an open table is never opened
for writing again and unlinking does not touch an open file, so both keep the content
they were opened on.
-/

namespace LsmTree

open Base

/-- A record of a table. -/
structure SSTableRecord where
  key : Bytes
  value : Bytes
  isDeleted : Bool
  deriving DecidableEq, Repr

structure IndexEntry where
  key : Bytes
  offset : ℕ
  deriving DecidableEq, Repr

def kSSTableMagicNumber : ℕ := 0x4C534D00

def kSparseIndexInterval : ℕ := 16

structure SSTableFooter where
  indexOffset : ℕ
  indexSize : ℕ
  filterOffset : ℕ
  filterSize : ℕ
  entryCount : ℕ
  magicNumber : ℕ
  deriving DecidableEq, Repr

namespace SSTableFooter

/-- `sizeof(SSTableFooter)` -/
def size : ℕ := 40

def encode (f : SSTableFooter) : Bytes :=
  toLE 8 f.indexOffset ++ toLE 8 f.indexSize ++ toLE 8 f.filterOffset ++ toLE 8 f.filterSize ++
    toLE 4 f.entryCount ++ toLE 4 f.magicNumber

/-- The packed struct over 40 bytes. -/
def decode (b : Bytes) : SSTableFooter :=
  ⟨ofLE (b.take 8), ofLE ((b.drop 8).take 8), ofLE ((b.drop 16).take 8), ofLE ((b.drop 24).take 8),
    ofLE ((b.drop 32).take 4), ofLE ((b.drop 36).take 4)⟩

end SSTableFooter

/-! ## Building -/

structure SSTableBuilder where
  filePath : Bytes
  file : OfStream
  entryCount : ℕ
  currentOffset : ℕ
  indexEntries : List IndexEntry
  bloomFilter : BloomFilter
  finished : Bool

namespace SSTableBuilder

/-- The constructor: the file is opened with truncation. -/
def new (filePath : Bytes) (opens : Bool) (budget : Option ℕ) : SSTableBuilder :=
  ⟨filePath, .openTrunc opens budget, 0, 0, [], .default, false⟩

/-- The writes of one record. Lengths are cut to 32 bits, and so are the bytes. -/
def writeRecord (key value : Bytes) (isDeleted : Bool) (out : OfStream) : OfStream :=
  let keyLen := key.length % 2 ^ 32
  let valLen := value.length % 2 ^ 32
  let out := out.write (toLE 4 keyLen)
  let out := out.write (toLE 4 valLen)
  let out := if 0 < keyLen then out.write (key.take keyLen) else out
  let out := if 0 < valLen then out.write (value.take valLen) else out
  out.write [if isDeleted then 1 else 0]

def add (hash : Bytes → UInt64) (key value : Bytes) (isDeleted : Bool) (b : SSTableBuilder) :
    Bool × SSTableBuilder :=
  if b.finished || !b.file.isOpen || b.file.fail then (false, b)
  else
    let offset := b.file.tellp
    let file := writeRecord key value isDeleted b.file
    if file.fail then (false, { b with file := file })
    else
      (true, { b with
        file := file
        indexEntries :=
          if b.entryCount % kSparseIndexInterval = 0 then b.indexEntries ++ [⟨key, offset⟩]
          else b.indexEntries
        bloomFilter := b.bloomFilter.add hash key
        entryCount := b.entryCount + 1
        currentOffset := file.tellp })

/-- The writes of one index entry. -/
def writeIndexEntry (out : OfStream) (e : IndexEntry) : OfStream :=
  let keyLen := e.key.length % 2 ^ 32
  let out := out.write (toLE 4 keyLen)
  let out := if 0 < keyLen then out.write (e.key.take keyLen) else out
  out.write (toLE 8 e.offset)

def finish (b : SSTableBuilder) : Bool × SSTableBuilder :=
  if b.finished || !b.file.isOpen || b.file.fail then (false, b)
  else
    let indexOffset := b.file.tellp
    let file := b.indexEntries.foldl writeIndexEntry b.file
    let indexSize := file.tellp - indexOffset
    let filterOffset := file.tellp
    let file := b.bloomFilter.serialize file
    let filterSize := file.tellp - filterOffset
    let footer : SSTableFooter :=
      ⟨indexOffset, indexSize, filterOffset, filterSize, b.entryCount, kSSTableMagicNumber⟩
    let file := (file.write footer.encode).close
    if file.fail then (false, { b with file := file })
    else (true, { b with file := file, finished := true })

end SSTableBuilder

/-! ## Reading -/

/-- One record off a stream: `none` once a read fails. A failed stream stays failed, so
it makes no difference after which of the reads the failure is looked at. -/
def readRecord (s : IfStream) : Option SSTableRecord × IfStream :=
  let (kl, s) := s.read 4
  if s.fail then (none, s)
  else
    let (vl, s) := s.read 4
    if s.fail then (none, s)
    else
      let (key, s) := if 0 < ofLE kl then s.read (ofLE kl) else ([], s)
      if s.fail then (none, s)
      else
        let (value, s) := if 0 < ofLE vl then s.read (ofLE vl) else ([], s)
        if s.fail then (none, s)
        else
          let (del, s) := s.read 1
          if s.fail then (none, s) else (some ⟨key, value, del ≠ [0]⟩, s)

/-- Opening a table: the stream behind the footer and the footer, or the text thrown. -/
def openTable (filepath : Bytes) (content : Option Bytes) : Except Bytes (IfStream × SSTableFooter) :=
  match content with
  | none => .error (bytes "Failed to open SSTable file: " ++ filepath)
  | some data =>
    if data.length < SSTableFooter.size then
      .error (bytes "SSTable file is too small to contain footer: " ++ filepath)
    else
      let (b, s) := ((IfStream.ofData data).seekg (data.length - SSTableFooter.size)).read SSTableFooter.size
      let footer := SSTableFooter.decode b
      if s.fail || footer.magicNumber ≠ kSSTableMagicNumber then
        .error (bytes "Invalid SSTable footer magic number in file: " ++ filepath)
      else .ok (s, footer)

structure SSTableReader where
  filepath : Bytes
  data : Bytes
  footer : SSTableFooter
  sparseIndex : List (Bytes × ℕ)
  bloomFilter : BloomFilter
  deriving DecidableEq

namespace SSTableReader

/-- The loop over the sparse index; an entry takes at least twelve bytes of the file. `none`
where there is no room for a key. -/
def readIndex (allocates : ℕ → Bool) (indexSize : ℕ) : ℕ → ℕ → IfStream → Option (List (Bytes × ℕ))
  | 0, _, _ => some []
  | fuel + 1, bytesRead, s =>
    if indexSize ≤ bytesRead || !s.good then some []
    else
      let (kl, s) := s.read 4
      if s.fail then some []
      else if allocates (ofLE kl) = false then none
      else
        let (key, s) := if 0 < ofLE kl then s.read (ofLE kl) else ([], s)
        let (off, s) := s.read 8
        if s.fail then some []
        else (readIndex allocates indexSize fuel (bytesRead + 4 + ofLE kl + 8) s).map ((key, ofLE off) :: ·)

/-- The constructor on the file's content. The lengths in a file may ask for any number of
bytes: `allocates` says for how many there is room. -/
def new (filepath : Bytes) (content : Option Bytes) (allocates : ℕ → Bool := fun _ => true) :
    Except Bytes SSTableReader :=
  match openTable filepath content with
  | .error what => .error what
  | .ok (s, footer) =>
    match BloomFilter.default.deserialize (s.seekg footer.filterOffset) allocates with
    | .error what => .error what
    | .ok (bloom, s) =>
      match readIndex allocates footer.indexSize (s.data.length + 1) 0 (s.seekg footer.indexOffset) with
      | none => .error (bytes "std::bad_alloc")
      | some index => .ok ⟨filepath, s.data, footer, index, bloom⟩

/-- The offset the sparse index gives for a key. -/
def startOffset (index : List (Bytes × ℕ)) (key : Bytes) : Option ℕ :=
  let it := lowerBound (fun i => (index[i]?).any fun e => e.1 < key) index.length
  if it = index.length then index.getLast?.map Prod.snd
  else if (index[it]?).any (fun e => e.1 = key) then (index[it]?).map Prod.snd
  else if it = 0 then (index[it]?).map Prod.snd
  else (index[it - 1]?).map Prod.snd

/-- The forward scan; a record takes at least nine bytes of the file. -/
def scan (indexOffset : ℕ) (key : Bytes) : ℕ → IfStream → Option (Bytes × Bool) × IfStream
  | 0, s => (none, s)
  | fuel + 1, s =>
    if !s.good then (none, s)
    else if indexOffset ≤ s.tellg then (none, s)
    else
      match readRecord s with
      | (none, s) => (none, s)
      | (some r, s) =>
        if r.key = key then (some (r.value, r.isDeleted), s)
        else if key < r.key then (none, s)
        else scan indexOffset key fuel s

/-- `Get` with the stream as an earlier call left it. -/
def getFrom (hash : Bytes → UInt64) (r : SSTableReader) (key : Bytes) (s : IfStream) :
    Option (Bytes × Bool) × IfStream :=
  if !r.bloomFilter.mayContain hash key then (none, s)
  else
    match startOffset r.sparseIndex key with
    | none => (none, s)
    | some off => scan r.footer.indexOffset key (r.data.length + 1) (s.clear.seekg off)

/-- `Get`: the value and the deletion flag. Clearing and seeking make a fresh start, so
the stream of an earlier call is of no consequence. -/
def get (hash : Bytes → UInt64) (r : SSTableReader) (key : Bytes) : Option (Bytes × Bool) :=
  (r.getFrom hash key (.ofData r.data)).1

end SSTableReader

/-! ## Iterating -/

structure SSTableIterator where
  file : IfStream
  dataEndOffset : ℕ
  currentOffset : ℕ
  currentRecord : SSTableRecord
  valid : Bool
  deriving DecidableEq

namespace SSTableIterator

def readNextRecord (it : SSTableIterator) : SSTableIterator :=
  if it.dataEndOffset ≤ it.file.tellg then { it with valid := false }
  else
    match readRecord it.file with
    | (none, s) => { it with file := s, valid := false }
    | (some r, s) =>
      if it.dataEndOffset < s.tellg then { it with file := s, valid := false }
      else { it with file := s, currentRecord := r, currentOffset := s.tellg, valid := true }

def seekToFirst (it : SSTableIterator) : SSTableIterator :=
  readNextRecord { it with file := it.file.clear.seekg 0, currentOffset := 0 }

def next (it : SSTableIterator) : SSTableIterator := if it.valid then it.readNextRecord else it

/-- The constructor on the file's content. -/
def new (filepath : Bytes) (content : Option Bytes) : Except Bytes SSTableIterator :=
  match openTable filepath content with
  | .error what => .error what
  | .ok (s, footer) => .ok (seekToFirst ⟨s, footer.indexOffset, 0, ⟨[], [], false⟩, false⟩)

def key (it : SSTableIterator) : Bytes := it.currentRecord.key

def value (it : SSTableIterator) : Bytes := it.currentRecord.value

def isDeleted (it : SSTableIterator) : Bool := it.currentRecord.isDeleted

end SSTableIterator

end LsmTree

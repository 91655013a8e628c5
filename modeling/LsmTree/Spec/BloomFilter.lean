import LsmTree.Base.Stream

/-!
# The Bloom filter (`bloom_filter.cpp`)

Double hashing with 64-bit wrap-around over a bit array packed in bytes. The hash
function behind it, `std::hash<std::string>`, is a parameter.

Tables use the default constructor only. Its arguments are 1000 items and a rate of
0.01, for which the formulas of the source give 9586 bits and 7 hashes; the rate is
kept as its IEEE 754 bit pattern, which is all that is written to a file.
-/

namespace LsmTree

open Base

structure BloomFilter where
  expectedItems : UInt64
  /-- the bit pattern of the double -/
  fpRate : UInt64
  bitCount : UInt64
  hashCount : UInt64
  bits : Bytes
  deriving DecidableEq, Repr

namespace BloomFilter

def default : BloomFilter := ⟨1000, 0x3F847AE147AE147B, 9586, 7, List.replicate 1199 0⟩

section

variable (hash : Bytes → UInt64)

def getHashes (key : Bytes) : UInt64 × UInt64 :=
  let h2 := hash (key ++ [1])
  (hash key, if h2 = 0 then 1 else h2)

/-- The bit indices of a key. -/
def probes (f : BloomFilter) (key : Bytes) : List ℕ :=
  let (h1, h2) := getHashes hash key
  (List.range f.hashCount.toNat).map fun i => ((.ofNat i * h2 + h1) % f.bitCount).toNat

/-- `1u << (bit_idx % 8)` -/
def bitMask (bitIdx : ℕ) : UInt8 := .ofNat (2 ^ (bitIdx % 8))

def setBit (bits : Bytes) (bitIdx : ℕ) : Bytes := bits.modify (bitIdx / 8) (· ||| bitMask bitIdx)

def testBit (bits : Bytes) (bitIdx : ℕ) : Bool := (bits.getD (bitIdx / 8) 0) &&& bitMask bitIdx ≠ 0

def add (f : BloomFilter) (key : Bytes) : BloomFilter :=
  if f.bitCount = 0 then f else { f with bits := (f.probes hash key).foldl setBit f.bits }

def mayContain (f : BloomFilter) (key : Bytes) : Bool :=
  if f.bitCount = 0 then false else (f.probes hash key).all (testBit f.bits)

end

def serialize (f : BloomFilter) (out : OfStream) : OfStream :=
  let out := out.write (toLE 8 f.expectedItems.toNat)
  let out := out.write (toLE 8 f.fpRate.toNat)
  let out := out.write (toLE 8 f.bitCount.toNat)
  let out := out.write (toLE 8 f.hashCount.toNat)
  let out := out.write (toLE 8 f.bits.length)
  if f.bits = [] then out else out.write f.bits

/-- A `uint64_t`, zero before the read. -/
def readU64 (s : IfStream) : UInt64 × IfStream := (.ofNat (ofLE (s.read 8).1), (s.read 8).2)

/-- `bits_.resize(n)` over the bytes there, then a read over the front of them. -/
def readBits (n : ℕ) (old : Bytes) (s : IfStream) : Bytes × IfStream :=
  let resized := old.take n ++ List.replicate (n - old.length) 0
  if n = 0 then (resized, s)
  else ((s.read n).1 ++ resized.drop (s.read n).1.length, (s.read n).2)

/-- `Deserialize`, or the text that `resize` throws: there are no vectors of 2^63 bytes, and
where the bytes are more than those there, `allocates` says whether there is room for them. -/
def deserialize (f : BloomFilter) (s : IfStream) (allocates : ℕ → Bool := fun _ => true) :
    Except Bytes (BloomFilter × IfStream) :=
  let (expItems, s) := readU64 s
  let (fpRate, s) := readU64 s
  let (bitCnt, s) := readU64 s
  let (hashCnt, s) := readU64 s
  let (byteCnt, s) := readU64 s
  if 2 ^ 63 ≤ byteCnt.toNat then .error (bytes "vector::_M_default_append")
  else if f.bits.length < byteCnt.toNat ∧ allocates byteCnt.toNat = false then .error (bytes "std::bad_alloc")
  else
    let (bits, s) := readBits byteCnt.toNat f.bits s
    .ok (⟨expItems, fpRate, bitCnt, hashCnt, bits⟩, s)

end BloomFilter

end LsmTree

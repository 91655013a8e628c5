import LsmTree.Spec.Disk
import LsmTree.Base.Search

/-!
# The write-ahead log (`wal.cpp`)

One JSON line a record. `append` escapes the fields and writes the line with one
`fsync`; `recover` splits the file into lines and parses each by searching the
line for the quoted field names, stopping at the first line that does not parse.
-/

namespace LsmTree

open Base

structure LogEntry where
  operation : Bytes
  key : Bytes
  value : Bytes
  timestamp : ℤ
  deriving DecidableEq, Repr

namespace WAL

/-! ## Parsing fields -/

/-- The double quote. -/
def dquote : UInt8 := 34

def backslash : UInt8 := 92

def colon : UInt8 := 58

/-- `"\"" + field_name + "\""` -/
def target (fieldName : Bytes) : Bytes := dquote :: fieldName ++ [dquote]

/-- How many backslashes stand right before index `p`, not looking before `start`. -/
def slashes (line : Bytes) (start : ℕ) : ℕ → ℕ
  | 0 => 0
  | p + 1 => if start < p + 1 ∧ (line)[p]? = some backslash then slashes line start p + 1 else 0

/-- The scan for the ending quote: `n` characters of the line are left from `end_` on. -/
def endQuote (line : Bytes) (start : ℕ) : ℕ → ℕ → ℕ
  | 0, end_ => end_
  | n + 1, end_ =>
    if (line)[end_]? = some dquote ∧ slashes line start end_ % 2 = 0 then end_
    else endQuote line start n (end_ + 1)

def parseStringField (line fieldName : Bytes) : Option Bytes := do
  let pos ← find line (target fieldName) 0
  let pos ← find line [colon] (pos + (target fieldName).length)
  let pos ← find line [dquote] pos
  let start := pos + 1
  let end_ := endQuote line start (line.length - start) start
  if line.length ≤ end_ then none else some ((line.drop start).take (end_ - start))

/-- A blank or a tab. -/
def isBlank (b : UInt8) : Bool := b == 32 || b == 9

/-- An optional minus sign and a run of digits. -/
def integerSpan (s : Bytes) : Bytes :=
  match s with
  | 45 :: t => 45 :: t.takeWhile isDigit
  | t => t.takeWhile isDigit

def parseIntegerField (line fieldName : Bytes) : Option ℤ := do
  let pos ← find line (target fieldName) 0
  let pos ← find line [colon] (pos + (target fieldName).length)
  let rest := (line.drop (pos + 1)).dropWhile isBlank
  if rest = [] then none
  else if integerSpan rest = [] then none
  else stoll (integerSpan rest)

/-! ## Escaping -/

def hexDigit (n : ℕ) : UInt8 := if n < 10 then UInt8.ofNat (48 + n) else UInt8.ofNat (87 + n)

/-- `"%04x"` -/
def hex4 (n : ℕ) : Bytes :=
  [hexDigit (n / 4096 % 16), hexDigit (n / 256 % 16), hexDigit (n / 16 % 16), hexDigit (n % 16)]

def escapeByte (c : UInt8) : Bytes :=
  if c = dquote then [backslash, dquote]
  else if c = backslash then [backslash, backslash]
  else if c = 8 then [backslash, 98]
  else if c = 12 then [backslash, 102]
  else if c = 10 then [backslash, 110]
  else if c = 13 then [backslash, 114]
  else if c = 9 then [backslash, 116]
  else if c < 32 then backslash :: 117 :: hex4 c.toNat
  else [c]

def escapeJSON (s : Bytes) : Bytes := s.flatMap escapeByte

/-- The value of a hexadecimal digit. -/
def hexValue (b : UInt8) : Option ℕ :=
  if 48 ≤ b ∧ b ≤ 57 then some (b.toNat - 48)
  else if 97 ≤ b ∧ b ≤ 102 then some (b.toNat - 87)
  else if 65 ≤ b ∧ b ≤ 70 then some (b.toNat - 55)
  else none

/-- `std::stoi(s, nullptr, 16)` on a string too short to be out of range: blanks, a
sign, `0x` if a digit follows it, and digits up to the first other character. -/
def stoiHex (s : Bytes) : Option ℤ :=
  let s := s.dropWhile isSpace
  let (neg, s) := match s with
    | 45 :: t => (true, t)
    | 43 :: t => (false, t)
    | t => (false, t)
  let s := match s with
    | 48 :: x :: d :: t => if (x = 120 ∨ x = 88) ∧ (hexValue d).isSome then d :: t else s
    | _ => s
  let ds := s.takeWhile fun b => (hexValue b).isSome
  if ds = [] then none
  else
    let v : ℤ := ds.foldl (fun a b => 16 * a + (hexValue b).getD 0) 0
    some (if neg then -v else v)

/-- What a `\u` with the four characters `hex` after it stands for. -/
def unescapeUnicode (hex : Bytes) : Bytes :=
  match stoiHex hex with
  | some code => if code < 128 then [UInt8.ofNat (code % 256).toNat] else [63]
  | none => backslash :: 117 :: hex

/-- What a backslash before `next` stands for, `u` apart. -/
def unescapeChar (next : UInt8) : UInt8 :=
  if next = 98 then 8
  else if next = 102 then 12
  else if next = 110 then 10
  else if next = 114 then 13
  else if next = 116 then 9
  else next

def unescapeJSON : Bytes → Bytes
  | [] => []
  | [c] => [c]
  | c :: next :: rest =>
    if c = backslash then
      if next = 117 then
        match rest with
        | a :: b :: c :: d :: rest => unescapeUnicode [a, b, c, d] ++ unescapeJSON rest
        | rest => backslash :: 117 :: unescapeJSON rest
      else unescapeChar next :: unescapeJSON rest
    else c :: unescapeJSON (next :: rest)

def parseLogEntry (line : Bytes) : Option LogEntry := do
  let op ← parseStringField line (bytes "operation")
  let key ← parseStringField line (bytes "key")
  let val ← parseStringField line (bytes "value")
  let ts ← parseIntegerField line (bytes "timestamp")
  some ⟨unescapeJSON op, unescapeJSON key, unescapeJSON val, ts⟩

/-! ## The log file -/

/-- The JSON line of a record, without its newline. -/
def jsonLine (operation key value : Bytes) (timestamp : Int64) : Bytes :=
  bytes "\x7b\"operation\":\"" ++ escapeJSON operation ++ bytes "\",\"key\":\"" ++ escapeJSON key ++
    bytes "\",\"value\":\"" ++ escapeJSON value ++ bytes "\",\"timestamp\":" ++
    decimalInt timestamp.toInt ++ bytes "\x7d"

/-- How the `write` calls and the `fsync` of one `Append` end: both succeed, or an
error is seen when the log holds the first `written` bytes of the line (all of them
when it is the `fsync` that fails). -/
inductive AppendIO where
  | ok
  | torn (written : ℕ)
  deriving DecidableEq

def append (operation key value : Bytes) (now : Int64) (io : AppendIO) (w : World) : Bool × World :=
  let line := jsonLine operation key value now ++ [newline]
  match io with
  | .ok => (true, (w.perform (.walAppend line)).perform .walSync)
  | .torn n => (false, w.perform (.walAppend (line.take n)))

/-- The replay loop of `Recover` over the lines of the file. -/
def replay : List Bytes → List LogEntry
  | [] => []
  | line :: lines =>
    if line = [] then replay lines
    else match parseLogEntry line with
      | some entry => entry :: replay lines
      | none => []

/-- `Recover`: its return value and the entries. `readable` is whether an existing
file can be opened for reading. -/
def recover (readable : Bool) (d : Disk) : Bool × List LogEntry :=
  match d.wal with
  | none => (true, [])
  | some content => if readable then (true, replay (getlines content)) else (false, [])

end WAL

end LsmTree

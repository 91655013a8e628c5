import LsmTree.Base.Words
import LsmTree.Spec.Api

/-!
# The shell (`main.cpp`)

The read-eval-print loop as a client of the engine: what it prints for the lines that it reads.

* `Cli.turn`: one line.
* `Cli.loop`: the loop; an exception of the engine ends the process.
* `Cli.main`: the process, on the bytes of its standard input. The engine is not closed at the
  end, so the next process finds the last writes in the log.
-/

namespace LsmTree

open Base

namespace Cli

/-- One of `" \t\r\n"`. -/
def isBlank (b : UInt8) : Bool := b == 32 || b == 9 || b == 13 || b == 10

def trim (str : Bytes) : Bytes := trimmed isBlank str

def toUpper (str : Bytes) : Bytes := str.map fun c => if 97 ≤ c ∧ c ≤ 122 then c - 32 else c

/-- `std::cout << s << std::endl` -/
def println (s : Bytes) : Bytes := s ++ [newline]

/-- How a turn of the loop ends. -/
inductive Turn where
  | printed (out : Bytes)
  | bye
  /-- an exception leaves `main` -/
  | terminated
  deriving DecidableEq

/-- What is printed for a call that returns whether it succeeded. -/
def acknowledged (operation : Bytes) : Outcome Bool → Turn
  | .returned true => .printed (println (bytes "OK"))
  | .returned false => .printed (println (bytes "(error) Failed to execute " ++ operation ++ bytes " operation"))
  | .threw _ => .terminated
  | .undefined => .terminated

def listed (results : List (Bytes × Bytes)) : Bytes :=
  println (bytes "(" ++ decimal results.length ++ bytes " items)") ++
    results.flatMap fun pair => println (pair.1 ++ bytes " => " ++ pair.2)

def scanned : Except Bytes (List (Bytes × Bytes)) → Turn
  | .ok results => .printed (listed results)
  | .error _ => .terminated

def quoted (val : Bytes) : Bytes := println (bytes "\"" ++ val ++ bytes "\"")

def nilText : Bytes := println (bytes "(nil)")

def deletedText : Bytes := println (bytes "(error) Key marked as deleted")

/-- What is printed for the answer of `Get`. -/
def found : Option (Bytes × Bool) → Turn
  | some (val, false) => .printed (quoted val)
  | some (_, true) => .printed deletedText
  | none => .printed nilText

def usage (text : Bytes) : Turn := .printed (println (bytes "(error) Usage: " ++ text))

def turn (line : Bytes) : Client api Turn :=
  let trimmed := trim line
  if trimmed = [] then .ret (.printed [])
  else
    let (cmd, ss) := word trimmed
    let upperCmd := toUpper cmd
    if upperCmd = bytes "EXIT" ∨ upperCmd = bytes "QUIT" then .ret .bye
    else if upperCmd = bytes "PUT" then
      let (key, ss) := word ss
      if key = [] then .ret (usage (bytes "PUT <key> <val>"))
      else
        -- the rest of the line, with the blanks inside it
        let val := trim (ss.takeWhile (· ≠ newline))
        if val = [] then .ret (usage (bytes "PUT <key> <val>"))
        else .call (.put key val) fun r => .ret (acknowledged (bytes "PUT") r)
    else if upperCmd = bytes "GET" then
      let (key, _) := word ss
      if key = [] then .ret (usage (bytes "GET <key>"))
      else .call (.find key) fun r => .ret (found r)
    else if upperCmd = bytes "DEL" ∨ upperCmd = bytes "DELETE" then
      let (key, _) := word ss
      if key = [] then .ret (usage (bytes "DEL <key>"))
      else .call (.delete key) fun r => .ret (acknowledged (bytes "DEL") r)
    else if upperCmd = bytes "SCAN" then
      let (startKey, ss) := word ss
      let (endKey, ss) := word ss
      .call (.scan startKey endKey (readSize ss)) fun r => .ret (scanned r)
    else if upperCmd = bytes "PREFIX_SCAN" ∨ upperCmd = bytes "PREFIXSCAN" then
      let (pre, ss) := word ss
      .call (.prefixScan pre (readSize ss)) fun r => .ret (scanned r)
    else .ret (.printed (println (bytes "(error) Unknown command: " ++ cmd)))

def prompt : Bytes := bytes "lsm-db> "

/-- What is printed, and whether `main` returns. -/
def loop : List Bytes → Client api (Bytes × Bool)
  | [] => .ret (prompt ++ println (bytes "\nBye!"), true)
  | line :: lines => (turn line).bind fun
    | .printed out => (loop lines).bind fun (rest, returns) => .ret (prompt ++ out ++ rest, returns)
    | .bye => .ret (prompt ++ println (bytes "Bye!"), true)
    | .terminated => .ret (prompt, false)

def banner : Bytes := unlines [
  bytes "==================================================",
  bytes "  LSM-Tree Key-Value Database CLI REPL Shell      ",
  bytes "==================================================",
  bytes "Commands available:",
  bytes "  PUT <key> <val>           : Insert or update a key-value pair",
  bytes "  GET <key>                 : Retrieve value for a given key",
  bytes "  DEL <key>                 : Delete a key (tombstone write)",
  bytes "  SCAN <start> <end> [lim]  : Scan range [start, end] up to limit",
  bytes "  PREFIX_SCAN <pfx> [lim]   : Scan by prefix up to limit",
  bytes "  EXIT                      : Exit the database CLI shell",
  bytes "=================================================="]

def main (stdin : Bytes) : Client api (Bytes × Bool) :=
  .call (.reopen 4096 4) fun
    | .returned _ => (loop (getlines stdin)).bind fun (out, returns) => .ret (banner ++ out, returns)
    | .threw _ => .ret (banner, false)
    | .undefined => .ret (banner, false)

/-- `StorageEngine db;` -/
def config : Config := ⟨4096, bytes "wal.log", bytes ".", 4⟩

/-- One process after another, on one directory. -/
def processes : List Bytes → Client api (List (Bytes × Bool))
  | [] => .ret []
  | stdin :: rest => (main stdin).bind fun printed => (processes rest).bind fun out => .ret (printed :: out)

end Cli

end LsmTree

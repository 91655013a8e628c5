import LsmTree.Proof.Api
import LsmTree.Spec.Cli

/-!
# What the shell prints

The shell prints what a map would, up to the text for a key without a value: the engine may
still know that it was deleted.

* `command`: what a line asks for; `turn_eq`: the loop does that.
* `Transcript`: what a map would print for the lines of a process.
* `cli_transcripts`: **every process prints what a map would**, and the next one goes on with
  that map, also if the first never closed the engine.
* `cli_lists`: **what is typed is what is listed** by a later process.
-/

namespace LsmTree

open Base
open DBIterator (upTo)

variable {m m' : Engine} {line key value : Bytes}

namespace Cli

/-! ## Lines -/

inductive Command where
  | blank
  | exit
  | usage (text : Bytes)
  | put (key value : Bytes)
  | find (key : Bytes)
  | delete (key : Bytes)
  | scan (startKey endKey : Bytes) (limit : ℕ)
  | prefixScan (pre : Bytes) (limit : ℕ)
  | unknown (cmd : Bytes)
  deriving DecidableEq

/-- What the words behind a command ask for. -/
def asked (cmd ss : Bytes) : Command :=
  let upperCmd := toUpper cmd
  if upperCmd = bytes "EXIT" ∨ upperCmd = bytes "QUIT" then .exit
  else if upperCmd = bytes "PUT" then
    if (word ss).1 = [] then .usage (bytes "PUT <key> <val>")
    else if trim ((word ss).2.takeWhile (· ≠ newline)) = [] then .usage (bytes "PUT <key> <val>")
    else .put (word ss).1 (trim ((word ss).2.takeWhile (· ≠ newline)))
  else if upperCmd = bytes "GET" then
    if (word ss).1 = [] then .usage (bytes "GET <key>") else .find (word ss).1
  else if upperCmd = bytes "DEL" ∨ upperCmd = bytes "DELETE" then
    if (word ss).1 = [] then .usage (bytes "DEL <key>") else .delete (word ss).1
  else if upperCmd = bytes "SCAN" then
    .scan (word ss).1 (word (word ss).2).1 (readSize (word (word ss).2).2)
  else if upperCmd = bytes "PREFIX_SCAN" ∨ upperCmd = bytes "PREFIXSCAN" then
    .prefixScan (word ss).1 (readSize (word ss).2)
  else .unknown cmd

/-- What a line asks for. -/
def command (line : Bytes) : Command :=
  if trim line = [] then .blank else asked (word (trim line)).1 (word (trim line)).2

def Command.client : Command → Client api Turn
  | .blank => .ret (.printed [])
  | .exit => .ret .bye
  | .usage text => .ret (Cli.usage text)
  | .put key value => .call (.put key value) fun r => .ret (acknowledged (bytes "PUT") r)
  | .find key => .call (.find key) fun r => .ret (found r)
  | .delete key => .call (.delete key) fun r => .ret (acknowledged (bytes "DEL") r)
  | .scan startKey endKey limit => .call (.scan startKey endKey limit) fun r => .ret (scanned r)
  | .prefixScan pre limit => .call (.prefixScan pre limit) fun r => .ret (scanned r)
  | .unknown cmd => .ret (.printed (println (bytes "(error) Unknown command: " ++ cmd)))

/-- **A turn of the loop** does what the line asks for. -/
theorem turn_eq (line : Bytes) : turn line = (command line).client := by
  unfold turn command asked
  simp only
  split_ifs <;> rfl

/-- What a map prints. -/
def Command.Says (m : Engine) : Command → Turn → Prop
  | .blank, t => t = .printed []
  | .exit, t => t = .bye
  | .usage text, t => t = Cli.usage text
  | .put _ _, t => t = .printed (println (bytes "OK"))
  | .find key, t => match m.get key with
    | some val => t = .printed (quoted val)
    | none => t = .printed nilText ∨ t = .printed deletedText
  | .delete _, t => t = .printed (println (bytes "OK"))
  | .scan startKey endKey limit, t => t = .printed (listed (upTo limit (m.scan (inRange startKey endKey))))
  | .prefixScan pre limit, t => t = .printed (listed (upTo limit (m.prefixScan pre)))
  | .unknown cmd, t => t = .printed (println (bytes "(error) Unknown command: " ++ cmd))

/-- The map behind it. -/
def Command.effect : Command → Engine → Engine
  | .put key value, m => m.put key value
  | .delete key, m => m.delete key
  | _, m => m

theorem client_allowed {c : Command} {t : Turn} (h : Engine.allowed.Allows c.client m t m') :
    c.Says m t ∧ m' = c.effect m := by
  cases c with
  | blank => exact Specification.allows_ret.1 h
  | exit => exact Specification.allows_ret.1 h
  | usage text => exact Specification.allows_ret.1 h
  | unknown cmd => exact Specification.allows_ret.1 h
  | put key value =>
    obtain ⟨r, m₁, ⟨rfl, rfl⟩, hret⟩ := Specification.allows_call.1 h
    exact Specification.allows_ret.1 hret
  | delete key =>
    obtain ⟨r, m₁, ⟨rfl, rfl⟩, hret⟩ := Specification.allows_call.1 h
    exact Specification.allows_ret.1 hret
  | scan startKey endKey limit =>
    obtain ⟨r, m₁, ⟨rfl, rfl⟩, hret⟩ := Specification.allows_call.1 h
    exact Specification.allows_ret.1 hret
  | prefixScan pre limit =>
    obtain ⟨r, m₁, ⟨rfl, rfl⟩, hret⟩ := Specification.allows_call.1 h
    exact Specification.allows_ret.1 hret
  | find key =>
    obtain ⟨r, m₁, ⟨hanswer, rfl⟩, hret⟩ := Specification.allows_call.1 h
    obtain ⟨rfl, rfl⟩ := Specification.allows_ret.1 hret
    refine ⟨?_, rfl⟩
    simp only [Command.Says, ← hanswer]
    match r with
    | some (val, false) => exact rfl
    | some (val, true) => exact Or.inr rfl
    | none => exact Or.inl rfl

/-! ## Processes -/

/-- What a map prints for the lines of a process, and the map behind them. -/
inductive Transcript : Engine → List Bytes → Bytes → Engine → Prop
  | eof (m : Engine) : Transcript m [] (prompt ++ println (bytes "\nBye!")) m
  | exit {line : Bytes} {lines : List Bytes} (m : Engine) (h : (command line).Says m .bye) :
    Transcript m (line :: lines) (prompt ++ println (bytes "Bye!")) m
  | turn {m m' : Engine} {line out rest : Bytes} {lines : List Bytes} (h : (command line).Says m (.printed out))
    (hrest : Transcript ((command line).effect m) lines rest m') :
    Transcript m (line :: lines) (prompt ++ out ++ rest) m'

/-- What it prints for one process after another. All return from `main`. -/
inductive Printed : Engine → List Bytes → List (Bytes × Bool) → Engine → Prop
  | nil (m : Engine) : Printed m [] [] m
  | cons {m m₁ m' : Engine} {stdin out : Bytes} {rest : List Bytes} {outs : List (Bytes × Bool)}
    (h : Transcript m (getlines stdin) out m₁) (hrest : Printed m₁ rest outs m') :
    Printed m (stdin :: rest) ((banner ++ out, true) :: outs) m'

theorem Command.not_terminated (c : Command) (m : Engine) : ¬ c.Says m .terminated := by
  cases c <;> simp [Command.Says, Cli.usage]
  split <;> simp

theorem Command.effect_of_bye {c : Command} (h : c.Says m .bye) : c.effect m = m := by
  cases c <;> first | rfl | exact absurd h (by simp [Command.Says])

/-- **The loop** prints the transcript. -/
theorem loop_allowed {lines : List Bytes} {out : Bytes} {returns : Bool} : ∀ {m m' : Engine},
    Engine.allowed.Allows (loop lines) m (out, returns) m' → returns = true ∧ Transcript m lines out m' := by
  induction lines generalizing out returns with
  | nil =>
    intro m m' h
    obtain ⟨hout, rfl⟩ := Specification.allows_ret.1 h
    obtain ⟨rfl, rfl⟩ := Prod.mk.inj hout
    exact ⟨rfl, .eof m'⟩
  | cons line lines ih =>
    intro m m' h
    unfold loop at h
    obtain ⟨t, m₁, hturn, hnext⟩ := Specification.allows_bind.1 h
    rw [turn_eq] at hturn
    obtain ⟨hsaid, rfl⟩ := client_allowed hturn
    cases t with
    | printed printed =>
      obtain ⟨⟨rest, returns'⟩, m₂, hloop, hret⟩ := Specification.allows_bind.1 hnext
      obtain ⟨hreturns, htranscript⟩ := ih hloop
      obtain ⟨hout, rfl⟩ := Specification.allows_ret.1 hret
      obtain ⟨rfl, rfl⟩ := Prod.mk.inj hout
      exact ⟨hreturns, .turn hsaid htranscript⟩
    | bye =>
      obtain ⟨hout, rfl⟩ := Specification.allows_ret.1 hnext
      obtain ⟨rfl, rfl⟩ := Prod.mk.inj hout
      rw [Command.effect_of_bye hsaid]
      exact ⟨rfl, .exit m hsaid⟩
    | terminated => exact absurd hsaid (Command.not_terminated _ m)

theorem processes_allowed {inputs : List Bytes} {outs : List (Bytes × Bool)} : ∀ {m : Engine},
    Engine.allowed.Allows (processes inputs) m outs m' → Printed m inputs outs m' := by
  induction inputs generalizing outs with
  | nil =>
    intro m h
    obtain ⟨rfl, rfl⟩ := Specification.allows_ret.1 h
    exact .nil m'
  | cons stdin rest ih =>
    intro m h
    unfold processes main at h
    obtain ⟨printed, m₁, hmain, hnext⟩ := Specification.allows_bind.1 h
    obtain ⟨r, m₂, ⟨rfl, rfl⟩, hopened⟩ := Specification.allows_call.1 hmain
    obtain ⟨⟨out, returns⟩, m₃, hloop, hret⟩ := Specification.allows_bind.1 hopened
    obtain ⟨rfl, rfl⟩ := Specification.allows_ret.1 hret
    obtain ⟨outs', m₄, hrest, hlast⟩ := Specification.allows_bind.1 hnext
    obtain ⟨rfl, rfl⟩ := Specification.allows_ret.1 hlast
    obtain ⟨rfl, htranscript⟩ := loop_allowed hloop
    exact .cons htranscript (ih hrest)

variable {hash : Bytes → UInt64} {heaps : Heaps} {clock : System → Int64} {e : StorageEngine} {w : World}

/-- **Every process prints what a map would**, and the next one goes on with that map. -/
theorem cli_transcripts (hopen : StorageEngine.new config .ok (World.ofDisk Disk.empty) = (.ok e, w))
    (inputs : List Bytes)
    (hmeets : (System.machine hash heaps clock).Meets (ApiCall.Good hash clock) (processes inputs) ⟨e, w⟩) :
    ∃ m, Printed .empty inputs ((System.machine hash heaps clock).run (processes inputs) ⟨e, w⟩).1 m ∧
      Represents hash ((System.machine hash heaps clock).run (processes inputs) ⟨e, w⟩).2 m := by
  obtain ⟨m, hallows, hrep⟩ := (represents_simulates hash heaps clock).run
    (represents_fresh hash (by decide) (by decide) hopen) hmeets
  exact ⟨m, processes_allowed hallows, hrep⟩

/-- The database of the shell before its first process. -/
def emptyEngine : StorageEngine := ⟨config, ⟨[]⟩, some (.blank true), none, [], 0⟩

theorem open_emptyEngine : StorageEngine.new config .ok (World.ofDisk Disk.empty) =
    (.ok emptyEngine, loggedDisk) := rfl

/-- A value is typed and read by the next process; a deleted one is not. -/
def sampleInputs : List Bytes :=
  [bytes "put a  1 one \nPUT b 2\nDEL b\nSCAN", bytes "\nGET a\nget b\nPREFIX_SCAN b 5x\nquit\nPUT c 3\n"]

theorem cli_transcripts_sample : ∃ m, Printed .empty sampleInputs
    [(banner ++ (prompt ++ bytes "OK\n" ++ (prompt ++ bytes "OK\n" ++ (prompt ++ bytes "OK\n" ++
        (prompt ++ bytes "(1 items)\na => 1 one\n" ++ (prompt ++ bytes "\nBye!\n"))))), true),
      (banner ++ (prompt ++ (prompt ++ bytes "\"1 one\"\n" ++ (prompt ++ bytes "(error) Key marked as deleted\n" ++
        (prompt ++ bytes "(0 items)\n" ++ (prompt ++ bytes "Bye!\n"))))), true)] m := by
  have huntied : (System.machine (fun _ => 0) firstInHeaps fun _ => 0).Meets
    (ApiCall.Untied (fun _ => 0) fun _ => 0)
      (processes sampleInputs) ⟨emptyEngine, loggedDisk⟩ := by decide +kernel
  obtain ⟨m, hprinted, -⟩ := cli_transcripts open_emptyEngine sampleInputs
    (Machine.Meets.mono (fun _ _ h => h.good) huntied)
  refine ⟨m, ?_⟩
  convert hprinted using 1
  decide +kernel

/-! ## What is typed -/

/-- The map behind the lines of a process. -/
def typed : List Bytes → Engine → Engine
  | [], m => m
  | line :: lines, m => if command line = .exit then m else typed lines ((command line).effect m)

theorem says_bye {c : Command} : c.Says m .bye ↔ c = .exit := by
  cases c <;> simp [Command.Says, Cli.usage]
  split <;> simp

theorem Transcript.state {lines : List Bytes} {out : Bytes} (h : Transcript m lines out m') :
    m' = typed lines m := by
  induction h with
  | eof m => rfl
  | exit m h => exact (if_pos (says_bye.1 h)).symm
  | turn h hrest ih =>
    have hne : command _ ≠ .exit := fun he => by
      rw [he] at h
      exact absurd h (by simp [Command.Says])
    rw [ih, typed, if_neg hne]

/-- The map behind one process after another. -/
def typedAll (inputs : List Bytes) (m : Engine) : Engine :=
  inputs.foldl (fun m stdin => typed (getlines stdin) m) m

theorem Printed.append {inputs inputs' : List Bytes} {outs : List (Bytes × Bool)}
    (h : Printed m (inputs ++ inputs') outs m') :
    ∃ outs₁ outs₂, outs = outs₁ ++ outs₂ ∧ Printed (typedAll inputs m) inputs' outs₂ m' := by
  induction inputs generalizing m outs with
  | nil => exact ⟨[], outs, rfl, h⟩
  | cons stdin rest ih =>
    cases h with
    | cons htranscript hrest =>
      obtain ⟨outs₁, outs₂, rfl, hprinted⟩ := ih hrest
      rw [htranscript.state] at hprinted
      exact ⟨_ :: outs₁, outs₂, rfl, hprinted⟩

/-- A key and a value that can be typed on a line. -/
structure Typeable (entry : Bytes × Bytes) : Prop where
  key : IsWord entry.1
  nonempty : entry.2 ≠ []
  line : newline ∉ entry.2
  first : ∀ b ∈ entry.2.head?, isBlank b = false
  last : ∀ b ∈ entry.2.getLast?, isBlank b = false

def putLine (entry : Bytes × Bytes) : Bytes := bytes "PUT " ++ (entry.1 ++ 32 :: entry.2)

def scanLine (startKey endKey : Bytes) (limit : ℕ) : Bytes :=
  bytes "SCAN " ++ (startKey ++ 32 :: (endKey ++ 32 :: decimal limit))

theorem not_isBlank {b : UInt8} (h : isSpace b = false) : isBlank b = false := by
  unfold isSpace at h
  unfold isBlank
  simp only [Bool.or_eq_false_iff, beq_eq_false_iff_ne, Bool.and_eq_false_iff, decide_eq_false_iff_not] at h ⊢
  refine ⟨⟨⟨h.1, ?_⟩, ?_⟩, ?_⟩ <;> rintro rfl <;> exact absurd h.2 (by decide)

theorem newline_notMem_word {w : Bytes} (h : IsWord w) : newline ∉ w := fun hmem => by
  have hsolid := h.solid newline hmem
  exact absurd hsolid (by decide)

theorem putLine_ne_nil (entry : Bytes × Bytes) : putLine entry ≠ [] :=
  List.append_ne_nil_of_right_ne_nil _ (by simp)

theorem scanLine_ne_nil (startKey endKey : Bytes) (limit : ℕ) : scanLine startKey endKey limit ≠ [] :=
  List.append_ne_nil_of_right_ne_nil _ (by simp)

theorem newline_notMem_putLine {entry : Bytes × Bytes} (h : Typeable entry) : newline ∉ putLine entry := by
  unfold putLine
  rw [List.mem_append, List.mem_append, List.mem_cons]
  rintro (hmem | hmem | hmem | hmem)
  · exact absurd hmem (by decide)
  · exact newline_notMem_word h.key hmem
  · exact absurd hmem (by decide)
  · exact h.line hmem

theorem newline_notMem_scanLine {startKey endKey : Bytes} (hs : IsWord startKey) (he : IsWord endKey) (limit : ℕ) :
    newline ∉ scanLine startKey endKey limit := by
  unfold scanLine
  rw [List.mem_append, List.mem_append, List.mem_cons, List.mem_append, List.mem_cons]
  rintro (hmem | hmem | hmem | hmem | hmem | hmem)
  · exact absurd hmem (by decide)
  · exact newline_notMem_word hs hmem
  · exact absurd hmem (by decide)
  · exact newline_notMem_word he hmem
  · exact absurd hmem (by decide)
  · exact absurd (isDigit_of_mem_decimal _ hmem) (by decide)

/-- A line that begins with a letter, and does not end with a blank. -/
theorem trim_eq_self {s : Bytes} {b : UInt8} (hb : isBlank b = false)
    (hlast : ∀ c ∈ (b :: s).getLast?, isBlank c = false) :
    trim (b :: s) = b :: s :=
  trimmed_eq_self (fun c hc => by rw [← Option.some.inj hc]; exact hb) hlast

/-- **A typed entry** is put. -/
theorem command_putLine {entry : Bytes × Bytes} (h : Typeable entry) :
    command (putLine entry) = .put entry.1 entry.2 := by
  obtain ⟨key, value⟩ := entry
  have hlast : ∀ c ∈ (putLine (key, value)).getLast?, isBlank c = false := by
    intro c hc
    refine h.last c ?_
    unfold putLine at hc
    rwa [List.getLast?_append_of_ne_nil _ (by simp), List.getLast?_append_of_ne_nil _ (by simp),
      List.getLast?_cons_of_ne_nil h.nonempty] at hc
  have htrim : trim (putLine (key, value)) = putLine (key, value) := trim_eq_self (by decide) hlast
  have hcmd : word (putLine (key, value)) = (bytes "PUT", 32 :: (key ++ 32 :: value)) :=
    word_append (w := bytes "PUT") ⟨by decide, by decide +kernel⟩ (key ++ 32 :: value)
  have hkey : word (32 :: (key ++ 32 :: value)) = (key, 32 :: value) :=
    (word_space _).trans (word_append h.key value)
  have hline : (32 :: value).takeWhile (fun b => decide (b ≠ newline)) = 32 :: value := by
    rw [List.takeWhile_eq_self_iff]
    intro b hb
    rw [decide_eq_true_eq]
    rintro rfl
    exact (List.mem_cons.1 hb).elim (by decide) h.line
  have hval : trim (32 :: value) = value := trimmed_eq_self h.first h.last
  unfold command
  rw [htrim, if_neg (putLine_ne_nil _), hcmd]
  simp only [asked, hkey, hline, hval, if_neg h.key.ne_nil, if_neg h.nonempty]
  rfl

/-- **A typed scan** is that scan. -/
theorem command_scanLine {startKey endKey : Bytes} {limit : ℕ} (hs : IsWord startKey) (he : IsWord endKey)
    (hlimit : limit < 2 ^ 64) : command (scanLine startKey endKey limit) = .scan startKey endKey limit := by
  have hdigits : decimal limit ≠ [] := decimal_ne_nil limit
  have hlast : ∀ c ∈ (scanLine startKey endKey limit).getLast?, isBlank c = false := by
    intro c hc
    unfold scanLine at hc
    rw [List.getLast?_append_of_ne_nil _ (by simp), List.getLast?_append_of_ne_nil _ (by simp),
      List.getLast?_cons_of_ne_nil (by simp), List.getLast?_append_of_ne_nil _ (by simp),
      List.getLast?_cons_of_ne_nil hdigits] at hc
    exact not_isBlank (not_isSpace_of_isDigit (isDigit_of_mem_decimal c (List.mem_of_getLast? hc)))
  have htrim : trim (scanLine startKey endKey limit) = scanLine startKey endKey limit :=
    trim_eq_self (by decide) hlast
  have hcmd : word (scanLine startKey endKey limit) =
      (bytes "SCAN", 32 :: (startKey ++ 32 :: (endKey ++ 32 :: decimal limit))) :=
    word_append (w := bytes "SCAN") ⟨by decide, by decide +kernel⟩ _
  have hstart : word (32 :: (startKey ++ 32 :: (endKey ++ 32 :: decimal limit))) =
      (startKey, 32 :: (endKey ++ 32 :: decimal limit)) := (word_space _).trans (word_append hs _)
  have hend : word (32 :: (endKey ++ 32 :: decimal limit)) = (endKey, 32 :: decimal limit) :=
    (word_space _).trans (word_append he _)
  unfold command
  rw [htrim, if_neg (scanLine_ne_nil _ _ _), hcmd]
  simp only [asked, hstart, hend, readSize_decimal hlimit]
  rfl

theorem typed_putLines {entries : List (Bytes × Bytes)} (h : ∀ entry ∈ entries, Typeable entry) (m : Engine) :
    typed (entries.map putLine) m = entries.foldl (fun m entry => m.put entry.1 entry.2) m := by
  induction entries generalizing m with
  | nil => rfl
  | cons entry entries ih =>
    rw [List.map_cons, typed, command_putLine (h entry List.mem_cons_self), if_neg (by simp)]
    exact ih (fun x hx => h x (List.mem_cons_of_mem _ hx)) _

/-- **What is typed is what is listed.** After any processes, one that puts these entries is followed by
one that asks for a range. -/
theorem cli_lists (hopen : StorageEngine.new config .ok (World.ofDisk Disk.empty) = (.ok e, w)) (past : List Bytes)
    {entries : List (Bytes × Bytes)} (hentries : ∀ entry ∈ entries, Typeable entry) {startKey endKey : Bytes}
    {limit : ℕ} (hs : IsWord startKey) (he : IsWord endKey) (hlimit : limit < 2 ^ 64)
    (hmeets : (System.machine hash heaps clock).Meets (ApiCall.Good hash clock)
      (processes (past ++ [unlines (entries.map putLine), scanLine startKey endKey limit])) ⟨e, w⟩) :
    ((System.machine hash heaps clock).run
      (processes (past ++ [unlines (entries.map putLine), scanLine startKey endKey limit])) ⟨e, w⟩).1.getLast? =
      some (banner ++ (prompt ++ listed (upTo limit ((entries.foldl (fun m entry => m.put entry.1 entry.2)
        (typedAll past .empty)).scan (inRange startKey endKey))) ++ (prompt ++ println (bytes "\nBye!"))),
        true) := by
  obtain ⟨m, hallows, -⟩ := (represents_simulates hash heaps clock).run
    (represents_fresh hash (by decide) (by decide) hopen) hmeets
  obtain ⟨outs₁, outs₂, houts, hprinted⟩ := (processes_allowed hallows).append
  rw [houts]
  -- each entry is a line of the input, and so is the scan
  have hput : getlines (unlines (entries.map putLine)) = entries.map putLine := by
    refine getlines_unlines fun line hline => ?_
    obtain ⟨entry, hentry, rfl⟩ := List.mem_map.1 hline
    exact newline_notMem_putLine (hentries entry hentry)
  have hscan : getlines (scanLine startKey endKey limit) = [scanLine startKey endKey limit] := by
    rw [getlines_rest (newline_notMem_scanLine hs he limit), if_neg (scanLine_ne_nil _ _ _)]
  obtain _ | ⟨hputs, hprinted⟩ := hprinted
  obtain _ | ⟨htranscript, hlast⟩ := hprinted
  cases hlast
  -- the process before has put every entry into the map
  rw [hputs.state, hput, typed_putLines hentries, hscan] at htranscript
  cases htranscript with
  | exit _ h =>
    rw [command_scanLine hs he hlimit] at h
    exact absurd h (by simp [Command.Says])
  | turn h hrest =>
    rw [command_scanLine hs he hlimit] at h
    rw [← Turn.printed.inj h]
    cases hrest
    rw [List.getLast?_append_of_ne_nil _ (by simp)]
    rfl

/-- Three entries after a first process, one of them twice. -/
def sampleEntries : List (Bytes × Bytes) :=
  [(bytes "b", bytes "2"), (bytes "a", bytes "1 one"), (bytes "b", bytes "3")]

theorem sampleEntries_typeable : ∀ entry ∈ sampleEntries, Typeable entry := by
  have hword : ∀ entry ∈ sampleEntries, entry.1 ≠ [] ∧ ∀ b ∈ entry.1, isSpace b = false := by decide +kernel
  have hvalue : ∀ entry ∈ sampleEntries, entry.2 ≠ [] ∧ newline ∉ entry.2 ∧
      (∀ b ∈ entry.2.head?, isBlank b = false) ∧ ∀ b ∈ entry.2.getLast?, isBlank b = false := by decide +kernel
  intro entry hentry
  obtain ⟨hne, hsolid⟩ := hword entry hentry
  obtain ⟨hval, hline, hfirst, hlast⟩ := hvalue entry hentry
  exact ⟨⟨hne, hsolid⟩, hval, hline, hfirst, hlast⟩

theorem cli_lists_sample :
    ((System.machine (fun _ => 0) firstInHeaps fun _ => 0).run
      (processes ([bytes "PUT c 4\nPUT z 5"] ++
        [unlines (sampleEntries.map putLine), scanLine (bytes "a") (bytes "x") 2]))
      ⟨emptyEngine, loggedDisk⟩).1.getLast? =
    some (banner ++ (prompt ++ bytes "(2 items)\na => 1 one\nb => 3\n" ++ (prompt ++ bytes "\nBye!\n")),
      true) := by
  have hword : ∀ w ∈ [bytes "a", bytes "x"], w ≠ [] ∧ ∀ b ∈ w, isSpace b = false := by decide +kernel
  have ha := hword (bytes "a") (by decide)
  have hx := hword (bytes "x") (by decide)
  have huntied : (System.machine (fun _ => 0) firstInHeaps fun _ => 0).Meets
    (ApiCall.Untied (fun _ => 0) fun _ => 0)
      (processes ([bytes "PUT c 4\nPUT z 5"] ++
        [unlines (sampleEntries.map putLine), scanLine (bytes "a") (bytes "x") 2])) ⟨emptyEngine, loggedDisk⟩ := by
    decide +kernel
  refine (cli_lists open_emptyEngine _ sampleEntries_typeable ⟨ha.1, ha.2⟩ ⟨hx.1, hx.2⟩ (by decide)
    (Machine.Meets.mono (fun _ _ h => h.good) huntied)).trans ?_
  decide +kernel

end Cli

end LsmTree

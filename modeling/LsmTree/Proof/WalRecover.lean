import LsmTree.Proof.WalLine

/-!
# Recovery of the log

* `recover_appends`: what `Recover` returns after any sequence of successful
  appends: the records up to the first whose key hides the name `timestamp`.
* `recover_exact_iff`: **it returns exactly the records written if and only if no
  key hides that name.** One such key cuts off its own record and every later one.
* `recover_torn_run`: over any history of completed and torn appends, **no completed
  record is lost and none is made up**, as long as nothing is written after an
  unfinished line that holds a colon. The file is never repaired, so what is written
  after such a line becomes a part of it.
-/

namespace LsmTree

open Base

/-- Operation, key and value. -/
def LogEntry.triple (e : LogEntry) : Bytes × Bytes × Bytes := (e.operation, e.key, e.value)

namespace WAL

def LogRecord.triple (r : LogRecord) : Bytes × Bytes × Bytes := (r.op.name, r.key, r.value)

@[simp] theorem LogRecord.triple_entry (r : LogRecord) : r.entry.triple = r.triple := rfl

def LogRecord.append (r : LogRecord) (io : AppendIO) (w : World) : Bool × World :=
  WAL.append r.op.name r.key r.value r.time io w

/-- The log, opened on an empty file. -/
def freshLog : World := (World.ofDisk Disk.empty).perform .walOpen

/-! ## Lines of the file -/

theorem newline_notMem_operation : newline ∉ bytes "\x7b\"operation\"" := by
  have h : bytes "\x7b\"operation\"" = [123, 34, 111, 112, 101, 114, 97, 116, 105, 111, 110, 34] := rfl
  simp [h, newline]

theorem newline_notMem_line (r : LogRecord) : newline ∉ r.line := by
  have hd : newline ∉ decimalInt r.time.toInt := by
    have hdigits : newline ∉ decimal r.time.toInt.natAbs := fun h =>
      absurd (isDigit_of_mem_decimal _ h) (by decide)
    unfold decimalInt
    split
    · rw [List.mem_cons, not_or]
      exact ⟨by decide, hdigits⟩
    · exact hdigits
  have h1 : newline ∉ bytes "\x7b\"operation\":\"" := by
    have h : bytes "\x7b\"operation\":\"" = [123, 34, 111, 112, 101, 114, 97, 116, 105, 111, 110, 34, 58, 34] := rfl
    simp [h, newline]
  have h2 : newline ∉ bytes "\",\"key\":\"" := by
    have h : bytes "\",\"key\":\"" = [34, 44, 34, 107, 101, 121, 34, 58, 34] := rfl
    simp [h, newline]
  have h3 : newline ∉ bytes "\",\"value\":\"" := by
    have h : bytes "\",\"value\":\"" = [34, 44, 34, 118, 97, 108, 117, 101, 34, 58, 34] := rfl
    simp [h, newline]
  have h4 : newline ∉ bytes "\",\"timestamp\":" := by
    have h : bytes "\",\"timestamp\":" = [34, 44, 34, 116, 105, 109, 101, 115, 116, 97, 109, 112, 34, 58] := rfl
    simp [h, newline]
  have h5 : newline ∉ bytes "\x7d" := by
    have h : bytes "\x7d" = [125] := rfl
    simp [h, newline]
  unfold LogRecord.line jsonLine
  simp only [List.mem_append, not_or]
  exact ⟨⟨⟨⟨⟨⟨⟨⟨h1, newline_notMem_escape _⟩, h2⟩, newline_notMem_escape _⟩, h3⟩,
    newline_notMem_escape _⟩, h4⟩, hd⟩, h5⟩

theorem newline_notMem_stub {P : Bytes} (hP : Stub P) : newline ∉ P :=
  fun h => newline_notMem_operation (hP _ h)

/-- The start of a line up to its first colon. -/
theorem line_head (r : LogRecord) : ∃ t, r.line = bytes "\x7b\"operation\"" ++ colon :: t := by
  have h : bytes "\x7b\"operation\":\"" = bytes "\x7b\"operation\"" ++ colon :: [dquote] := rfl
  unfold LogRecord.line jsonLine
  rw [h]
  simp only [List.append_assoc, List.cons_append]
  exact ⟨_, rfl⟩

theorem line_ne_nil (P : Bytes) (r : LogRecord) : P ++ r.line ≠ [] := by
  obtain ⟨t, ht⟩ := line_head r
  rw [ht]
  simp

/-- A cut of a line without a colon is a stub. -/
theorem stub_take {r : LogRecord} {n : ℕ} (h : colon ∉ r.line.take n) : Stub (r.line.take n) := by
  obtain ⟨t, ht⟩ := line_head r
  have hlen : (bytes "\x7b\"operation\"").length = 12 := rfl
  intro c hc
  rcases Nat.lt_or_ge 12 n with hn | hn
  · refine absurd ?_ h
    obtain ⟨k, rfl⟩ := Nat.exists_eq_add_of_lt hn
    rw [ht, List.take_append, hlen, show 12 + k + 1 - 12 = k + 1 by omega, List.take_succ_cons]
    exact List.mem_append_right _ List.mem_cons_self
  · rw [ht, List.take_append_of_le_length (by omega)] at hc
    exact List.mem_of_mem_take hc

theorem stub_append {P Q : Bytes} (hP : Stub P) (hQ : Stub Q) : Stub (P ++ Q) := fun c hc => by
  rcases List.mem_append.1 hc with h | h
  · exact hP c h
  · exact hQ c h

/-! ## Replay -/

theorem replay_cons {l : Bytes} (hl : l ≠ []) (ls : List Bytes) :
    replay (l :: ls) = match parseLogEntry l with
      | some entry => entry :: replay ls
      | none => [] :=
  if_neg hl

/-- Replaying whole lines, each after a stub. -/
theorem replay_lines {ps : List (Bytes × LogRecord)} (hP : ∀ p ∈ ps, Stub p.1)
    (hk : ∀ p ∈ ps, ¬ HidesTimestamp p.2.key) (rest : List Bytes) :
    replay (ps.map (fun p => p.1 ++ p.2.line) ++ rest) =
      ps.map (fun p => p.2.entry) ++ replay rest := by
  induction ps with
  | nil => rfl
  | cons p ps ih =>
    rw [List.map_cons, List.cons_append, replay_cons (line_ne_nil p.1 p.2),
      parse_line (hP p List.mem_cons_self), if_neg (hk p List.mem_cons_self), List.map_cons,
      List.cons_append, ih (fun x hx => hP x (List.mem_cons_of_mem _ hx))
        fun x hx => hk x (List.mem_cons_of_mem _ hx)]

/-- Replaying whole lines stops at the first key that hides the timestamp. -/
theorem replay_map_line (rs : List LogRecord) :
    replay (rs.map LogRecord.line) =
      (rs.takeWhile fun r => ¬ HidesTimestamp r.key).map LogRecord.entry := by
  induction rs with
  | nil => rfl
  | cons r rs ih =>
    have hp := parse_line stub_nil r
    have hl := line_ne_nil [] r
    rw [List.nil_append] at hp hl
    rw [List.map_cons, replay_cons hl, hp]
    by_cases h : HidesTimestamp r.key
    · rw [if_pos h, List.takeWhile_cons_of_neg (by simpa using h)]
      rfl
    · rw [if_neg h, List.takeWhile_cons_of_pos (by simpa using h), List.map_cons, ← ih]

/-- What follows the last newline of some lines and a rest without one. -/
theorem unfinished_lines (ls : List Bytes) {rest : Bytes} (h : newline ∉ rest) :
    (unlines ls ++ rest).rtakeWhile (· ≠ newline) = rest := by
  have hall : rest.reverse.takeWhile (fun c => decide (c ≠ newline)) = rest.reverse := by
    rw [List.takeWhile_eq_self_iff]
    intro c hc
    have : c ≠ newline := fun e => h (e ▸ List.mem_reverse.1 hc)
    simpa using this
  unfold List.rtakeWhile
  rw [List.reverse_append]
  rcases List.eq_nil_or_concat ls with rfl | ⟨ls', l, rfl⟩
  · rw [unlines_nil, List.reverse_nil, List.append_nil, hall, List.reverse_reverse]
  · have hrev : (unlines (ls' ++ [l])).reverse = newline :: (unlines ls' ++ l).reverse := by
      rw [unlines_append, unlines_cons, unlines_nil]
      simp
    rw [List.concat_eq_append, hrev, List.takeWhile_append_of_pos (List.takeWhile_eq_self_iff.1 hall),
      List.takeWhile_cons_of_neg (by simp), List.append_nil, List.reverse_reverse]

/-- A stub and a cut record. -/
theorem newline_notMem_cut {P : Bytes} (hP : Stub P) (r : LogRecord) (n : ℕ) : newline ∉ P ++ r.line.take n := by
  rw [List.mem_append, not_or]
  exact ⟨newline_notMem_stub hP, fun hm => newline_notMem_line _ (List.mem_of_mem_take hm)⟩

/-- What a stub and a cut record replay to: nothing, or the record. -/
theorem replay_unfinished {P : Bytes} (hP : Stub P) (r : LogRecord) (n : ℕ) :
    replay (getlines (P ++ r.line.take n)) = [] ∨
      ∃ e, replay (getlines (P ++ r.line.take n)) = [e] ∧ e.triple = r.triple := by
  rw [getlines_rest (newline_notMem_cut hP r n)]
  split
  · exact Or.inl rfl
  rename_i hne
  rw [replay_cons hne]
  cases hparse : parseLogEntry (P ++ r.line.take n) with
  | none => exact Or.inl rfl
  | some e =>
    have hcut : P ++ r.line.take n = (P ++ r.line).take (P.length + n) := by
      rw [List.take_append, List.take_of_length_le (Nat.le_add_right _ _), Nat.add_sub_cancel_left]
    rw [hcut] at hparse
    obtain ⟨h1, h2, h3⟩ := parse_torn hP r hparse
    refine Or.inr ⟨e, rfl, ?_⟩
    unfold LogEntry.triple LogRecord.triple
    rw [h1, h2, h3]

theorem replay_stub {P : Bytes} (hP : Stub P) : replay (getlines P) = [] := by
  rw [getlines_rest (newline_notMem_stub hP)]
  split
  · rfl
  · rename_i hne
    rw [replay_cons hne, parse_stub hP]

/-- Whole lines, each after a stub, and an unfinished one. -/
theorem replay_file {ps : List (Bytes × LogRecord)} (hP : ∀ p ∈ ps, Stub p.1)
    (hk : ∀ p ∈ ps, ¬ HidesTimestamp p.2.key) (rest : Bytes) :
    replay (getlines (unlines (ps.map fun p => p.1 ++ p.2.line) ++ rest)) =
      ps.map (fun p => p.2.entry) ++ replay (getlines rest) := by
  have hn : ∀ l ∈ ps.map (fun p => p.1 ++ p.2.line), newline ∉ l := by
    intro l hl
    obtain ⟨p, hp, rfl⟩ := List.mem_map.1 hl
    rw [List.mem_append, not_or]
    exact ⟨newline_notMem_stub (hP p hp), newline_notMem_line p.2⟩
  rw [getlines_unlines_append hn, replay_lines hP hk]

/-! ## Successful appends -/

/-- One append after another, all of them successful. -/
def appends (rs : List LogRecord) (w : World) : World :=
  rs.foldl (fun w r => (r.append .ok w).2) w

theorem wal_append_ok (r : LogRecord) (w : World) :
    (r.append .ok w).2.disk.wal = some (w.disk.wal.getD [] ++ (r.line ++ [newline])) := rfl

theorem wal_appends (rs : List LogRecord) : ∀ {w : World} {b : Bytes}, w.disk.wal = some b →
    (appends rs w).disk.wal = some (b ++ unlines (rs.map LogRecord.line)) := by
  induction rs with
  | nil =>
    intro w b h
    rw [List.map_nil, unlines_nil, List.append_nil]
    exact h
  | cons r rs ih =>
    intro w b h
    have h1 := wal_append_ok r w
    rw [h, Option.getD_some] at h1
    have h2 := ih h1
    rw [List.map_cons, unlines_cons]
    simpa [appends, List.append_assoc] using h2

/-- **What `Recover` returns after successful appends.** -/
theorem recover_appends (rs : List LogRecord) :
    recover true (appends rs freshLog).disk =
      (true, (rs.takeWhile fun r => ¬ HidesTimestamp r.key).map LogRecord.entry) := by
  have hw : (appends rs freshLog).disk.wal = some ([] ++ unlines (rs.map LogRecord.line)) :=
    wal_appends rs rfl
  rw [List.nil_append] at hw
  have hn : ∀ l ∈ rs.map LogRecord.line, newline ∉ l := by
    intro l hl
    obtain ⟨r, -, rfl⟩ := List.mem_map.1 hl
    exact newline_notMem_line r
  unfold recover
  rw [hw]
  simp only [if_true]
  rw [getlines_unlines hn, replay_map_line]

/-- **Decoding the log undoes writing it exactly when no key hides the name of the
timestamp field.** -/
theorem recover_exact_iff (rs : List LogRecord) :
    ((recover true (appends rs freshLog).disk).1 = true ∧
      (recover true (appends rs freshLog).disk).2.map LogEntry.triple = rs.map LogRecord.triple) ↔
      ∀ r ∈ rs, ¬ HidesTimestamp r.key := by
  rw [recover_appends]
  simp only [true_and, List.map_map]
  constructor
  · intro h
    have hlen := congrArg List.length h
    rw [List.length_map, List.length_map] at hlen
    have hall := (List.takeWhile_prefix fun r : LogRecord => decide ¬ HidesTimestamp r.key).eq_of_length hlen
    intro r hr
    simpa using List.takeWhile_eq_self_iff.1 hall r hr
  · intro h
    rw [List.takeWhile_eq_self_iff.2 fun r hr => by simpa using h r hr]
    rfl

/-- The key `timestamp` hides the name: its record is not recovered. -/
theorem recover_exact_fails :
    ¬ ∀ rs : List LogRecord, (recover true (appends rs freshLog).disk).1 = true ∧
      (recover true (appends rs freshLog).disk).2.map LogEntry.triple = rs.map LogRecord.triple := by
  intro h
  exact absurd (h [⟨.put, bytes "timestamp", bytes "1", 7⟩]) (by decide +kernel)

/-! ## Torn appends -/

/-- One call of `Append` and how it ended. -/
structure Attempt where
  record : LogRecord
  io : AppendIO

/-- A torn append leaves a proper prefix of the line. -/
def Attempt.Proper (a : Attempt) : Prop :=
  ∀ n, a.io = .torn n → n ≤ a.record.line.length

def Attempt.run (a : Attempt) (w : World) : World := (a.record.append a.io w).2

def runLog (h : List Attempt) (w : World) : World := h.foldl (fun w a => a.run w) w

/-- The records whose append returned true. -/
def completed (h : List Attempt) : List LogRecord :=
  (h.filter fun a => a.io = .ok).map Attempt.record

/-- The unfinished last line of the file. -/
def residue (d : Disk) : Bytes := (d.wal.getD []).rtakeWhile (· ≠ newline)

/-- Nothing is written after an unfinished line that holds a colon, and no key whose
record is completed hides the name of the timestamp. -/
def Attempt.Clean (a : Attempt) (w : World) : Prop :=
  match a.io with
  | .ok => colon ∉ residue w.disk ∧ ¬ HidesTimestamp a.record.key
  | .torn n => n = 0 ∨ colon ∉ residue w.disk

/-- Every append of the run is clean in the state it starts in. -/
def CleanRun : World → List Attempt → Prop
  | _, [] => True
  | w, a :: as => a.Clean w ∧ CleanRun (a.run w) as

theorem runLog_snoc (h : List Attempt) (a : Attempt) (w : World) :
    runLog (h ++ [a]) w = a.run (runLog h w) := by
  simp [runLog]

theorem completed_snoc (h : List Attempt) (a : Attempt) :
    completed (h ++ [a]) = completed h ++ if a.io = .ok then [a.record] else [] := by
  unfold completed
  rw [List.filter_append, List.map_append]
  by_cases hio : a.io = .ok
  · simp [hio]
  · simp [hio]

theorem cleanRun_snoc {h : List Attempt} {a : Attempt} : ∀ {w : World},
    CleanRun w (h ++ [a]) ↔ CleanRun w h ∧ a.Clean (runLog h w) := by
  induction h with
  | nil =>
    intro w
    simp [CleanRun, runLog]
  | cons b h ih =>
    intro w
    rw [List.cons_append, CleanRun, CleanRun, ih, and_assoc]
    rfl

/-- The file after a history: the completed records, each after a stub, and an
unfinished line, which is a stub or a stub and a cut record. -/
structure LogShape (h : List Attempt) (d : Disk) (ps : List (Bytes × LogRecord)) (rest : Bytes) :
    Prop where
  wal : d.wal = some (unlines (ps.map fun p => p.1 ++ p.2.line) ++ rest)
  done : completed h = ps.map Prod.snd
  stubs : ∀ p ∈ ps, Stub p.1
  keys : ∀ p ∈ ps, ¬ HidesTimestamp p.2.key
  rest : Stub rest ∨ ∃ P a n, Stub P ∧ a ∈ h ∧ rest = P ++ (Attempt.record a).line.take n

section

variable {h : List Attempt} {d : Disk} {ps : List (Bytes × LogRecord)} {rest : Bytes}

theorem LogShape.newline_notMem (hs : LogShape h d ps rest) : newline ∉ rest := by
  rcases hs.rest with hP | ⟨P, a, n, hP, -, rfl⟩
  · exact newline_notMem_stub hP
  · exact newline_notMem_cut hP a.record n

/-- The unfinished line is what follows the last newline. -/
theorem LogShape.residue (hs : LogShape h d ps rest) : residue d = rest := by
  unfold WAL.residue
  rw [hs.wal, Option.getD_some, unfinished_lines _ hs.newline_notMem]

/-- A colon-free unfinished line is a stub. -/
theorem LogShape.stub (hs : LogShape h d ps rest) (hc : colon ∉ rest) : Stub rest := by
  rcases hs.rest with hP | ⟨P, a, n, hP, -, rfl⟩
  · exact hP
  · exact stub_append hP (stub_take fun hm => hc (List.mem_append_right _ hm))

/-- **One clean append keeps the shape of the file.** -/
theorem LogShape.step {w : World} (hs : LogShape h w.disk ps rest) {a : Attempt} (hp : a.Proper)
    (hc : a.Clean w) : ∃ ps' rest', LogShape (h ++ [a]) (a.run w).disk ps' rest' := by
  unfold Attempt.Clean at hc
  rw [hs.residue] at hc
  cases hio : a.io with
  | ok =>
    rw [hio] at hc
    -- the line goes behind what the log ends in, which by `hc` is a stub: together they are one line
    have hwal := wal_append_ok a.record w
    rw [hs.wal, Option.getD_some] at hwal
    refine ⟨ps ++ [(rest, a.record)], [], ?_, ?_, ?_, ?_, Or.inl stub_nil⟩
    · unfold Attempt.run
      rw [hio, hwal, List.map_append, unlines_append]
      simp [unlines_cons]
    · rw [completed_snoc, if_pos hio, hs.done, List.map_append]
      rfl
    · intro p hp
      rcases List.mem_append.1 hp with hp | hp
      · exact hs.stubs p hp
      · rw [List.mem_singleton.1 hp]
        exact hs.stub hc.1
    · intro p hp
      rcases List.mem_append.1 hp with hp | hp
      · exact hs.keys p hp
      · rw [List.mem_singleton.1 hp]
        exact hc.2
  | torn n =>
    rw [hio] at hc
    -- a torn append completes no record, and leaves the first bytes of its line
    have hcomp : completed (h ++ [a]) = completed h := by
      rw [completed_snoc, if_neg (by rw [hio]; simp), List.append_nil]
    have hcut : (a.record.line ++ [newline]).take n = a.record.line.take n :=
      List.take_append_of_le_length (hp n hio)
    have hwal : (a.run w).disk.wal =
        some (unlines (ps.map fun p => p.1 ++ p.2.line) ++ (rest ++ a.record.line.take n)) := by
      rw [← hcut, ← List.append_assoc]
      unfold Attempt.run LogRecord.append append
      rw [hio]
      simp only [World.disk_perform, Effect.apply, hs.wal, Option.getD_some]
      rfl
    refine ⟨ps, rest ++ a.record.line.take n, hwal, by rw [hcomp]; exact hs.done, hs.stubs, hs.keys, ?_⟩
    rcases hc with rfl | hc
    · -- nothing was written
      rw [List.take_zero, List.append_nil]
      rcases hs.rest with hP | ⟨P, b, n, hP, hb, hrest⟩
      · exact Or.inl hP
      · exact Or.inr ⟨P, b, n, hP, List.mem_append_left _ hb, hrest⟩
    · exact Or.inr ⟨rest, a, n, hs.stub hc, List.mem_append_right _ List.mem_cons_self, rfl⟩

/-- What the unfinished line replays to: at most one record, of some append. -/
theorem LogShape.replay_rest (hs : LogShape h d ps rest) :
    ∀ e ∈ replay (getlines rest), ∃ a ∈ h, e.triple = a.record.triple := by
  intro e he
  rcases hs.rest with hP | ⟨P, a, n, hP, ha, rfl⟩
  · rw [replay_stub hP] at he
    exact absurd he List.not_mem_nil
  · rcases replay_unfinished hP a.record n with hnil | ⟨e', hone, htriple⟩
    · rw [hnil] at he
      exact absurd he List.not_mem_nil
    · rw [hone] at he
      exact ⟨a, ha, by rw [List.mem_singleton.1 he, htriple]⟩

/-- What the file replays to. -/
theorem LogShape.recover (hs : LogShape h d ps rest) :
    recover true d = (true, (completed h).map LogRecord.entry ++ replay (getlines rest)) := by
  unfold WAL.recover
  rw [hs.wal]
  simp only [if_true]
  rw [replay_file hs.stubs hs.keys, hs.done, List.map_map]
  rfl

end

/-- The shape of the file after a clean history. -/
theorem logShape_run {h : List Attempt} (hp : ∀ a ∈ h, a.Proper) (hc : CleanRun freshLog h) :
    ∃ ps rest, LogShape h (runLog h freshLog).disk ps rest := by
  induction h using List.reverseRecOn with
  | nil =>
    exact ⟨[], [], rfl, rfl, fun p hp => absurd hp List.not_mem_nil,
      fun p hp => absurd hp List.not_mem_nil, Or.inl stub_nil⟩
  | append_singleton h a ih =>
    rw [cleanRun_snoc] at hc
    obtain ⟨ps, rest, hs⟩ := ih (fun b hb => hp b (List.mem_append_left _ hb)) hc.1
    rw [runLog_snoc]
    exact hs.step (hp a (List.mem_append_right _ List.mem_cons_self)) hc.2

/-- **No completed record is lost and none is made up** over a history whose appends
all start clean. -/
theorem recover_torn_run (h : List Attempt) (hp : ∀ a ∈ h, a.Proper) (hc : CleanRun freshLog h) :
    (recover true (runLog h freshLog).disk).1 = true ∧
      ((completed h).map LogRecord.triple).Sublist
        ((recover true (runLog h freshLog).disk).2.map LogEntry.triple) ∧
      ∀ e ∈ (recover true (runLog h freshLog).disk).2, ∃ a ∈ h, e.triple = a.record.triple := by
  obtain ⟨ps, rest, hs⟩ := logShape_run hp hc
  rw [hs.recover]
  refine ⟨rfl, ?_, fun e he => ?_⟩
  · rw [List.map_append, List.map_map]
    exact List.sublist_append_left _ _
  · rcases List.mem_append.1 he with he | he
    · obtain ⟨r, hr, rfl⟩ := List.mem_map.1 he
      obtain ⟨a, ha, rfl⟩ := List.mem_map.1 hr
      exact ⟨a, (List.mem_filter.1 ha).1, rfl⟩
    · exact hs.replay_rest e he

/-- A record after a line torn at its seventh byte is recovered, and nothing else. -/
theorem recover_torn_run_stub :
    let h := [⟨⟨.put, bytes "a", bytes "1", 1⟩, .torn 7⟩, ⟨⟨.delete, bytes "k", [], 2⟩, .ok⟩]
    (recover true (runLog h freshLog).disk).1 = true ∧
      ((completed h).map LogRecord.triple).Sublist
        ((recover true (runLog h freshLog).disk).2.map LogEntry.triple) ∧
      ∀ e ∈ (recover true (runLog h freshLog).disk).2, ∃ a ∈ h, e.triple = a.record.triple := by
  refine recover_torn_run _ (fun a ha n hn => ?_)
    ⟨Or.inr (by decide +kernel), ⟨by decide +kernel, by decide +kernel⟩, trivial⟩
  rcases List.mem_cons.1 ha with rfl | ha
  · cases hn
    decide +kernel
  · rw [List.mem_singleton.1 ha] at hn
    cases hn

/-- The line torn at its fifteenth byte takes the next record with it: the operation
read off the two is `P{`. -/
theorem recover_torn_fails :
    ¬ ∀ h : List Attempt, (∀ a ∈ h, a.Proper) →
      (recover true (runLog h freshLog).disk).1 = true ∧
        ((completed h).map LogRecord.triple).Sublist
          ((recover true (runLog h freshLog).disk).2.map LogEntry.triple) ∧
        ∀ e ∈ (recover true (runLog h freshLog).disk).2, ∃ a ∈ h, e.triple = a.record.triple := by
  intro hall
  have h := (hall [⟨⟨.put, bytes "a", bytes "1", 1⟩, .torn 15⟩, ⟨⟨.put, bytes "k", bytes "v", 2⟩, .ok⟩]
    (fun a ha n hn => by
      rcases List.mem_cons.1 ha with rfl | ha
      · cases hn
        decide +kernel
      · rw [List.mem_singleton.1 ha] at hn
        cases hn)).2.1
  exact absurd h (by decide +kernel)

end WAL

end LsmTree

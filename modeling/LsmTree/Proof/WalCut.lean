import LsmTree.Proof.WalRecover

/-!
# A cut of the log shortens what is recovered

* `replay_cut`: the lines of a cut file replay to a prefix of what the whole file replays
  to, and to each record of it whose line lies before the cut.
* `recover_cut`: so does `Recover`, for any records appended and any cut.
-/

namespace LsmTree

open Base

namespace WAL

/-- Where the line of record `j` ends in the file, its newline not counted. -/
def lineEnd (rs : List LogRecord) (j : ℕ) : ℕ :=
  (unlines ((rs.take j).map LogRecord.line)).length + (rs[j]?.map fun r => r.line.length).getD 0

/-- The log cut at byte `n`. -/
def cutAt (n : ℕ) (d : Disk) : Disk := { d with wal := d.wal.map (·.take n) }

theorem lineEnd_zero (r : LogRecord) (rs : List LogRecord) : lineEnd (r :: rs) 0 = r.line.length := by
  unfold lineEnd
  rw [List.take_zero, List.map_nil, unlines_nil, List.length_nil, Nat.zero_add]
  rfl

theorem lineEnd_succ (r : LogRecord) (rs : List LogRecord) (j : ℕ) :
    lineEnd (r :: rs) (j + 1) = r.line.length + 1 + lineEnd rs j := by
  unfold lineEnd
  rw [List.take_succ_cons, List.map_cons, unlines_cons, List.getElem?_cons_succ]
  simp only [List.length_append, List.length_cons]
  omega

/-- What a last line without its newline replays to. -/
theorem replay_last (r : LogRecord) (n : ℕ) :
    replay (getlines (r.line.take n)) = (parseLogEntry (r.line.take n)).toList := by
  have hnew : newline ∉ r.line.take n := fun h => newline_notMem_line r (List.mem_of_mem_take h)
  rw [getlines_rest hnew]
  split
  · rename_i hnil
    have hstub := parse_stub stub_nil
    rw [hnil, hstub]
    rfl
  · rename_i hne
    rw [replay_cons hne]
    cases parseLogEntry (r.line.take n) with
    | none => rfl
    | some e => rfl

theorem replay_line_cons (r : LogRecord) (ls : List Bytes) :
    replay (r.line :: ls) = if HidesTimestamp r.key then [] else r.entry :: replay ls := by
  have hparse := parse_line stub_nil r
  have hne := line_ne_nil [] r
  rw [List.nil_append] at hparse hne
  rw [replay_cons hne, hparse]
  by_cases h : HidesTimestamp r.key
  · rw [if_pos h, if_pos h]
  · rw [if_neg h, if_neg h]

/-- A line cut short replays to nothing, or to the entry of its record; a whole one to its entry, if it
can be read. -/
theorem replay_cut_line (r : LogRecord) (n : ℕ) (ls : List Bytes) :
    (replay (getlines (r.line.take n))).map LogEntry.triple <+: (replay (r.line :: ls)).map LogEntry.triple ∧
      (r.line.length ≤ n → ¬ HidesTimestamp r.key → (replay (getlines (r.line.take n))).length = 1) := by
  rw [replay_last, replay_line_cons]
  have hcut := parse_cut stub_nil r n
  have hwhole := parse_line stub_nil r
  rw [List.nil_append] at hcut hwhole
  split
  · rename_i hhides
    rw [if_pos hhides] at hwhole
    have hnone := hcut.resolve_right fun ⟨e, _, hsome, _⟩ => by
      rw [hwhole] at hsome
      exact absurd hsome (by simp)
    rw [hnone]
    exact ⟨List.prefix_rfl, fun _ hclear => absurd hhides hclear⟩
  · rename_i hclear
    rw [if_neg hclear] at hwhole
    refine ⟨?_, fun hend _ => ?_⟩
    · rcases hcut with hnone | ⟨e, hsome, -, hop, hkey, hvalue⟩
      · rw [hnone]
        exact List.nil_prefix
      · have htriple : e.triple = r.entry.triple := by
          unfold LogEntry.triple
          rw [hop, hkey, hvalue]
          rfl
        rw [hsome, Option.toList_some, List.map_cons, htriple, List.map_cons, List.prefix_cons_inj]
        exact List.nil_prefix
    · rw [List.take_of_length_le hend, hwhole]
      rfl

/-- **Cutting the lines**: a prefix, and every record whose line lies before the cut. -/
theorem replay_cut (rs : List LogRecord) : ∀ n : ℕ,
    let cut := replay (getlines ((unlines (rs.map LogRecord.line)).take n))
    let whole := replay (rs.map LogRecord.line)
    cut.map LogEntry.triple <+: whole.map LogEntry.triple ∧
      ∀ j, j < whole.length → lineEnd rs j ≤ n → j < cut.length := by
  induction rs with
  | nil =>
    intro n
    simp only [List.map_nil, unlines_nil, List.take_nil]
    exact ⟨List.prefix_rfl, fun j hj _ => absurd hj (Nat.not_lt_zero j)⟩
  | cons r rs ih =>
    intro n
    simp only [List.map_cons, unlines_cons, replay_line_cons]
    have hnew := newline_notMem_line r
    rcases Nat.lt_or_ge r.line.length n with hn | hn
    · -- the line and its newline are before the cut
      obtain ⟨k, hk⟩ := Nat.exists_eq_add_of_lt hn
      have htake : (r.line ++ newline :: unlines (rs.map LogRecord.line)).take n =
          r.line ++ newline :: (unlines (rs.map LogRecord.line)).take k := by
        rw [hk, List.take_append, List.take_of_length_le (by omega),
          show r.line.length + k + 1 - r.line.length = k + 1 by omega, List.take_succ_cons]
      obtain ⟨hpre, hkept⟩ := ih k
      rw [htake, getlines_line hnew, replay_line_cons]
      -- a key that hides the timestamp stops the replay, with or without the cut
      split
      · exact ⟨List.prefix_rfl, fun j hj _ => hj⟩
      · refine ⟨?_, fun j hj hend => ?_⟩
        · rw [List.map_cons, List.map_cons, List.prefix_cons_inj]
          exact hpre
        · cases j with
          | zero => exact Nat.zero_lt_succ _
          | succ j =>
            rw [lineEnd_succ] at hend
            rw [List.length_cons] at hj ⊢
            exact Nat.succ_lt_succ (hkept j (by omega) (by omega))
    · -- the cut is within the line or right behind it
      rw [List.take_append_of_le_length hn, ← replay_line_cons]
      obtain ⟨hpre, hone⟩ := replay_cut_line r n (rs.map LogRecord.line)
      refine ⟨hpre, fun j hj hend => ?_⟩
      cases j with
      | zero =>
        rw [lineEnd_zero] at hend
        have hclear : ¬ HidesTimestamp r.key := fun hhides => by
          rw [replay_line_cons, if_pos hhides] at hj
          exact Nat.not_lt_zero _ hj
        rw [hone hend hclear]
        exact Nat.zero_lt_one
      | succ j =>
        rw [lineEnd_succ] at hend
        omega

/-- **A torn tail can only shorten recovery.** Cut anywhere, the log recovers to a prefix
of what it recovers to whole, with every record of it whose line lies before the cut; and
what is left of any line is rejected or yields what the line yields. -/
theorem recover_cut (rs : List LogRecord) (n : ℕ) :
    let whole := (recover true (appends rs freshLog).disk).2
    let cut := (recover true (cutAt n (appends rs freshLog).disk)).2
    cut.map LogEntry.triple <+: whole.map LogEntry.triple ∧
      (∀ j, j < whole.length → lineEnd rs j ≤ n → j < cut.length) ∧
      ∀ r ∈ rs, ∀ k, parseLogEntry (r.line.take k) = none ∨ ∃ e e', parseLogEntry (r.line.take k) = some e ∧
        parseLogEntry r.line = some e' ∧ e.triple = e'.triple := by
  have hw : (appends rs freshLog).disk.wal = some ([] ++ unlines (rs.map LogRecord.line)) := wal_appends rs rfl
  rw [List.nil_append] at hw
  have hn : ∀ l ∈ rs.map LogRecord.line, newline ∉ l := by
    intro l hl
    obtain ⟨r, -, rfl⟩ := List.mem_map.1 hl
    exact newline_notMem_line r
  obtain ⟨hpre, hkept⟩ := replay_cut rs n
  unfold recover cutAt
  simp only [hw, Option.map_some, if_true, getlines_unlines hn]
  refine ⟨hpre, hkept, fun r _ k => ?_⟩
  have hcut := parse_cut stub_nil r k
  rw [List.nil_append] at hcut
  rcases hcut with hnone | ⟨e, hsome, hwhole, hop, hkey, hvalue⟩
  · exact Or.inl hnone
  · refine Or.inr ⟨e, r.entry, hsome, hwhole, ?_⟩
    unfold LogEntry.triple
    rw [hop, hkey, hvalue]
    rfl

end WAL

end LsmTree

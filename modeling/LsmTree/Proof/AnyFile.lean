import LsmTree.Proof.TableRead
import LsmTree.Spec.Rounds

/-!
# Tables of any bytes

What the reader does with a file nobody vouches for:

* `readRecord_of_end`, `readRecord_of_none`: where a record ends is read off its two
  lengths, and it is read if it ends within the file.
* `newReturns`, `getReturns`: the constructor and every lookup come to an end.
-/

namespace LsmTree

open Base

variable {data : Bytes} {pos n e : ℕ}

/-! ## Records -/

theorem read_if_le (h : pos + n ≤ data.length) :
    (if 0 < n then (IfStream.at_ data pos).read n else ([], .at_ data pos)) =
      ((data.drop pos).take n, .at_ data (pos + n)) := by
  apply read_if (List.take_append_drop n (data.drop pos)).symm
  rw [List.length_take, List.length_drop]
  omega

theorem read_if_short (hpos : pos ≤ data.length) (h : data.length < pos + n) :
    (if 0 < n then (IfStream.at_ data pos).read n else ([], .at_ data pos)).2.fail = true := by
  rw [if_pos (by omega)]
  exact IfStream.read_at_short h

/-- Where the record at `pos` ends by its lengths, if that is within the file. -/
def recordEnd (data : Bytes) (pos : ℕ) : Option ℕ :=
  let e := pos + 9 + ofLE ((data.drop pos).take 4) + ofLE ((data.drop (pos + 4)).take 4)
  if e ≤ data.length then some e else none

/-- A length field is a 32-bit integer. -/
theorem ofLE_take_lt (data : Bytes) (pos : ℕ) : ofLE ((data.drop pos).take 4) < 2 ^ 32 := by
  have h1 := ofLE_lt ((data.drop pos).take 4)
  have h2 : 256 ^ ((data.drop pos).take 4).length ≤ 256 ^ 4 :=
    Nat.pow_le_pow_right (by norm_num) (List.length_take_le 4 _)
  have h3 : (256 : ℕ) ^ 4 = 2 ^ 32 := by norm_num
  omega

theorem recordEnd_bounds (h : recordEnd data pos = some e) : pos + 9 ≤ e ∧ e ≤ data.length := by
  unfold recordEnd at h
  simp only at h
  split at h
  · rename_i hle
    obtain rfl := Option.some.inj h
    exact ⟨by omega, hle⟩
  · exact absurd h (by simp)

theorem readRecord_of_end (h : recordEnd data pos = some e) :
    ∃ r, r.Short ∧ readRecord (.at_ data pos) = (some r, .at_ data e) := by
  unfold recordEnd at h
  simp only at h
  split at h
  · rename_i hle
    obtain rfl := Option.some.inj h
    have h1 : pos + 4 ≤ data.length := by omega
    have h2 : pos + 4 + 4 ≤ data.length := by omega
    have h3 : pos + 4 + 4 + ofLE ((data.drop pos).take 4) ≤ data.length := by omega
    have h4 : pos + 4 + 4 + ofLE ((data.drop pos).take 4) + ofLE ((data.drop (pos + 4)).take 4) ≤ data.length := by
      omega
    have h5 : pos + 4 + 4 + ofLE ((data.drop pos).take 4) + ofLE ((data.drop (pos + 4)).take 4) + 1 ≤
        data.length := by omega
    unfold readRecord
    simp only [IfStream.read_at_le h1, IfStream.read_at_le h2, read_if_le h3, read_if_le h4,
      IfStream.read_at_le h5,
      IfStream.fail_at, Bool.false_eq_true, if_false]
    refine ⟨_, ⟨?_, ?_⟩, Prod.ext rfl ?_⟩
    · exact lt_of_le_of_lt (List.length_take_le _ _) (ofLE_take_lt data pos)
    · exact lt_of_le_of_lt (List.length_take_le _ _) (ofLE_take_lt data (pos + 4))
    · simp only
      congr 1
      omega
  · exact absurd h (by simp)

theorem readRecord_of_none (h : recordEnd data pos = none) : (readRecord (.at_ data pos)).1 = none := by
  unfold recordEnd at h
  simp only at h
  split at h
  · exact absurd h (by simp)
  rename_i hlt
  unfold readRecord
  -- the first read that goes beyond the end of the file fails
  by_cases h1 : pos + 4 ≤ data.length
  swap
  · simp only [IfStream.read_at_short (not_le.1 h1), if_true]
  simp only [IfStream.read_at_le h1, IfStream.fail_at, Bool.false_eq_true, if_false]
  by_cases h2 : pos + 4 + 4 ≤ data.length
  swap
  · simp only [IfStream.read_at_short (not_le.1 h2), if_true]
  simp only [IfStream.read_at_le h2, IfStream.fail_at, Bool.false_eq_true, if_false]
  by_cases h3 : pos + 4 + 4 + ofLE ((data.drop pos).take 4) ≤ data.length
  swap
  · simp only [read_if_short h2 (not_le.1 h3), if_true]
  simp only [read_if_le h3, IfStream.fail_at, Bool.false_eq_true, if_false]
  by_cases h4 : pos + 4 + 4 + ofLE ((data.drop pos).take 4) + ofLE ((data.drop (pos + 4)).take 4) ≤ data.length
  swap
  · simp only [read_if_short h3 (not_le.1 h4), if_true]
  simp only [read_if_le h4, IfStream.fail_at, Bool.false_eq_true, if_false]
  rw [if_pos (IfStream.read_at_short (by omega))]

/-! ## Loops -/

namespace SSTableReader

variable {indexOffset indexSize : ℕ} {key : Bytes} {allocates : ℕ → Bool}

theorem scan_succ (n : ℕ) (s : IfStream) : scan indexOffset key (n + 1) s =
    (scanRound indexOffset key s).elim (scan indexOffset key n) id := by
  conv_lhs => unfold scan
  unfold scanRound
  split
  · rfl
  split
  · rfl
  obtain ⟨o, s'⟩ := readRecord s
  cases o with
  | none => rfl
  | some r =>
    simp only
    split
    · rfl
    · split <;> rfl

/-- A record that is read lies within the file. -/
theorem scanRound_less {s s' : IfStream} (h : scanRound indexOffset key s = .inl s') :
    s'.data.length - s'.pos < s.data.length - s.pos := by
  unfold scanRound at h
  split at h
  · exact absurd h (by simp)
  rename_i hgood
  obtain ⟨data, pos, rfl⟩ := IfStream.exists_at_of_good (by simpa using hgood)
  split at h
  · exact absurd h (by simp)
  cases hend : recordEnd data pos with
  | none =>
    have hread : readRecord (.at_ data pos) = (none, (readRecord (.at_ data pos)).2) :=
      Prod.ext (readRecord_of_none hend) rfl
    rw [hread] at h
    exact absurd h (by simp)
  | some e =>
    obtain ⟨r, -, hread⟩ := readRecord_of_end hend
    obtain ⟨h9, hle⟩ := recordEnd_bounds hend
    rw [hread] at h
    simp only at h
    split at h
    · exact absurd h (by simp)
    · split at h
      · exact absurd h (by simp)
      · obtain rfl := Sum.inl.inj h
        simp only [IfStream.at_]
        omega

theorem scan_ends (fuel : ℕ) (s : IfStream) (h : s.data.length - s.pos < fuel) :
    Loop.Ends (Loop.ofFun (scanRound indexOffset key)) s (scan indexOffset key fuel s) :=
  Loop.ends_ofFun (fun _ => True) (fun s => s.data.length - s.pos) scan_succ
    (fun _ _ _ h => ⟨trivial, scanRound_less h⟩) fuel s trivial h

/-- **Every lookup comes to an end**, in a reader of any file and from wherever its stream
was left. -/
theorem getReturns (hash : Bytes → UInt64) (r : SSTableReader) (key : Bytes) (s : IfStream)
    (hs : s.data.length ≤ r.data.length) : r.GetReturns hash key s (r.getFrom hash key s) := by
  unfold GetReturns getFrom
  split
  · rfl
  cases startOffset r.sparseIndex key with
  | none => rfl
  | some off =>
    have hdata : (s.clear.seekg off).data = s.data := IfStream.data_seekg _ _
    exact scan_ends _ _ (by rw [hdata]; omega)

/-! ## The sparse index -/

theorem readIndex_succ (n : ℕ) (st : IndexLoop) :
    (readIndex allocates indexSize (n + 1) st.bytesRead st.file).map (st.index ++ ·) =
      (indexRound allocates indexSize st).elim
        (fun st => (readIndex allocates indexSize n st.bytesRead st.file).map (st.index ++ ·)) id := by
  conv_lhs => unfold readIndex
  unfold indexRound
  split
  · exact congrArg some (List.append_nil _)
  simp only
  split
  · exact congrArg some (List.append_nil _)
  split
  · rfl
  generalize (if 0 < ofLE (st.file.read 4).1 then (st.file.read 4).2.read (ofLE (st.file.read 4).1)
    else ([], (st.file.read 4).2)) = part
  split
  · exact congrArg some (List.append_nil _)
  · rw [Sum.elim_inl, Option.map_map]
    congr 1
    funext index
    simp only [Function.comp, List.append_assoc, List.singleton_append]

/-- An entry that is read lies within the file. -/
theorem indexRound_less {st st' : IndexLoop} (h : indexRound allocates indexSize st = .inl st') :
    st'.file.data.length - st'.file.pos < st.file.data.length - st.file.pos := by
  unfold indexRound at h
  split at h
  · exact absurd h (by simp)
  rename_i hgo
  simp only [Bool.or_eq_true, not_or, Bool.not_eq_true', Bool.not_eq_false] at hgo
  obtain ⟨data, pos, hfile⟩ := IfStream.exists_at_of_good hgo.2
  rw [hfile] at h ⊢
  by_cases h1 : pos + 4 ≤ data.length
  swap
  · simp only [IfStream.read_at_short (not_le.1 h1), if_true] at h
    exact absurd h (by simp)
  simp only [IfStream.read_at_le h1, IfStream.fail_at, Bool.false_eq_true, if_false] at h
  split at h
  · exact absurd h (by simp)
  by_cases h2 : pos + 4 + ofLE ((data.drop pos).take 4) ≤ data.length
  swap
  · rw [if_pos (IfStream.fail_read (read_if_short h1 (not_le.1 h2)))] at h
    exact absurd h (by simp)
  simp only [read_if_le h2] at h
  by_cases h3 : pos + 4 + ofLE ((data.drop pos).take 4) + 8 ≤ data.length
  swap
  · simp only [IfStream.read_at_short (not_le.1 h3), if_true] at h
    exact absurd h (by simp)
  simp only [IfStream.read_at_le h3, IfStream.fail_at, Bool.false_eq_true, if_false] at h
  obtain rfl := Sum.inl.inj h
  simp only [IfStream.at_]
  omega

/-- **The constructor comes to an end on every file**, whatever memory it is given. -/
theorem newReturns (filepath : Bytes) (content : Option Bytes) (allocates : ℕ → Bool) :
    NewReturns filepath content allocates (new filepath content allocates) := by
  unfold NewReturns new
  cases openTable filepath content with
  | error what => rfl
  | ok opened =>
    obtain ⟨s, footer⟩ := opened
    simp only
    cases BloomFilter.default.deserialize (s.seekg footer.filterOffset) allocates with
    | error what => rfl
    | ok read =>
      obtain ⟨bloom, s'⟩ := read
      have hdata : (s'.seekg footer.indexOffset).data = s'.data := IfStream.data_seekg _ _
      have hends := Loop.ends_ofFun
        (f := fun n st => (readIndex allocates footer.indexSize n st.bytesRead st.file).map (st.index ++ ·))
        (fun _ => True) (fun st => st.file.data.length - st.file.pos) readIndex_succ
        (fun _ _ _ h => ⟨trivial, indexRound_less h⟩) (s'.data.length + 1)
        ⟨[], 0, s'.seekg footer.indexOffset⟩ trivial (by simp only [hdata]; omega)
      simp only [List.nil_append, Option.map_id'] at hends
      exact ⟨_, hends, rfl⟩

end SSTableReader

end LsmTree

import LsmTree.Proof.Escape

/-!
# Parsing one line of the log

The decoder searches the whole line for each quoted field name, so what decides is
where a name occurs first.

* `find_quoted`: in quoted text a field name is found only if the text ends with
  that name after a quote, and then right before the closing quote.
* `escape_delimits`: **escaped text delimits itself** between quotes.
* `parse_operation`, `parse_key`, `parse_value`: these three fields are read back
  for every key and value. A key that hides the name `value` does no harm: the next
  colon is the one after the real name.
* `parse_timestamp`: the timestamp is read back unless the key is `timestamp` or
  ends with `"timestamp` (`HidesTimestamp`). Then the next colon is the one before
  the value, no digit follows it, and the line is rejected.

All of them hold for a line with a `Stub` before it: what a write torn before its
first colon leaves in the file.
-/

namespace LsmTree.WAL

open Base

/-! ## Records -/

/-- The operations that `MemTable` writes. -/
inductive LogOp where
  | put
  | delete
  deriving DecidableEq, Repr

def LogOp.name : LogOp → Bytes
  | .put => bytes "PUT"
  | .delete => bytes "DELETE"

/-- The arguments of one `Append`, with the time it read from the clock. -/
structure LogRecord where
  op : LogOp
  key : Bytes
  value : Bytes
  time : Int64

/-- The line of a record, without its newline. -/
def LogRecord.line (r : LogRecord) : Bytes := jsonLine r.op.name r.key r.value r.time

/-- What a record decodes to. -/
def LogRecord.entry (r : LogRecord) : LogEntry := ⟨r.op.name, r.key, r.value, r.time.toInt⟩

/-- The key is `timestamp` or ends with `"timestamp`. -/
def HidesTimestamp (key : Bytes) : Prop := dquote :: bytes "timestamp" <:+ dquote :: key

instance (key : Bytes) : Decidable (HidesTimestamp key) := inferInstanceAs (Decidable (_ <:+ _))

/-- Bytes of lines torn before their first colon. -/
def Stub (P : Bytes) : Prop := ∀ c ∈ P, c ∈ bytes "\x7b\"operation\""

theorem stub_nil : Stub [] := fun _ h => absurd h List.not_mem_nil

theorem LogOp.escape_name (o : LogOp) : escapeJSON o.name = o.name := by
  have hput : LogOp.put.name = [80, 85, 84] := rfl
  have hdelete : LogOp.delete.name = [68, 69, 76, 69, 84, 69] := rfl
  refine escape_plain ?_
  cases o with
  | put => simp [hput, Plain, escapeByte, dquote, backslash]
  | delete => simp [hdelete, Plain, escapeByte, dquote, backslash]

/-! ## Where a field name occurs -/

/-- An occurrence of a list, element by element. -/
theorem getElem?_of_prefix_drop {α : Type*} {s pat : List α} {j : ℕ} (h : pat <+: s.drop j) {t : ℕ}
    (ht : t < pat.length) : s[j + t]? = pat[t]? := by
  rw [← List.getElem?_drop, List.prefix_iff_getElem?.1 h t ht]
  exact (List.getElem?_eq_getElem ht).symm

/-- A part of the line that lacks some character of the name, up to a quote, holds no
occurrence of the quoted name. -/
theorem not_occ_const {name A B : Bytes} {m : ℕ} {c : UInt8} (hname : ∀ c ∈ name, Plain c)
    (hm : name[m]? = some c) (hc : c ∉ A) {j : ℕ} (hj : j < A.length) :
    ¬ target name <+: (A ++ dquote :: B).drop j := by
  intro h
  have hlen : m < name.length := (List.getElem?_eq_some_iff.1 hm).1
  have htl : (target name).length = name.length + 2 := by simp [target]
  have hget : ∀ t, t < name.length → (A ++ dquote :: B)[j + (t + 1)]? = name[t]? := fun t ht => by
    rw [getElem?_of_prefix_drop h (by omega)]
    unfold target
    rw [List.cons_append, List.getElem?_cons_succ, List.getElem?_append_left ht]
  rcases lt_or_ge (j + (m + 1)) A.length with hlt | hge
  · have := hget m hlen
    rw [List.getElem?_append_left hlt, hm] at this
    exact hc (List.mem_of_getElem? this)
  · -- the quote after `A` would be a character of the name
    obtain ⟨t, ht⟩ : ∃ t, A.length = j + (t + 1) := ⟨A.length - j - 1, by omega⟩
    have := hget t (by omega)
    rw [← ht, List.getElem?_append_right le_rfl, Nat.sub_self, List.getElem?_cons_zero] at this
    exact (hname _ (List.mem_of_getElem? this.symm)).ne.2 rfl

/-- Skipping such a part. -/
theorem find_const {name A B : Bytes} {m : ℕ} {c : UInt8} (hname : ∀ c ∈ name, Plain c)
    (hm : name[m]? = some c) (hc : c ∉ A) :
    find (A ++ dquote :: B) (target name) 0 =
      (find (dquote :: B) (target name) 0).map (A.length + ·) :=
  find_append (Nat.zero_le _) fun _ _ hj => not_occ_const hname hm hc hj

/-- The name right after such a part. -/
theorem find_name {name A rest : Bytes} {m : ℕ} {c : UInt8} (hname : ∀ c ∈ name, Plain c)
    (hm : name[m]? = some c) (hc : c ∉ A) :
    find (A ++ target name ++ rest) (target name) 0 = some A.length := by
  have htgt : target name ++ rest = dquote :: (name ++ dquote :: rest) := by simp [target]
  rw [List.append_assoc, htgt, find_const hname hm hc, ← htgt, find_self ⟨rest, rfl⟩ (Nat.zero_le _)]
  rfl

/-- If a text, with its opening quote, ends with a quoted name, so does its escape. -/
theorem suffix_escape {name s : Bytes} (hname : ∀ c ∈ name, Plain c)
    (h : dquote :: name <:+ dquote :: s) : dquote :: name <:+ dquote :: escapeJSON s := by
  obtain ⟨t, ht⟩ := h
  cases t with
  | nil =>
    rw [List.nil_append] at ht
    rw [← (List.cons.inj ht).2, escape_plain hname]
  | cons q t =>
    refine ⟨dquote :: escapeJSON t ++ [backslash], ?_⟩
    rw [← (List.cons.inj ht).2]
    simp [escape_plain hname, escapeByte]

theorem length_le_of_suffix {name s : Bytes} (hname : ∀ c ∈ name, Plain c)
    (h : dquote :: name <:+ dquote :: s) : name.length ≤ (escapeJSON s).length :=
  Nat.le_of_succ_le_succ (suffix_escape hname h).length_le

/-- **Searching quoted text for a field name.** -/
theorem find_quoted {name : Bytes} (hname : ∀ c ∈ name, Plain c) (s rest : Bytes) :
    find (dquote :: (escapeJSON s ++ dquote :: rest)) (target name) 0 =
      if dquote :: name <:+ dquote :: s then some ((escapeJSON s).length - name.length)
      else (find (dquote :: rest) (target name) 0).map ((escapeJSON s).length + 1 + ·) := by
  rw [← List.cons_append]
  split
  · rename_i h
    obtain ⟨t, ht⟩ := suffix_escape hname h
    have hlen := congrArg List.length ht
    simp only [List.length_append, List.length_cons] at hlen
    rw [find_eq_some]
    refine ⟨?_, Nat.zero_le _, by simp; omega, fun j _ hj hocc => ?_⟩
    · have : (escapeJSON s).length - name.length = t.length := by omega
      rw [this, ← ht, List.append_assoc, List.drop_left]
      exact ⟨rest, by simp [target]⟩
    · have := (occ_escape hname (by simp; omega) hocc).2
      omega
  · rename_i h
    rw [find_append (Nat.zero_le _) fun j _ hj hocc => h (occ_escape hname hj hocc).1]
    rfl

/-! ## Reading a field -/

/-- A string field is read from the first quote after the first colon after its name. -/
theorem parseStringField_eq {a s rest f : Bytes} {i : ℕ}
    (hfind : find (a ++ colon :: dquote :: (escapeJSON s ++ dquote :: rest)) (target f) 0 = some i)
    (hi : i + (target f).length ≤ a.length) (hcolon : colon ∉ a.drop (i + (target f).length)) :
    parseStringField (a ++ colon :: dquote :: (escapeJSON s ++ dquote :: rest)) f =
      some (escapeJSON s) := by
  set line := a ++ colon :: dquote :: (escapeJSON s ++ dquote :: rest) with hline
  have hc : find line [colon] (i + (target f).length) = some a.length := find_singleton hi hcolon
  have hq : find line [dquote] a.length = some (a.length + 1) := by
    have : line = (a ++ [colon]) ++ dquote :: (escapeJSON s ++ dquote :: rest) := by simp [hline]
    rw [this, find_singleton (by simp)]
    · simp
    · rw [List.drop_left]
      decide
  have hpre : line = (a ++ [colon, dquote]) ++ escapeJSON s ++ dquote :: rest := by simp [hline]
  have hend := endQuote_escape (a ++ [colon, dquote]) s rest
  rw [← hpre] at hend
  have hlen : (a ++ [colon, dquote]).length = a.length + 1 + 1 := by simp
  have hlen' : line.length = a.length + 1 + 1 + (escapeJSON s).length + (rest.length + 1) := by
    rw [hpre]
    simp only [List.length_append, List.length_cons, List.length_nil]
  unfold parseStringField
  simp only [hfind, hc, hq, Option.bind_eq_bind, Option.bind_some]
  rw [hlen] at hend
  rw [hend, if_neg (by omega)]
  have hdrop : line.drop (a.length + 1 + 1) = escapeJSON s ++ dquote :: rest := by
    rw [hpre, List.append_assoc, ← hlen, List.drop_left]
  rw [hdrop, Nat.add_sub_cancel_left, List.take_left]

/-- **Escaped text delimits itself.** It stays on one line; between quotes, behind the first
occurrence of a field name, it is read to its end and no further, whatever follows; and it
is turned back into the text. -/
theorem escape_delimits (s rest : Bytes) :
    newline ∉ escapeJSON s ∧
    (∀ pre name : Bytes,
      find (pre ++ target name ++ colon :: dquote :: (escapeJSON s ++ dquote :: rest)) (target name) 0 =
        some pre.length →
      parseStringField (pre ++ target name ++ colon :: dquote :: (escapeJSON s ++ dquote :: rest)) name =
        some (escapeJSON s)) ∧
    unescapeJSON (escapeJSON s) = s := by
  refine ⟨newline_notMem_escape s, fun pre name hfirst => ?_, unescape_escape s⟩
  have hend : (pre ++ target name).drop (pre.length + (target name).length) = [] := by
    rw [← List.length_append, List.drop_length]
  refine parseStringField_eq hfirst (by rw [List.length_append]) ?_
  rw [hend]
  exact List.not_mem_nil

/-- A text of quotes and backslashes, with more of them behind it. -/
theorem escape_delimits_quotes :
    parseStringField (bytes "\x7b" ++ target (bytes "key") ++ colon :: dquote ::
      (escapeJSON (bytes "\"\\\"u0041\\") ++ dquote :: bytes "\\\",\"key\":\"\"")) (bytes "key") =
        some (escapeJSON (bytes "\"\\\"u0041\\")) :=
  (escape_delimits (bytes "\"\\\"u0041\\") (bytes "\\\",\"key\":\"\"")).2.1 (bytes "\x7b") (bytes "key")
    (by decide +kernel)

/-- An integer field is read from after the first colon after its name. -/
theorem parseIntegerField_eq {a rest f : Bytes} {i : ℕ}
    (hfind : find (a ++ colon :: rest) (target f) 0 = some i)
    (hi : i + (target f).length ≤ a.length) (hcolon : colon ∉ a.drop (i + (target f).length)) :
    parseIntegerField (a ++ colon :: rest) f =
      if integerSpan (rest.dropWhile isBlank) = [] then none
      else stoll (integerSpan (rest.dropWhile isBlank)) := by
  have hc : find (a ++ colon :: rest) [colon] (i + (target f).length) = some a.length :=
    find_singleton hi hcolon
  have hdrop : (a ++ colon :: rest).drop (a.length + 1) = rest := by
    rw [List.append_cons, List.drop_left' (by simp)]
  unfold parseIntegerField
  simp only [hfind, hc, Option.bind_eq_bind, Option.bind_some, hdrop]
  split
  · rename_i h
    rw [h]
    rfl
  · rfl

/-! ## The parts of a line -/

/-- A stub and the line up to the comma before the name `key`. -/
def opPart (P : Bytes) (o : LogOp) : Bytes :=
  P ++ bytes "\x7b\"operation\":\"" ++ o.name ++ bytes "\","

/-- The line up to the opening quote of the key. -/
def keyPart (P : Bytes) (o : LogOp) : Bytes := opPart P o ++ bytes "\"key\":"

/-- What stands between the key's closing quote and the value's opening quote. -/
def midPart : Bytes := bytes ",\"value\":"

/-- The line after the value's closing quote. -/
def tailPart (time : Int64) : Bytes := bytes ",\"timestamp\":" ++ decimalInt time.toInt ++ bytes "\x7d"

/-- **The shape of a line**: constant text around the quoted key and value. -/
theorem line_eq (P : Bytes) (r : LogRecord) :
    P ++ r.line = keyPart P r.op ++ dquote :: (escapeJSON r.key ++ dquote ::
      (midPart ++ dquote :: (escapeJSON r.value ++ dquote :: tailPart r.time))) := by
  unfold LogRecord.line jsonLine keyPart opPart midPart tailPart
  rw [r.op.escape_name]
  have h1 : bytes "\",\"key\":\"" = bytes "\"," ++ (bytes "\"key\":" ++ [dquote]) := rfl
  have h2 : bytes "\",\"value\":\"" = dquote :: (bytes ",\"value\":" ++ [dquote]) := rfl
  have h3 : bytes "\",\"timestamp\":" = dquote :: bytes ",\"timestamp\":" := rfl
  rw [h1, h2, h3]
  simp only [List.append_assoc, List.cons_append, List.nil_append]

theorem plain_key : ∀ c ∈ bytes "key", Plain c := by
  have h : bytes "key" = [107, 101, 121] := rfl
  simp [h, Plain, escapeByte, dquote, backslash]

theorem plain_value : ∀ c ∈ bytes "value", Plain c := by
  have h : bytes "value" = [118, 97, 108, 117, 101] := rfl
  simp [h, Plain, escapeByte, dquote, backslash]

theorem plain_timestamp : ∀ c ∈ bytes "timestamp", Plain c := by
  have h : bytes "timestamp" = [116, 105, 109, 101, 115, 116, 97, 109, 112] := rfl
  simp [h, Plain, escapeByte, dquote, backslash]

/-- The characters of the constant text before the name `key`. -/
def opChars : Bytes := bytes "\x7b\"operation\":\"PUTDELETE\","

theorem opChars_eq : opChars =
    [123, 34, 111, 112, 101, 114, 97, 116, 105, 111, 110, 34, 58, 34, 80, 85, 84, 68, 69, 76,
    69, 84, 69, 34, 44] := rfl

theorem notMem_opPart {P : Bytes} (hP : Stub P) {o : LogOp} {c : UInt8} (h : c ∉ opChars) :
    c ∉ opPart P o := by
  have h1 : bytes "\x7b\"operation\"" <:+: opChars := ⟨[], bytes ":\"PUTDELETE\",", rfl⟩
  have h2 : bytes "\x7b\"operation\":\"" <:+: opChars := ⟨[], bytes "PUTDELETE\",", rfl⟩
  have h3 : o.name <:+: opChars := by
    cases o with
    | put => exact ⟨bytes "\x7b\"operation\":\"", bytes "DELETE\",", rfl⟩
    | delete => exact ⟨bytes "\x7b\"operation\":\"PUT", bytes "\",", rfl⟩
  have h4 : bytes "\"," <:+: opChars := ⟨bytes "\x7b\"operation\":\"PUTDELETE", [], rfl⟩
  intro hc
  unfold opPart at hc
  simp only [List.mem_append] at hc
  rcases hc with ((hc | hc) | hc) | hc
  · exact h (h1.subset (hP c hc))
  · exact h (h2.subset hc)
  · exact h (h3.subset hc)
  · exact h (h4.subset hc)

theorem notMem_keyPart {P : Bytes} (hP : Stub P) {o : LogOp} {c : UInt8} (h : c ∉ opChars)
    (h' : c ∉ bytes "\"key\":") : c ∉ keyPart P o := by
  unfold keyPart
  rw [List.mem_append, not_or]
  exact ⟨notMem_opPart hP h, h'⟩

theorem keyName_eq : bytes "\"key\":" = [34, 107, 101, 121, 34, 58] := rfl

theorem midPart_eq : midPart = [44, 34, 118, 97, 108, 117, 101, 34, 58] := rfl

theorem colon_notMem_operation : colon ∉ bytes "\x7b\"operation\"" := by
  have h : bytes "\x7b\"operation\"" = [123, 34, 111, 112, 101, 114, 97, 116, 105, 111, 110, 34] := rfl
  simp [h, colon]

theorem colon_notMem_value : colon ∉ bytes ",\"value\"" := by
  have h : bytes ",\"value\"" = [44, 34, 118, 97, 108, 117, 101, 34] := rfl
  simp [h, colon]

theorem colon_notMem_timestamp : colon ∉ bytes ",\"timestamp\"" := by
  have h : bytes ",\"timestamp\"" = [44, 34, 116, 105, 109, 101, 115, 116, 97, 109, 112, 34] := rfl
  simp [h, colon]

/-! ## The fields of a line -/

variable {P : Bytes} (hP : Stub P) (r : LogRecord)

include hP

theorem parse_operation : parseStringField (P ++ r.line) (bytes "operation") = some r.op.name := by
  -- no colon comes before the real one, so an earlier occurrence of the name does no harm
  have hline : P ++ r.line = (P ++ bytes "\x7b\"operation\"") ++ colon :: dquote ::
      (escapeJSON r.op.name ++ dquote :: (bytes ",\"key\":\"" ++ escapeJSON r.key ++
        bytes "\",\"value\":\"" ++ escapeJSON r.value ++ bytes "\",\"timestamp\":" ++
        decimalInt r.time.toInt ++ bytes "\x7d")) := by
    unfold LogRecord.line jsonLine
    have h1 : bytes "\x7b\"operation\":\"" = bytes "\x7b\"operation\"" ++ [colon, dquote] := rfl
    have h2 : bytes "\",\"key\":\"" = dquote :: bytes ",\"key\":\"" := rfl
    rw [h1, h2]
    simp only [List.append_assoc, List.cons_append, List.nil_append]
  have hocc : target (bytes "operation") <+: (P ++ r.line).drop (P.length + 1) := by
    rw [hline, List.append_assoc, List.drop_append, List.drop_eq_nil_of_le (by omega), Nat.add_sub_cancel_left]
    exact ⟨_, rfl⟩
  obtain ⟨i, hi, hle⟩ := find_le hocc (Nat.zero_le _) (by rw [hline]; simp; omega)
  have hcolon : colon ∉ P ++ bytes "\x7b\"operation\"" := by
    rw [List.mem_append, not_or]
    exact ⟨fun h => colon_notMem_operation (hP _ h), colon_notMem_operation⟩
  have htl : (target (bytes "operation")).length = 11 := rfl
  have hl : (bytes "\x7b\"operation\"").length = 12 := rfl
  rw [hline] at hi ⊢
  rw [parseStringField_eq hi (by rw [List.length_append]; omega)
    fun h => hcolon (List.mem_of_mem_drop h), r.op.escape_name]

theorem parse_key : parseStringField (P ++ r.line) (bytes "key") = some (escapeJSON r.key) := by
  have hline : P ++ r.line = (opPart P r.op ++ target (bytes "key")) ++ colon :: dquote ::
      (escapeJSON r.key ++ dquote ::
        (midPart ++ dquote :: (escapeJSON r.value ++ dquote :: tailPart r.time))) := by
    rw [line_eq]
    unfold keyPart
    have h1 : bytes "\"key\":" = target (bytes "key") ++ [colon] := rfl
    rw [h1]
    simp only [List.append_assoc, List.cons_append, List.nil_append]
  have hfind : find (P ++ r.line) (target (bytes "key")) 0 = some (opPart P r.op).length := by
    rw [hline]
    exact find_name (m := 0) (c := 107) plain_key rfl (notMem_opPart hP (by simp [opChars_eq]))
  rw [hline] at hfind ⊢
  refine parseStringField_eq hfind (by rw [List.length_append]) ?_
  rw [← List.length_append, List.drop_length]
  exact List.not_mem_nil

/-- Where the name `value` is found: at the end of a key that hides it, else in its place. -/
theorem find_value : find (P ++ r.line) (target (bytes "value")) 0 =
    some ((keyPart P r.op).length + if dquote :: bytes "value" <:+ dquote :: r.key then
      (escapeJSON r.key).length - 5 else (escapeJSON r.key).length + 1 + 2) := by
  have hmid : ∀ rest, find (dquote :: (midPart ++ rest)) (target (bytes "value")) 0 = some 2 := fun rest => by
    have : dquote :: (midPart ++ rest) = [dquote, 44] ++ target (bytes "value") ++ colon :: rest := rfl
    rw [this]
    exact find_name (m := 0) plain_value rfl (by decide)
  rw [line_eq, find_const (m := 0) (c := 118) plain_value rfl (notMem_keyPart hP (by simp [opChars_eq])
    (by simp [keyName_eq])), find_quoted plain_value, hmid]
  split <;> rfl

theorem parse_value : parseStringField (P ++ r.line) (bytes "value") = some (escapeJSON r.value) := by
  -- everything up to the colon of the value
  set a := keyPart P r.op ++ ((dquote :: escapeJSON r.key) ++ dquote :: bytes ",\"value\"") with ha
  have hline : P ++ r.line = a ++ colon :: dquote ::
      (escapeJSON r.value ++ dquote :: tailPart r.time) := by
    rw [line_eq]
    have h1 : midPart = bytes ",\"value\"" ++ [colon] := rfl
    rw [ha, h1]
    simp only [List.append_assoc, List.cons_append, List.nil_append]
  have htl : (target (bytes "value")).length = 7 := rfl
  have hal : a.length = (keyPart P r.op).length + ((escapeJSON r.key).length + 1 + 9) := by
    rw [ha, List.length_append, List.length_append, List.length_cons]
    rfl
  have hfind := find_value hP r
  rw [hline] at hfind ⊢
  by_cases h : dquote :: bytes "value" <:+ dquote :: r.key
  · rw [if_pos h] at hfind
    have hge : 5 ≤ (escapeJSON r.key).length := length_le_of_suffix plain_value h
    refine parseStringField_eq hfind (by omega) ?_
    have : (keyPart P r.op).length + ((escapeJSON r.key).length - 5) + (target (bytes "value")).length =
        (keyPart P r.op ++ ((dquote :: escapeJSON r.key) ++ [dquote])).length := by
      rw [htl]
      simp only [List.length_append, List.length_cons, List.length_nil]
      omega
    have hsplit : a = (keyPart P r.op ++ ((dquote :: escapeJSON r.key) ++ [dquote])) ++ bytes ",\"value\"" := by
      rw [ha]
      simp only [List.append_assoc, List.cons_append, List.nil_append]
    rw [this, hsplit, List.drop_left]
    exact colon_notMem_value
  · rw [if_neg h] at hfind
    refine parseStringField_eq hfind (by omega) ?_
    rw [List.drop_eq_nil_of_le (by omega)]
    exact List.not_mem_nil

/-- Everything before the value's closing quote. -/
def valuePart (P : Bytes) (r : LogRecord) : Bytes :=
  keyPart P r.op ++ dquote :: (escapeJSON r.key ++ dquote :: (midPart ++ dquote :: escapeJSON r.value))

omit hP in
theorem line_eq_value (P : Bytes) (r : LogRecord) :
    P ++ r.line = valuePart P r ++ dquote :: tailPart r.time := by
  rw [line_eq]
  unfold valuePart
  simp only [List.append_assoc, List.cons_append]

/-- Where the name `timestamp` is found: at the end of a key that hides it, at the end
of a value that hides it, else in its place. -/
theorem find_timestamp : find (P ++ r.line) (target (bytes "timestamp")) 0 =
    some ((keyPart P r.op).length + if HidesTimestamp r.key then (escapeJSON r.key).length - 9
      else (escapeJSON r.key).length + 1 + ((dquote :: midPart).length +
        if HidesTimestamp r.value then (escapeJSON r.value).length - 9
        else (escapeJSON r.value).length + 1 + 2)) := by
  have htail : find (dquote :: tailPart r.time) (target (bytes "timestamp")) 0 = some 2 := by
    have : dquote :: tailPart r.time = [dquote, 44] ++ target (bytes "timestamp") ++
        colon :: (decimalInt r.time.toInt ++ bytes "\x7d") := rfl
    rw [this]
    exact find_name (m := 0) plain_timestamp rfl (by decide)
  have hmid : ∀ rest, find (dquote :: (midPart ++ dquote :: rest)) (target (bytes "timestamp")) 0 =
      (find (dquote :: rest) (target (bytes "timestamp")) 0).map ((dquote :: midPart).length + ·) :=
    fun rest => find_const (A := dquote :: midPart) (m := 4) (c := 115) plain_timestamp rfl
      (by simp [midPart_eq, dquote])
  rw [line_eq, find_const (m := 4) (c := 115) plain_timestamp rfl (notMem_keyPart hP (by simp [opChars_eq])
    (by simp [keyName_eq])), find_quoted plain_timestamp, hmid, find_quoted plain_timestamp, htail]
  by_cases hk : dquote :: bytes "timestamp" <:+ dquote :: r.key
  · rw [if_pos hk, if_pos (c := HidesTimestamp r.key) hk]
    rfl
  · rw [if_neg hk, if_neg (c := HidesTimestamp r.key) hk]
    by_cases hv : dquote :: bytes "timestamp" <:+ dquote :: r.value
    · rw [if_pos hv, if_pos (c := HidesTimestamp r.value) hv]
      rfl
    · rw [if_neg hv, if_neg (c := HidesTimestamp r.value) hv]
      rfl

omit hP in
theorem integerSpan_decimalInt (i : ℤ) {rest : Bytes} {c : UInt8} (hc : isDigit c = false) :
    integerSpan ((decimalInt i ++ c :: rest).dropWhile isBlank) = decimalInt i := by
  have hdigits : ∀ n, (decimal n ++ c :: rest).takeWhile isDigit = decimal n := fun n => by
    rw [List.takeWhile_append_of_pos isDigit_of_mem_decimal, List.takeWhile_cons_of_neg (by simp [hc]),
      List.append_nil]
  unfold decimalInt
  split
  · rw [List.cons_append, List.dropWhile_cons_of_neg (by decide)]
    simp only [integerSpan, hdigits]
  · obtain ⟨d, ds, hd⟩ := List.exists_cons_of_ne_nil (decimal_ne_nil i.natAbs)
    have hdig : isDigit d = true := isDigit_of_mem_decimal d (by rw [hd]; exact List.mem_cons_self)
    have hblank : isBlank d = false := by
      have := not_isSpace_of_isDigit hdig
      unfold isSpace at this
      unfold isBlank
      simp only [Bool.or_eq_false_iff, beq_eq_false_iff_ne, ne_eq] at this ⊢
      refine ⟨this.1, fun h => ?_⟩
      subst h
      exact absurd hdig (by decide)
    have hspan := hdigits i.natAbs
    rw [hd] at hspan ⊢
    rw [List.cons_append, List.dropWhile_cons_of_neg (by simp [hblank])]
    unfold integerSpan
    split
    · rename_i heq
      exact absurd (List.cons.inj heq).1 (ne_sign_of_isDigit hdig).1
    · exact hspan

/-- Where a key hides the name, the next colon is the one before the value, and a quote
follows it. -/
theorem find_hidden (h : HidesTimestamp r.key) : ∃ a i rest, P ++ r.line = a ++ colon :: dquote :: rest ∧
    find (P ++ r.line) (target (bytes "timestamp")) 0 = some i ∧
    i + (target (bytes "timestamp")).length ≤ a.length ∧
    colon ∉ a.drop (i + (target (bytes "timestamp")).length) := by
  have htl : (target (bytes "timestamp")).length = 11 := rfl
  have hfind := find_timestamp hP r
  rw [if_pos h] at hfind
  have hge := length_le_of_suffix plain_timestamp h
  have h9 : (bytes "timestamp").length = 9 := rfl
  set a := keyPart P r.op ++ ((dquote :: escapeJSON r.key) ++ dquote :: bytes ",\"value\"") with ha
  have hline : P ++ r.line = a ++ colon ::
      (dquote :: (escapeJSON r.value ++ dquote :: tailPart r.time)) := by
    rw [line_eq]
    have h1 : midPart = bytes ",\"value\"" ++ [colon] := rfl
    rw [ha, h1]
    simp only [List.append_assoc, List.cons_append, List.nil_append]
  have hsplit : a = (keyPart P r.op ++ ((dquote :: escapeJSON r.key) ++ [dquote])) ++ bytes ",\"value\"" := by
    rw [ha]
    simp only [List.append_assoc, List.cons_append, List.nil_append]
  have hlen : (keyPart P r.op).length + ((escapeJSON r.key).length - 9) + (target (bytes "timestamp")).length =
      (keyPart P r.op ++ ((dquote :: escapeJSON r.key) ++ [dquote])).length := by
    rw [htl]
    simp only [List.length_append, List.length_cons, List.length_nil]
    omega
  refine ⟨a, _, _, hline, hfind, ?_, ?_⟩
  · rw [hlen, hsplit]
    exact (List.prefix_append _ _).length_le
  · rw [hlen, hsplit, List.drop_left]
    exact colon_notMem_value

/-- **The timestamp is read back unless the key hides its name.** -/
theorem parse_timestamp : parseIntegerField (P ++ r.line) (bytes "timestamp") =
    if HidesTimestamp r.key then none else some r.time.toInt := by
  have htl : (target (bytes "timestamp")).length = 11 := rfl
  split
  · rename_i h
    obtain ⟨a, i, rest, hline, hi, hle, hcolon⟩ := find_hidden hP r h
    rw [hline] at hi ⊢
    rw [parseIntegerField_eq hi hle hcolon, List.dropWhile_cons_of_neg (by decide)]
    rfl
  · rename_i h
    have hfind := find_timestamp hP r
    rw [if_neg h] at hfind
    -- the name is found at or after the value's closing quote
    set a := valuePart P r ++ dquote :: bytes ",\"timestamp\"" with ha
    have hline : P ++ r.line = a ++ colon :: (decimalInt r.time.toInt ++ bytes "\x7d") := by
      rw [line_eq_value, ha, List.append_assoc]
      rfl
    have hval : (valuePart P r).length = (keyPart P r.op).length + ((escapeJSON r.key).length + 1 +
        ((dquote :: midPart).length + ((escapeJSON r.value).length + 1))) := by
      unfold valuePart
      simp only [List.length_append, List.length_cons]
      omega
    have hal : a.length = (valuePart P r).length + 13 := by
      rw [ha, List.length_append]
      rfl
    have htime : (if integerSpan ((decimalInt r.time.toInt ++ bytes "\x7d").dropWhile isBlank) = [] then none
        else stoll (integerSpan ((decimalInt r.time.toInt ++ bytes "\x7d").dropWhile isBlank))) =
        some r.time.toInt := by
      have hb : bytes "\x7d" = [125] := rfl
      rw [hb, integerSpan_decimalInt _ (by decide), if_neg, stoll_decimalInt]
      · exact r.time.le_toInt
      · exact r.time.toInt_lt
      · unfold decimalInt
        split
        · simp
        · exact decimal_ne_nil _
    rw [hline] at hfind ⊢
    by_cases hv : HidesTimestamp r.value
    · rw [if_pos hv] at hfind
      have hge := length_le_of_suffix plain_timestamp hv
      have h9 : (bytes "timestamp").length = 9 := rfl
      have hsplit : a = (valuePart P r ++ [dquote]) ++ bytes ",\"timestamp\"" := by
        rw [ha]
        simp only [List.append_assoc, List.cons_append, List.nil_append]
      have hlen : (valuePart P r ++ [dquote]).length = (valuePart P r).length + 1 := by
        rw [List.length_append]
        rfl
      rw [parseIntegerField_eq hfind (by omega), htime]
      have : ∀ i, i = (valuePart P r ++ [dquote]).length → colon ∉ a.drop i := fun i hi => by
        rw [hi, hsplit, List.drop_left]
        exact colon_notMem_timestamp
      exact this _ (by omega)
    · rw [if_neg hv] at hfind
      rw [parseIntegerField_eq hfind (by omega), htime]
      rw [List.drop_eq_nil_of_le (by omega)]
      exact List.not_mem_nil

/-- **What a whole line parses to**, also after a stub: its record, unless the key
hides the name of the timestamp. -/
theorem parse_line : parseLogEntry (P ++ r.line) =
    if HidesTimestamp r.key then none else some r.entry := by
  unfold parseLogEntry
  rw [parse_operation hP, parse_key hP, parse_value hP, parse_timestamp hP]
  split
  · rfl
  · simp only [Option.bind_eq_bind, Option.bind_some, unescape_escape]
    have hop : unescapeJSON r.op.name = r.op.name := by
      rw [← r.op.escape_name, unescape_escape]
      exact r.op.escape_name.symm
    rw [hop]
    rfl

/-! ## Cut lines -/

omit hP in
theorem slashes_take {line : Bytes} {start n p : ℕ} (h1 : start ≤ p) (h2 : p ≤ (line.take n).length) :
    slashes (line.take n) start p = slashes line start p := by
  rw [List.length_take] at h2
  rw [slashes_eq _ _ _ h1 (by rw [List.length_take]; omega), slashes_eq _ _ _ h1 (by omega),
    List.take_take, min_eq_left (by omega)]

omit hP in
theorem isEnd_take {line : Bytes} {start n p : ℕ} (h1 : start ≤ p) (h2 : p < (line.take n).length) :
    IsEnd (line.take n) start p ↔ IsEnd line start p := by
  unfold IsEnd
  rw [slashes_take h1 h2.le, List.getElem?_take_of_lt (by rw [List.length_take] at h2; omega)]

omit hP in
/-- **A field read off a cut line is the field of the whole line.** -/
theorem parseStringField_take {line f v : Bytes} {n : ℕ}
    (h : parseStringField (line.take n) f = some v) : parseStringField line f = some v := by
  unfold parseStringField at h ⊢
  simp only [Option.bind_eq_bind] at h ⊢
  rw [Option.bind_eq_some_iff] at h
  obtain ⟨i, hi, h⟩ := h
  rw [Option.bind_eq_some_iff] at h
  obtain ⟨j, hj, h⟩ := h
  rw [Option.bind_eq_some_iff] at h
  obtain ⟨k, hk, h⟩ := h
  rw [find_take (by simp [target]), Option.filter_eq_some_iff] at hi
  rw [find_take (by simp), Option.filter_eq_some_iff] at hj hk
  rw [hi.1, Option.bind_some, hj.1, Option.bind_some, hk.1, Option.bind_some]
  -- the scan stops at the same quote
  set e := endQuote (line.take n) (k + 1) ((line.take n).length - (k + 1)) (k + 1) with he
  split at h
  · exact absurd h (by simp)
  rename_i hlt
  have hkn := hk.2
  simp only [List.length_cons, List.length_nil, Nat.zero_add, decide_eq_true_eq] at hkn
  have hlen : (line.take n).length = min n line.length := List.length_take
  obtain ⟨s1, s2, s3, s4⟩ := endQuote_spec (line.take n) (k + 1) ((line.take n).length - (k + 1)) (k + 1)
  rw [← he] at s1 s2 s3 s4
  have hend : IsEnd line (k + 1) e := (isEnd_take s1 (by omega)).1 (s4 (by omega))
  have heq : endQuote line (k + 1) (line.length - (k + 1)) (k + 1) = e :=
    endQuote_eq hend s1 (by omega) fun p hp1 hp2 hp =>
      s3 p hp1 hp2 ((isEnd_take hp1 (by omega)).2 hp)
  rw [heq, if_neg (by omega), ← h, List.drop_take, List.take_take, min_eq_left (by omega)]

/-- **What a cut line parses to**: nothing, or its record up to the timestamp. -/
theorem parse_torn {n : ℕ} {e : LogEntry} (h : parseLogEntry ((P ++ r.line).take n) = some e) :
    e.operation = r.op.name ∧ e.key = r.key ∧ e.value = r.value := by
  unfold parseLogEntry at h
  simp only [Option.bind_eq_bind] at h
  rw [Option.bind_eq_some_iff] at h
  obtain ⟨op, hop, h⟩ := h
  rw [Option.bind_eq_some_iff] at h
  obtain ⟨key, hkey, h⟩ := h
  rw [Option.bind_eq_some_iff] at h
  obtain ⟨val, hval, h⟩ := h
  rw [Option.bind_eq_some_iff] at h
  obtain ⟨ts, -, h⟩ := h
  have h1 := parseStringField_take hop
  have h2 := parseStringField_take hkey
  have h3 := parseStringField_take hval
  rw [parse_operation hP] at h1
  rw [parse_key hP] at h2
  rw [parse_value hP] at h3
  rw [← Option.some.inj h, ← Option.some.inj h1, ← Option.some.inj h2, ← Option.some.inj h3]
  refine ⟨?_, unescape_escape _, unescape_escape _⟩
  conv_lhs => rw [← r.op.escape_name]
  exact unescape_escape _

/-- A cut makes no difference to a key that hides the name of the timestamp: no digit
follows the colon that is found, and the line is rejected. -/
theorem parse_torn_hidden (h : HidesTimestamp r.key) (n : ℕ) : parseLogEntry ((P ++ r.line).take n) = none := by
  obtain ⟨a, i, rest, hline, hi, hle, hcolon⟩ := find_hidden hP r h
  have hnone : parseIntegerField ((P ++ r.line).take n) (bytes "timestamp") = none := by
    have hcol : find (P ++ r.line) [colon] (i + (target (bytes "timestamp")).length) = some a.length := by
      rw [hline]
      exact find_singleton hle hcolon
    have hdrop : ((P ++ r.line).take n).drop (a.length + 1) = (dquote :: rest).take (n - (a.length + 1)) := by
      rw [List.drop_take, hline, List.append_cons, List.drop_left' (by simp)]
    unfold parseIntegerField
    simp only [Option.bind_eq_bind]
    rw [find_take (by simp [target]), hi]
    by_cases h1 : i + (target (bytes "timestamp")).length ≤ n
    swap
    · rw [Option.filter_some_neg (by simpa using h1), Option.bind_none]
    rw [Option.filter_some_pos (by simpa using h1), Option.bind_some, find_take (by simp), hcol]
    by_cases h2 : a.length + 1 ≤ n
    swap
    · rw [Option.filter_some_neg (by simpa using h2), Option.bind_none]
    rw [Option.filter_some_pos (by simpa using h2), Option.bind_some, hdrop]
    cases n - (a.length + 1) with
    | zero => rfl
    | succ k => rfl
  unfold parseLogEntry
  simp only [Option.bind_eq_bind, hnone, Option.bind_none, Option.bind_fun_none]

/-- **A cut line is rejected, or yields what its whole line yields.** -/
theorem parse_cut (n : ℕ) : parseLogEntry ((P ++ r.line).take n) = none ∨
    ∃ e, parseLogEntry ((P ++ r.line).take n) = some e ∧ parseLogEntry (P ++ r.line) = some r.entry ∧
      e.operation = r.op.name ∧ e.key = r.key ∧ e.value = r.value := by
  by_cases h : HidesTimestamp r.key
  · exact Or.inl (parse_torn_hidden hP r h n)
  cases hcut : parseLogEntry ((P ++ r.line).take n) with
  | none => exact Or.inl rfl
  | some e =>
    have hwhole := parse_line hP r
    rw [if_neg h] at hwhole
    exact Or.inr ⟨e, rfl, hwhole, parse_torn hP r hcut⟩

omit r in
/-- A stub is not a record. -/
theorem parse_stub : parseLogEntry P = none := by
  have hcolon : colon ∉ P := fun h => colon_notMem_operation (hP _ h)
  have hnone : ∀ pos, find P [colon] pos = none := fun pos => find_eq_none.2 fun j _ _ hj => by
    obtain ⟨t, ht⟩ := hj
    exact hcolon (List.mem_of_mem_drop (i := j) (ht ▸ List.mem_cons_self))
  unfold parseLogEntry parseStringField
  simp only [Option.bind_eq_bind, hnone, Option.bind_none, Option.bind_fun_none]

end LsmTree.WAL

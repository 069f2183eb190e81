import Mathlib.Data.List.Forall2
import MaxSat.Bench.Dataset
import MaxSat.Proofs.Text.Numeral

/-!
# The benchmark table can be read back

A reader of tables with quoted fields goes over the text one character at a time.
Outside quotes a comma ends a field and a line feed ends a record. A field that
starts with a quote goes on to its closing quote, and a doubled quote inside it
stands for one. A quote inside a bare field, anything but a separator after a
closing quote, and an open quote at the end of the text make the text no table.

Whether a field is quoted is decided field by field, so what is proved of one
written field is how it takes the reader from the start of a field to its end,
whatever was read before. Records and tables follow by induction.
-/

namespace MaxSat

namespace Csv

/-- Where a reader stands in a field. -/
inductive Place where
  /-- Nothing of the field was read. -/
  | start
  | bare
  | quoted
  /-- After a quote that closes the field or is the first of two. -/
  | closed
  deriving DecidableEq, Repr

/-- What was read so far; characters, fields and records are kept newest first. -/
structure Scanner where
  place : Place := .start
  field : List Char := []
  record : List (List Char) := []
  records : List (List (List Char)) := []
  deriving DecidableEq, Repr

namespace Scanner

def push (r : Scanner) (place : Place) (c : Char) : Scanner :=
  { r with place, field := c :: r.field }

def endField (r : Scanner) : Scanner :=
  { r with place := .start, field := [], record := r.field.reverse :: r.record }

def endRecord (r : Scanner) : Scanner :=
  { records := r.endField.record.reverse :: r.records }

def step (r : Scanner) (c : Char) : Option Scanner :=
  if r.place = .quoted then
    if c = '"' then some { r with place := .closed } else some (r.push .quoted c)
  else if c = ',' then some r.endField
  else if c = '\n' then some r.endRecord
  else match r.place with
    | .start => if c = '"' then some { r with place := .quoted } else some (r.push .bare c)
    | .closed => if c = '"' then some (r.push .quoted c) else none
    | _ => if c = '"' then none else some (r.push .bare c)

def run (r : Scanner) (cs : List Char) : Option Scanner := cs.foldlM step r

/-- All records; the last one may lack its line feed. -/
def finish? (r : Scanner) : Option (List (List (List Char))) :=
  match r.place, r.record with
  | .quoted, _ => none
  | .start, [] => some r.records.reverse
  | _, _ => some r.endRecord.records.reverse

end Scanner

/-- The records of a text, each with its fields. -/
def read? (s : String) : Option (List (List String)) :=
  ((Scanner.run {} s.toList).bind Scanner.finish?).map (List.map (List.map String.ofList))

namespace Scanner

theorem run_append (r : Scanner) (cs ds : List Char) :
    r.run (cs ++ ds) = (r.run cs).bind fun t => t.run ds := List.foldlM_append

theorem run_cons (r : Scanner) (c : Char) (cs : List Char) :
    r.run (c :: cs) = (r.step c).bind fun t => t.run cs := rfl

theorem step_comma {r : Scanner} (outside : r.place ≠ .quoted) : r.step ',' = some r.endField := by
  simp [step, outside]

theorem step_newline {r : Scanner} (outside : r.place ≠ .quoted) :
    r.step '\n' = some r.endRecord := by
  simp [step, outside]

/-- A character that needs no quotes is taken as it is. -/
theorem step_bare {r : Scanner} (place : r.place = .start ∨ r.place = .bare) {c : Char}
    (clean : c ≠ ',' ∧ c ≠ '"' ∧ c ≠ '\n') : r.step c = some (r.push .bare c) := by
  obtain ⟨comma, quote, newline⟩ := clean
  rcases place with place | place
  · simp [step, place, comma, quote, newline]
  · simp [step, place, comma, quote, newline]

/-- A text that needs no quotes is taken as it is. -/
theorem run_bare {r : Scanner} (place : r.place = .start ∨ r.place = .bare) {cs : List Char}
    (clean : BenchRow.needsQuotes cs = false) :
    ∃ place, place ≠ .quoted ∧
      r.run cs = some { r with place, field := cs.reverse ++ r.field } := by
  induction cs generalizing r with
  | nil =>
    refine ⟨r.place, ?_, rfl⟩
    rcases place with place | place <;> simp [place]
  | cons c cs ih =>
    simp only [BenchRow.needsQuotes, List.any_cons, Bool.or_eq_false_iff, beq_eq_false_iff_ne]
      at clean
    obtain ⟨last, outside, read⟩ := ih (r := r.push .bare c) (Or.inr rfl) clean.2
    refine ⟨last, outside, ?_⟩
    rw [run_cons, step_bare place ⟨clean.1.1.1, clean.1.1.2, clean.1.2⟩, Option.bind_some, read]
    simp [push]

/-- Inside quotes the doubled quotes of a text are undone. -/
theorem run_doubleQuotes {r : Scanner} (inside : r.place = .quoted) (cs : List Char) :
    r.run (BenchRow.doubleQuotes cs) = some { r with field := cs.reverse ++ r.field } := by
  induction cs generalizing r with
  | nil => rfl
  | cons c cs ih =>
    rw [BenchRow.doubleQuotes]
    by_cases quote : c = '"'
    · subst quote
      -- the first of two quotes could close the field, the second shows that it does not
      have first : r.step '"' = some { r with place := .closed } := by simp [step, inside]
      have second : ({ r with place := .closed } : Scanner).step '"' =
          some { r with field := '"' :: r.field } := by
        simp [step, push, inside]
      rw [if_pos rfl, run_cons, first, Option.bind_some, run_cons, second, Option.bind_some,
        ih (r := { r with field := '"' :: r.field }) inside]
      simp
    · have taken : r.step c = some { r with field := c :: r.field } := by
        simp [step, push, inside, quote]
      rw [if_neg quote, run_cons, taken, Option.bind_some,
        ih (r := { r with field := c :: r.field }) inside]
      simp

end Scanner

open Scanner

/-- A text that takes every reader from the start of a field to its end, with the field `v`. -/
def IsField (cs v : List Char) : Prop :=
  ∀ r : Scanner, r.place = .start → r.field = [] →
    ∃ place, place ≠ .quoted ∧ r.run cs = some { r with place, field := v.reverse }

theorem isField_bare {cs : List Char} (clean : BenchRow.needsQuotes cs = false) :
    IsField cs cs := by
  intro r place empty
  obtain ⟨last, outside, read⟩ := run_bare (Or.inl place) clean
  exact ⟨last, outside, by rw [read, empty, List.append_nil]⟩

/-- A field is read back whether it had to be quoted or not. -/
theorem isField_quoted (cs : List Char) : IsField (BenchRow.quoted cs) cs := by
  rw [BenchRow.quoted]
  cases needs : BenchRow.needsQuotes cs with
  | false => exact isField_bare needs
  | true =>
    intro r place empty
    refine ⟨.closed, by simp, ?_⟩
    have opened : r.step '"' = some { r with place := .quoted } := by simp [step, place]
    have closed : ({ r with place := .quoted, field := cs.reverse } : Scanner).step '"' =
        some { r with place := .closed, field := cs.reverse } := by
      simp [step]
    rw [if_pos rfl, List.cons_append, run_cons, opened, Option.bind_some, run_append,
      run_doubleQuotes rfl, Option.bind_some, empty, List.append_nil, run_cons, closed]
    rfl

theorem isField_number (n : Option Nat) : IsField (BenchRow.number n) (BenchRow.number n) := by
  apply isField_bare
  cases n with
  | none => rfl
  | some n =>
    refine List.any_eq_false.mpr fun c mem special => ?_
    have digit := (Text.digits_ofNatural n).digits c mem
    simp only [Bool.or_eq_true, beq_iff_eq] at special
    rcases special with (rfl | rfl) | rfl
    · cases digit
    · cases digit
    · cases digit

theorem joinFields_cons_cons (f g : List Char) (fs : List (List Char)) :
    BenchRow.joinFields (f :: g :: fs) = f ++ ',' :: BenchRow.joinFields (g :: fs) := by
  simp [BenchRow.joinFields]

theorem run_record {fs vs : List (List Char)} (fields : List.Forall₂ IsField fs vs)
    (some_field : fs ≠ []) {r : Scanner} (place : r.place = .start) (empty : r.field = []) :
    r.run (BenchRow.joinFields fs ++ ['\n']) =
      some { records := (r.record.reverse ++ vs) :: r.records } := by
  induction fields generalizing r with
  | nil => exact absurd rfl some_field
  | @cons f v fs vs first rest ih =>
    obtain ⟨last, outside, read⟩ := first r place empty
    cases rest with
    | nil =>
      have join : BenchRow.joinFields [f] = f := by simp [BenchRow.joinFields]
      rw [join, run_append, read, Option.bind_some, run_cons, step_newline outside]
      simp [run, endRecord, endField]
    | @cons g w fs vs second rest =>
      rw [joinFields_cons_cons, List.append_assoc, run_append, read, Option.bind_some,
        List.cons_append, run_cons, step_comma outside, Option.bind_some,
        ih (by simp) rfl rfl]
      simp [endField]

end Csv

namespace BenchRow

open Csv

/-- Status, backend and mode, which are written without quotes, need none. -/
structure Plain (r : BenchRow) : Prop where
  status : needsQuotes r.status.toList = false
  backend : needsQuotes r.backend.toList = false
  mode : needsQuotes r.mode.toList = false

theorem needsQuotes_backend (b : Backend) : needsQuotes b.name.toList = false := by
  cases b with
  | onDemand => decide
  | exhaustive => decide

theorem needsQuotes_mode (m : Mode) : needsQuotes m.name.toList = false := by
  cases m with
  | partitioned => decide
  | flat => decide

theorem plain_emptyRow (cfg : BenchConfig) (path : String) (mode : Mode) (status : String)
    (clean : needsQuotes status.toList = false) : (Bench.emptyRow cfg path mode status).Plain :=
  ⟨clean, needsQuotes_backend cfg.backend, needsQuotes_mode mode⟩

/-- Whatever the path and the outcome, the row of a solved instance is plain. -/
theorem plain_solvedRow (cfg : BenchConfig) (path : String) (mode : Mode) (f : Formula) :
    (Bench.solvedRow cfg path mode f).Plain := by
  rw [Bench.solvedRow]
  split
  · have row := plain_emptyRow cfg path mode "ok" (by decide)
    exact ⟨row.status, row.backend, row.mode⟩
  · have row := plain_emptyRow cfg path mode "unsat" (by decide)
    exact ⟨row.status, row.backend, row.mode⟩
  · have row := plain_emptyRow cfg path mode "internal_error" (by decide)
    exact ⟨row.status, row.backend, row.mode⟩

/-- The fields of a row before they are written. -/
def values (r : BenchRow) : List String :=
  let count (n : Option Nat) : String := String.ofList (number n)
  [r.path, r.status, r.backend, r.mode, count r.wallMs, count r.satCalls, count r.cores,
    r.cost.getD "", count r.vars, count r.hard, count r.soft, count r.partitions]

theorem isField_fields {r : BenchRow} (plain : r.Plain) :
    List.Forall₂ IsField r.fields (r.values.map String.toList) := by
  simp only [fields, values, List.map_cons, List.map_nil, String.toList_ofList,
    List.forall₂_cons, List.Forall₂.nil, and_true]
  exact ⟨isField_quoted _, isField_bare plain.status, isField_bare plain.backend,
    isField_bare plain.mode, isField_number _, isField_number _, isField_number _,
    isField_quoted _, isField_number _, isField_number _, isField_number _, isField_number _⟩

theorem isField_columns :
    List.Forall₂ IsField (columns.map String.toList) (columns.map String.toList) := by
  have clean : ∀ c ∈ columns, needsQuotes c.toList = false := by decide
  rw [List.forall₂_map_left_iff, List.forall₂_map_right_iff]
  exact List.forall₂_same.mpr fun c mem => isField_bare (clean c mem)

/-- Records follow one another, whatever was read before them. -/
theorem run_records {written read : List (List (List Char))}
    (lines : List.Forall₂ (fun fs vs => fs ≠ [] ∧ List.Forall₂ IsField fs vs) written read)
    (before : List (List (List Char))) :
    Scanner.run { records := before } (written.flatMap fun fs => joinFields fs ++ ['\n']) =
      some { records := read.reverse ++ before } := by
  induction lines generalizing before with
  | nil => rfl
  | @cons fs vs written read first rest ih =>
    rw [List.flatMap_cons, Scanner.run_append, run_record first.2 first.1 rfl rfl,
      Option.bind_some, List.reverse_nil, List.nil_append, ih]
    simp

theorem table_eq (rows : List BenchRow) :
    table rows = header ++ "\n" ++ String.join (rows.map fun r => r.line ++ "\n") := by
  apply String.toList_inj.mp
  simp [table, records, header, line, List.flatMap_map]

theorem isField_records {rows : List BenchRow} (plain : ∀ r ∈ rows, r.Plain) :
    List.Forall₂ (fun fs vs => fs ≠ [] ∧ List.Forall₂ IsField fs vs) (records rows)
      ((columns :: rows.map values).map (List.map String.toList)) := by
  rw [records, List.map_cons, List.map_map]
  refine .cons ⟨by simp [columns], isField_columns⟩ ?_
  rw [List.forall₂_map_left_iff, List.forall₂_map_right_iff]
  exact List.forall₂_same.mpr fun r mem => ⟨by simp [fields], isField_fields (plain r mem)⟩

/-- A table is its header and its lines, each closed by a line feed, and is read back to the
column names and the values of the rows in order. -/
theorem table_reads_back (rows : List BenchRow) (plain : ∀ r ∈ rows, r.Plain) :
    table rows = header ++ "\n" ++ String.join (rows.map fun r => r.line ++ "\n") ∧
      Csv.read? (table rows) = some (columns :: rows.map values) := by
  refine ⟨table_eq rows, ?_⟩
  rw [Csv.read?, table, String.toList_ofList, run_records (isField_records plain) []]
  simp [Scanner.finish?, Function.comp_def]

/-- A path with a comma, a quote and a line feed, one that is a single quote, and an empty one. -/
theorem table_reads_back_quotes :
    let cfg : BenchConfig := { backend := .exhaustive }
    let f : Formula := {
      numVars := 1, inputVars := 1, hard := [⟨[Lit.neg 1], 0⟩], soft := [⟨[Lit.pos 1], 1/2, 0⟩],
      numPartitions := 1, topWeight := 2, offset := 0, comments := [] }
    let rows : List BenchRow := [Bench.solvedRow cfg "a,\"b\n.wcnf" .flat f,
      Bench.emptyRow cfg "\"" .partitioned "timeout",
      { Bench.emptyRow cfg "" .flat "parse_error" with wallMs := some 120, cost := some "1,5" }]
    (∀ r ∈ rows, r.Plain) ∧
      table rows = header ++ "\n\"a,\"\"b\n.wcnf\",ok,dpll,flat,,2,1,1/2,1,1,1,1\n" ++
        "\"\"\"\",timeout,dpll,partitioned,,,,,,,,\n,parse_error,dpll,flat,120,,,\"1,5\",,,,\n" ∧
      Csv.read? (table rows) = some [columns,
        ["a,\"b\n.wcnf", "ok", "dpll", "flat", "", "2", "1", "1/2", "1", "1", "1", "1"],
        ["\"", "timeout", "dpll", "partitioned", "", "", "", "", "", "", "", ""],
        ["", "parse_error", "dpll", "flat", "120", "", "", "1,5", "", "", "", ""]] := by
  intro cfg f rows
  have plain : ∀ r ∈ rows, r.Plain := by
    simp only [rows, List.forall_mem_cons]
    have last := plain_emptyRow cfg "" .flat "parse_error" (by decide)
    exact ⟨plain_solvedRow cfg _ .flat f, plain_emptyRow cfg _ .partitioned _ (by decide),
      ⟨last.status, last.backend, last.mode⟩, by simp⟩
  refine ⟨plain, by decide +kernel, ?_⟩
  rw [(table_reads_back rows plain).2]
  decide +kernel

end BenchRow

end MaxSat

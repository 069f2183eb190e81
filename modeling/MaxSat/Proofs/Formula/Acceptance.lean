import MaxSat.Proofs.Formula.Reading

/-!
# Which files are accepted

The reader holds at each line what the lines before it declare, and goes on while
no line offends. So a file is accepted exactly if it declares a problem that
leaves ids for the selectors, and a refusal names the first line that offends, or
the last line where only the whole file shows the fault.
-/

namespace MaxSat

open Text Grammar

namespace Grammar

theorem orderly_nil (o : ReadOptions) (before : List (List Char)) : Orderly o before [] := by
  intro front line rest eq
  simp at eq

theorem orderly_cons {o : ReadOptions} {before ls : List (List Char)} {l : List Char} :
    Orderly o before (l :: ls) ↔
      (∀ fault, ¬ Offends o before l fault) ∧ Orderly o (before ++ [l]) ls := by
  constructor
  · intro orderly
    constructor
    · intro fault offends
      exact orderly [] l ls rfl fault (by simpa using offends)
    · rintro front line rest rfl fault offends
      exact orderly (l :: front) line rest rfl fault (by simpa using offends)
  · rintro ⟨first, later⟩ front line rest eq fault offends
    cases front with
    | nil =>
      cases eq
      exact first fault (by simpa using offends)
    | cons k front =>
      cases eq
      exact later front line rest rfl fault (by simpa using offends)

theorem Opens.append {o : ReadOptions} {ls : List (List Char)} {p : Preamble} (opens : Opens o ls p)
    {l : List Char} (kind : lineKind o l ≠ .preamble) : Opens o (ls ++ [l]) p := by
  obtain ⟨front, line, rest, rfl, before, first, declared, after⟩ := opens
  refine ⟨front, line, rest ++ [l], by simp, before, first, declared, fun k mem => ?_⟩
  rcases List.mem_append.mp mem with mem | mem
  · exact after k mem
  · rw [List.mem_singleton.mp mem]
    exact kind

theorem Opens.hasPreamble {o : ReadOptions} {ls : List (List Char)} {p : Preamble}
    (opens : Opens o ls p) : HasPreamble o ls := by
  obtain ⟨front, line, rest, rfl, -, first, -, -⟩ := opens
  exact ⟨line, by simp, first⟩

theorem enumerates_append_of_ne {o : ReadOptions} {ls : List (List Char)} {entries : List Entry}
    (listed : Enumerates o ls entries) {l : List Char} (kind : lineKind o l ≠ .clause) :
    Enumerates o (ls ++ [l]) entries := by
  simpa [Enumerates, kind] using listed

theorem commentsOf_append_of_ne {o : ReadOptions} {ls : List (List Char)} {l : List Char}
    (kind : lineKind o l ≠ .comment) : commentsOf o (ls ++ [l]) = commentsOf o ls := by
  simp [commentsOf, kind]

end Grammar

namespace Reader

/-- What the reader keeps of the lines `before`. -/
structure Holds (o : ReadOptions) (before : List (List Char)) (r : Reader) : Prop where
  opened : match r.preamble with
    | none => ∀ l ∈ before, lineKind o l = .blank ∨ lineKind o l = .comment
    | some p => Opens o before p
  clauses : Enumerates o before r.entries.reverse
  comments : r.comments.reverse = commentsOf o before

theorem holds_nil (o : ReadOptions) : Holds o [] {} where
  opened := by simp
  clauses := by simp [Enumerates]
  comments := by simp [commentsOf]

theorem Holds.knows {o : ReadOptions} {before : List (List Char)} {r : Reader}
    (holds : Holds o before r) : Knows o before r := by
  have opened := holds.opened
  cases preamble : r.preamble with
  | none =>
    simp only [preamble] at opened
    simp only [Knows, preamble, Option.isSome_none, Bool.false_eq_true, false_iff]
    rintro ⟨l, mem, kind⟩
    rcases opened l mem with other | other
    · simp [other] at kind
    · simp [other] at kind
  | some p =>
    simp only [preamble] at opened
    simp [Knows, preamble, opened.hasPreamble]

/-- One line. -/
theorem Holds.step {o : ReadOptions} {before : List (List Char)} {r r' : Reader} {text : List Char}
    (holds : Holds o before r) (reads : Reads o r text r') : Holds o (before ++ [text]) r' := by
  have opened := holds.opened
  -- a line that is neither preamble nor clause may stand anywhere
  have aside : lineKind o text = .blank ∨ lineKind o text = .comment →
      match r.preamble with
      | none => ∀ l ∈ before ++ [text], lineKind o l = .blank ∨ lineKind o l = .comment
      | some p => Opens o (before ++ [text]) p := by
    intro kind
    cases preamble : r.preamble with
    | none =>
      simp only [preamble] at opened
      intro l mem
      rcases List.mem_append.mp mem with mem | mem
      · exact opened l mem
      · rw [List.mem_singleton.mp mem]
        exact kind
    | some p =>
      simp only [preamble] at opened
      refine opened.append ?_
      rcases kind with kind | kind
      · simp [kind]
      · simp [kind]
  cases reads with
  | blank kind =>
    refine ⟨aside (Or.inl kind), enumerates_append_of_ne holds.clauses (by simp [kind]), ?_⟩
    rw [commentsOf_append_of_ne (by simp [kind])]
    exact holds.comments
  | comment kind =>
    refine ⟨aside (Or.inr kind), enumerates_append_of_ne holds.clauses (by simp [kind]), ?_⟩
    simp [holds.comments, commentsOf, kind]
  | @preamble p kind first declared =>
    simp only [first] at opened
    refine ⟨⟨before, text, [], rfl, opened, kind, declared, by simp⟩,
      enumerates_append_of_ne holds.clauses (by simp [kind]), ?_⟩
    rw [commentsOf_append_of_ne (by simp [kind])]
    exact holds.comments
  | @clause p e kind seen declared =>
    simp only [seen] at opened
    refine ⟨?_, ?_, ?_⟩
    · simp only [seen]
      exact opened.append (by simp [kind])
    · have one : Enumerates o [text] [e] := by simpa [Enumerates, kind] using declared
      simpa [Enumerates] using List.rel_append holds.clauses one
    · rw [commentsOf_append_of_ne (by simp [kind])]
      exact holds.comments

theorem lines_append (o : ReadOptions) (n : Nat) (r : Reader) (ls ms : List Line) :
    lines o n r (ls ++ ms) = lines o n r ls >>= fun last => lines o last.1 last.2 ms := by
  induction ls generalizing n r with
  | nil => rfl
  | cons l ls ih =>
    cases l with
    | error reason => rfl
    | ok text =>
      simp only [List.cons_append, lines]
      cases r.line o text with
      | error fault => rfl
      | ok r' => exact ih (n + 1) r'

/-- A run that comes to the end has read every line, and none of them offends. -/
theorem Holds.lines {o : ReadOptions} {before : List (List Char)} {r r' : Reader} {ls : List Line}
    {n m : Nat} (holds : Holds o before r) (run : lines o n r ls = .ok (m, r')) :
    ∃ texts, ls = texts.map .ok ∧ m = n + texts.length ∧ Orderly o before texts ∧
      Holds o (before ++ texts) r' := by
  induction ls generalizing before n r with
  | nil =>
    cases run
    exact ⟨[], rfl, rfl, orderly_nil o before, by simpa using holds⟩
  | cons l ls ih =>
    cases l with
    | error reason => cases run
    | ok text =>
      rw [Reader.lines] at run
      cases read : r.line o text with
      | error fault => simp [read] at run
      | ok next =>
        simp only [read] at run
        obtain ⟨texts, rfl, count, orderly, kept⟩ := ih (holds.step (line_eq_ok_iff.mp read)) run
        refine ⟨text :: texts, rfl, ?_, orderly_cons.mpr ⟨?_, orderly⟩, by simpa using kept⟩
        · rw [List.length_cons]
          omega
        · intro fault offends
          rw [(line_eq_error_iff holds.knows).mpr offends] at read
          cases read

/-- Lines that do not offend are all read. -/
theorem Holds.lines_of_orderly {o : ReadOptions} {before texts : List (List Char)} {r : Reader}
    (holds : Holds o before r) (orderly : Orderly o before texts) (n : Nat) :
    ∃ r', Reader.lines o n r (texts.map .ok) = .ok (n + texts.length, r') ∧
      Holds o (before ++ texts) r' := by
  induction texts generalizing before n r with
  | nil => exact ⟨r, rfl, by simpa using holds⟩
  | cons text texts ih =>
    obtain ⟨first, later⟩ := orderly_cons.mp orderly
    cases read : r.line o text with
    | error fault => exact absurd ((line_eq_error_iff holds.knows).mp read) (first fault)
    | ok next =>
      obtain ⟨r', run, kept⟩ := ih (holds.step (line_eq_ok_iff.mp read)) later (n + 1)
      refine ⟨r', ?_, by simpa using kept⟩
      rw [List.map_cons, Reader.lines, read, List.length_cons, Nat.add_comm texts.length 1,
        ← Nat.add_assoc]
      exact run

/-- A line that ends reading. -/
inductive Stops (o : ReadOptions) (before : List (List Char)) : Line → Fault → Prop
  | unreadable (reason : String) : Stops o before (.error reason) (.unreadable reason)
  | offence {text : List Char} {fault : Fault} (offends : Offends o before text fault) :
      Stops o before (.ok text) fault

theorem lines_cons_of_stops {o : ReadOptions} {before : List (List Char)} {r : Reader}
    (knows : Knows o before r) {l : Line} {fault : Fault} (stops : Stops o before l fault)
    (n : Nat) (rest : List Line) : lines o n r (l :: rest) = .error ⟨n + 1, fault⟩ := by
  cases stops with
  | unreadable reason => rfl
  | offence offends => simp [lines, (line_eq_error_iff knows).mpr offends]

/-- A run that fails does so at the first line that ends reading. -/
theorem Holds.lines_error {o : ReadOptions} {before : List (List Char)} {r : Reader}
    {ls : List Line} {n : Nat} {e : ReadError} (holds : Holds o before r)
    (run : Reader.lines o n r ls = .error e) :
    ∃ texts l rest, ls = texts.map .ok ++ l :: rest ∧ Orderly o before texts ∧
      Stops o (before ++ texts) l e.fault ∧ e.line = n + texts.length + 1 := by
  induction ls generalizing before n r with
  | nil => cases run
  | cons l ls ih =>
    cases l with
    | error reason =>
      cases run
      exact ⟨[], .error reason, ls, rfl, orderly_nil o before, .unreadable reason, rfl⟩
    | ok text =>
      rw [Reader.lines] at run
      cases read : r.line o text with
      | error fault =>
        simp only [read] at run
        cases run
        have offends := (line_eq_error_iff holds.knows).mp read
        exact ⟨[], .ok text, ls, rfl, orderly_nil o before, .offence (by simpa using offends), rfl⟩
      | ok next =>
        simp only [read] at run
        obtain ⟨texts, l, rest, rfl, orderly, stops, line⟩ :=
          ih (holds.step (line_eq_ok_iff.mp read)) run
        refine ⟨text :: texts, l, rest, rfl, orderly_cons.mpr ⟨?_, orderly⟩,
          by simpa using stops, ?_⟩
        · intro fault offends
          rw [(line_eq_error_iff holds.knows).mpr offends] at read
          cases read
        · rw [line, List.length_cons]
          omega

theorem lines_eq_error_iff {o : ReadOptions} {ls : List Line} {e : ReadError} :
    lines o 0 {} ls = .error e ↔ ∃ texts l rest, ls = texts.map .ok ++ l :: rest ∧
      Orderly o [] texts ∧ Stops o texts l e.fault ∧ e.line = texts.length + 1 := by
  constructor
  · intro failed
    simpa using (holds_nil o).lines_error failed
  · rintro ⟨texts, l, rest, rfl, orderly, stops, line⟩
    obtain ⟨r, run, holds⟩ := (holds_nil o).lines_of_orderly orderly 0
    rw [lines_append, run]
    have stop := lines_cons_of_stops holds.knows stops (0 + texts.length) rest
    rw [Nat.zero_add, ← line] at stop
    simpa [bind, Except.bind] using stop

/-- Lines without a preamble; there are no clauses among them unless a preamble stands before. -/
theorem lines_of_enumerates {o : ReadOptions} {ls : List (List Char)} {entries : List Entry}
    (plain : ∀ l ∈ ls, lineKind o l ≠ .preamble) (listed : Enumerates o ls entries) {r : Reader}
    (seen : r.preamble = none → entries = []) (n : Nat) :
    lines o n r (ls.map .ok) = .ok (n + ls.length,
      { r with
        entries := entries.reverse ++ r.entries
        comments := (commentsOf o ls).reverse ++ r.comments }) := by
  induction ls generalizing entries r n with
  | nil =>
    have none : entries = [] := by simpa [Enumerates] using listed
    simp [lines, none, commentsOf]
  | cons l ls ih =>
    have later := fun k mem => plain k (List.mem_cons_of_mem l mem)
    have number : n + (l :: ls).length = n + 1 + ls.length := by
      rw [List.length_cons]
      omega
    rw [List.map_cons, lines, number]
    cases kind : lineKind o l with
    | preamble => exact absurd kind (plain l (by simp))
    | blank =>
      rw [line_eq_ok_iff.mpr (.blank kind)]
      have rest : Enumerates o ls entries := by simpa [Enumerates, kind] using listed
      simpa [commentsOf, kind] using ih later rest seen (n + 1)
    | comment =>
      rw [line_eq_ok_iff.mpr (.comment kind)]
      have rest : Enumerates o ls entries := by simpa [Enumerates, kind] using listed
      have run := ih later rest (r := { r with comments := String.ofList (trim l) :: r.comments })
        seen (n + 1)
      simpa [commentsOf, kind] using run
    | clause =>
      have both := listed
      simp only [Enumerates, kind, List.filter_cons, decide_true, if_true] at both
      cases both with
      | @cons _ e _ rest declared others =>
        cases preamble : r.preamble with
        | none => exact absurd (seen preamble) (by simp)
        | some p =>
          rw [line_eq_ok_iff.mpr (.clause kind preamble declared)]
          have run := ih later others (r := { r with entries := e :: r.entries })
            (by simp [preamble]) (n + 1)
          simpa [commentsOf, kind, preamble] using run

theorem lines_of_declares {o : ReadOptions} {ls : List (List Char)} {p : Problem}
    (declares : Declares o ls p) :
    lines o 0 {} (ls.map .ok) = .ok (ls.length,
      ⟨some ⟨p.top, p.partitions⟩, p.entries.reverse, p.comments.reverse⟩) := by
  obtain ⟨⟨front, line, rest, rfl, before, kind, declared, after⟩, clauses, comments⟩ := declares
  have noClause : front.filter (lineKind o · = .clause) = [] := by
    refine List.filter_eq_nil_iff.mpr fun l mem => ?_
    rcases before l mem with other | other
    · simp [other]
    · simp [other]
  have noPreamble : ∀ l ∈ front, lineKind o l ≠ .preamble := by
    intro l mem
    rcases before l mem with other | other
    · simp [other]
    · simp [other]
  have nothing : Enumerates o front [] := by simp [Enumerates, noClause]
  have opening := lines_of_enumerates noPreamble nothing (r := {}) (by simp) 0
  have listed : Enumerates o rest p.entries := by
    simpa [Enumerates, List.filter_append, noClause, kind] using clauses
  rw [comments, List.map_append, lines_append, opening, List.map_cons]
  simp only [bind, Except.bind, lines]
  rw [line_eq_ok_iff.mpr (.preamble kind rfl declared)]
  refine (lines_of_enumerates after listed (by simp) _).trans ?_
  have number : 0 + front.length + 1 + rest.length = (front ++ line :: rest).length := by
    rw [List.length_append, List.length_cons]
    omega
  rw [number]
  simp [commentsOf, kind]

theorem Holds.declares {o : ReadOptions} {ls : List (List Char)} {r : Reader} {p : Preamble}
    (holds : Holds o ls r) (opened : r.preamble = some p) :
    Declares o ls ⟨p.top, p.partitions, r.entries.reverse, r.comments.reverse⟩ where
  preamble := by simpa [opened] using holds.opened
  clauses := holds.clauses
  comments := holds.comments

end Reader

/-- A file declares one problem at most. -/
theorem Grammar.Declares.unique {o : ReadOptions} {ls : List (List Char)} {p q : Problem}
    (declaresP : Declares o ls p) (declaresQ : Declares o ls q) : p = q := by
  have same := Reader.lines_of_declares declaresP
  rw [Reader.lines_of_declares declaresQ] at same
  obtain ⟨qTop, qPartitions, qEntries, qComments⟩ := q
  simp only [Except.ok.injEq, Prod.mk.injEq, true_and, Reader.mk.injEq, Option.some.injEq,
    Preamble.mk.injEq, List.reverse_inj] at same
  obtain ⟨⟨rfl, rfl⟩, rfl, rfl⟩ := same
  rfl

namespace Formula

theorem ofLines_of_lines {o : ReadOptions} {ls : List Line} {n : Nat} {p : Problem} {f : Formula}
    (read : Reader.lines o 0 {} ls =
      .ok (n, ⟨some ⟨p.top, p.partitions⟩, p.entries.reverse, p.comments.reverse⟩))
    (built : p.build = .ok f) : ofLines o ls = .ok f :=
  except_bind_eq_ok_iff.mpr ⟨_, read, by simp [built]⟩

theorem ofLines_eq_ok_iff {o : ReadOptions} {ls : List Line} {f : Formula} :
    ofLines o ls = .ok f ↔
      ∃ texts p, ls = texts.map .ok ∧ Declares o texts p ∧ p.build = .ok f := by
  constructor
  · intro read
    obtain ⟨⟨n, r⟩, run, built⟩ := except_bind_eq_ok_iff.mp read
    obtain ⟨texts, rfl, -, -, holds⟩ := (Reader.holds_nil o).lines run
    dsimp only at built
    split at built
    · cases built
    · rename_i p opened
      split at built
      · rename_i eq
        cases built
        exact ⟨texts, _, rfl, holds.declares opened, eq⟩
      · cases built
  · rintro ⟨texts, p, rfl, declares, built⟩
    exact ofLines_of_lines (Reader.lines_of_declares declares) built

theorem ofLines_eq_ok_iff_of_declares {o : ReadOptions} {texts : List (List Char)} {p : Problem}
    (declares : Declares o texts p) {f : Formula} :
    ofLines o (texts.map .ok) = .ok f ↔ p.build = .ok f := by
  rw [ofLines_eq_ok_iff]
  constructor
  · rintro ⟨others, q, same, declaresQ, built⟩
    have eq : texts = others := List.map_injective_iff.mpr (fun _ _ => Except.ok.inj) same
    subst eq
    rwa [declares.unique declaresQ]
  · intro built
    exact ⟨texts, p, rfl, declares, built⟩

/-- Reading fails while it goes through the lines, or with a fault of the whole file. -/
theorem ofLines_eq_error_iff {o : ReadOptions} {ls : List Line} {e : ReadError} :
    ofLines o ls = .error e ↔
      Reader.lines o 0 {} ls = .error e ∨
      (∃ texts, ls = texts.map .ok ∧ Orderly o [] texts ∧ ¬ HasPreamble o texts ∧
        e = ⟨texts.length, .missingPreamble⟩) ∨
      ∃ texts p, ls = texts.map .ok ∧ Declares o texts p ∧
        MaxSat.maxVar < p.maxVar + p.selectors ∧ e = ⟨texts.length, .tooManyVariables⟩ := by
  rw [ofLines, except_bind_eq_error_iff]
  refine or_congr_right ?_
  constructor
  · rintro ⟨⟨n, r⟩, run, failed⟩
    obtain ⟨texts, rfl, rfl, orderly, holds⟩ := (Reader.holds_nil o).lines run
    rw [List.nil_append] at holds
    dsimp only at failed
    split at failed
    · rename_i none
      cases failed
      refine Or.inl ⟨texts, rfl, orderly, fun has => ?_, by simp⟩
      have seen := holds.knows.mpr has
      simp [none] at seen
    · rename_i p opened
      split at failed
      · cases failed
      · rename_i fault refused
        cases failed
        obtain ⟨rfl, beyond⟩ := Problem.build_eq_error_iff.mp refused
        exact Or.inr ⟨texts, _, rfl, holds.declares opened, beyond, by simp⟩
  · rintro (⟨texts, rfl, orderly, missing, rfl⟩ | ⟨texts, p, rfl, declares, beyond, rfl⟩)
    · obtain ⟨r, run, holds⟩ := (Reader.holds_nil o).lines_of_orderly orderly 0
      rw [List.nil_append] at holds
      have unseen : r.preamble = none := by
        cases preamble : r.preamble with
        | none => rfl
        | some p => exact absurd (holds.knows.mp (by simp [preamble])) missing
      exact ⟨_, run, by simp [unseen]⟩
    · have refused := Problem.build_eq_error_iff.mpr ⟨rfl, beyond⟩
      exact ⟨_, Reader.lines_of_declares declares, by simp [refused]⟩

end Formula

namespace Grammar

/-- Why the lines of a file, given as bytes, are refused. The first line that is no text or
offends is named; what only the whole file shows, its last line. -/
inductive Rejects (o : ReadOptions) (ls : List (List UInt8)) : ReadError → Prop
  | undecodable {texts : List (List Char)} {line : List UInt8} {rest : List (List UInt8)}
      (lines : ls = texts.map utf8 ++ line :: rest) (orderly : Orderly o [] texts)
      (none : ∀ text, line ≠ utf8 text) :
      Rejects o ls ⟨texts.length + 1, .unreadable "stream did not contain valid UTF-8"⟩
  | offence {texts : List (List Char)} {line : List Char} {rest : List (List UInt8)} {fault : Fault}
      (lines : ls = texts.map utf8 ++ utf8 line :: rest) (orderly : Orderly o [] texts)
      (offends : Offends o texts line fault) : Rejects o ls ⟨texts.length + 1, fault⟩
  | noPreamble {texts : List (List Char)} (lines : ls = texts.map utf8)
      (orderly : Orderly o [] texts) (none : ¬ HasPreamble o texts) :
      Rejects o ls ⟨texts.length, .missingPreamble⟩
  | tooManyVariables {texts : List (List Char)} {p : Problem} (lines : ls = texts.map utf8)
      (declares : Declares o texts p) (beyond : maxVar < p.maxVar + p.selectors) :
      Rejects o ls ⟨texts.length, .tooManyVariables⟩

end Grammar

theorem map_decodeLine_eq_iff {ls : List (List UInt8)} {texts : List (List Char)} :
    ls.map decodeLine = texts.map .ok ↔ ls = texts.map utf8 := by
  induction ls generalizing texts with
  | nil => cases texts <;> simp
  | cons l ls ih =>
    cases texts with
    | nil => simp
    | cons text texts => simp [decodeLine_eq_ok_iff, ih]

/-- The lines up to the one that ends reading, as bytes. -/
theorem map_decodeLine_eq_append_iff {ls : List (List UInt8)} {texts : List (List Char)}
    {l : Line} {rest : List Line} :
    ls.map decodeLine = texts.map .ok ++ l :: rest ↔
      ∃ line others, ls = texts.map utf8 ++ line :: others ∧ decodeLine line = l ∧
        others.map decodeLine = rest := by
  constructor
  · intro eq
    obtain ⟨front, back, rfl, left, right⟩ := List.map_eq_append_iff.mp eq
    obtain ⟨line, others, rfl, first, later⟩ := List.map_eq_cons_iff.mp right
    rw [map_decodeLine_eq_iff.mp left]
    exact ⟨line, others, rfl, first, later⟩
  · rintro ⟨line, others, rfl, rfl, rfl⟩
    rw [List.map_append, map_decodeLine_eq_iff.mpr rfl, List.map_cons]

namespace Formula

theorem ofBytes_eq_error_iff {o : ReadOptions} {bytes : List UInt8} {e : ReadError} :
    ofBytes o bytes = .error e ↔ Rejects o (pieces 10 bytes) e := by
  rw [ofBytes, ofLines_eq_error_iff, Reader.lines_eq_error_iff]
  simp only [linesOfBytes, map_decodeLine_eq_iff, map_decodeLine_eq_append_iff]
  constructor
  · rintro (stopped | rejected | rejected)
    · obtain ⟨texts, l, rest, ⟨line, others, lines, rfl, -⟩, orderly, stops, number⟩ := stopped
      obtain ⟨k, fault⟩ := e
      dsimp only at stops number
      subst number
      cases decoded : decodeLine line with
      | error reason =>
        rw [decoded] at stops
        cases stops
        obtain ⟨none, rfl⟩ := decodeLine_eq_error_iff.mp decoded
        exact .undecodable lines orderly none
      | ok text =>
        rw [decoded] at stops
        cases stops with
        | offence offends =>
          rw [decodeLine_eq_ok_iff.mp decoded] at lines
          exact .offence lines orderly offends
    · obtain ⟨texts, lines, orderly, none, rfl⟩ := rejected
      exact .noPreamble lines orderly none
    · obtain ⟨texts, p, lines, declares, beyond, rfl⟩ := rejected
      exact .tooManyVariables lines declares beyond
  · intro rejected
    cases rejected with
    | @undecodable texts line rest lines orderly none =>
      have decoded := decodeLine_eq_error_iff.mpr ⟨none, rfl⟩
      exact Or.inl ⟨texts, _, _, ⟨line, rest, lines, decoded, rfl⟩, orderly, .unreadable _, rfl⟩
    | @offence texts line rest fault lines orderly offends =>
      have decoded := decodeLine_eq_ok_iff.mpr (show utf8 line = utf8 line from rfl)
      exact Or.inl ⟨texts, _, _, ⟨_, rest, lines, decoded, rfl⟩, orderly, .offence offends, rfl⟩
    | @noPreamble texts lines orderly none =>
      exact Or.inr (Or.inl ⟨texts, lines, orderly, none, rfl⟩)
    | @tooManyVariables texts p lines declares beyond =>
      exact Or.inr (Or.inr ⟨texts, p, lines, declares, beyond, rfl⟩)

/-- A file is accepted exactly if its lines are text, declare a problem and leave ids for the
selectors; the formula is then built from that problem. Otherwise the first line that offends
is named. -/
theorem ofBytes_follows_grammar (o : ReadOptions) (bytes : List UInt8) :
    (∀ f, ofBytes o bytes = .ok f ↔
        ∃ texts p, pieces 10 bytes = texts.map utf8 ∧ Declares o texts p ∧ p.build = .ok f) ∧
      ((∃ f, ofBytes o bytes = .ok f) ↔
        ∃ texts p, pieces 10 bytes = texts.map utf8 ∧ Declares o texts p ∧
          p.maxVar + p.selectors ≤ maxVar) ∧
      ∀ e, ofBytes o bytes = .error e ↔ Rejects o (pieces 10 bytes) e := by
  have accepts : ∀ f, ofBytes o bytes = .ok f ↔
      ∃ texts p, pieces 10 bytes = texts.map utf8 ∧ Declares o texts p ∧ p.build = .ok f := by
    intro f
    rw [ofBytes, ofLines_eq_ok_iff]
    simp only [linesOfBytes, map_decodeLine_eq_iff]
  refine ⟨accepts, ?_, fun e => ofBytes_eq_error_iff⟩
  simp only [accepts]
  constructor
  · rintro ⟨f, texts, p, lines, declares, built⟩
    exact ⟨texts, p, lines, declares, Problem.build_isOk_iff.mp ⟨f, built⟩⟩
  · rintro ⟨texts, p, lines, declares, room⟩
    obtain ⟨f, built⟩ := Problem.build_isOk_iff.mpr room
    exact ⟨f, texts, p, lines, declares, built⟩

end Formula

end MaxSat

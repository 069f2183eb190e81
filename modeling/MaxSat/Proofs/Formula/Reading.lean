import MaxSat.Proofs.Formula.Allocation
import MaxSat.Proofs.Formula.Grammar

/-!
# Reading follows the grammar

Each part of the reader gives a value exactly if the words it reads are well
formed, and a fault exactly if the grammar finds that fault in them. So a line
changes the reader by the rule of its kind, and fails exactly if it offends.
-/

namespace MaxSat

open Text Grammar

theorem except_bind_eq_ok_iff {ε α β : Type} {x : Except ε α} {f : α → Except ε β} {b : β} :
    (x >>= f) = .ok b ↔ ∃ a, x = .ok a ∧ f a = .ok b := by
  cases x with
  | error e => simp [bind, Except.bind]
  | ok a => simp [bind, Except.bind]

theorem except_bind_eq_error_iff {ε α β : Type} {x : Except ε α} {f : α → Except ε β} {e : ε} :
    (x >>= f) = .error e ↔ x = .error e ∨ ∃ a, x = .ok a ∧ f a = .error e := by
  cases x with
  | error d => simp [bind, Except.bind]
  | ok a => simp [bind, Except.bind]

namespace Grammar

theorem not_firstRefused_nil {fault : Fault} : ¬ FirstRefused [] fault := by
  rintro ⟨before, kind, t, after, eq, -⟩
  simp at eq

theorem firstRefused_cons {kind : TokenKind} {t : List Char} {rest : List (TokenKind × List Char)}
    {fault : Fault} : FirstRefused ((kind, t) :: rest) fault ↔
      Refused kind t fault ∨ (Fits kind t ∧ FirstRefused rest fault) := by
  constructor
  · rintro ⟨before, k, u, after, eq, fit, refused⟩
    cases before with
    | nil =>
      cases eq
      exact Or.inl refused
    | cons first before =>
      cases eq
      exact Or.inr ⟨fit (kind, t) (by simp), before, k, u, after, rfl,
        fun v mem => fit v (by simp [mem]), refused⟩
  · rintro (refused | ⟨fits, before, k, u, after, rfl, fit, refused⟩)
    · exact ⟨[], kind, t, rest, rfl, by simp, refused⟩
    · refine ⟨(kind, t) :: before, k, u, after, rfl, ?_, refused⟩
      intro v mem
      rcases List.mem_cons.mp mem with rfl | mem
      · exact fits
      · exact fit v mem

theorem firstRefused_append {us vs : List (TokenKind × List Char)} {fault : Fault} :
    FirstRefused (us ++ vs) fault ↔
      FirstRefused us fault ∨ ((∀ u ∈ us, Fits u.1 u.2) ∧ FirstRefused vs fault) := by
  induction us with
  | nil => simp [not_firstRefused_nil]
  | cons u us ih =>
    rw [List.cons_append, firstRefused_cons, firstRefused_cons, ih, List.forall_mem_cons]
    tauto

theorem refused_iff {kind : TokenKind} {t : List Char} {fault : Fault} (other : kind ≠ .literal) :
    Refused kind t fault ↔ ¬ Fits kind t ∧ fault = .badToken kind (String.ofList t) := by
  constructor
  · rintro (_ | ⟨unfit, -⟩)
    · exact absurd rfl other
    · exact ⟨unfit, rfl⟩
  · rintro ⟨unfit, rfl⟩
    exact .unfit unfit fun literal => absurd literal other

theorem refused_literal_iff {t : List Char} {fault : Fault} :
    Refused .literal t fault ↔ (IsInteger t 0 ∧ fault = .interiorZero) ∨
      (¬ Fits .literal t ∧ ¬ IsInteger t 0 ∧ fault = .badToken .literal (String.ofList t)) := by
  constructor
  · rintro (zero | ⟨unfit, nonzero⟩)
    · exact Or.inl ⟨zero, rfl⟩
    · exact Or.inr ⟨unfit, nonzero rfl, rfl⟩
  · rintro (⟨zero, rfl⟩ | ⟨unfit, nonzero, rfl⟩)
    · exact .zero zero
    · exact .unfit unfit fun _ => nonzero

theorem replicate_zip {α β : Type} (a : α) {n : Nat} {bs : List β} (le : bs.length ≤ n) :
    (List.replicate n a).zip bs = bs.map (a, ·) := by
  induction bs generalizing n with
  | nil => simp
  | cons b bs ih =>
    obtain ⟨m, rfl⟩ := Nat.exists_eq_add_of_lt le
    simp [List.replicate_succ, ih]

end Grammar

namespace Reader

theorem readCount_eq_ok_iff {kind : TokenKind} {bound n : Nat} {t : List Char} :
    readCount kind bound t = .ok n ↔ IsCount bound t n := by
  rw [readCount, ← count?_eq_some_iff]
  cases count? bound t with
  | none => simp
  | some m => simp

theorem readCount_eq_error_iff {kind : TokenKind} {bound : Nat} {t : List Char} {fault : Fault}
    (fits : Fits kind t ↔ ∃ n, IsCount bound t n) (other : kind ≠ .literal) :
    readCount kind bound t = .error fault ↔ Refused kind t fault := by
  rw [readCount, refused_iff other, fits]
  simp only [← count?_eq_some_iff]
  cases count? bound t with
  | none => simp [badToken, eq_comm]
  | some m => simp

theorem readWeight_eq_ok_iff {kind : TokenKind} {t : List Char} {w : Weight} :
    readWeight kind t = .ok w ↔ Weight.parse? t = some w := by
  rw [readWeight]
  cases Weight.parse? t with
  | none => simp
  | some v => simp

theorem readWeight_eq_error_iff {kind : TokenKind} {t : List Char} {fault : Fault}
    (fits : Fits kind t ↔ ∃ w, Weight.parse? t = some w) (other : kind ≠ .literal) :
    readWeight kind t = .error fault ↔ Refused kind t fault := by
  rw [readWeight, refused_iff other, fits]
  cases Weight.parse? t with
  | none => simp [badToken, eq_comm]
  | some w => simp

theorem readLit_eq_ok_iff {t : List Char} {l : Lit} : readLit t = .ok l ↔ IsLiteral t l := by
  rw [readLit, IsLiteral]
  simp only [← integer?_eq_some_iff]
  cases integer? t with
  | none => simp
  | some n =>
    by_cases zero : n = 0
    · simp [zero]
    · by_cases large : maxVar < n.natAbs
      · have : ¬ n.natAbs ≤ maxVar := Nat.not_le_of_lt large
        simp [zero, Lit.ofInt?, large, this]
      · have : n.natAbs ≤ maxVar := Nat.le_of_not_lt large
        simp [zero, Lit.ofInt?, large, this, eq_comm]

theorem readLit_eq_error_iff {t : List Char} {fault : Fault} :
    readLit t = .error fault ↔ Refused .literal t fault := by
  rw [refused_literal_iff, Fits, readLit]
  simp only [IsLiteral, ← integer?_eq_some_iff]
  cases integer? t with
  | none => simp [badToken, eq_comm]
  | some n =>
    by_cases zero : n = 0
    · simp [zero, eq_comm]
    · by_cases large : maxVar < n.natAbs
      · have beyond : ¬ n.natAbs ≤ maxVar := Nat.not_le_of_lt large
        simp [zero, Lit.ofInt?, large, beyond, badToken, eq_comm]
      · have small : n.natAbs ≤ maxVar := Nat.le_of_not_lt large
        simp [zero, Lit.ofInt?, large, small]

theorem readLits_eq_ok_iff {ts : List (List Char)} {c : Clause} :
    readLits ts = .ok c ↔ List.Forall₂ IsLiteral ts c := by
  induction ts generalizing c with
  | nil => simp [readLits, eq_comm]
  | cons t ts ih =>
    simp only [readLits, except_bind_eq_ok_iff, readLit_eq_ok_iff, ih]
    constructor
    · rintro ⟨l, lit, ls, lits, ⟨⟩⟩
      exact .cons lit lits
    · rintro (_ | ⟨lit, lits⟩)
      exact ⟨_, lit, _, lits, rfl⟩

theorem readLits_eq_error_iff {ts : List (List Char)} {fault : Fault} :
    readLits ts = .error fault ↔ FirstRefused (ts.map (.literal, ·)) fault := by
  induction ts with
  | nil => simp [readLits, not_firstRefused_nil]
  | cons t ts ih =>
    simp only [readLits, except_bind_eq_error_iff, readLit_eq_error_iff, readLit_eq_ok_iff, ih,
      List.map_cons, firstRefused_cons, Fits]
    constructor
    · rintro (refused | ⟨l, lit, later | ⟨ls, -, ⟨⟩⟩⟩)
      · exact Or.inl refused
      · exact Or.inr ⟨⟨l, lit⟩, later⟩
    · rintro (refused | ⟨⟨l, lit⟩, later⟩)
      · exact Or.inl refused
      · exact Or.inr ⟨l, lit, Or.inl later⟩

theorem readWeighted_eq_ok_iff {q : Nat} {ws : List (List Char)} {e : Entry} :
    readWeighted q ws = .ok e ↔ ∃ w ts weight c, ws = w :: ts ∧ Weight.parse? w = some weight ∧
      List.Forall₂ IsLiteral ts c ∧ e = .weighted c weight q := by
  cases ws with
  | nil => simp [readWeighted]
  | cons w ts =>
    simp only [readWeighted, except_bind_eq_ok_iff, readWeight_eq_ok_iff, readLits_eq_ok_iff]
    constructor
    · rintro ⟨weight, value, c, lits, ⟨⟩⟩
      exact ⟨w, ts, weight, c, rfl, value, lits, rfl⟩
    · rintro ⟨_, _, weight, c, ⟨⟩, value, lits, rfl⟩
      exact ⟨weight, value, c, lits, rfl⟩

theorem readWeighted_eq_error_iff {q : Nat} {ws : List (List Char)} {fault : Fault} :
    readWeighted q ws = .error fault ↔ (ws = [] ∧ fault = .truncatedClause) ∨
      ∃ w ts, ws = w :: ts ∧ FirstRefused ((.weight, w) :: ts.map (.literal, ·)) fault := by
  cases ws with
  | nil => simp [readWeighted, eq_comm]
  | cons w ts =>
    have weight : readWeight .weight w = .error fault ↔ Refused .weight w fault :=
      readWeight_eq_error_iff .rfl (by simp)
    simp only [readWeighted, except_bind_eq_error_iff, weight, readWeight_eq_ok_iff,
      readLits_eq_error_iff]
    constructor
    · rintro (refused | ⟨v, value, later | ⟨c, -, ⟨⟩⟩⟩)
      · exact Or.inr ⟨w, ts, rfl, firstRefused_cons.mpr (Or.inl refused)⟩
      · exact Or.inr ⟨w, ts, rfl, firstRefused_cons.mpr (Or.inr ⟨⟨v, value⟩, later⟩)⟩
    · rintro (⟨⟨⟩, -⟩ | ⟨_, _, ⟨⟩, refused⟩)
      rcases firstRefused_cons.mp refused with refused | ⟨⟨v, value⟩, later⟩
      · exact Or.inl refused
      · exact Or.inr ⟨v, value, Or.inl later⟩

/-- The words in front of the terminator are refused, or too few. -/
theorem readBody_eq_error_iff {d : Dialect} {body : List (List Char)} {fault : Fault} :
    readBody d body = .error fault ↔ FirstRefused (clauseTokens d body) fault ∨
      ((∀ u ∈ clauseTokens d body, Fits u.1 u.2) ∧ body.length < (lead d).length ∧
        fault = .truncatedClause) := by
  cases d with
  | wcnf =>
    cases body with
    | nil => simp [readBody, readWeighted_eq_error_iff, clauseTokens, lead, not_firstRefused_nil]
    | cons w ts =>
      have tokens : clauseTokens .wcnf (w :: ts) = (.weight, w) :: ts.map (.literal, ·) := by
        simp [clauseTokens, lead, replicate_zip]
      rw [tokens]
      simp [readBody, readWeighted_eq_error_iff, lead]
  | pwcnf =>
    cases body with
    | nil => simp [readBody, clauseTokens, lead, not_firstRefused_nil, eq_comm]
    | cons p ws =>
      have index : readCount .partition (lastPartition - 1) p = .error fault ↔
          Refused .partition p fault := readCount_eq_error_iff .rfl (by simp)
      simp only [readBody, except_bind_eq_error_iff, index, readCount_eq_ok_iff,
        readWeighted_eq_error_iff]
      cases ws with
      | nil =>
        simp [clauseTokens, lead, firstRefused_cons, not_firstRefused_nil, Fits]
      | cons w ts =>
        have tokens : clauseTokens .pwcnf (p :: w :: ts) =
            (.partition, p) :: (.weight, w) :: ts.map (.literal, ·) := by
          have long : ts.length ≤ ts.length + 1 + 1 := by omega
          simp [clauseTokens, lead, replicate_zip TokenKind.literal long]
        rw [tokens, firstRefused_cons]
        simp [lead, Fits]

theorem readClause_of_not_terminated {d : Dialect} {ws : List (List Char)}
    (last : ws.getLast? ≠ some ['0']) : readClause d ws = .error .missingTerminator := by
  rw [readClause, if_neg last]

theorem readClause_terminated {d : Dialect} {body : List (List Char)} :
    readClause d (body ++ [['0']]) = readBody d body := by
  simp [readClause]

theorem readClause_eq_ok_iff {d : Dialect} {ws : List (List Char)} {e : Entry} :
    readClause d ws = .ok e ↔ ClauseLine d ws e := by
  constructor
  · intro read
    by_cases last : ws.getLast? = some ['0']
    · obtain ⟨body, rfl⟩ := List.getLast?_eq_some_iff.mp last
      rw [readClause_terminated] at read
      cases d with
      | wcnf =>
        obtain ⟨w, ts, weight, c, rfl, value, lits, rfl⟩ := readWeighted_eq_ok_iff.mp read
        exact .wcnf value lits
      | pwcnf =>
        cases body with
        | nil => cases read
        | cons p ws =>
          obtain ⟨q, index, read⟩ := except_bind_eq_ok_iff.mp read
          obtain ⟨w, ts, weight, c, rfl, value, lits, rfl⟩ := readWeighted_eq_ok_iff.mp read
          exact .pwcnf (readCount_eq_ok_iff.mp index) value lits
    · rw [readClause_of_not_terminated last] at read
      cases read
  · rintro (⟨index, value, lits⟩ | ⟨value, lits⟩)
    · rw [readClause_terminated]
      exact except_bind_eq_ok_iff.mpr ⟨_, readCount_eq_ok_iff.mpr index,
        readWeighted_eq_ok_iff.mpr ⟨_, _, _, _, rfl, value, lits, rfl⟩⟩
    · rw [readClause_terminated]
      exact readWeighted_eq_ok_iff.mpr ⟨_, _, _, _, rfl, value, lits, rfl⟩

theorem readClause_eq_error_iff {d : Dialect} {ws : List (List Char)} {fault : Fault} :
    readClause d ws = .error fault ↔ ClauseFault d ws fault := by
  constructor
  · intro failed
    by_cases last : ws.getLast? = some ['0']
    · obtain ⟨body, rfl⟩ := List.getLast?_eq_some_iff.mp last
      rw [readClause_terminated, readBody_eq_error_iff] at failed
      rcases failed with refused | ⟨fit, short, rfl⟩
      · exact .token refused
      · exact .truncated fit short
    · rw [readClause_of_not_terminated last] at failed
      cases failed
      exact .unterminated last
  · rintro (last | refused | ⟨fit, short⟩)
    · exact readClause_of_not_terminated last
    · rw [readClause_terminated, readBody_eq_error_iff]
      exact Or.inl refused
    · rw [readClause_terminated, readBody_eq_error_iff]
      exact Or.inr ⟨fit, short, rfl⟩

theorem preambleTail_eq_some_iff {d : Dialect} {rest : List (List Char)}
    {top partitions : Option (List Char)} :
    preambleTail d rest = some (top, partitions) ↔
      rest = top.toList ++ partitions.toList ∧ (partitions.isSome = true ↔ d = .pwcnf) := by
  -- a table: the shape of the words decides
  rcases rest with _ | ⟨a, _ | ⟨b, _ | ⟨c, rest⟩⟩⟩ <;> cases d <;> cases top <;>
    cases partitions <;> simp [preambleTail]

/-- Reading of the words that a layout tells apart. -/
def readHeader (h : Header) : Except Fault Preamble := do
  let _ ← readCount .variableCount lastPartition h.vars
  let _ ← readCount .clauseCount lastPartition h.clauses
  let top ← readTop h.top
  let partitions ← readPartitions h.partitions
  return ⟨top, partitions⟩

theorem readPreamble_of_laidOut {d : Dialect} {line : List Char} {ws : List (List Char)}
    {h : Header} (laidOut : h.LaidOut d (['p'] :: ws)) :
    readPreamble d line ws = readHeader h := by
  obtain ⟨eq, partitions⟩ := laidOut
  obtain ⟨-, rfl⟩ := List.cons_eq_cons.mp eq
  have tail : preambleTail d (h.top.toList ++ h.partitions.toList) = some (h.top, h.partitions) :=
    preambleTail_eq_some_iff.mpr ⟨rfl, partitions⟩
  simp [readPreamble, tail, readHeader]

theorem readPreamble_of_not_laidOut {d : Dialect} {line : List Char} {ws : List (List Char)}
    (none : ∀ h : Header, ¬ h.LaidOut d (['p'] :: ws)) :
    readPreamble d line ws = .error (.badPreamble (String.ofList line)) := by
  match ws with
  | [] => rfl
  | [_] => rfl
  | [_, _] => rfl
  | key :: vars :: clauses :: rest =>
    rw [readPreamble]
    cases tail : preambleTail d rest with
    | none => rfl
    | some found =>
      obtain ⟨top, partitions⟩ := found
      obtain ⟨rfl, given⟩ := preambleTail_eq_some_iff.mp tail
      by_cases other : key = d.keyword.toList
      · subst other
        exact absurd ⟨rfl, given⟩ (none ⟨vars, clauses, top, partitions⟩)
      · simp [other]

theorem readTop_eq_ok_iff {t : Option (List Char)} {top : TopWeight} :
    readTop t = .ok top ↔ match t with
      | none => top = .infinite
      | some t => ∃ w, Weight.parse? t = some w ∧ top = .finite w := by
  cases t with
  | none => simp [readTop, eq_comm]
  | some t =>
    constructor
    · intro read
      obtain ⟨w, value, rfl⟩ := except_map_eq_ok read
      exact ⟨w, readWeight_eq_ok_iff.mp value, rfl⟩
    · rintro ⟨w, value, rfl⟩
      rw [readTop, readWeight_eq_ok_iff.mpr value]
      rfl

theorem readTop_eq_error_iff {t : Option (List Char)} {fault : Fault} :
    readTop t = .error fault ↔ FirstRefused (t.toList.map (.topWeight, ·)) fault := by
  cases t with
  | none => simp [readTop, not_firstRefused_nil]
  | some t =>
    have weight : readWeight .topWeight t = .error fault ↔ Refused .topWeight t fault :=
      readWeight_eq_error_iff .rfl (by simp)
    rw [readTop, except_map_eq_error_iff, weight]
    simp [firstRefused_cons, not_firstRefused_nil]

theorem readPartitions_eq_ok_iff {t : Option (List Char)} {n : Nat} :
    readPartitions t = .ok n ↔ match t with
      | none => n = 1
      | some t => ∃ m, IsCount (lastPartition - 1) t m ∧ n = m + 1 := by
  cases t with
  | none => simp [readPartitions, eq_comm]
  | some t =>
    constructor
    · intro read
      obtain ⟨m, count, rfl⟩ := except_map_eq_ok read
      exact ⟨m, readCount_eq_ok_iff.mp count, rfl⟩
    · rintro ⟨m, count, rfl⟩
      rw [readPartitions, readCount_eq_ok_iff.mpr count]
      rfl

theorem readPartitions_eq_error_iff {t : Option (List Char)} {fault : Fault} :
    readPartitions t = .error fault ↔ FirstRefused (t.toList.map (.partitionCount, ·)) fault := by
  cases t with
  | none => simp [readPartitions, not_firstRefused_nil]
  | some t =>
    have count : readCount .partitionCount (lastPartition - 1) t = .error fault ↔
        Refused .partitionCount t fault := readCount_eq_error_iff .rfl (by simp)
    rw [readPartitions, except_map_eq_error_iff, count]
    simp [firstRefused_cons, not_firstRefused_nil]

theorem readHeader_eq_ok_iff {h : Header} {p : Preamble} :
    readHeader h = .ok p ↔ h.Declares p := by
  simp only [readHeader, except_bind_eq_ok_iff, readCount_eq_ok_iff]
  constructor
  · rintro ⟨n, vars, m, clauses, top, readTop, partitions, readPartitions, ⟨⟩⟩
    exact ⟨⟨n, vars⟩, ⟨m, clauses⟩, readTop_eq_ok_iff.mp readTop,
      readPartitions_eq_ok_iff.mp readPartitions⟩
  · rintro ⟨⟨n, vars⟩, ⟨m, clauses⟩, top, partitions⟩
    exact ⟨n, vars, m, clauses, p.top, readTop_eq_ok_iff.mpr top, p.partitions,
      readPartitions_eq_ok_iff.mpr partitions, rfl⟩

theorem readHeader_eq_error_iff {h : Header} {fault : Fault} :
    readHeader h = .error fault ↔ FirstRefused h.tokens fault := by
  have vars : readCount .variableCount lastPartition h.vars = .error fault ↔
      Refused .variableCount h.vars fault := readCount_eq_error_iff .rfl (by simp)
  have clauses : readCount .clauseCount lastPartition h.clauses = .error fault ↔
      Refused .clauseCount h.clauses fault := readCount_eq_error_iff .rfl (by simp)
  -- a top weight that is read is a word that fits
  have top : (∃ w, readTop h.top = .ok w) ↔
      ∀ u ∈ h.top.toList.map (TokenKind.topWeight, ·), Fits u.1 u.2 := by
    cases eq : h.top with
    | none => simp [readTop]
    | some t => simp [readTop_eq_ok_iff, Fits]
  simp only [readHeader, Header.tokens, except_bind_eq_error_iff, firstRefused_cons,
    firstRefused_append, vars, clauses, readTop_eq_error_iff, readPartitions_eq_error_iff, ← top,
    readCount_eq_ok_iff]
  constructor
  · rintro (refused | ⟨n, vars, refused | ⟨m, clauses, refused | ⟨w, read, refused | ⟨q, -, ⟨⟩⟩⟩⟩⟩)
    · exact Or.inl refused
    · exact Or.inr ⟨⟨n, vars⟩, Or.inl refused⟩
    · exact Or.inr ⟨⟨n, vars⟩, Or.inr ⟨⟨m, clauses⟩, Or.inl refused⟩⟩
    · exact Or.inr ⟨⟨n, vars⟩, Or.inr ⟨⟨m, clauses⟩, Or.inr ⟨⟨w, read⟩, refused⟩⟩⟩
  · rintro (refused | ⟨⟨n, vars⟩, refused | ⟨⟨m, clauses⟩, refused | ⟨⟨w, read⟩, refused⟩⟩⟩)
    · exact Or.inl refused
    · exact Or.inr ⟨n, vars, Or.inl refused⟩
    · exact Or.inr ⟨n, vars, Or.inr ⟨m, clauses, Or.inl refused⟩⟩
    · exact Or.inr ⟨n, vars, Or.inr ⟨m, clauses, Or.inr ⟨w, read, Or.inl refused⟩⟩⟩

theorem readPreamble_eq_ok_iff {d : Dialect} {line : List Char} {ws : List (List Char)}
    {p : Preamble} : readPreamble d line ws = .ok p ↔ PreambleLine d (['p'] :: ws) p := by
  constructor
  · intro read
    by_cases laid : ∃ h : Header, h.LaidOut d (['p'] :: ws)
    · obtain ⟨h, laidOut⟩ := laid
      rw [readPreamble_of_laidOut laidOut] at read
      exact ⟨h, laidOut, readHeader_eq_ok_iff.mp read⟩
    · rw [readPreamble_of_not_laidOut (not_exists.mp laid)] at read
      cases read
  · rintro ⟨h, laidOut, declares⟩
    rw [readPreamble_of_laidOut laidOut]
    exact readHeader_eq_ok_iff.mpr declares

theorem readPreamble_eq_error_iff {d : Dialect} {line : List Char} {ws : List (List Char)}
    {fault : Fault} :
    readPreamble d line ws = .error fault ↔ PreambleFault d line (['p'] :: ws) fault := by
  constructor
  · intro failed
    by_cases laid : ∃ h : Header, h.LaidOut d (['p'] :: ws)
    · obtain ⟨h, laidOut⟩ := laid
      rw [readPreamble_of_laidOut laidOut] at failed
      exact .token laidOut (readHeader_eq_error_iff.mp failed)
    · rw [readPreamble_of_not_laidOut (not_exists.mp laid)] at failed
      cases failed
      exact .layout (not_exists.mp laid)
  · rintro (none | ⟨laidOut, refused⟩)
    · exact readPreamble_of_not_laidOut none
    · rw [readPreamble_of_laidOut laidOut]
      exact readHeader_eq_error_iff.mpr refused

theorem isComment_iff {leads : List String} {line : List Char} :
    isComment leads line = true ↔ ∃ lead ∈ leads, lead ≠ "" ∧ lead.toList <+: line := by
  simp [isComment, String.toList_eq_nil_iff]

theorem words_of_preamble {o : ReadOptions} {text : List Char}
    (kind : lineKind o text = .preamble) :
    words (trim text) = ['p'] :: (words (trim text)).tail := by
  rw [lineKind] at kind
  split at kind
  · cases kind
  · split at kind
    · rename_i first
      exact List.eq_cons_of_mem_head? first
    · split at kind
      · cases kind
      · cases kind

theorem lineKind_eq (o : ReadOptions) (text : List Char) :
    lineKind o text = if trim text = [] then .blank
      else if (words (trim text)).head? = some ['p'] then .preamble
      else if isComment o.commentLeads (trim text) then .comment else .clause := by
  simp only [lineKind, isComment_iff]

/-- One line, by its kind. -/
theorem line_eq (o : ReadOptions) (r : Reader) (text : List Char) :
    r.line o text = match lineKind o text with
      | .blank => .ok r
      | .preamble =>
        if r.preamble.isSome then .error .duplicatePreamble
        else (readPreamble o.dialect (trim text) (words (trim text)).tail).map fun p =>
          { r with preamble := some p }
      | .comment => .ok { r with comments := String.ofList (trim text) :: r.comments }
      | .clause =>
        if r.preamble.isNone then .error .missingPreamble
        else (readClause o.dialect (words (trim text))).map fun e =>
          { r with entries := e :: r.entries } := by
  simp only [line, lineKind_eq]
  cases ws : words (trim text) with
  | nil => simp [words_trim_eq_nil_iff.mp ws]
  | cons first rest =>
    have solid : trim text ≠ [] := by
      intro blank
      rw [words_trim_eq_nil_iff.mpr blank] at ws
      cases ws
    by_cases keyword : first = ['p']
    · simp [solid, keyword]
    · by_cases comment : isComment o.commentLeads (trim text) = true
      · simp [solid, keyword, comment]
      · simp [solid, keyword, comment]

/-- What a line makes of the reader. One rule for each kind of line. -/
inductive Reads (o : ReadOptions) (r : Reader) (text : List Char) : Reader → Prop
  | blank (kind : lineKind o text = .blank) : Reads o r text r
  | comment (kind : lineKind o text = .comment) :
      Reads o r text { r with comments := String.ofList (trim text) :: r.comments }
  | preamble {p : Preamble} (kind : lineKind o text = .preamble) (first : r.preamble = none)
      (declared : PreambleLine o.dialect (words (trim text)) p) :
      Reads o r text { r with preamble := some p }
  | clause {p : Preamble} {e : Entry} (kind : lineKind o text = .clause)
      (seen : r.preamble = some p) (declared : ClauseLine o.dialect (words (trim text)) e) :
      Reads o r text { r with entries := e :: r.entries }

theorem line_eq_ok_iff {o : ReadOptions} {r r' : Reader} {text : List Char} :
    r.line o text = .ok r' ↔ Reads o r text r' := by
  rw [line_eq]
  constructor
  · intro read
    cases kind : lineKind o text with
    | blank =>
      simp only [kind] at read
      cases read
      exact .blank kind
    | comment =>
      simp only [kind] at read
      cases read
      exact .comment kind
    | preamble =>
      simp only [kind] at read
      cases seen : r.preamble with
      | some p => simp [seen] at read
      | none =>
        rw [seen] at read
        obtain ⟨p, declared, rfl⟩ := except_map_eq_ok read
        rw [readPreamble_eq_ok_iff, ← words_of_preamble kind] at declared
        exact .preamble kind seen declared
    | clause =>
      simp only [kind] at read
      cases seen : r.preamble with
      | none => simp [seen] at read
      | some p =>
        rw [if_neg (by simp [seen])] at read
        obtain ⟨e, declared, rfl⟩ := except_map_eq_ok read
        exact .clause kind seen (readClause_eq_ok_iff.mp declared)
  · rintro (kind | kind | ⟨kind, first, declared⟩ | ⟨kind, seen, declared⟩)
    · simp [kind]
    · simp [kind]
    · rw [words_of_preamble kind] at declared
      simp [kind, first, readPreamble_eq_ok_iff.mpr declared, Except.map]
    · simp [kind, seen, readClause_eq_ok_iff.mpr declared, Except.map]

/-- The reader knows whether a preamble stands before. -/
def Knows (o : ReadOptions) (before : List (List Char)) (r : Reader) : Prop :=
  r.preamble.isSome = true ↔ HasPreamble o before

theorem line_eq_error_iff {o : ReadOptions} {before : List (List Char)} {r : Reader}
    (knows : Knows o before r) {text : List Char} {fault : Fault} :
    r.line o text = .error fault ↔ Offends o before text fault := by
  rw [line_eq]
  constructor
  · intro failed
    cases kind : lineKind o text with
    | blank => simp [kind] at failed
    | comment => simp [kind] at failed
    | preamble =>
      simp only [kind] at failed
      by_cases seen : r.preamble.isSome = true
      · rw [if_pos seen] at failed
        cases failed
        exact .second kind (knows.mp seen)
      · rw [if_neg seen, except_map_eq_error_iff, readPreamble_eq_error_iff,
          ← words_of_preamble kind] at failed
        exact .preamble kind (fun has => seen (knows.mpr has)) failed
    | clause =>
      simp only [kind] at failed
      by_cases seen : r.preamble.isSome = true
      · obtain ⟨p, eq⟩ := Option.isSome_iff_exists.mp seen
        rw [if_neg (by simp [eq]), except_map_eq_error_iff, readClause_eq_error_iff] at failed
        exact .clause kind (knows.mp seen) failed
      · rw [if_pos (by simpa using seen)] at failed
        cases failed
        exact .early kind fun has => seen (knows.mpr has)
  · rintro (⟨kind, has⟩ | ⟨kind, first, faulty⟩ | ⟨kind, first⟩ | ⟨kind, has, faulty⟩)
    · have seen := knows.mpr has
      simp [kind, seen]
    · have seen := fun some => first (knows.mp some)
      rw [words_of_preamble kind] at faulty
      simp only [kind]
      rw [if_neg seen, except_map_eq_error_iff]
      exact readPreamble_eq_error_iff.mpr faulty
    · have seen := fun some => first (knows.mp some)
      simp only [kind]
      rw [if_pos (by simpa using seen)]
    · obtain ⟨p, eq⟩ := Option.isSome_iff_exists.mp (knows.mpr has)
      simp only [kind]
      rw [if_neg (by simp [eq]), except_map_eq_error_iff]
      exact readClause_eq_error_iff.mpr faulty

end Reader

end MaxSat

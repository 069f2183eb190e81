import MaxSat.Proofs.Formula.Written

/-!
# Writing and reading

A formula that was read can be written and read back. Its hard clauses come back
as hard ones if their written weight, the top weight, is positive. Then only what
is not written is lost: the offset, and variables that no clause mentions.
-/

namespace MaxSat

open Text Grammar

theorem Clause.maxVar_le_iff {c : Clause} {k : Nat} : Clause.maxVar c ≤ k ↔ ∀ l ∈ c, l.var ≤ k :=
  ⟨fun le _ mem => Nat.le_trans (Clause.le_maxVar mem) le, Clause.maxVar_le⟩

theorem Clause.foldr_maxVar_le_iff {α : Type} (clause : α → Clause) {xs : List α} {k : Nat} :
    xs.foldr (fun x n => max (Clause.maxVar (clause x)) n) 0 ≤ k ↔
      ∀ x ∈ xs, ∀ l ∈ clause x, l.var ≤ k := by
  induction xs with
  | nil => simp
  | cons x xs ih => simp [ih, Clause.maxVar_le_iff]

namespace Problem

theorem maxVar_le_iff {p : Problem} {k : Nat} :
    p.maxVar ≤ k ↔ ∀ e ∈ p.entries, ∀ l ∈ e.clause, l.var ≤ k :=
  Clause.foldr_maxVar_le_iff Entry.clause

theorem numPartitions_le_iff {p : Problem} {k : Nat} :
    p.numPartitions ≤ k ↔
      p.partitions ≤ k ∧ ∀ e ∈ p.entries, min (e.partition + 1) lastPartition ≤ k := by
  rw [numPartitions]
  induction p.entries with
  | nil => simp
  | cons e entries ih =>
    rw [List.foldr_cons, Nat.max_le, ih, List.forall_mem_cons]
    tauto

end Problem

namespace Formula

/-- The largest variable that a clause mentions, 0 if there is none. -/
def largestVar (f : Formula) : Nat :=
  (f.hard.map HardClause.clause ++ f.soft.map SoftClause.clause).foldr
    (fun c n => max (Clause.maxVar c) n) 0

theorem largestVar_le_iff {f : Formula} {k : Nat} :
    f.largestVar ≤ k ↔ (∀ h ∈ f.hard, ∀ l ∈ h.clause, l.var ≤ k) ∧
      ∀ s ∈ f.soft, ∀ l ∈ s.clause, l.var ≤ k := by
  refine (Clause.foldr_maxVar_le_iff id).trans ?_
  simp [or_imp, forall_and]

/-- What is left of a formula that is written: the offset is gone, and only variables of clauses
are counted. -/
def compact (f : Formula) : Formula :=
  { f with offset := 0, numVars := f.largestVar, inputVars := f.largestVar }

theorem Writable.largestVar_le {f : Formula} (writable : f.Writable) : f.largestVar ≤ maxVar :=
  largestVar_le_iff.mpr ⟨fun h mem l hl => ((writable.hard h mem).2 l hl).2,
    fun s mem l hl => ((writable.soft s mem).2 l hl).2⟩

theorem Writable.compact {f : Formula} (writable : f.Writable) : f.compact.Writable := {
  writable with vars := Nat.le_trans writable.largestVar_le (by decide) }

section Reread

variable {f : Formula}

theorem maxVar_declared (f : Formula) : f.declared.maxVar = f.largestVar := by
  refine eq_of_forall_ge_iff fun k => ?_
  simp [Problem.maxVar_le_iff, largestVar_le_iff, declared, or_imp, forall_and, Entry.clause]

theorem numPartitions_declared (writable : f.Writable) :
    f.declared.numPartitions = f.numPartitions := by
  have least : f.declared.partitions ≤ f.declared.numPartitions :=
    (Problem.numPartitions_le_iff.mp (Nat.le_refl _)).1
  refine Nat.le_antisymm (Problem.numPartitions_le_iff.mpr ⟨Nat.le_refl _, ?_⟩) least
  intro e mem
  rcases List.mem_append.mp mem with mem | mem
  · obtain ⟨h, found, rfl⟩ := List.mem_map.mp mem
    have := (writable.hard h found).1
    simp only [Entry.partition]
    omega
  · obtain ⟨s, found, rfl⟩ := List.mem_map.mp mem
    have := (writable.soft s found).1
    simp only [Entry.partition]
    omega

/-- A soft clause is soft again. -/
theorem soft_entry (writable : f.Writable) {s : SoftClause} (mem : s ∈ f.soft) :
    let e : Entry := .weighted s.clause s.weight s.partition
    e.asHard? f.declared.top = none ∧ e.asSoft? f.declared.top = some s ∧ e.asNegative? = none := by
  obtain ⟨positive, below⟩ := writable.weights s mem
  simp [Entry.asHard?, Entry.asSoft?, Entry.asNegative?, TopWeight.admits, positive, below]

/-- A hard clause is hard again if the top weight is positive. -/
theorem hard_entry (positive : 0 < f.topWeight) (h : HardClause) :
    let e : Entry := .weighted h.clause f.topWeight h.partition
    e.asHard? f.declared.top = some h ∧ e.asSoft? f.declared.top = none ∧ e.asNegative? = none := by
  simp [Entry.asHard?, Entry.asSoft?, Entry.asNegative?, declared, TopWeight.admits, positive]

theorem filterMap_declared {β : Type} (f : Formula) (g : Entry → Option β) :
    f.declared.entries.filterMap g =
      f.hard.filterMap (fun h => g (.weighted h.clause f.topWeight h.partition)) ++
        f.soft.filterMap fun s => g (.weighted s.clause s.weight s.partition) := by
  simp [declared, List.filterMap_append, List.filterMap_map]

/-- A positive top weight sends every written clause back to where it was. -/
theorem build_declared (writable : f.Writable) (positive : f.hard ≠ [] → 0 < f.topWeight) :
    f.declared.build = .ok f.compact := by
  have positive : ∀ h ∈ f.hard, 0 < f.topWeight := fun h mem => positive (List.ne_nil_of_mem mem)
  have hards : f.declared.hards = f.hard := by
    rw [Problem.hards, filterMap_declared,
      List.filterMap_congr fun h mem => (hard_entry (positive h mem) h).1,
      List.filterMap_congr fun s mem => (soft_entry writable mem).1]
    simp
  have softs : f.declared.softs = f.soft := by
    rw [Problem.softs, filterMap_declared,
      List.filterMap_congr fun h mem => (hard_entry (positive h mem) h).2.1,
      List.filterMap_congr fun s mem => (soft_entry writable mem).2.1]
    simp
  have negatives : f.declared.negatives = [] := by
    rw [Problem.negatives, filterMap_declared,
      List.filterMap_congr fun h mem => (hard_entry (positive h mem) h).2.2,
      List.filterMap_congr fun s mem => (soft_entry writable mem).2.2]
    simp
  have sorted : (f.soft.mergeSort fun a b => a.partition ≤ b.partition) = f.soft :=
    List.mergeSort_of_pairwise (writable.grouped.imp fun le => by simpa using le)
  refine Problem.build_eq_ok_iff.mpr ⟨maxVar_declared f ▸ writable.largestVar_le,
    { numVars := f.declared.maxVar }, by rw [negatives, normalize], ?_⟩
  simp [Problem.assemble, compact, hards, softs, negatives, sorted, maxVar_declared,
    numPartitions_declared writable, Problem.resolveTop]

end Reread

end Formula

namespace Grammar

theorem IsLiteral.writable {t : List Char} {l : Lit} (lit : IsLiteral t l) : l.Writable := by
  obtain ⟨n, -, nonzero, small, rfl⟩ := lit
  exact ⟨Int.natAbs_pos.mpr nonzero, small⟩

/-- Literals that are read are in range, one for each word. -/
theorem writable_of_forall₂ {ts : List (List Char)} {c : Clause}
    (lits : List.Forall₂ IsLiteral ts c) :
    (∀ l ∈ c, l.Writable) ∧ c.length = ts.length := by
  induction lits with
  | nil => simp
  | cons lit _ ih => exact ⟨List.forall_mem_cons.mpr ⟨lit.writable, ih.1⟩, by simp [ih.2]⟩

theorem IsCount.le {bound n : Nat} {t : List Char} (count : IsCount bound t n) : n ≤ bound := by
  cases count with
  | plain _ le => exact le
  | plus _ le => exact le

/-- A clause that is read is in range, and its line has a word for each literal and two more. -/
theorem ClauseLine.inRange {d : Dialect} {ws : List (List Char)} {e : Entry}
    (line : ClauseLine d ws e) :
    (e.partition < lastPartition ∧ ∀ l ∈ e.clause, l.Writable) ∧
      e.clause.length + 2 ≤ ws.length := by
  have some : 0 < lastPartition := by decide
  cases line with
  | @pwcnf p w ts q weight c index _ lits =>
    obtain ⟨writable, count⟩ := writable_of_forall₂ lits
    have small : q ≤ lastPartition - 1 := IsCount.le index
    have words : c.length + 2 ≤ (p :: w :: ts ++ [['0']]).length := by
      simp only [List.length_append, List.length_cons, List.length_nil]
      omega
    exact ⟨⟨show q < lastPartition by omega, writable⟩, words⟩
  | @wcnf w ts weight c _ lits =>
    obtain ⟨writable, count⟩ := writable_of_forall₂ lits
    have words : c.length + 2 ≤ (w :: ts ++ [['0']]).length := by
      simp only [List.length_append, List.length_cons, List.length_nil]
      omega
    exact ⟨⟨some, writable⟩, words⟩

theorem Enumerates.inRange {o : ReadOptions} {ls : List (List Char)} {entries : List Entry}
    (listed : Enumerates o ls entries) :
    ∀ e ∈ entries, e.partition < lastPartition ∧ ∀ l ∈ e.clause, l.Writable := by
  rw [Enumerates] at listed
  generalize ls.filter (lineKind o · = .clause) = lines at listed
  induction listed with
  | nil => simp
  | cons line _ ih =>
    intro e mem
    rcases List.mem_cons.mp mem with rfl | mem
    · exact line.inRange.1
    · exact ih e mem

/-- There are fewer literals than characters. -/
theorem Enumerates.length_le {o : ReadOptions} {ls : List (List Char)} {entries : List Entry}
    (listed : Enumerates o ls entries) :
    (entries.map fun e => e.clause.length + 2).sum ≤ ls.flatten.length := by
  induction ls generalizing entries with
  | nil =>
    have none : entries = [] := by simpa [Enumerates] using listed
    simp [none]
  | cons l ls ih =>
    by_cases kind : lineKind o l = .clause
    · simp only [Enumerates, List.filter_cons, kind, decide_true, if_true] at listed
      cases listed with
      | cons line others =>
        have own := line.inRange.2
        have words := length_words_le (trim l)
        have chars := (isInfix_trim l).length_le
        have later := ih others
        simp only [List.map_cons, List.sum_cons, List.flatten_cons, List.length_append]
        omega
    · have rest : Enumerates o ls entries := by simpa [Enumerates, kind] using listed
      have later := ih rest
      rw [List.flatten_cons, List.length_append]
      omega

theorem Opens.partitions_pos {o : ReadOptions} {ls : List (List Char)} {p : Preamble}
    (opens : Opens o ls p) : 0 < p.partitions ∧ p.partitions ≤ lastPartition := by
  have some : 0 < lastPartition := by decide
  obtain ⟨-, -, -, -, -, -, ⟨h, -, declares⟩, -⟩ := opens
  have partitions := declares.partitions
  cases given : h.partitions with
  | none =>
    simp only [given] at partitions
    omega
  | some t =>
    simp only [given] at partitions
    obtain ⟨n, count, eq⟩ := partitions
    have := IsCount.le count
    omega

end Grammar

theorem Problem.mem_hards {p : Problem} {h : HardClause} (mem : h ∈ p.hards) :
    ∃ e ∈ p.entries, h = ⟨e.clause, e.partition⟩ := by
  obtain ⟨e, found, kind⟩ := List.mem_filterMap.mp mem
  refine ⟨e, found, ?_⟩
  cases e with
  | hard c q =>
    cases kind
    rfl
  | weighted c w q =>
    obtain ⟨-, same⟩ := Option.ite_none_right_eq_some.mp kind
    cases same
    rfl

/-- An entry is hard, soft or to be normalized. -/
theorem Entry.length_le (top : TopWeight) (e : Entry) :
    (e.asHard? top).toList.length + (e.asSoft? top).toList.length +
      (e.asNegative?.toList.map fun s => s.clause.length + 2).sum ≤ e.clause.length + 2 := by
  cases e with
  | hard c q => simp [asHard?, asSoft?, asNegative?]
  | weighted c w q =>
    by_cases positive : 0 < w
    · cases admitted : top.admits w with
      | true => simp [asHard?, asSoft?, asNegative?, positive, admitted]
      | false => simp [asHard?, asSoft?, asNegative?, positive, admitted]
    · simp [asHard?, asSoft?, asNegative?, clause, positive]

theorem Problem.length_le (p : Problem) :
    p.hards.length + p.softs.length + (p.negatives.map fun s => s.clause.length + 2).sum ≤
      (p.entries.map fun e => e.clause.length + 2).sum := by
  rw [hards, softs, negatives]
  induction p.entries with
  | nil => simp
  | cons e entries ih =>
    have first : ∀ {β : Type} (g : Entry → Option β),
        (e :: entries).filterMap g = (g e).toList ++ entries.filterMap g := by
      intro β g
      cases kind : g e with
      | none => simp [kind]
      | some b => simp [kind]
    have own := e.length_le p.top
    rw [first, first, first]
    simp only [List.length_append, List.map_append, List.sum_append, List.map_cons, List.sum_cons]
    omega

namespace Formula

theorem writableComment_of_read {d : Dialect} {texts : List (List Char)}
    (oneLine : ∀ l ∈ texts, '\n' ∉ l) {c : String} (mem : c ∈ commentsOf { dialect := d } texts) :
    WritableComment c := by
  obtain ⟨l, found, rfl⟩ := List.mem_map.mp mem
  obtain ⟨line, kind⟩ := List.mem_filter.mp found
  have text : (String.ofList (trim l)).toList = trim l := String.toList_ofList
  refine ⟨?_, ?_, ?_⟩
  · rw [text]
    exact fun inside => oneLine l line ((isInfix_trim l).subset inside)
  · rw [text, trim_trim]
  · rw [text]
    simpa [lineKind, trim_trim] using kind

/-- A formula that was read from a text can be written. -/
theorem writable_of_declares {d : Dialect} {texts : List (List Char)} {p : Problem} {f : Formula}
    (declares : Declares { dialect := d } texts p) (built : p.build = .ok f)
    (oneLine : ∀ l ∈ texts, '\n' ∉ l) (short : texts.flatten.length ≤ lastPartition) :
    f.Writable := by
  have regular := (Problem.fills_of_build built).regular
  have wellFormed := regular.wellFormed
  obtain ⟨small, n, done, rfl⟩ := Problem.build_eq_ok_iff.mp built
  have norm := normalizes_of_ok done
  obtain ⟨some, last⟩ := declares.preamble.partitions_pos
  obtain ⟨most, inside⟩ := Problem.numPartitions_le_iff.mp (Nat.le_refl p.numPartitions)
  have inRange := declares.clauses.inRange
  -- what is said of declared clauses carries over to derived ones
  have entry : ∀ e ∈ p.entries, e.partition < p.numPartitions ∧ ∀ l ∈ e.clause, l.Writable := by
    intro e mem
    obtain ⟨partition, writable⟩ := inRange e mem
    have := inside e mem
    exact ⟨by omega, writable⟩
  have derived : n.All (fun v => 0 < v ∧ v ≤ MaxSat.maxVar) (· < p.numPartitions) := by
    refine norm.all (fun s mem => entry _ (Problem.mem_negatives mem).1) fun v above below => ?_
    have room := norm.numVars_le small
    exact ⟨by omega, by omega⟩
  refine ⟨?_, ?_, ?_, ?_, ?_, ?_, ?_, ?_, grouped_mergeSort _⟩
  · intro c mem
    have listed : c ∈ commentsOf { dialect := d } texts := declares.comments ▸ mem
    exact writableComment_of_read oneLine listed
  · exact Nat.le_trans wellFormed.room (by decide)
  · have count := p.length_le
    have more := norm.length_le
    have chars := declares.clauses.length_le
    simp only [numClauses, Problem.assemble, List.length_mergeSort, List.length_append]
    omega
  · exact Nat.lt_of_lt_of_le some most
  · refine Problem.numPartitions_le_iff.mpr ⟨last, fun e _ => ?_⟩
    omega
  · intro h mem
    rcases List.mem_append.mp mem with mem | mem
    · obtain ⟨e, found, same⟩ := Problem.mem_hards mem
      exact same ▸ entry e found
    · exact derived.hard h mem
  · intro s mem
    rcases List.mem_append.mp (List.mem_mergeSort.mp mem) with mem | mem
    · exact entry _ (Problem.mem_softs mem).1
    · exact derived.soft s mem
  · exact fun s mem => ⟨wellFormed.positive s mem, regular.below s mem⟩

theorem writable_of_ofString {d : Dialect} {s : String} {f : Formula}
    (read : ofString { dialect := d } s = .ok f) (short : s.length ≤ lastPartition) :
    f.Writable := by
  obtain ⟨texts, p, lines, declares, built⟩ := ofLines_eq_ok_iff.mp read
  have texts_eq : pieces '\n' s.toList = texts :=
    List.map_injective_iff.mpr (fun _ _ => Except.ok.inj) lines
  subst texts_eq
  refine writable_of_declares declares built (fun l mem => not_mem_of_mem_pieces mem) ?_
  exact Nat.le_trans (length_flatten_pieces_le s.toList) short

/-- Without clauses of negative weight nothing is lost. -/
theorem compact_eq_self {p : Problem} {f : Formula} (built : p.build = .ok f)
    (positive : ∀ c w q, Entry.weighted c w q ∈ p.entries → 0 < w) : f.compact = f := by
  have negatives : p.negatives = [] := by
    refine List.filterMap_eq_nil_iff.mpr fun e mem => ?_
    cases e with
    | hard c q => rfl
    | weighted c w q => simp [Entry.asNegative?, positive c w q mem]
  -- every entry is a hard or a soft clause
  have split : ∀ k, (∀ e ∈ p.entries, ∀ l ∈ e.clause, l.var ≤ k) ↔
      (∀ h ∈ p.hards, ∀ l ∈ h.clause, l.var ≤ k) ∧ ∀ s ∈ p.softs, ∀ l ∈ s.clause, l.var ≤ k := by
    intro k
    constructor
    · intro bound
      constructor
      · intro h mem
        obtain ⟨e, found, rfl⟩ := Problem.mem_hards mem
        exact bound e found
      · exact fun s mem => bound _ (Problem.mem_softs mem).1
    · rintro ⟨hards, softs⟩ e mem
      cases e with
      | hard c q => exact hards ⟨c, q⟩ (List.mem_filterMap.mpr ⟨_, mem, rfl⟩)
      | weighted c w q =>
        have sign := positive c w q mem
        cases admitted : p.top.admits w with
        | true =>
          exact softs ⟨c, w, q⟩ (List.mem_filterMap.mpr ⟨_, mem, by
            simp [Entry.asSoft?, sign, admitted]⟩)
        | false =>
          exact hards ⟨c, q⟩ (List.mem_filterMap.mpr ⟨_, mem, by
            simp [Entry.asHard?, sign, admitted]⟩)
  obtain ⟨-, n, done, rfl⟩ := Problem.build_eq_ok_iff.mp built
  rw [negatives, normalize] at done
  cases done
  have largest : (p.assemble { numVars := p.maxVar }).largestVar = p.maxVar := by
    refine eq_of_forall_ge_iff fun k => ?_
    rw [Problem.maxVar_le_iff, split, largestVar_le_iff]
    simp [Problem.assemble]
  rw [compact, largest]
  simp [Problem.assemble, negatives]

/-- A formula read from a text, with a positive top weight, is read back from what is written of
it, less the offset and variables that no clause mentions. These are lost only if a clause was
declared with a weight that is not positive, and only the first time. -/
theorem toPwcnf_reads_back {d : Dialect} {s : String} {f : Formula}
    (read : ofString { dialect := d } s = .ok f) (positive : 0 < f.topWeight)
    (short : s.length ≤ lastPartition) :
    ofString {} f.toPwcnf = .ok f.compact ∧ ofString {} f.compact.toPwcnf = .ok f.compact ∧
      ∀ p, Declares { dialect := d } (pieces '\n' s.toList) p →
        (∀ c w q, Entry.weighted c w q ∈ p.entries → 0 < w) → f.compact = f := by
  have writable := writable_of_ofString read short
  have again := writable.compact
  refine ⟨(ofString_toPwcnf writable).mpr (build_declared writable fun _ => positive),
    (ofString_toPwcnf again).mpr (build_declared again fun _ => positive), ?_⟩
  intro p declares weights
  refine compact_eq_self ?_ weights
  exact (ofLines_eq_ok_iff_of_declares declares).mp read

/-- A file with comments, a fraction, a clause with a selector, a clause of weight zero and a
partition past the declared ones. -/
theorem toPwcnf_reads_back_selector :
    let text := "c a  b \np pwcnf 9 4 4 1\n3 4 1 -2 0\nc\n0 -1/2 1 2 0\n0 0 9 0\n2 2.5 2 0"
    let f : Formula := {
      numVars := 10
      inputVars := 9
      hard := [⟨[Lit.pos 1, Lit.neg 2], 3⟩, ⟨[Lit.pos 10, Lit.neg 1], 0⟩,
        ⟨[Lit.pos 10, Lit.neg 2], 0⟩, ⟨[Lit.neg 10, Lit.pos 1, Lit.pos 2], 0⟩]
      soft := [⟨[Lit.neg 10], 1/2, 0⟩, ⟨[Lit.pos 2], 5/2, 2⟩]
      numPartitions := 4
      topWeight := 4
      offset := -1/2
      comments := ["c a  b", "c"] }
    ofString {} text = .ok f ∧ 0 < f.topWeight ∧ text.length ≤ lastPartition ∧
      ofString {} f.toPwcnf = .ok { f with offset := 0, inputVars := 10 } := by
  intro text f
  have built : Problem.build {
      top := .finite 4
      partitions := 2
      entries := [.weighted [Lit.pos 1, Lit.neg 2] 4 3,
        .weighted [Lit.pos 1, Lit.pos 2] (-1/2) 0, .weighted [Lit.pos 9] 0 0,
        .weighted [Lit.pos 2] (5/2) 2]
      comments := f.comments } = .ok f := by
    unfold f
    cbv
  have read : ofString {} text = .ok f := ofLines_of_lines (n := 7) (by decide +kernel) built
  have positive : 0 < f.topWeight := by decide +kernel
  have short : text.length ≤ lastPartition := by decide +kernel
  have compact : f.compact = { f with offset := 0, inputVars := 10 } := by decide +kernel
  exact ⟨read, positive, short, compact ▸ (toPwcnf_reads_back read positive short).1⟩

end Formula

end MaxSat

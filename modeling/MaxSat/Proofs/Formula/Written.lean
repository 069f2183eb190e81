import MaxSat.Formula.Writer
import MaxSat.Proofs.Formula.Buckets

/-!
# What a written file declares

Every line of a written file is made of words without blanks in them, so it is
cut into the same words again, and its first character tells its kind. The file
then declares the clauses of the formula in order, a hard one with the top weight.
-/

namespace MaxSat

open Text Grammar

namespace Text

theorem prefix_joinWords (w : List Char) (ws : List (List Char)) :
    w <+: Formula.joinWords (w :: ws) := by
  cases ws with
  | nil => simp [Formula.joinWords]
  | cons v ws => exact ⟨_, (joinWords_cons_cons w v ws).symm⟩

theorem mem_joinWords {ws : List (List Char)} {c : Char} (mem : c ∈ Formula.joinWords ws) :
    c = ' ' ∨ ∃ w ∈ ws, c ∈ w := by
  induction ws with
  | nil => simp [Formula.joinWords] at mem
  | cons w ws ih =>
    cases ws with
    | nil => exact Or.inr ⟨w, by simp, by simpa [Formula.joinWords] using mem⟩
    | cons v ws =>
      rw [joinWords_cons_cons] at mem
      rcases List.mem_append.mp mem with mem | mem
      · exact Or.inr ⟨w, by simp, mem⟩
      · rcases List.mem_cons.mp mem with blank | mem
        · exact Or.inl blank
        · rcases ih mem with blank | ⟨u, found, inside⟩
          · exact Or.inl blank
          · exact Or.inr ⟨u, List.mem_cons_of_mem w found, inside⟩

theorem newline_not_mem_joinWords {ws : List (List Char)} (solid : ∀ w ∈ ws, IsWord w) :
    '\n' ∉ Formula.joinWords ws := by
  intro mem
  rcases mem_joinWords mem with other | ⟨w, found, inside⟩
  · simp at other
  · have blank := (solid w found).solid '\n' inside
    simp [isBlank] at blank

end Text

namespace Grammar

section Joined

variable {d : Dialect} {w : List Char} {ws : List (List Char)} (solid : ∀ v ∈ w :: ws, IsWord v)
include solid

theorem trim_joinWords : trim (Formula.joinWords (w :: ws)) = Formula.joinWords (w :: ws) :=
  trim_of_trimmed (trimmed_joinWords solid)

theorem joinWords_ne_nil : Formula.joinWords (w :: ws) ≠ [] := by
  intro empty
  have cut := words_joinWords solid
  rw [empty] at cut
  cases cut

theorem lineKind_of_keyword (first : w = ['p']) :
    lineKind { dialect := d } (Formula.joinWords (w :: ws)) = .preamble := by
  subst first
  have filled := joinWords_ne_nil solid
  simp [lineKind, trim_joinWords solid, words_joinWords solid, filled]

/-- A first word that starts like a number makes a clause. -/
theorem lineKind_of_numeral (first : ∀ c ∈ w.head?, c = '-' ∨ c.isDigit = true) :
    lineKind { dialect := d } (Formula.joinWords (w :: ws)) = .clause := by
  have filled := joinWords_ne_nil solid
  obtain ⟨c, rest, rfl⟩ := List.exists_cons_of_ne_nil (solid w (by simp)).nonempty
  have start := first c (by simp)
  have notKeyword : c :: rest ≠ ['p'] := by
    rintro ⟨⟩
    simp at start
  have notComment : ¬ ['c'] <+: Formula.joinWords ((c :: rest) :: ws) := by
    obtain ⟨more, eq⟩ := prefix_joinWords (c :: rest) ws
    rw [← eq]
    rintro ⟨others, same⟩
    have : 'c' = c := (List.cons.inj same).1
    subst this
    simp at start
  simp [lineKind, trim_joinWords solid, words_joinWords solid, filled, notKeyword, notComment]

end Joined

end Grammar

namespace Lit

/-- A literal of a variable that an id can have. -/
def Writable (l : Lit) : Prop := 0 < l.var ∧ l.var ≤ maxVar

theorem isLiteral_render {l : Lit} (writable : l.Writable) : IsLiteral l.render l := by
  obtain ⟨v, positive⟩ := l
  obtain ⟨low, high⟩ := writable
  dsimp only at low high
  refine ⟨_, isInteger_ofInteger _, ?_⟩
  cases positive with
  | true =>
    have nonzero : (v : Int) ≠ 0 := by omega
    exact ⟨nonzero, by simpa [toInt] using high, by simp [toInt, low]⟩
  | false =>
    have nonzero : -(v : Int) ≠ 0 := by omega
    exact ⟨nonzero, by simpa [toInt] using high, by simp [toInt]⟩

end Lit

namespace Formula

theorem isWord_clauseWords {lead : List (List Char)} (solid : ∀ w ∈ lead, IsWord w) (c : Clause) :
    ∀ w ∈ clauseWords lead c, IsWord w := by
  intro w mem
  simp only [clauseWords, List.mem_append, List.mem_map, List.mem_singleton] at mem
  rcases mem with (mem | ⟨l, -, rfl⟩) | rfl
  · exact solid w mem
  · exact isWord_ofInteger _
  · exact ⟨by simp, by simp [isBlank]⟩

theorem forall₂_render {c : Clause} (writable : ∀ l ∈ c, l.Writable) :
    List.Forall₂ IsLiteral (c.map Lit.render) c := by
  rw [List.forall₂_map_left_iff, List.forall₂_same]
  exact fun l mem => Lit.isLiteral_render (writable l mem)

theorem isCount_ofNatural {n bound : Nat} (le : n ≤ bound) : IsCount bound (ofNatural n) n :=
  .plain (digits_ofNatural n) le

theorem head_render {w : Weight} : ∀ c ∈ w.render.head?, c = '-' ∨ c.isDigit = true := by
  intro c first
  have start : c ∈ (ofInteger w.num).head? := by
    rw [Weight.render] at first
    split at first
    · exact first
    · rwa [List.head?_append_of_ne_nil _ (isWord_ofInteger w.num).nonempty] at first
  exact mem_ofInteger (List.mem_of_mem_head? start)

/-- A written line is read as a clause. -/
def DeclaresClause (d : Dialect) (l : List Char) (e : Entry) : Prop :=
  lineKind { dialect := d } l = .clause ∧ ClauseLine d (words (trim l)) e

theorem declaresClause_pwcnf {q : Nat} (small : q ≤ lastPartition - 1) (w : Weight) {c : Clause}
    (writable : ∀ l ∈ c, l.Writable) :
    DeclaresClause .pwcnf (joinWords (clauseWords [ofNatural q, w.render] c))
      (.weighted c w q) := by
  have lead : ∀ v ∈ [ofNatural q, w.render], IsWord v := by
    simp [isWord_ofNatural, Weight.isWord_render]
  have solid := isWord_clauseWords lead c
  constructor
  · refine lineKind_of_numeral solid fun c first => Or.inr ?_
    exact (digits_ofNatural q).digits c (List.mem_of_mem_head? first)
  · have cut : words (trim (joinWords (clauseWords [ofNatural q, w.render] c))) =
        clauseWords [ofNatural q, w.render] c := by
      rw [trim_of_trimmed (trimmed_joinWords solid), words_joinWords solid]
    rw [cut]
    exact .pwcnf (isCount_ofNatural small) (Weight.parse?_render w) (forall₂_render writable)

theorem declaresClause_wcnf (w : Weight) {c : Clause} (writable : ∀ l ∈ c, l.Writable) :
    DeclaresClause .wcnf (joinWords (clauseWords [w.render] c)) (.weighted c w 0) := by
  have lead : ∀ v ∈ [w.render], IsWord v := by simp [Weight.isWord_render]
  have solid := isWord_clauseWords lead c
  constructor
  · exact lineKind_of_numeral solid head_render
  · have cut : words (trim (joinWords (clauseWords [w.render] c))) = clauseWords [w.render] c := by
      rw [trim_of_trimmed (trimmed_joinWords solid), words_joinWords solid]
    rw [cut]
    exact .wcnf (Weight.parse?_render w) (forall₂_render writable)

theorem isWord_wcnfPreamble (f : Formula) : ∀ w ∈ f.wcnfPreamble, IsWord w := by
  have mark : IsWord ['p'] := ⟨by simp, by simp [isBlank]⟩
  have keyword : IsWord ['w', 'c', 'n', 'f'] := ⟨by simp, by simp [isBlank]⟩
  simp [wcnfPreamble, mark, keyword, isWord_ofNatural, Weight.isWord_render]

theorem isWord_pwcnfPreamble (f : Formula) : ∀ w ∈ f.pwcnfPreamble, IsWord w := by
  have mark : IsWord ['p'] := ⟨by simp, by simp [isBlank]⟩
  have keyword : IsWord ['p', 'w', 'c', 'n', 'f'] := ⟨by simp, by simp [isBlank]⟩
  simp [pwcnfPreamble, mark, keyword, isWord_ofNatural, Weight.isWord_render]

/-- A written line is read as a preamble. -/
def DeclaresPreamble (d : Dialect) (l : List Char) (p : Preamble) : Prop :=
  lineKind { dialect := d } l = .preamble ∧ PreambleLine d (words (trim l)) p

theorem declaresPreamble_of_header {d : Dialect} {h : Header} {ws : List (List Char)}
    (solid : ∀ w ∈ ws, IsWord w) (laidOut : h.LaidOut d ws) {p : Preamble}
    (declares : h.Declares p) :
    DeclaresPreamble d (joinWords ws) p := by
  have cut : words (trim (joinWords ws)) = ws := by
    rw [trim_of_trimmed (trimmed_joinWords solid), words_joinWords solid]
  refine ⟨?_, ?_⟩
  · have words := laidOut.words
    subst words
    exact lineKind_of_keyword solid rfl
  · rw [cut]
    exact ⟨h, laidOut, declares⟩

/-- What a comment needs to be read back as it is. -/
structure WritableComment (c : String) : Prop where
  oneLine : '\n' ∉ c.toList
  trimmed : trim c.toList = c.toList
  kind : lineKind {} c.toList = .comment

/-- What a formula needs to be read back as it is, its hard clauses apart. -/
structure Writable (f : Formula) : Prop where
  comments : ∀ c ∈ f.comments, WritableComment c
  vars : f.numVars ≤ lastPartition
  clauses : f.numClauses ≤ lastPartition
  somePartition : 0 < f.numPartitions
  partitions : f.numPartitions ≤ lastPartition
  hard : ∀ h ∈ f.hard, h.partition < f.numPartitions ∧ ∀ l ∈ h.clause, l.Writable
  soft : ∀ s ∈ f.soft, s.partition < f.numPartitions ∧ ∀ l ∈ s.clause, l.Writable
  weights : ∀ s ∈ f.soft, 0 < s.weight ∧ s.weight < f.topWeight
  grouped : Grouped f.soft

/-- The problem that a written file declares. -/
def declared (f : Formula) : Problem where
  top := .finite f.topWeight
  partitions := f.numPartitions
  entries := f.hard.map (fun h => .weighted h.clause f.topWeight h.partition) ++
    f.soft.map fun s => .weighted s.clause s.weight s.partition
  comments := f.comments

@[simp] theorem top_declared (f : Formula) : f.declared.top = .finite f.topWeight := rfl

@[simp] theorem comments_declared (f : Formula) : f.declared.comments = f.comments := rfl

/-- The same clauses without partitions. -/
def flat (f : Formula) : Formula :=
  { f.mergePartitions with hard := f.hard.map fun h => { h with partition := 0 } }

/-- Comments, a preamble and clauses, each line read as what it is. -/
theorem declares_of_parts {d : Dialect} {comments : List String} {pre : List Char}
    {lines : List (List Char)} {p : Problem} (writable : ∀ c ∈ comments, WritableComment c)
    (same : p.comments = comments) (opening : DeclaresPreamble d pre ⟨p.top, p.partitions⟩)
    (listed : List.Forall₂ (DeclaresClause d) lines p.entries) :
    Declares { dialect := d } (comments.map String.toList ++ pre :: lines) p := by
  obtain ⟨kinds, clauses⟩ := (List.forall₂_and_left lines p.entries).mp listed
  have marked : ∀ l ∈ comments.map String.toList, lineKind { dialect := d } l = .comment := by
    intro l mem
    obtain ⟨c, found, rfl⟩ := List.mem_map.mp mem
    exact (writable c found).kind
  refine ⟨⟨_, pre, lines, rfl, fun l mem => Or.inr (marked l mem), opening.1, opening.2, ?_⟩,
    ?_, ?_⟩
  · intro l mem
    simp [kinds l mem]
  · have none : (comments.map String.toList).filter
        (lineKind { dialect := d } · = .clause) = [] := by
      refine List.filter_eq_nil_iff.mpr fun l mem => ?_
      simp [marked l mem]
    have all : lines.filter (lineKind { dialect := d } · = .clause) = lines := by
      refine List.filter_eq_self.mpr fun l mem => ?_
      simp [kinds l mem]
    rw [Enumerates, List.filter_append, none, List.filter_cons_of_neg (by simp [opening.1]), all]
    exact clauses
  · have all : (comments.map String.toList).filter (lineKind { dialect := d } · = .comment) =
        comments.map String.toList := by
      refine List.filter_eq_self.mpr fun l mem => ?_
      simp [marked l mem]
    have none : lines.filter (lineKind { dialect := d } · = .comment) = [] := by
      refine List.filter_eq_nil_iff.mpr fun l mem => ?_
      simp [kinds l mem]
    have kept : comments.map (fun c => String.ofList (trim c.toList)) = comments := by
      refine (List.map_congr_left fun c mem => ?_).trans (List.map_id comments)
      rw [(writable c mem).trimmed, String.ofList_toList, id]
    rw [same, commentsOf, List.filter_append, all, List.filter_cons_of_neg (by simp [opening.1]),
      none, List.append_nil, List.map_map]
    exact kept.symm

section Written

variable {f : Formula} (writable : f.Writable)
include writable

theorem declares_pwcnfLines : Declares {} f.pwcnfLines f.declared := by
  have lines : f.pwcnfLines = f.comments.map String.toList ++ joinWords f.pwcnfPreamble ::
      (f.hard.map (fun h =>
          joinWords (clauseWords [ofNatural h.partition, f.topWeight.render] h.clause)) ++
        f.soft.map fun s =>
          joinWords (clauseWords [ofNatural s.partition, s.weight.render] s.clause)) := by
    simp [pwcnfLines]
  rw [lines]
  have last := writable.partitions
  have some := writable.somePartition
  have index : f.numPartitions - 1 ≤ lastPartition - 1 := by omega
  refine declares_of_parts writable.comments rfl ?_ ?_
  · refine declaresPreamble_of_header (h := ⟨ofNatural f.numVars, ofNatural f.numClauses,
      f.topWeight.render, ofNatural (f.numPartitions - 1)⟩) f.isWord_pwcnfPreamble ⟨rfl, by simp⟩ ?_
    refine ⟨⟨_, isCount_ofNatural writable.vars⟩, ⟨_, isCount_ofNatural writable.clauses⟩,
      ⟨_, Weight.parse?_render _, rfl⟩, ⟨_, isCount_ofNatural index, ?_⟩⟩
    show f.numPartitions = f.numPartitions - 1 + 1
    omega
  · refine List.rel_append ?_ ?_
    · rw [List.forall₂_map_left_iff, List.forall₂_map_right_iff, List.forall₂_same]
      intro h mem
      obtain ⟨partition, lits⟩ := writable.hard h mem
      exact declaresClause_pwcnf (by omega) _ lits
    · rw [List.forall₂_map_left_iff, List.forall₂_map_right_iff, List.forall₂_same]
      intro s mem
      obtain ⟨partition, lits⟩ := writable.soft s mem
      exact declaresClause_pwcnf (by omega) _ lits

theorem declares_wcnfLines : Declares { dialect := .wcnf } f.wcnfLines f.flat.declared := by
  have lines : f.wcnfLines = f.comments.map String.toList ++ joinWords f.wcnfPreamble ::
      (f.hard.map (fun h => joinWords (clauseWords [f.topWeight.render] h.clause)) ++
        f.soft.map fun s => joinWords (clauseWords [s.weight.render] s.clause)) := by
    simp [wcnfLines]
  rw [lines]
  refine declares_of_parts writable.comments rfl ?_ ?_
  · refine declaresPreamble_of_header (h := ⟨ofNatural f.numVars, ofNatural f.numClauses,
      f.topWeight.render, none⟩) f.isWord_wcnfPreamble ⟨rfl, by simp⟩ ?_
    exact ⟨⟨_, isCount_ofNatural writable.vars⟩, ⟨_, isCount_ofNatural writable.clauses⟩,
      ⟨_, Weight.parse?_render _, rfl⟩, rfl⟩
  · simp only [declared, flat, mergePartitions, List.map_map]
    refine List.rel_append ?_ ?_
    · rw [List.forall₂_map_left_iff, List.forall₂_map_right_iff, List.forall₂_same]
      exact fun h mem => declaresClause_wcnf _ (writable.hard h mem).2
    · rw [List.forall₂_map_left_iff, List.forall₂_map_right_iff, List.forall₂_same]
      exact fun s mem => declaresClause_wcnf _ (writable.soft s mem).2

theorem newline_not_mem_pwcnfLines : ∀ l ∈ f.pwcnfLines, '\n' ∉ l := by
  intro l mem
  simp only [pwcnfLines, List.mem_append, List.mem_map, List.mem_singleton] at mem
  rcases mem with ((⟨c, found, rfl⟩ | rfl) | ⟨h, -, rfl⟩) | ⟨s, -, rfl⟩
  · exact (writable.comments c found).oneLine
  · exact newline_not_mem_joinWords f.isWord_pwcnfPreamble
  · refine newline_not_mem_joinWords (isWord_clauseWords ?_ h.clause)
    simp [isWord_ofNatural, Weight.isWord_render]
  · refine newline_not_mem_joinWords (isWord_clauseWords ?_ s.clause)
    simp [isWord_ofNatural, Weight.isWord_render]

theorem newline_not_mem_wcnfLines : ∀ l ∈ f.wcnfLines, '\n' ∉ l := by
  intro l mem
  simp only [wcnfLines, List.mem_append, List.mem_map, List.mem_singleton] at mem
  rcases mem with ((⟨c, found, rfl⟩ | rfl) | ⟨h, -, rfl⟩) | ⟨s, -, rfl⟩
  · exact (writable.comments c found).oneLine
  · exact newline_not_mem_joinWords f.isWord_wcnfPreamble
  · refine newline_not_mem_joinWords (isWord_clauseWords ?_ h.clause)
    simp [Weight.isWord_render]
  · refine newline_not_mem_joinWords (isWord_clauseWords ?_ s.clause)
    simp [Weight.isWord_render]

/-- Reading a written file builds the problem that it declares. -/
theorem ofString_toPwcnf {g : Formula} :
    ofString {} f.toPwcnf = .ok g ↔ f.declared.build = .ok g := by
  have lines := linesOfString_unlines (newline_not_mem_pwcnfLines writable)
  rw [ofString, toPwcnf, lines]
  exact ofLines_eq_ok_iff_of_declares (declares_pwcnfLines writable)

theorem ofString_toWcnf {g : Formula} :
    ofString { dialect := .wcnf } f.toWcnf = .ok g ↔ f.flat.declared.build = .ok g := by
  have lines := linesOfString_unlines (newline_not_mem_wcnfLines writable)
  rw [ofString, toWcnf, lines]
  exact ofLines_eq_ok_iff_of_declares (declares_wcnfLines writable)

end Written

end Formula

end MaxSat

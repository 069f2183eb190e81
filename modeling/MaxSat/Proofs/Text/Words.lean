import Mathlib.Data.List.DropRight
import MaxSat.Formula.Writer
import MaxSat.Text

/-!
# Words and lines of a text

Words joined by spaces and lines closed by line feeds come apart again into the
same words and lines. In the other direction a text has no more words than
characters, and its lines together are no longer than the text. A line of bytes
is text exactly if it is the encoding of some text.
-/

namespace MaxSat.Text

open Formula (joinWords unlines)

section Cutting

variable {α : Type} {p : α → Bool}

/-- A text is in one piece, or its first piece is followed by a separator and a shorter text. -/
@[elab_as_elim]
theorem cut_induction {motive : List α → Prop}
    (whole : ∀ xs, (∀ x ∈ xs, p x = false) → motive xs)
    (cut : ∀ xs sep ys, (∀ x ∈ xs, p x = false) → p sep = true → motive ys →
      motive (xs ++ sep :: ys)) (xs : List α) : motive xs := by
  cases found : xs.find? p with
  | none => exact whole xs fun x mem => by simpa using List.find?_eq_none.mp found x mem
  | some sep =>
    obtain ⟨separates, first, rest, eq, clean⟩ := List.find?_eq_some_iff_append.mp found
    have shorter : rest.length < xs.length := by
      rw [eq]
      simp
      omega
    rw [eq]
    exact cut first sep rest (fun x mem => by simpa using clean x mem) separates
      (cut_induction whole cut rest)
termination_by xs.length

theorem not_of_mem_splitOnP {xs piece : List α} (mem : piece ∈ xs.splitOnP p) :
    ∀ x ∈ piece, p x = false := by
  induction xs using cut_induction (p := p) with
  | whole xs clean =>
    rw [List.splitOnP_eq_singleton clean, List.mem_singleton] at mem
    exact mem ▸ clean
  | cut xs sep ys clean separates ih =>
    rw [List.splitOnP_append_cons_of_forall_mem clean sep separates] at mem
    rcases List.mem_cons.mp mem with rfl | mem
    · exact clean
    · exact ih mem

/-- The pieces of a text have at most its characters. -/
theorem length_flatten_splitOnP_le (xs : List α) :
    (xs.splitOnP p).flatten.length ≤ xs.length := by
  induction xs using cut_induction (p := p) with
  | whole xs clean => simp [List.splitOnP_eq_singleton clean]
  | cut xs sep ys clean separates ih =>
    rw [List.splitOnP_append_cons_of_forall_mem clean sep separates]
    simp only [List.flatten_cons, List.length_append, List.length_cons]
    omega

end Cutting

/-- One or more characters, none of them blank. -/
structure IsWord (w : List Char) : Prop where
  nonempty : w ≠ []
  solid : ∀ c ∈ w, isBlank c = false

/-- A blank belongs to no word and ends one. -/
theorem words_append_blank {c : Char} (blank : isBlank c = true) (xs ys : List Char) :
    words (xs ++ c :: ys) = words xs ++ words ys := by
  simp only [words, List.splitOnP_append_cons xs ys blank, List.filter_append]

theorem words_of_isWord {w : List Char} (word : IsWord w) : words w = [w] := by
  rw [words, List.splitOnP_eq_singleton word.solid]
  simp [word.nonempty]

theorem joinWords_cons_cons (w v : List Char) (ws : List (List Char)) :
    joinWords (w :: v :: ws) = w ++ ' ' :: joinWords (v :: ws) := by
  simp [joinWords]

theorem words_joinWords {ws : List (List Char)} (solid : ∀ w ∈ ws, IsWord w) :
    words (joinWords ws) = ws := by
  induction ws with
  | nil => rfl
  | cons w ws ih =>
    have first := words_of_isWord (solid w (by simp))
    cases ws with
    | nil => simpa [joinWords] using first
    | cons v ws =>
      rw [joinWords_cons_cons, words_append_blank rfl, first,
        ih fun u mem => solid u (by simp [mem])]
      rfl

theorem length_words_le (cs : List Char) : (words cs).length ≤ cs.length := by
  refine Nat.le_trans ?_ (length_flatten_splitOnP_le (p := isBlank) cs)
  rw [words]
  induction cs.splitOnP isBlank with
  | nil => simp
  | cons w ps ih =>
    cases w with
    | nil => simpa using ih
    | cons c w =>
      simp only [List.filter_cons, List.isEmpty_cons, Bool.not_false, if_true, List.length_cons,
        List.flatten_cons, List.length_append]
      omega

/-- Only a text of blanks has no words. -/
theorem words_eq_nil_iff {cs : List Char} : words cs = [] ↔ ∀ c ∈ cs, isBlank c = true := by
  induction cs with
  | nil => simp [words]
  | cons c cs ih =>
    by_cases blank : isBlank c = true
    · have same : words (c :: cs) = words cs := words_append_blank blank [] cs
      simp [same, ih, blank]
    · obtain ⟨first, more, eq⟩ := List.exists_cons_of_ne_nil (List.splitOnP_ne_nil isBlank cs)
      simp [words, List.splitOnP_cons_eq_if_modifyHead, blank, eq]

/-- No blank at either end. -/
structure Trimmed (cs : List Char) : Prop where
  front : ∀ c ∈ cs.head?, isBlank c = false
  back : ∀ c ∈ cs.getLast?, isBlank c = false

theorem trim_eq (cs : List Char) : trim cs = (cs.dropWhile isBlank).rdropWhile isBlank := rfl

theorem isInfix_trim (cs : List Char) : trim cs <:+: cs :=
  (List.rdropWhile_prefix isBlank _).isInfix.trans (List.dropWhile_suffix isBlank).isInfix

theorem trimmed_trim (cs : List Char) : Trimmed (trim cs) := by
  constructor
  · intro c first
    -- what is left after the blanks at the end starts as before
    have kept : c ∈ (cs.dropWhile isBlank).head? := by
      obtain ⟨rest, eq⟩ := List.rdropWhile_prefix isBlank (cs.dropWhile isBlank)
      rw [← eq]
      exact List.mem_head?_append_of_mem_head? first
    have solid := List.head?_dropWhile_not isBlank cs
    rw [kept] at solid
    simpa using solid
  · intro c last
    have nonempty : trim cs ≠ [] := by
      intro empty
      simp [empty] at last
    have solid := List.rdropWhile_last_not isBlank (cs.dropWhile isBlank) nonempty
    rw [List.getLast?_eq_some_getLast nonempty] at last
    cases last
    exact Bool.eq_false_iff.mpr solid

theorem trim_of_trimmed {cs : List Char} (trimmed : Trimmed cs) : trim cs = cs := by
  have kept : cs.dropWhile isBlank = cs := by
    cases cs with
    | nil => rfl
    | cons c cs => simp [trimmed.front c rfl]
  rw [trim_eq, kept, List.rdropWhile_eq_self_iff]
  intro nonempty
  simp [trimmed.back _ (List.getLast?_eq_some_getLast nonempty)]

/-- Trimming undoes blanks that are put around a trimmed text. -/
theorem trim_append {front cs back : List Char} (before : ∀ c ∈ front, isBlank c = true)
    (trimmed : Trimmed cs) (after : ∀ c ∈ back, isBlank c = true) :
    trim (front ++ cs ++ back) = cs := by
  rw [trim_eq, List.append_assoc, List.dropWhile_append_of_pos before]
  cases cs with
  | nil =>
    have none_left : back.dropWhile isBlank = [] := by simpa using after
    simp [none_left]
  | cons c cs =>
    have stays : (c :: cs ++ back).dropWhile isBlank = c :: cs ++ back := by
      simp [trimmed.front c rfl]
    have kept := trim_of_trimmed trimmed
    rw [trim_eq] at kept
    have whole : (c :: cs).dropWhile isBlank = c :: cs := by simp [trimmed.front c rfl]
    rw [whole] at kept
    rw [stays, List.rdropWhile, List.reverse_append,
      List.dropWhile_append_of_pos (by simpa using after)]
    exact kept

/-- A text is its trimmed part between blanks. -/
theorem exists_trim (cs : List Char) : ∃ front back, cs = front ++ trim cs ++ back ∧
    (∀ c ∈ front, isBlank c = true) ∧ ∀ c ∈ back, isBlank c = true := by
  refine ⟨cs.takeWhile isBlank, (cs.dropWhile isBlank).rtakeWhile isBlank, ?_, ?_, ?_⟩
  · rw [trim_eq, List.append_assoc, List.rdropWhile_append_rtakeWhile,
      List.takeWhile_append_dropWhile]
  · exact fun c mem => List.mem_takeWhile_imp mem
  · exact fun c mem => List.mem_rtakeWhile_imp mem

theorem IsWord.trimmed {w : List Char} (word : IsWord w) : Trimmed w :=
  ⟨fun c first => word.solid c (List.mem_of_mem_head? first),
    fun c last => word.solid c (List.mem_of_mem_getLast? last)⟩

theorem trim_trim (cs : List Char) : trim (trim cs) = trim cs := trim_of_trimmed (trimmed_trim cs)

/-- A trimmed text without words is empty. -/
theorem words_trim_eq_nil_iff {cs : List Char} : words (trim cs) = [] ↔ trim cs = [] := by
  rw [words_eq_nil_iff]
  constructor
  · intro blank
    cases eq : trim cs with
    | nil => rfl
    | cons c rest =>
      have solid := (trimmed_trim cs).front c (by simp [eq])
      have := blank c (by simp [eq])
      simp [solid] at this
  · intro empty
    simp [empty]

theorem trimmed_joinWords {ws : List (List Char)} (solid : ∀ w ∈ ws, IsWord w) :
    Trimmed (joinWords ws) := by
  induction ws with
  | nil => exact ⟨by simp [joinWords], by simp [joinWords]⟩
  | cons w ws ih =>
    have word := solid w (by simp)
    cases ws with
    | nil => simpa [joinWords] using word.trimmed
    | cons v ws =>
      have later := ih fun u mem => solid u (by simp [mem])
      rw [joinWords_cons_cons]
      constructor
      · rw [List.head?_append_of_ne_nil _ word.nonempty]
        exact word.trimmed.front
      · have more : joinWords (v :: ws) ≠ [] := by
          intro empty
          have none := words_joinWords fun u mem => solid u (List.mem_cons_of_mem w mem)
          rw [empty] at none
          cases none
        obtain ⟨c, rest, eq⟩ := List.exists_cons_of_ne_nil more
        rw [eq] at later ⊢
        simpa using later.back

section Lines

variable {α : Type} [BEq α] {sep : α}

theorem mem_splitOn_of_mem_pieces {xs line : List α} (mem : line ∈ pieces sep xs) :
    line ∈ xs.splitOn sep := by
  simp only [pieces] at mem
  split at mem
  · exact List.dropLast_subset _ mem
  · exact mem

theorem not_mem_of_mem_pieces [LawfulBEq α] {xs line : List α} (mem : line ∈ pieces sep xs) :
    sep ∉ line := by
  intro inside
  have clean := not_of_mem_splitOnP (mem_splitOn_of_mem_pieces mem) sep inside
  simp at clean

theorem splitOn_flatMap [LawfulBEq α] {ls : List (List α)} (clean : ∀ l ∈ ls, sep ∉ l) :
    (ls.flatMap (· ++ [sep])).splitOn sep = ls ++ [[]] := by
  induction ls with
  | nil => simp
  | cons l ls ih =>
    have later := ih fun k mem => clean k (by simp [mem])
    rw [List.flatMap_cons, List.append_assoc, List.singleton_append,
      List.splitOn_append_cons_self_of_not_mem (clean l (by simp)), later]
    rfl

/-- Lines that hold no separator, each closed by one, are the pieces of the text. -/
theorem pieces_flatMap [LawfulBEq α] {ls : List (List α)} (clean : ∀ l ∈ ls, sep ∉ l) :
    pieces sep (ls.flatMap (· ++ [sep])) = ls := by
  simp [pieces, splitOn_flatMap clean]

theorem length_flatten_pieces_le (xs : List α) : (pieces sep xs).flatten.length ≤ xs.length := by
  refine Nat.le_trans ?_ (length_flatten_splitOnP_le (p := (· == sep)) xs)
  simp only [pieces, List.splitOn_eq_splitOnP]
  split
  · rename_i last
    obtain ⟨front, eq⟩ := List.getLast?_eq_some_iff.mp last
    simp [eq]
  · exact Nat.le_refl _

end Lines

/-- A written text is read line by line. -/
theorem linesOfString_unlines {ls : List (List Char)} (clean : ∀ l ∈ ls, '\n' ∉ l) :
    linesOfString (unlines ls) = ls.map .ok := by
  rw [linesOfString, unlines, String.toList_ofList, linesOfChars, pieces_flatMap clean]

/-- The bytes that encode a text. -/
def utf8 (cs : List Char) : List UInt8 := cs.flatMap String.utf8EncodeChar

theorem decodeLine_eq_ok_iff {bytes : List UInt8} {cs : List Char} :
    decodeLine bytes = .ok cs ↔ bytes = utf8 cs := by
  have array : (⟨bytes.toArray⟩ : ByteArray) = bytes.toByteArray :=
    ByteArray.ext List.data_toByteArray.symm
  rw [decodeLine, array, String.fromUTF8?]
  constructor
  · intro decoded
    by_cases valid : bytes.toByteArray.IsValidUTF8
    · simp only [valid, dif_pos, Except.ok.injEq] at decoded
      have same := congrArg List.utf8Encode decoded
      rw [String.utf8Encode_toList] at same
      have data := congrArg ByteArray.data same
      simpa [String.fromUTF8, List.utf8Encode, utf8] using data
    · simp [valid] at decoded
  · rintro rfl
    have valid : (utf8 cs).toByteArray.IsValidUTF8 := ByteArray.isValidUTF8_utf8Encode
    simp only [valid, dif_pos, Except.ok.injEq]
    exact String.toList_ofList

/-- Bytes that encode no text make a line unreadable. -/
theorem decodeLine_eq_error_iff {bytes : List UInt8} {reason : String} :
    decodeLine bytes = .error reason ↔
      (∀ cs, bytes ≠ utf8 cs) ∧ reason = "stream did not contain valid UTF-8" := by
  cases decoded : decodeLine bytes with
  | ok cs => simpa using fun none => absurd (decodeLine_eq_ok_iff.mp decoded) (none cs)
  | error why =>
    have none : ∀ cs, bytes ≠ utf8 cs := by
      intro cs eq
      rw [decodeLine_eq_ok_iff.mpr eq] at decoded
      cases decoded
    rw [decodeLine] at decoded
    split at decoded
    · cases decoded
    · cases decoded
      simp [none, eq_comm]

end MaxSat.Text

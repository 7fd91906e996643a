import DepCalc.Proofs.Source.Positions
import DepCalc.Proofs.Text.Decoding
import DepCalc.Report
import Mathlib.Algebra.Ring.Nat

/-!
What is shown of a source text that is not well-formed. The place of the fault is counted in the
decoded text, and the line that is shown is cut out of its bytes. Both agree on every text, whatever
its bytes are: the line exists, the fault is in it, and the caret stands under the fault.
-/
namespace DepCalc

section Lines

variable {α : Type} [DecidableEq α] {s : α}

theorem length_splitOn (xs : List α) : (xs.splitOn s).length = xs.count s + 1 := by
  induction xs with
  | nil => rfl
  | cons x xs ih =>
    rw [List.splitOn_cons_eq_if_modifyHead, List.count_cons]
    split
    · rw [List.length_cons, ih]
    · rw [List.length_modifyHead, ih, Nat.add_zero]

/-- The pieces with one separator behind each are as long as the whole with one separator more. -/
theorem sum_length_splitOn (xs : List α) :
    ((xs.splitOn s).map (·.length + 1)).sum = xs.length + 1 := by
  induction xs with
  | nil => rfl
  | cons x xs ih =>
    rw [List.splitOn_cons_eq_if_modifyHead]
    obtain ⟨first, others, pieces⟩ := List.exists_cons_of_ne_nil (List.splitOn_ne_nil s xs)
    rw [pieces, List.map_cons, List.sum_cons] at ih
    split
    · rw [pieces, List.map_cons, List.map_cons, List.sum_cons, List.sum_cons, ih]
      simp only [List.length_nil, List.length_cons]
      omega
    · rw [pieces, List.modifyHead_cons, List.map_cons, List.sum_cons]
      simp only [List.length_cons]
      omega

/-- The first piece reaches up to the first separator. -/
theorem head?_splitOn (xs : List α) : (xs.splitOn s).head? = some (xs.takeWhile (· ≠ s)) := by
  induction xs with
  | nil => rfl
  | cons x xs ih =>
    rw [List.splitOn_cons_eq_if_modifyHead]
    by_cases same : x = s
    · simp [same]
    · simp [same, ih]

theorem notMem_rtakeWhile_ne (xs : List α) : s ∉ xs.rtakeWhile (· ≠ s) :=
  fun member => by simpa using List.mem_rtakeWhile_imp member

/-- What stands behind the last separator is all there is, or a separator stands before it. -/
theorem exists_append_rtakeWhile_ne (xs : List α) :
    xs = xs.rtakeWhile (· ≠ s) ∨ ∃ earlier, xs = earlier ++ s :: xs.rtakeWhile (· ≠ s) := by
  have parts := @List.rdropWhile_append_rtakeWhile α (· ≠ s) xs
  by_cases whole : xs.rdropWhile (· ≠ s) = []
  · left
    rw [whole, List.nil_append] at parts
    exact parts.symm
  · right
    have separator : (xs.rdropWhile (· ≠ s)).getLast whole = s := by
      simpa using List.rdropWhile_last_not (· ≠ s) xs whole
    have ends := List.dropLast_append_getLast whole
    rw [separator] at ends
    exact ⟨(xs.rdropWhile (· ≠ s)).dropLast, by rw [List.append_cons, ends, parts]⟩

/-- The piece in which a place is: as many pieces are before it as separators are before the place,
and together with the part of the piece before the place they make up what is before the place. -/
theorem splitOn_append (before behind : List α) :
    ((before ++ behind).splitOn s)[before.count s]? =
        some (before.rtakeWhile (· ≠ s) ++ behind.takeWhile (· ≠ s)) ∧
      ((((before ++ behind).splitOn s).take (before.count s)).map (·.length + 1)).sum +
        (before.rtakeWhile (· ≠ s)).length = before.length := by
  have free := notMem_rtakeWhile_ne (s := s) before
  have first : ((before.rtakeWhile (· ≠ s) ++ behind).splitOn s).head? =
      some (before.rtakeWhile (· ≠ s) ++ behind.takeWhile (· ≠ s)) := by
    rw [head?_splitOn, List.takeWhile_append_of_pos]
    exact fun x member => decide_eq_true (ne_of_mem_of_not_mem member free)
  rcases exists_append_rtakeWhile_ne (s := s) before with whole | ⟨earlier, parts⟩
  · rw [← whole] at free first ⊢
    rw [List.count_eq_zero.mpr free]
    exact ⟨by rw [← List.head?_eq_getElem?, first], by simp⟩
  · generalize before.rtakeWhile (· ≠ s) = last at *
    subst parts
    have pieces : ((earlier ++ s :: last) ++ behind).splitOn s =
        earlier.splitOn s ++ (last ++ behind).splitOn s := by
      rw [List.append_assoc, List.cons_append, List.splitOn_append_cons_self]
    have count : (earlier ++ s :: last).count s = (earlier.splitOn s).length := by
      rw [length_splitOn, List.count_append, List.count_cons_self, List.count_eq_zero.mpr free]
    rw [pieces, count]
    constructor
    · rw [List.getElem?_append_right (Nat.le_refl _), Nat.sub_self, ← List.head?_eq_getElem?, first]
    · rw [List.take_left, sum_length_splitOn, List.length_append, List.length_cons]
      omega

end Lines

open Source Text

/-- The place is in the text or at its end, and told by the number of its line and the number of its
character in that line, both counted from one. -/
structure Source.Position.Tells (text : List Char) (pos : Position) : Prop where
  inside : pos.index ≤ text.length
  line : pos.line = 1 + (text.take pos.index).count '\n'
  column : pos.column = 1 + ((text.take pos.index).rtakeWhile (· ≠ '\n')).length

theorem Source.Marks.tells {text : List Char} {pos : Position} (marks : Marks text pos) :
    pos.Tells text := by
  obtain ⟨before, behind, rfl, rfl, -⟩ := marks
  rw [Position.start_after]
  exact ⟨by simp, by simp, by simp⟩

/-- These bytes are the line of the source in which the place is: the characters of the lines before
it, each with its line break, and the characters of it that are before the column are all that are
before the place. A character at the place is in this line, and so is the end of the source. -/
structure PointsInto (source : Bytes) (pos : Position) (line : Bytes) : Prop where
  number : (source.splitOn Bytes.lineFeed)[pos.line - 1]? = some line
  offset : (((source.splitOn Bytes.lineFeed).take (pos.line - 1)).map
      fun earlier => (Utf8.decode earlier).length + 1).sum + (pos.column - 1) = pos.index
  within : pos.column - 1 ≤ (Utf8.decode line).length
  character : (Utf8.decode source)[pos.index]? = (Utf8.decode line)[pos.column - 1]?

theorem Source.Marks.pointsInto {source : Bytes} {pos : Position}
    (marks : Marks (Utf8.decode source) pos) : ∃ line, PointsInto source pos line := by
  obtain ⟨before, behind, parts, rfl, noBreak⟩ := marks
  obtain ⟨piece, offset⟩ := splitOn_append (s := '\n') before behind
  rw [← parts, Utf8.splitOn_decode, List.getElem?_map, Option.map_eq_some_iff] at piece
  obtain ⟨line, number, decoded⟩ := piece
  rw [← parts, Utf8.splitOn_decode, ← List.map_take, List.map_map] at offset
  rw [Position.start_after]
  refine ⟨line, ?_, ?_, ?_, ?_⟩
  · simpa using number
  · simpa [Function.comp_def] using offset
  · simp [decoded]
  · rw [parts, decoded]
    cases behind with
    | nil => simp
    | cons c rest =>
      have inLine : c ≠ '\n' := fun lineBreak => noBreak (congrArg some lineBreak)
      simp [inLine]

theorem Report.ofSource_of_malformed (fuel : Nat) (options : Program.Options) (name : Bytes)
    {source : Bytes} {e : Source.Error} (fails : parse (Utf8.decode source) = .error e) :
    Report.ofSource fuel options name source = ⟨false, Report.malformed name source e⟩ := by
  rw [Report.ofSource, Program.run, fails]
  rfl

/-- A fault in the source text is told at its line and column. Below that message stand the line in
which the fault is and a caret under the faulty character. The line is never missing, and the caret
is at most one place behind its end. -/
theorem malformed_report_shows_line (fuel : Nat) (options : Program.Options) (name source : Bytes)
    (e : Source.Error) (fails : parse (Utf8.decode source) = .error e) :
    e.pos.Tells (Utf8.decode source) ∧
      ∃ line, PointsInto source e.pos line ∧
        Report.ofSource fuel options name source =
          ⟨false, name ++ Bytes.ofString (":" ++ e.message ++ "\n") ++
            (line ++ Bytes.ofString
              ("\n" ++ String.ofList (List.replicate (e.pos.column - 1) ' ') ++ "^\n"))⟩ := by
  have marks : Marks (Utf8.decode source) e.pos := (parse_marks _).of_eq_error fails
  obtain ⟨line, points⟩ := marks.pointsInto
  refine ⟨marks.tells, line, points, ?_⟩
  rw [Report.ofSource_of_malformed fuel options name fails, Report.malformed, points.number]

/-- A comment with a stray byte and a character of two bytes, and below it `0 )`. -/
def strayParen : Bytes :=
  [0x2d, 0x2d, 0xff, 0xc3, 0xa9, 0x0a, 0x30, 0x20, 0x29]

def strayParenFault : Source.Error :=
  ⟨⟨2, 3, 7⟩, .expected .endOfInput (some (.symbol .closeParen))⟩

theorem malformed_report_shows_line_strayParen :
    parse (Utf8.decode strayParen) = .error strayParenFault ∧
      strayParenFault.pos.Tells (Utf8.decode strayParen) ∧
        ∃ line, PointsInto strayParen strayParenFault.pos line ∧
          Report.ofSource 0 {} [] strayParen =
            ⟨false, [] ++ Bytes.ofString (":" ++ strayParenFault.message ++ "\n") ++
              (line ++ Bytes.ofString ("\n" ++
                String.ofList (List.replicate (strayParenFault.pos.column - 1) ' ') ++ "^\n"))⟩ := by
  have fails : parse (Utf8.decode strayParen) = .error strayParenFault := by decide +kernel
  exact ⟨fails, malformed_report_shows_line 0 {} [] strayParen strayParenFault fails⟩

end DepCalc

import DepCalc.Proofs.Source.Relocation
import Mathlib.Data.List.DropRight

/-!
Where the faults of a source text are told to be. The scanner counts lines and columns on its way
through the text, every token keeps the place where it begins, and each failure of the parser is
told at the place of a token or at the end of the text.
-/
namespace DepCalc.Source

namespace Position

theorem after_append (pos : Position) (text more : List Char) :
    pos.after (text ++ more) = (pos.after text).after more :=
  List.foldl_append

/-- The line counts the line breaks, the column the characters behind the last of them. -/
theorem start_after (text : List Char) :
    start.after text =
      ⟨1 + text.count '\n', 1 + (text.rtakeWhile (· ≠ '\n')).length, text.length⟩ := by
  induction text using List.reverseRecOn with
  | nil => rfl
  | append_singleton text c ih =>
    rw [after_append, ih]
    change next _ c = _
    by_cases lineBreak : c = '\n'
    · subst lineBreak
      rw [next, if_pos rfl, List.rtakeWhile_concat]
      simp [Nat.add_assoc]
    · rw [next, if_neg lineBreak, List.rtakeWhile_concat]
      simp [Nat.add_assoc, lineBreak]

end Position

/-- The place behind a part of the text, where no line break follows. -/
def Marks (text : List Char) (pos : Position) : Prop :=
  ∃ before behind, text = before ++ behind ∧ pos = Position.start.after before ∧
    behind.head? ≠ some '\n'

/-- All of these tokens are at a place of the given sort. -/
def Placed (place : Position → Prop) (tokens : List Token) : Prop :=
  ∀ token ∈ tokens, place token.pos

theorem scanOnto_marks {text before : List Char} (done : List Token) (pos : Position)
    (rest : List Char) (split : text = before ++ rest) (here : pos = Position.start.after before)
    (placed : Placed (Marks text) done) :
    Outcome (fun e => Marks text e.pos)
      (fun tokens => Placed (Marks text) tokens.list ∧ Marks text tokens.stop)
      (Tokens.scanOnto done pos rest) := by
  induction done, pos, rest using Tokens.scanOnto.induct generalizing before with
  | case1 done pos =>
    rw [Tokens.scanOnto]
    refine ⟨fun token member => placed token (List.mem_reverse.mp member), ?_⟩
    exact ⟨before, [], split, here, by simp⟩
  | case2 done pos c rest stuck =>
    rw [Tokens.scanOnto, stuck]
    refine ⟨before, c :: rest, split, here, ?_⟩
    rintro ⟨⟩
    cases stuck
  | case3 done pos c rest lexeme? more front found =>
    rename_i ih
    have further : text = (before ++ c :: rest.take more) ++ rest.drop more := by
      rw [split, List.append_assoc, List.cons_append, List.take_append_drop]
    simp only [Tokens.scanOnto, front]
    apply ih further
    · rw [here, Position.after_append]
    · cases lexeme? with
      | none => exact placed
      | some lexeme =>
        -- Only a gap begins with a line break.
        have begins : (c :: rest).head? ≠ some '\n' := by
          rintro ⟨⟩
          cases front
        intro token member
        rcases List.mem_cons.mp member with rfl | earlier
        · exact ⟨before, c :: rest, split, here, begins⟩
        · exact placed token earlier

/-- Each token of a text, its end, and the character at which scanning fails. -/
theorem scan_marks (text : List Char) :
    Outcome (fun e => Marks text e.pos)
      (fun tokens => Placed (Marks text) tokens.list ∧ Marks text tokens.stop) (Tokens.scan text) :=
  @scanOnto_marks text [] [] .start text rfl rfl fun _ member => nomatch member

/-- The failures of a step are told at places of this sort, and the tokens that it leaves are at such
places. -/
def Keeps (place : Position → Prop) {α : Type} {bound : Nat} (x : Except Error (Parsed α bound)) :
    Prop :=
  Outcome (fun e => place e.pos) (fun p => Placed place p.rest) x

section Parser

variable {place : Position → Prop} {stop : Position} {tokens : List Token}

theorem Placed.relocated (placed : Placed place tokens) :
    Relocated (fun pos _ => place pos) tokens tokens :=
  List.forall₂_same.mpr fun token member => ⟨rfl, placed token member⟩

/-- A step that is followed beside itself keeps to the places of its tokens. -/
theorem ReadsAlike.keeps {α : Type} {bound : Nat} {x : Except Error (Parsed α bound)}
    (alike : ReadsAlike (fun pos _ => place pos) x x) : Keeps place x := by
  cases x with
  | error e => exact alike.2
  | ok p => exact fun token member => (List.forall₂_same.mp alike.2 token member).2

theorem parseTerm_keeps (ends : place stop) (placed : Placed place tokens) :
    Keeps place (parseTerm stop tokens) :=
  (parseTerm_relocated ends tokens tokens placed.relocated).keeps

theorem parseQuantifier_keeps (ends : place stop) (placed : Placed place tokens) :
    Keeps place (parseQuantifier stop tokens) :=
  (parseQuantifier_relocated ends tokens tokens placed.relocated).keeps

theorem parseOperation_keeps (tiers : Nat) (ends : place stop) (placed : Placed place tokens) :
    Keeps place (parseOperation stop tiers tokens) :=
  (parseOperation_relocated ends tiers tokens tokens placed.relocated).keeps

theorem parseUnary_keeps (ends : place stop) (placed : Placed place tokens) :
    Keeps place (parseUnary stop tokens) :=
  (parseUnary_relocated ends tokens tokens placed.relocated).keeps

theorem parseAtom_keeps (ends : place stop) (placed : Placed place tokens) :
    Keeps place (parseAtom stop tokens) :=
  (parseAtom_relocated ends tokens tokens placed.relocated).keeps

end Parser

/-- Whatever is wrong with a text is told at a place in it. -/
theorem parse_marks (text : List Char) :
    Outcome (fun e => Marks text e.pos) (fun _ => True) (parse text) := by
  apply (scan_marks text).bind
  rintro tokens ⟨placed, ends⟩
  apply (parseTerm_keeps ends placed).bind
  rintro ⟨t, rest, _⟩ left
  cases rest with
  | nil => trivial
  | cons token rest => exact left token List.mem_cons_self

end DepCalc.Source

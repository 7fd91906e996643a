import DepCalc.Proofs.Source.Relocation
import Mathlib.Data.List.Basic

/-!
What the scanner makes of the layout of a text. The tokens and the gaps between them make up the
whole text, and a gap may be inserted wherever a token begins or ends without changing the lexemes.
-/
namespace DepCalc.Source

open Text (isBlank isDigit isLetter)

theorem not_isDigit_of_isBlank {c : Char} (space : isBlank c) : isDigit c = false :=
  Text.CodePoints.contains_eq_false (by decide +kernel) space

theorem not_isLetter_of_isBlank {c : Char} (space : isBlank c) : isLetter c = false :=
  Text.CodePoints.contains_eq_false (by decide +kernel) space

theorem ne_of_isBlank {c d : Char} (space : isBlank c) (other : isBlank d = false) : c ≠ d := by
  rintro rfl
  rw [space] at other
  cases other

theorem not_isNamePart_of_isBlank {c : Char} (space : isBlank c) : isNamePart c = false := by
  have noDigit := not_isDigit_of_isBlank space
  have noLetter := not_isLetter_of_isBlank space
  have noUnderscore : c ≠ '_' := ne_of_isBlank space (by decide)
  have noPrime : c ≠ '\'' := ne_of_isBlank space (by decide)
  simp [isNamePart, isNameStart, noDigit, noLetter, noUnderscore, noPrime]

theorem Keyword.text_of_ofText? {word : String} {reserved : Keyword}
    (found : ofText? word = some reserved) : reserved.text = word := by
  simpa using List.find?_some found

theorem Lexeme.text_ofWord (word : String) : (ofWord word).text = word := by
  unfold ofWord
  split
  · rename_i found
    exact Keyword.text_of_ofText? found
  · rfl

namespace Takes

variable {c : Char} {run tail tail' : List Char} {l : Lexeme}

/-- A lexeme is spelled by the characters that are taken for it. -/
theorem text (takes : Takes c run tail (some l)) : l.text.toList = c :: run := by
  cases takes with
  | numeral => exact String.toList_ofList
  | word => rw [Lexeme.text_ofWord, String.toList_ofList]
  | sign spelled => exact spelled

/-- The same lexeme is taken if a blank comes behind it, or what came there before. -/
theorem before (takes : Takes c run tail (some l))
    (next : ∀ d ∈ tail'.head?, isBlank d ∨ d ∈ tail.head?) : Takes c run tail' (some l) := by
  cases takes with
  | numeral digit digits ends =>
    refine .numeral digit digits fun d front => ?_
    rcases next d front with space | same
    · exact not_isDigit_of_isBlank space
    · exact ends d same
  | word whole ends =>
    refine .word whole fun d front => ?_
    rcases next d front with space | same
    · exact not_isNamePart_of_isBlank space
    · exact ends d same
  | sign spelled ends =>
    refine .sign spelled fun minus d front => ?_
    rcases next d front with space | same
    · exact ⟨ne_of_isBlank space (by decide), ne_of_isBlank space (by decide)⟩
    · exact ends minus d same

theorem not_isBlank (takes : Takes c run tail (some l)) : isBlank c = false := by
  cases takes with
  | numeral digit => exact not_isBlank_of_isDigit digit
  | word whole =>
    obtain ⟨d, more, spelled, noBlank, -⟩ := whole
    rw [String.toList_ofList] at spelled
    cases spelled
    exact noBlank
  | @sign sign spelled =>
    exact (Symbol.begins_apart sign sign.mem_all c (by rw [spelled]; rfl)).1

end Takes

/-- Blanks and comments, each of which is ended by a line break. -/
inductive Gap : List Char → Prop
  | nil : Gap []
  | blank {c : Char} {rest : List Char} (space : isBlank c) (further : Gap rest) : Gap (c :: rest)
  | comment {body rest : List Char} (line : '\n' ∉ body) (further : Gap rest) :
      Gap ('-' :: '-' :: (body ++ '\n' :: rest))

namespace Scans

variable {rest : List Char} {ls : List Lexeme}

theorem take {c : Char} {run : List Char} {lexeme? : Option Lexeme} (takes : Takes c run rest lexeme?)
    (behind : Scans rest ls) : Scans (c :: (run ++ rest)) (lexeme?.toList ++ ls) := by
  have front := takes.piece?
  have left : Scans ((run ++ rest).drop run.length) ls := by
    rwa [List.drop_left]
  cases lexeme? with
  | none => exact .gap front left
  | some l => exact .lexeme front left

theorem take_inv {c : Char} {run : List Char} {lexeme? : Option Lexeme}
    (takes : Takes c run rest lexeme?) (scans : Scans (c :: (run ++ rest)) ls) :
    ∃ ls', ls = lexeme?.toList ++ ls' ∧ Scans rest ls' := by
  have front := takes.piece?
  cases scans with
  | gap found behind =>
    cases front.symm.trans found
    rw [List.drop_left] at behind
    exact ⟨ls, rfl, behind⟩
  | lexeme found behind =>
    cases front.symm.trans found
    rw [List.drop_left] at behind
    exact ⟨_, rfl, behind⟩

theorem blank {c : Char} (space : isBlank c) (behind : Scans rest ls) : Scans (c :: rest) ls :=
  behind.take (.blank space rfl)

/-- A comment swallows the rest of its line. -/
theorem comment {body : List Char} (line : '\n' ∉ body)
    (behind : Scans (rest.dropWhile commentPart) ls) : Scans ('-' :: '-' :: (body ++ rest)) ls := by
  obtain ⟨more, tail, rfl, taken, inside, stops⟩ := exists_run commentPart rest
  have left : (more ++ tail).dropWhile commentPart = tail := by
    have whole := List.takeWhile_append_dropWhile (p := commentPart) (l := more ++ tail)
    rw [taken] at whole
    exact List.append_cancel_left whole
  rw [left] at behind
  have free : '\n' ∉ body ++ more := by
    intro member
    rcases List.mem_append.mp member with early | late
    · exact line early
    · cases inside '\n' late
  have ends : ∀ d ∈ tail.head?, d = '\n' := by
    intro d front
    simpa [commentPart] using stops d front
  rw [← List.append_assoc]
  exact behind.take (.comment rfl rfl free ends)

theorem gap_append {gap : List Char} (layout : Gap gap) (behind : Scans rest ls) :
    Scans (gap ++ rest) ls := by
  induction layout with
  | nil => exact behind
  | blank space further ih => exact ih.blank space
  | comment line further ih =>
    have lineBreak := ih.blank (c := '\n') (by decide)
    rw [List.cons_append, List.cons_append, List.append_assoc]
    exact lineBreak.comment line

/-- Of a gap that a comment runs into, the comment leaves a gap. -/
theorem gap_append_swallowed {gap : List Char} (layout : Gap gap)
    (ends : ∀ d ∈ rest.head?, d = '\n') (behind : Scans rest ls) :
    Scans ((gap ++ rest).dropWhile commentPart) ls := by
  have lineBreak {more : List Char} (scans : Scans more ls) :
      Scans (('\n' :: more).dropWhile commentPart) ls :=
    scans.blank (c := '\n') (by decide)
  induction layout with
  | nil =>
    cases rest with
    | nil => exact behind
    | cons d rest =>
      obtain rfl := ends d rfl
      exact behind
  | @blank c more space further ih =>
    by_cases stops : c = '\n'
    · subst stops
      exact lineBreak (behind.gap_append further)
    · rw [List.cons_append, List.dropWhile_cons_of_pos (by simpa [commentPart] using stops)]
      exact ih
  | @comment body more line further ih =>
    have inside : ∀ d ∈ '-' :: '-' :: body, commentPart d :=
      commentPart_of_mem (by simpa using line)
    have parts : '-' :: '-' :: (body ++ '\n' :: more) ++ rest =
        ('-' :: '-' :: body) ++ '\n' :: (more ++ rest) := by simp
    rw [parts, List.dropWhile_append_of_pos inside]
    exact lineBreak (behind.gap_append further)

end Scans

/-- The scanner comes to the end of a piece, or starts, where the text is cut. -/
inductive Breaks : List Char → List Char → Prop
  | start (text : List Char) : Breaks [] text
  | piece {c : Char} {run before behind : List Char} {lexeme? : Option Lexeme}
      (takes : Takes c run (before ++ behind) lexeme?) (further : Breaks before behind) :
      Breaks (c :: (run ++ before)) behind

/-- A gap that begins with a blank may be inserted where the text is cut between pieces. -/
theorem Breaks.insert {before behind gap : List Char} {c : Char} {ls : List Lexeme}
    (breaks : Breaks before behind) (space : isBlank c) (layout : Gap gap)
    (scans : Scans (before ++ behind) ls) : Scans (before ++ (c :: gap ++ behind)) ls := by
  have whole : Gap (c :: gap) := .blank space layout
  induction breaks generalizing ls with
  | start text =>
    rw [List.nil_append]
    exact scans.gap_append whole
  | @piece first run before behind lexeme? takes further ih =>
    rw [List.cons_append, List.append_assoc] at scans ⊢
    obtain ⟨ls, rfl, rest⟩ := scans.take_inv takes
    have inserted := ih rest
    cases lexeme? with
    | some l =>
      refine inserted.take (takes.before fun d front => ?_)
      cases before with
      | nil => exact .inl (Option.some.inj front ▸ space)
      | cons e before => exact .inr front
    | none =>
      cases takes with
      | blank space alone => exact inserted.take (.blank space alone)
      | @comment body begins again line ends =>
        subst begins again
        apply Scans.comment line
        cases before with
        | nil =>
          rw [List.nil_append]
          exact rest.gap_append_swallowed whole ends
        | cons d before =>
          obtain rfl := ends d rfl
          exact inserted

/-- The scanner finds these tokens in the text when it comes to it at the place. -/
inductive Finds : Position → List Char → Tokens → Prop
  | stop (pos : Position) : Finds pos [] ⟨[], pos⟩
  | gap {pos : Position} {c : Char} {run rest : List Char} {tokens : Tokens}
      (takes : Takes c run rest none) (behind : Finds (pos.after (c :: run)) rest tokens) :
      Finds pos (c :: (run ++ rest)) tokens
  | token {pos : Position} {c : Char} {run rest : List Char} {l : Lexeme} {list : List Token}
      {stop : Position} (takes : Takes c run rest (some l))
      (behind : Finds (pos.after (c :: run)) rest ⟨list, stop⟩) :
      Finds pos (c :: (run ++ rest)) ⟨⟨l, pos⟩ :: list, stop⟩

theorem finds_of_scanOnto {done : List Token} {pos : Position} {text : List Char} {tokens : Tokens}
    (scanned : Tokens.scanOnto done pos text = .ok tokens) :
    ∃ list, tokens.list = done.reverse ++ list ∧ Finds pos text ⟨list, tokens.stop⟩ := by
  induction done, pos, text using Tokens.scanOnto.induct with
  | case1 done pos =>
    rw [Tokens.scanOnto] at scanned
    cases scanned
    exact ⟨[], by rw [List.append_nil], .stop pos⟩
  | case2 done pos c rest stuck => simp [Tokens.scanOnto, stuck] at scanned
  | case3 done pos c rest lexeme? more front found ih =>
    obtain ⟨run, tail, rfl, rfl, takes⟩ := takes_of_piece? front
    simp only [Tokens.scanOnto, front] at scanned
    obtain ⟨list, whole, behind⟩ := ih scanned
    rw [List.take_left, List.drop_left] at behind
    cases lexeme? with
    | none => exact ⟨list, whole, .gap takes behind⟩
    | some l =>
      refine ⟨⟨l, pos⟩ :: list, ?_, .token takes behind⟩
      rw [whole]
      simp [found]

theorem finds_of_scan {text : List Char} {tokens : Tokens} (scanned : Tokens.scan text = .ok tokens) :
    Finds .start text tokens := by
  obtain ⟨list, whole, finds⟩ := finds_of_scanOnto scanned
  obtain ⟨_, stop⟩ := tokens
  obtain rfl : _ = list := whole
  exact finds

theorem Position.index_after (pos : Position) (text : List Char) :
    (pos.after text).index = pos.index + text.length := by
  induction text generalizing pos with
  | nil => rfl
  | cons c text ih =>
    have next : (pos.next c).index = pos.index + 1 := by
      unfold Position.next
      split <;> rfl
    have rest := ih (pos.next c)
    rw [next] at rest
    rw [List.length_cons]
    exact rest.trans (by omega)

theorem Finds.index_stop {pos : Position} {text : List Char} {tokens : Tokens}
    (finds : Finds pos text tokens) : tokens.stop.index = pos.index + text.length := by
  induction finds with
  | stop pos => rfl
  | gap takes behind ih | token takes behind ih =>
    rw [ih, Position.index_after]
    simp only [List.length_cons, List.length_append]
    omega

/-- Where a token begins or ends, or the text does. -/
def Tokens.Boundary (tokens : Tokens) (i : Nat) : Prop :=
  i = tokens.stop.index ∨ ∃ token ∈ tokens.list,
    i = token.pos.index ∨ i = token.pos.index + token.lexeme.text.length

theorem Finds.breaks {pos : Position} {text : List Char} {tokens : Tokens}
    (finds : Finds pos text tokens) {i : Nat} (boundary : tokens.Boundary i) :
    ∃ before behind, text = before ++ behind ∧ i = pos.index + before.length ∧
      Breaks before behind := by
  have beyond {pos : Position} {c : Char} {run rest : List Char} {lexeme? : Option Lexeme}
      (takes : Takes c run rest lexeme?) (further : ∃ before behind, rest = before ++ behind ∧
        i = (pos.after (c :: run)).index + before.length ∧ Breaks before behind) :
      ∃ before behind, c :: (run ++ rest) = before ++ behind ∧ i = pos.index + before.length ∧
        Breaks before behind := by
    obtain ⟨before, behind, rfl, index, breaks⟩ := further
    refine ⟨c :: (run ++ before), behind, by simp, ?_, .piece takes breaks⟩
    rw [index, Position.index_after, List.length_cons, List.length_cons, List.length_append]
    omega
  induction finds with
  | stop pos =>
    rcases boundary with index | ⟨token, member, -⟩
    · exact ⟨[], [], rfl, index, .start []⟩
    · cases member
  | gap takes behind ih => exact beyond takes (ih boundary)
  | @token pos c run rest l list stop takes behind ih =>
    rcases boundary with index | ⟨token, member, index⟩
    · exact beyond takes (ih (.inl index))
    · rcases List.mem_cons.mp member with rfl | later
      · rcases index with begins | ends
        · exact ⟨[], _, rfl, begins, .start _⟩
        · apply beyond takes
          refine ⟨[], rest, rfl, ?_, .start rest⟩
          rw [ends, Position.index_after, ← takes.text, String.length_toList, List.length_nil,
            Nat.add_zero]
      · exact beyond takes (ih (.inr ⟨token, later, index⟩))

/-- What stands behind the last token: a gap, in which the last comment may run to the end. -/
inductive LastGap : List Char → Prop
  | closed {gap : List Char} (layout : Gap gap) : LastGap gap
  | comment {gap body : List Char} (layout : Gap gap) (line : '\n' ∉ body) :
      LastGap (gap ++ '-' :: '-' :: body)

/-- The text, which begins at index `i`, consists of the texts of these tokens, each at the index of
its token, with gaps before, between and behind them. -/
inductive Laid : Nat → List Token → List Char → Prop
  | last {i : Nat} {gap : List Char} (layout : LastGap gap) : Laid i [] gap
  | token {i : Nat} {gap rest : List Char} {token : Token} {tokens : List Token} (layout : Gap gap)
      (index : token.pos.index = i + gap.length)
      (behind : Laid (token.pos.index + token.lexeme.text.length) tokens rest) :
      Laid i (token :: tokens) (gap ++ (token.lexeme.text.toList ++ rest))

theorem Gap.append {gap gap' : List Char} (first : Gap gap) (second : Gap gap') :
    Gap (gap ++ gap') := by
  induction first with
  | nil => exact second
  | blank space further ih => exact .blank space ih
  | comment line further ih =>
    rw [List.cons_append, List.cons_append, List.append_assoc]
    exact .comment line ih

theorem Laid.gap_append {i : Nat} {gap rest : List Char} {tokens : List Token} (layout : Gap gap)
    (laid : Laid (i + gap.length) tokens rest) : Laid i tokens (gap ++ rest) := by
  cases laid with
  | last final =>
    cases final with
    | closed further => exact .last (.closed (layout.append further))
    | comment further line =>
      rw [← List.append_assoc]
      exact .last (.comment (layout.append further) line)
  | token further index behind =>
    rw [← List.append_assoc]
    refine .token (layout.append further) ?_ behind
    rw [index, List.length_append, Nat.add_assoc]

theorem Laid.lineBreak {i : Nat} {body rest : List Char} {tokens : List Token} (line : '\n' ∉ body)
    (laid : Laid (i + (body.length + 3)) tokens rest) :
    Laid i tokens ('-' :: '-' :: (body ++ '\n' :: rest)) := by
  have parts : '-' :: '-' :: (body ++ '\n' :: rest) = '-' :: '-' :: (body ++ ['\n']) ++ rest := by
    simp
  rw [parts]
  apply Laid.gap_append (.comment line .nil)
  simpa using laid

/-- Together with the text the induction is about a comment before it, which the text ends, for a gap
holds a comment and the line break that ends it as one. -/
theorem Finds.laid {pos : Position} {text : List Char} {tokens : Tokens}
    (finds : Finds pos text tokens) :
    Laid pos.index tokens.list text ∧
      ∀ (i : Nat) (body : List Char), '\n' ∉ body → (∀ d ∈ text.head?, d = '\n') →
        pos.index = i + (body.length + 2) → Laid i tokens.list ('-' :: '-' :: (body ++ text)) := by
  induction finds with
  | stop pos =>
    refine ⟨.last (.closed .nil), fun i body line _ _ => ?_⟩
    rw [List.append_nil]
    exact .last (.comment .nil line)
  | @token pos c run rest l list stop takes behind ih =>
    constructor
    · have further := ih.1
      rw [Position.index_after, ← takes.text, String.length_toList] at further
      have laid : Laid pos.index (⟨l, pos⟩ :: list) ([] ++ (l.text.toList ++ rest)) :=
        .token .nil rfl further
      rw [takes.text] at laid
      exact laid
    · intro i body _ ends _
      have noBlank := takes.not_isBlank
      rw [ends c rfl] at noBlank
      cases noBlank
  | @gap pos c run rest _ takes behind ih =>
    cases takes with
    | blank space alone =>
      subst alone
      have further := ih.1
      rw [Position.index_after] at further
      refine ⟨Laid.gap_append (.blank space .nil) further, fun i body line ends index => ?_⟩
      obtain rfl := ends c rfl
      rw [index] at further
      exact Laid.lineBreak line further
    | @comment body begins again line ends =>
      subst begins again
      constructor
      · apply ih.2 pos.index body line ends
        rw [Position.index_after]
        rfl
      · intro i body _ ends _
        cases ends '-' rfl

theorem scan_insert {text gap : List Char} {tokens : Tokens} {i : Nat} {c : Char}
    (scanned : Tokens.scan text = .ok tokens) (boundary : tokens.Boundary i) (space : isBlank c)
    (layout : Gap gap) :
    ∃ tokens', Tokens.scan (text.take i ++ (c :: gap ++ text.drop i)) = .ok tokens' ∧
      SameLexemes tokens'.list tokens.list := by
  obtain ⟨before, behind, rfl, index, breaks⟩ := (finds_of_scan scanned).breaks boundary
  have place : i = before.length := index.trans (Nat.zero_add _)
  rw [place, List.take_left, List.drop_left]
  exact (breaks.insert space layout (scans_of_scan scanned)).scan

/-- The texts of the tokens, each where its token is, and the gaps around them are the whole text.
Wherever a token begins or ends, a gap that begins with a blank may be inserted: the lexemes stay the
same, and the text is read as the same term or the same thing is wrong with it, at another place. -/
theorem scan_keeps_text_and_ignores_layout {text : List Char} {tokens : Tokens}
    (scanned : Tokens.scan text = .ok tokens) :
    Laid 0 tokens.list text ∧ tokens.stop.index = text.length ∧
      ∀ (i : Nat) (c : Char) (gap : List Char), tokens.Boundary i → isBlank c → Gap gap →
        (∃ tokens', Tokens.scan (text.take i ++ (c :: gap ++ text.drop i)) = .ok tokens' ∧
          tokens'.list.map Token.lexeme = tokens.list.map Token.lexeme) ∧
        (parse (text.take i ++ (c :: gap ++ text.drop i))).mapError Error.cause =
          (parse text).mapError Error.cause := by
  have finds := finds_of_scan scanned
  refine ⟨finds.laid.1, finds.index_stop.trans (Nat.zero_add _), ?_⟩
  intro i c gap boundary space layout
  obtain ⟨tokens', scanned', same⟩ := scan_insert scanned boundary space layout
  exact ⟨⟨tokens', scanned', same⟩, parse_unplaced scanned' scanned same⟩

def commentedArrow : List Char :=
  ['f', '-', '-', ' ', 'λ', '\n', '-', '>', 'b']

def commentedArrowTokens : Tokens :=
  ⟨[⟨.ident "f", ⟨1, 1, 0⟩⟩, ⟨.symbol .arrow, ⟨2, 1, 6⟩⟩, ⟨.ident "b", ⟨2, 3, 8⟩⟩], ⟨2, 4, 9⟩⟩

/-- A gap between the name and the comment that follows it at once. -/
theorem scan_keeps_text_and_ignores_layout_commentedArrow :
    Tokens.scan commentedArrow = .ok commentedArrowTokens ∧
      Laid 0 commentedArrowTokens.list commentedArrow ∧ commentedArrowTokens.stop.index = 9 ∧
      commentedArrowTokens.Boundary 1 ∧ Gap ['-', '-', 'b', '\n'] ∧
      (∃ tokens', Tokens.scan (['f', ' ', '-', '-', 'b', '\n'] ++ commentedArrow.drop 1) = .ok tokens' ∧
        tokens'.list.map Token.lexeme = [.ident "f", .symbol .arrow, .ident "b"]) ∧
      (parse (['f', ' ', '-', '-', 'b', '\n'] ++ commentedArrow.drop 1)).mapError Error.cause =
        (parse commentedArrow).mapError Error.cause := by
  have scanned : Tokens.scan commentedArrow = .ok commentedArrowTokens := by decide +kernel
  have boundary : commentedArrowTokens.Boundary 1 :=
    .inr ⟨⟨.ident "f", ⟨1, 1, 0⟩⟩, List.mem_cons_self, .inr (by decide)⟩
  have layout : Gap ['-', '-', 'b', '\n'] := Gap.comment (by decide : '\n' ∉ ['b']) .nil
  obtain ⟨laid, stop, inserted⟩ := scan_keeps_text_and_ignores_layout scanned
  obtain ⟨lexemes, read⟩ := inserted 1 ' ' _ boundary (by decide) layout
  exact ⟨scanned, laid, stop, boundary, layout, lexemes, read⟩

end DepCalc.Source

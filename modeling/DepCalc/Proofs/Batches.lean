import DepCalc.CommandLine
import DepCalc.Proofs.Termination
import DepCalc.Proofs.Text.Decoding
import Mathlib.Data.List.TakeWhile

/-!
Batches answer their lines one by one, in order. Cutting an input at its line feeds gives the lines of
the batch and at most one empty piece behind them, of which nothing is printed. So inputs that are
joined by a line feed are answered like each of them alone, wherever the cut is and whatever the bytes
are, as long as evaluation comes back from the lines of the first. A line from which it does not come
back silences those behind it.
-/
namespace DepCalc

open Text

namespace Text.Bytes

theorem lines_of_ne_nil {bytes : Bytes} (nonempty : bytes ≠ []) :
    bytes.lines = bytes.takeWhile inLine :: lines (afterLine bytes) := by
  cases bytes with
  | nil => exact absurd rfl nonempty
  | cons b rest => rw [lines]

theorem inLine_of_mem {line : Bytes} (whole : lineFeed ∉ line) : ∀ b ∈ line, inLine b := by
  intro b member
  have other : b ≠ lineFeed := ne_of_mem_of_not_mem member whole
  simpa [inLine] using other

theorem lines_singleton {line : Bytes} (nonempty : line ≠ []) (whole : lineFeed ∉ line) :
    line.lines = [line] := by
  have inside := inLine_of_mem whole
  have nothing : afterLine line = [] := by
    rw [afterLine, List.dropWhile_eq_nil_iff.mpr inside, List.drop_nil]
  rw [lines_of_ne_nil nonempty, nothing, lines, List.takeWhile_eq_self_iff.mpr inside]

theorem lines_append_lineFeed {line : Bytes} (whole : lineFeed ∉ line) (rest : Bytes) :
    (line ++ lineFeed :: rest).lines = line :: rest.lines := by
  have inside := inLine_of_mem whole
  have ends : inLine lineFeed = false := by decide
  have first : (line ++ lineFeed :: rest).takeWhile inLine = line := by
    rw [List.takeWhile_append_of_pos inside, List.takeWhile_cons_of_neg (by simp [ends]),
      List.append_nil]
  have behind : afterLine (line ++ lineFeed :: rest) = rest := by
    rw [afterLine, List.dropWhile_append_of_pos inside, List.dropWhile_cons_of_neg (by simp [ends]),
      List.drop_one, List.tail_cons]
  rw [lines_of_ne_nil (by simp), first, behind]

/-- Cutting at the line feeds gives the lines, and one empty piece more if nothing stands behind the
last line feed. -/
theorem splitOn_eq_lines (bytes : Bytes) : ∃ last, (last = [] ∨ last = [[]]) ∧
    bytes.splitOn lineFeed = bytes.lines ++ last := by
  by_cases cut : lineFeed ∈ bytes
  · obtain ⟨line, others, split, whole⟩ := List.eq_append_cons_of_mem cut
    obtain ⟨last, empty, pieces⟩ := splitOn_eq_lines others
    refine ⟨last, empty, ?_⟩
    rw [split, List.splitOn_append_cons_self, List.splitOn_eq_singleton whole,
      lines_append_lineFeed whole, pieces]
    rfl
  · rw [List.splitOn_eq_singleton cut]
    by_cases nonempty : bytes = []
    · refine ⟨[[]], .inr rfl, ?_⟩
      rw [nonempty, lines]
      rfl
    · refine ⟨[], .inl rfl, ?_⟩
      rw [lines_singleton nonempty cut, List.append_nil]
termination_by bytes.length
decreasing_by
  rw [split, List.length_append, List.length_cons]
  omega

end Text.Bytes

namespace Program

variable {fuel more : Nat} {options : Options} {text : List Char}

theorem exhausts_eq_true :
    exhausts fuel options text = true ↔ run fuel options text = .error (.halted .outOfFuel) := by
  unfold exhausts
  constructor
  · intro out
    split at out
    · assumption
    · cases out
  · intro out
    rw [out]

/-- More fuel changes nothing in a run that has come back. -/
theorem run_mono (le : fuel ≤ more) (finished : run fuel options text ≠ .error (.halted .outOfFuel)) :
    run more options text = run fuel options text := by
  have normalizes (t : Indexed)
      (finished : (t.normalize fuel []).mapError Error.halted ≠ .error (.halted .outOfFuel)) :
      (t.normalize more []).mapError Error.halted = (t.normalize fuel []).mapError Error.halted := by
    rw [normalize_mono le]
    intro out
    exact finished (by rw [out]; rfl)
  have infers (t : Indexed)
      (finished : (Context.infer fuel [] t).mapError Error.ofRejection ≠ .error (.halted .outOfFuel)) :
      (Context.infer more [] t).mapError Error.ofRejection =
        (Context.infer fuel [] t).mapError Error.ofRejection := by
    rw [Context.infer_mono le]
    intro out
    exact finished (by rw [out]; rfl)
  refine bind_eq_of_finished (fun _ => rfl) (fun surface => ?_) finished
  refine bind_eq_of_finished (fun _ => rfl) fun term => ?_
  refine bind_eq_of_finished (infers term) fun inferred => ?_
  refine bind_eq_of_finished (normalizes inferred) fun type => ?_
  exact bind_eq_of_finished (normalizes term) fun normal _ => rfl

end Program

namespace Batch

variable {fuel more : Nat} {options : Program.Options}

/-- All lines are shorter than the limit. -/
def ShortLines (input : Bytes) : Prop :=
  ∀ line ∈ input.splitOn Bytes.lineFeed, line.length < lineLimit

/-- The fuel suffices for the line. -/
def comesBack (fuel : Nat) (options : Program.Options) (line : Bytes) : Bool :=
  !exhausts fuel options line

theorem isBlankLine_trimReturn (line : Bytes) :
    isBlankLine line.trimReturn = isBlankLine line := by
  unfold Bytes.trimReturn
  split
  · rename_i ends
    obtain ⟨front, rfl⟩ := List.getLast?_eq_some_iff.mp ends
    have ascii : Utf8.StartsAscii [Bytes.carriageReturn] := by
      rintro b ⟨⟩
      decide
    have blank : (Utf8.decode [Bytes.carriageReturn]).all isBlank = true := by decide +kernel
    rw [List.dropLast_concat, isBlankLine, isBlankLine, Utf8.decode_append front ascii,
      List.all_append, blank, Bool.and_true]
  · rfl

theorem isBlankLine_nil : isBlankLine [] = true := by
  rw [isBlankLine, Utf8.decode_nil, List.all_nil]

theorem answer_eq (line : Bytes) :
    answer fuel options line =
      if isBlankLine line then [] else (Report.ofSource fuel options lineName line.trimReturn).out := by
  rw [answer, isBlankLine_trimReturn]

theorem exhausts_eq (line : Bytes) :
    exhausts fuel options line =
      (!isBlankLine line && Program.exhausts fuel options (Utf8.decode line.trimReturn)) := by
  rw [exhausts, isBlankLine_trimReturn]

/-- The second batch is answered only if the first has been answered to its end. -/
def Transcript.andThen (first second : Transcript) : Transcript :=
  match first.ending with
  | .complete => ⟨first.out ++ second.out, second.ending⟩
  | _ => first

theorem answerLines_append (first second : List Bytes) :
    answerLines fuel options (first ++ second) =
      (answerLines fuel options first).andThen (answerLines fuel options second) := by
  induction first with
  | nil => rfl
  | cons line rest ih =>
    rw [List.cons_append, answerLines, answerLines]
    split
    · rfl
    · split
      · rfl
      · rw [ih]
        obtain ⟨out, ending⟩ := answerLines fuel options rest
        cases ending with
        | complete => simp [Transcript.andThen]
        | tooLong | exhausted => rfl

/-- The empty piece behind the last line feed is passed over. -/
theorem run_eq_answerLines (input : Bytes) :
    run fuel options input = answerLines fuel options (input.splitOn Bytes.lineFeed) := by
  obtain ⟨last, empty, pieces⟩ := Bytes.splitOn_eq_lines input
  have nothing : answerLines fuel options last = ⟨[], .complete⟩ := by
    rcases empty with rfl | rfl
    · rfl
    · have short : isShort [] = true := rfl
      have trimmed : Bytes.trimReturn [] = [] := rfl
      simp [answerLines, exhausts_eq, answer_eq, isBlankLine_nil, short]
  rw [run, pieces, answerLines_append, nothing]
  obtain ⟨out, ending⟩ := answerLines fuel options input.lines
  cases ending with
  | complete => simp [Transcript.andThen]
  | tooLong | exhausted => rfl

theorem run_append (a b : Bytes) :
    run fuel options (a ++ Bytes.lineFeed :: b) =
      (run fuel options a).andThen (run fuel options b) := by
  rw [run_eq_answerLines, run_eq_answerLines, run_eq_answerLines, List.splitOn_append_cons_self,
    answerLines_append]

/-- Of short lines those are answered that stand before the first from which evaluation does not come
back. -/
theorem answerLines_short {lines : List Bytes} (short : ∀ line ∈ lines, line.length < lineLimit) :
    answerLines fuel options lines =
      ⟨(lines.takeWhile (comesBack fuel options)).flatMap (answer fuel options),
        if lines.all (comesBack fuel options) then .complete else .exhausted⟩ := by
  induction lines with
  | nil => rfl
  | cons line rest ih =>
    obtain ⟨here, behind⟩ := List.forall_mem_cons.mp short
    have fits : isShort line = true := decide_eq_true here
    rw [answerLines, fits]
    cases stuck : exhausts fuel options line with
    | true => simp [comesBack, stuck]
    | false => simp [comesBack, stuck, ih behind]

theorem run_whole {line : Bytes} (whole : Bytes.lineFeed ∉ line) (short : line.length < lineLimit) :
    run fuel options line =
      if exhausts fuel options line then ⟨[], .exhausted⟩
      else ⟨answer fuel options line, .complete⟩ := by
  rw [run_eq_answerLines, List.splitOn_eq_singleton whole,
    answerLines_short (List.forall_mem_singleton.mpr short)]
  cases stuck : exhausts fuel options line with
  | true => simp [comesBack, stuck]
  | false => simp [comesBack, stuck]

theorem answerLines_mono {lines : List Bytes} (le : fuel ≤ more)
    (finished : (answerLines fuel options lines).ending ≠ .exhausted) :
    answerLines more options lines = answerLines fuel options lines := by
  induction lines with
  | nil => rfl
  | cons line rest ih =>
    rw [answerLines] at finished ⊢
    rw [answerLines]
    split at finished
    · rename_i long
      rw [if_pos long, if_pos long]
    · rename_i fits
      split at finished
      · exact absurd rfl finished
      · rename_i stuck
        have same : isBlankLine line = false →
            Program.run more options (Utf8.decode line.trimReturn) =
              Program.run fuel options (Utf8.decode line.trimReturn) := by
          intro written
          apply Program.run_mono le
          intro out
          rw [exhausts_eq, written, Program.exhausts_eq_true.mpr out] at stuck
          exact stuck rfl
        have exhaustsSame : exhausts more options line = exhausts fuel options line := by
          rw [exhausts_eq, exhausts_eq]
          cases written : isBlankLine line with
          | true => rfl
          | false => rw [Program.exhausts, same written, Program.exhausts]
        have answerSame : answer more options line = answer fuel options line := by
          rw [answer_eq, answer_eq]
          cases written : isBlankLine line with
          | true => rfl
          | false => rw [Report.ofSource, same written, Report.ofSource]
        rw [if_neg fits, if_neg fits, exhaustsSame, if_neg stuck, if_neg stuck, answerSame,
          ih finished]

end Batch

namespace CommandLine

open Batch (ShortLines comesBack)

/-- What comes of a standard input that is answered line by line. -/
def linewise (fuel : Nat) (switches : Switches) (input : Bytes) : Outcome :=
  Invocation.execute fuel ⟨input, fun _ => none⟩ ⟨.repl, switches, []⟩

theorem linewise_eq (fuel : Nat) (switches : Switches) (input : Bytes) :
    linewise fuel switches input =
      ⟨(Batch.run fuel switches.options input).out,
        endingCode (Batch.run fuel switches.options input).ending⟩ :=
  rfl

theorem linewise_append {fuel : Nat} {switches : Switches} {a : Bytes} (short : ShortLines a)
    (b : Bytes) :
    linewise fuel switches (a ++ Bytes.lineFeed :: b) =
      if (a.splitOn Bytes.lineFeed).all (comesBack fuel switches.options) then
        ⟨(linewise fuel switches a).stdout ++ (linewise fuel switches b).stdout,
          (linewise fuel switches b).code⟩
      else linewise fuel switches a := by
  rw [linewise_eq, linewise_eq, linewise_eq, Batch.run_append, Batch.run_eq_answerLines a,
    Batch.answerLines_short short]
  cases (a.splitOn Bytes.lineFeed).all (comesBack fuel switches.options) with
  | true => rfl
  | false => rfl

theorem linewise_whole {fuel : Nat} {switches : Switches} {line : Bytes}
    (whole : Bytes.lineFeed ∉ line) (short : line.length < Batch.lineLimit) :
    linewise fuel switches line =
      if Batch.exhausts fuel switches.options line then ⟨[], exhaustedCode⟩
      else ⟨Batch.answer fuel switches.options line, 0⟩ := by
  rw [linewise_eq, Batch.run_whole whole short]
  cases Batch.exhausts fuel switches.options line with
  | true => rfl
  | false => rfl

theorem linewise_intercalate {fuel : Nat} {switches : Switches} {lines : List Bytes}
    (each : ∀ line ∈ lines, Bytes.lineFeed ∉ line ∧ line.length < Batch.lineLimit) :
    (linewise fuel switches ([Bytes.lineFeed].intercalate lines)).stdout =
      (lines.takeWhile (comesBack fuel switches.options)).flatMap
        fun line => (linewise fuel switches line).stdout := by
  by_cases empty : lines = []
  · rw [empty, List.intercalate_nil, linewise_eq, Batch.run, Bytes.lines]
    rfl
  · have pieces : ([Bytes.lineFeed].intercalate lines).splitOn Bytes.lineFeed = lines :=
      List.splitOn_intercalate Bytes.lineFeed (fun line member => (each line member).1) empty
    rw [linewise_eq, Batch.run_eq_answerLines, pieces,
      Batch.answerLines_short fun line member => (each line member).2]
    apply List.flatMap_congr
    intro line member
    obtain ⟨whole, short⟩ := each line (List.takeWhile_subset _ member)
    have back : Batch.exhausts fuel switches.options line = false := by
      simpa [comesBack] using List.mem_takeWhile_imp member
    rw [linewise_whole whole short, back, if_neg Bool.false_ne_true]

theorem linewise_mono {fuel more : Nat} {switches : Switches} {input : Bytes} (le : fuel ≤ more)
    (finished : (linewise fuel switches input).code ≠ exhaustedCode) :
    linewise more switches input = linewise fuel switches input := by
  have same : Batch.run more switches.options input = Batch.run fuel switches.options input := by
    apply Batch.answerLines_mono le
    intro out
    apply finished
    rw [linewise_eq, Batch.run, out]
    rfl
  rw [linewise_eq, linewise_eq, same]

/-- What is printed about two inputs joined by a line feed is what is printed about the one and then
about the other, if evaluation comes back from the lines of the first. If it does not, nothing is
printed but what comes before the line from which it does not come back. Of a single line nothing is
printed if it is blank, and otherwise the report on it without one carriage return at its end, if there
is one to come. So each line of a batch is answered as it would be alone, in order, whatever is wrong
with those before it or behind, up to the first that is not answered at all. Fuel matters to nothing
but whether evaluation comes back. -/
theorem lines_answered_one_by_one (switches : Switches) :
    (∀ fuel a b, ShortLines a →
      (a.splitOn Bytes.lineFeed).all (comesBack fuel switches.options) = true →
        (linewise fuel switches (a ++ Bytes.lineFeed :: b)).stdout =
            (linewise fuel switches a).stdout ++ (linewise fuel switches b).stdout ∧
          (linewise fuel switches (a ++ Bytes.lineFeed :: b)).code =
            (linewise fuel switches b).code) ∧
    (∀ fuel a b, ShortLines a →
      (a.splitOn Bytes.lineFeed).all (comesBack fuel switches.options) = false →
        linewise fuel switches (a ++ Bytes.lineFeed :: b) = linewise fuel switches a ∧
          (linewise fuel switches a).code = exhaustedCode) ∧
    (∀ fuel line, Bytes.lineFeed ∉ line → line.length < Batch.lineLimit →
      linewise fuel switches line =
        if Batch.isBlankLine line then ⟨[], 0⟩
        else if Program.exhausts fuel switches.options (Utf8.decode line.trimReturn) then
          ⟨[], exhaustedCode⟩
        else
          ⟨(Report.ofSource fuel switches.options Batch.lineName line.trimReturn).out, 0⟩) ∧
    (∀ fuel, ∀ lines : List Bytes,
      (∀ line ∈ lines, Bytes.lineFeed ∉ line ∧ line.length < Batch.lineLimit) →
        (linewise fuel switches ([Bytes.lineFeed].intercalate lines)).stdout =
          (lines.takeWhile (comesBack fuel switches.options)).flatMap
            fun line => (linewise fuel switches line).stdout) ∧
    (∀ fuel more input, fuel ≤ more → (linewise fuel switches input).code ≠ exhaustedCode →
      linewise more switches input = linewise fuel switches input) := by
  refine ⟨?_, ?_, ?_, fun _ _ => linewise_intercalate, fun _ _ _ => linewise_mono⟩
  · intro fuel a b short back
    rw [linewise_append short, back, if_pos rfl]
    exact ⟨rfl, rfl⟩
  · intro fuel a b short stuck
    refine ⟨by rw [linewise_append short, stuck, if_neg Bool.false_ne_true], ?_⟩
    rw [linewise_eq, Batch.run_eq_answerLines, Batch.answerLines_short short, stuck]
    rfl
  · intro fuel line whole short
    rw [linewise_whole whole short, Batch.exhausts_eq, Batch.answer_eq]
    cases Batch.isBlankLine line with
    | true => rfl
    | false => rfl

/-- A line with a carriage return before the joint, one with a stray byte in the place of an operand,
and a blank one. -/
def brokenBatch : List Bytes :=
  [[0x31, 0x0d], [0x31, 0x2b, 0xff], [0x20, 0x0d]]

theorem lines_answered_one_by_one_brokenBatch :
    (linewise 9 {} ([0x31, 0x0d] ++ Bytes.lineFeed :: [0x31, 0x2b, 0xff])).stdout =
        (linewise 9 {} [0x31, 0x0d]).stdout ++ (linewise 9 {} [0x31, 0x2b, 0xff]).stdout ∧
      linewise 9 {} [0x31, 0x0d] = ⟨(Report.ofSource 9 {} Batch.lineName [0x31]).out, 0⟩ ∧
      (linewise 9 {} ([Bytes.lineFeed].intercalate brokenBatch)).stdout =
        brokenBatch.flatMap fun line => (linewise 9 {} line).stdout := by
  obtain ⟨joined, -, single, batch, -⟩ := lines_answered_one_by_one {}
  have short : ShortLines [0x31, 0x0d] := by
    unfold ShortLines
    decide
  have pieces : List.splitOn Bytes.lineFeed [0x31, 0x0d] = [[0x31, 0x0d]] := by decide
  have back : brokenBatch.all (comesBack 9 (Switches.options {})) = true := by decide +kernel
  have first : comesBack 9 (Switches.options {}) [0x31, 0x0d] = true :=
    List.all_eq_true.mp back _ List.mem_cons_self
  have written : Batch.isBlankLine [0x31, 0x0d] = false := by decide +kernel
  have trimmed : Bytes.trimReturn [0x31, 0x0d] = [0x31] := rfl
  have answers : Program.exhausts 9 (Switches.options {}) (Utf8.decode [0x31]) = false := by
    decide +kernel
  refine ⟨(joined 9 _ _ short ?_).1, ?_, ?_⟩
  · rw [pieces, List.all_cons, first]
    rfl
  · rw [single 9 [0x31, 0x0d] (by decide) (by decide), written, if_neg Bool.false_ne_true, trimmed,
      answers, if_neg Bool.false_ne_true]
    rfl
  · rw [batch 9 brokenBatch (by decide), List.takeWhile_eq_self_iff.mpr (List.all_eq_true.mp back)]

/-- A literal whose ascribed type is the self-application of an ill-typed function. -/
def endlessLine : Bytes :=
  Bytes.ofString "(1 : (\\x:Int. x x) (\\x:Int. x x))"

theorem parse_endlessLine :
    Source.parse (Utf8.decode endlessLine) =
      .ok (.ascribe (.const (.int 1))
        (.app (.bind .lam "x" (.const .intType) (.app (.var "x") (.var "x")))
          (.bind .lam "x" (.const .intType) (.app (.var "x") (.var "x"))))) := by
  decide +kernel

theorem run_endlessLine (fuel : Nat) :
    Program.run fuel { textualNames := true } (Utf8.decode endlessLine) =
      .error (.halted .outOfFuel) := by
  rw [Program.run, parse_endlessLine]
  change (Context.infer fuel [] Context.endlesslyAscribed).mapError Program.Error.ofRejection >>= _ = _
  rw [Context.infer_endlesslyAscribed]
  rfl

theorem exhausts_endlessLine (fuel : Nat) :
    Batch.exhausts fuel { textualNames := true } endlessLine = true := by
  have written : Batch.isBlankLine endlessLine = false := by decide +kernel
  have trimmed : Bytes.trimReturn endlessLine = endlessLine := by decide +kernel
  rw [Batch.exhausts_eq, written, trimmed, Program.exhausts_eq_true.mpr (run_endlessLine fuel)]
  rfl

/-- The line behind one from which evaluation does not come back is not answered, though it would be
alone. -/
theorem endless_line_silences_next :
    ShortLines endlessLine ∧ ShortLines [0x31] ∧
      ∀ fuel ≥ 9,
        linewise fuel { textualNames := true } endlessLine = ⟨[], exhaustedCode⟩ ∧
        linewise fuel { textualNames := true } [0x31] = ⟨Bytes.ofString "1 : Int\n", 0⟩ ∧
        linewise fuel { textualNames := true } (endlessLine ++ Bytes.lineFeed :: [0x31]) =
          ⟨[], exhaustedCode⟩ := by
  have whole : Bytes.lineFeed ∉ endlessLine := by decide +kernel
  have size : endlessLine.length < Batch.lineLimit := by decide +kernel
  have pieces : endlessLine.splitOn Bytes.lineFeed = [endlessLine] := List.splitOn_eq_singleton whole
  have short : ShortLines endlessLine := by
    rw [ShortLines, pieces]
    exact List.forall_mem_singleton.mpr size
  have one : ShortLines [0x31] := by
    unfold ShortLines
    decide
  have answered : linewise 9 { textualNames := true } [0x31] = ⟨Bytes.ofString "1 : Int\n", 0⟩ := by
    decide +kernel
  refine ⟨short, one, fun fuel enough => ?_⟩
  have stuck := exhausts_endlessLine fuel
  have alone : linewise fuel { textualNames := true } endlessLine = ⟨[], exhaustedCode⟩ := by
    rw [linewise_whole whole size]
    exact if_pos stuck
  have noneBack : (endlessLine.splitOn Bytes.lineFeed).all
      (comesBack fuel (Switches.options { textualNames := true })) = false := by
    rw [pieces, List.all_cons]
    change (!Batch.exhausts fuel { textualNames := true } endlessLine && _) = false
    rw [stuck]
    rfl
  refine ⟨alone, ?_, ?_⟩
  · rw [linewise_mono enough (by rw [answered]; decide), answered]
  · rw [linewise_append short, noneBack, if_neg Bool.false_ne_true, alone]

end CommandLine
end DepCalc

import DepCalc.Proofs.Source.Grammar

/-!
How texts are cut into lexemes. A lexeme is read back from its text wherever the text behind it does
not begin with a character that would prolong a name or a numeral.
-/
namespace DepCalc

/-- Sets of characters whose ranges lie apart have no character in common. -/
theorem Text.CodePoints.contains_eq_false {ranges others : CodePoints}
    (apart : ranges.all fun r => others.all fun s => decide (r.2 < s.1) || decide (s.2 < r.1))
    {c : Char} (inside : ranges.contains c) : others.contains c = false := by
  obtain ⟨r, member, within⟩ := List.any_eq_true.mp inside
  have beside := List.all_eq_true.mp apart r member
  apply List.any_eq_false.mpr
  intro s other
  have between := List.all_eq_true.mp beside s other
  simp only [Bool.or_eq_true, Bool.and_eq_true, decide_eq_true_eq] at within between ⊢
  omega

namespace Source

/-- The text consists of these lexemes and of gaps. -/
inductive Scans : List Char → List Lexeme → Prop
  | nil : Scans [] []
  | gap {c : Char} {rest : List Char} {more : Nat} {ls : List Lexeme}
      (front : piece? c rest = some ⟨none, more⟩) (behind : Scans (rest.drop more) ls) :
      Scans (c :: rest) ls
  | lexeme {c : Char} {rest : List Char} {l : Lexeme} {more : Nat} {ls : List Lexeme}
      (front : piece? c rest = some ⟨some l, more⟩) (behind : Scans (rest.drop more) ls) :
      Scans (c :: rest) (l :: ls)

theorem Scans.scanOnto {text : List Char} {ls : List Lexeme} (scans : Scans text ls)
    (done : List Token) (pos : Position) :
    ∃ tokens, Tokens.scanOnto done pos text = .ok tokens ∧
      tokens.list.map Token.lexeme = done.reverse.map Token.lexeme ++ ls := by
  induction scans generalizing done pos with
  | nil => exact ⟨⟨done.reverse, pos⟩, by rw [Tokens.scanOnto], by rw [List.append_nil]⟩
  | gap front behind ih =>
    simp only [Tokens.scanOnto, front]
    exact ih done _
  | @lexeme c rest l more ls front behind ih =>
    simp only [Tokens.scanOnto, front]
    obtain ⟨tokens, scanned, lexemes⟩ := ih (⟨l, pos⟩ :: done) (pos.after (c :: rest.take more))
    refine ⟨tokens, scanned, ?_⟩
    rw [lexemes, List.reverse_cons, List.map_append, List.append_assoc]
    rfl

theorem Scans.scan {text : List Char} {ls : List Lexeme} (scans : Scans text ls) :
    ∃ tokens, Tokens.scan text = .ok tokens ∧ tokens.list.map Token.lexeme = ls :=
  scans.scanOnto [] .start

theorem scans_of_scanOnto {done : List Token} {pos : Position} {text : List Char} {tokens : Tokens}
    (scanned : Tokens.scanOnto done pos text = .ok tokens) :
    ∃ ls, Scans text ls ∧ tokens.list.map Token.lexeme = done.reverse.map Token.lexeme ++ ls := by
  induction done, pos, text using Tokens.scanOnto.induct with
  | case1 done pos =>
    rw [Tokens.scanOnto] at scanned
    cases scanned
    exact ⟨[], .nil, by rw [List.append_nil]⟩
  | case2 done pos c rest stuck => simp [Tokens.scanOnto, stuck] at scanned
  | case3 done pos c rest lexeme? more front found ih =>
    simp only [Tokens.scanOnto, front] at scanned
    obtain ⟨ls, behind, lexemes⟩ := ih scanned
    cases lexeme? with
    | none => exact ⟨ls, .gap front behind, lexemes⟩
    | some l =>
      refine ⟨l :: ls, .lexeme front behind, ?_⟩
      rw [lexemes]
      simp [found]

theorem scans_of_scan {text : List Char} {tokens : Tokens} (scanned : Tokens.scan text = .ok tokens) :
    Scans text (tokens.list.map Token.lexeme) := by
  obtain ⟨ls, scans, lexemes⟩ := scans_of_scanOnto scanned
  exact lexemes ▸ scans

/-- Nothing at the front prolongs a name or a numeral. -/
def Fence (rest : List Char) : Prop :=
  ∀ c ∈ rest.head?, isNamePart c = false

/-- The text is read as these lexemes, whatever is behind it. -/
def Glue (text : String) (ls : List Lexeme) : Prop :=
  ∀ rest ls', Scans rest ls' → Scans (text.toList ++ rest) (ls ++ ls')

/-- The text is read as these lexemes in front of a fence. -/
def Spells (text : String) (ls : List Lexeme) : Prop :=
  ∀ rest ls', Fence rest → Scans rest ls' → Scans (text.toList ++ rest) (ls ++ ls')

theorem Fence.not_isDigit {rest : List Char} (fence : Fence rest) :
    ∀ c ∈ rest.head?, Text.isDigit c = false := by
  intro c front
  have outside := fence c front
  simp only [isNamePart, Bool.or_eq_false_iff] at outside
  exact outside.1.2

/-- A text that begins with a character of no name. -/
def Fenced (text : String) : Prop :=
  text.toList.head?.map isNamePart = some false

instance (text : String) : Decidable (Fenced text) :=
  inferInstanceAs (Decidable (_ = _))

theorem Fenced.append {text : String} (fenced : Fenced text) (more : String) :
    Fenced (text ++ more) := by
  obtain ⟨c, first, outside⟩ := Option.map_eq_some_iff.mp fenced
  simp [Fenced, first, outside]

theorem Fenced.fence {text : String} (fenced : Fenced text) (rest : List Char) :
    Fence (text.toList ++ rest) := by
  obtain ⟨c, first, outside⟩ := Option.map_eq_some_iff.mp fenced
  intro d front
  simp only [List.head?_append, first, Option.some_or, Option.mem_some_iff] at front
  exact front ▸ outside

namespace Glue

variable {text text' : String} {ls ls' : List Lexeme}

theorem spells (glue : Glue text ls) : Spells text ls :=
  fun rest more _ scans => glue rest more scans

theorem append (glue : Glue text ls) (behind : Spells text' ls') :
    Spells (text ++ text') (ls ++ ls') := by
  intro rest more fence scans
  rw [String.toList_append, List.append_assoc, List.append_assoc]
  exact glue _ _ (behind rest more fence scans)

theorem glue (first : Glue text ls) (second : Glue text' ls') :
    Glue (text ++ text') (ls ++ ls') := by
  intro rest more scans
  rw [String.toList_append, List.append_assoc, List.append_assoc]
  exact first _ _ (second rest more scans)

end Glue

namespace Spells

variable {text text' : String} {ls ls' : List Lexeme}

theorem append (first : Spells text ls) (second : Spells text' ls') (fenced : Fenced text') :
    Spells (text ++ text') (ls ++ ls') := by
  intro rest more fence scans
  rw [String.toList_append, List.append_assoc, List.append_assoc]
  exact first _ _ (fenced.fence rest) (second rest more fence scans)

theorem glue (first : Spells text ls) (second : Glue text' ls') (fenced : Fenced text') :
    Glue (text ++ text') (ls ++ ls') := by
  intro rest more scans
  rw [String.toList_append, List.append_assoc, List.append_assoc]
  exact first _ _ (fenced.fence rest) (second rest more scans)

theorem scans (spells : Spells text ls) : Scans text.toList ls := by
  have all := spells [] [] (fun c front => nomatch front) .nil
  rwa [List.append_nil, List.append_nil] at all

end Spells

theorem Fenced.space (more : String) : Fenced (" " ++ more) :=
  .append (by decide +kernel) more

theorem Glue.space : Glue " " [] := by
  intro rest ls scans
  exact .gap (by rfl : piece? ' ' rest = some ⟨none, 0⟩) scans

namespace Symbol

theorem mem_all (sign : Symbol) : sign ∈ all := by
  cases sign <;> decide

theorem text_eq_cons (sign : Symbol) : ∃ c more, sign.text.toList = c :: more := by
  cases sign <;> exact ⟨_, _, rfl⟩

/-- No sign begins like a blank, a numeral or a name. -/
theorem begins_apart : ∀ sign ∈ all, ∀ c ∈ sign.text.toList.head?,
    Text.isBlank c = false ∧ isNamePart c = false := by
  intro sign _ c begins
  cases sign <;> cases begins <;> decide +kernel

theorem not_comment : ∀ sign ∈ all, sign ≠ minus → sign.text.toList.head? = some '-' →
    sign.text.toList.tail = ['>'] := by
  decide

/-- The minus sign is the only one with which a longer sign begins. -/
theorem front?_text {sign : Symbol} (other : sign ≠ minus) (rest : List Char) :
    front? (sign.text.toList ++ rest) = some sign := by
  cases sign <;> first | rfl | exact absurd rfl other

end Symbol

theorem piece?_of_front? {c : Char} {rest : List Char} {sign : Symbol}
    (begins : sign.text.toList.head? = some c) (noComment : ¬ (c = '-' ∧ rest.head? = some '-'))
    (front : Symbol.front? (c :: rest) = some sign) :
    piece? c rest = some ⟨some (.symbol sign), sign.text.length - 1⟩ := by
  obtain ⟨noBlank, noPart⟩ := Symbol.begins_apart sign sign.mem_all c begins
  simp only [isNamePart, Bool.or_eq_false_iff] at noPart
  simp only [piece?, noBlank, noPart, if_neg noComment, front, Bool.false_eq_true, if_false,
    Option.map_some]

theorem piece?_sign {sign : Symbol} {c : Char} {more : List Char} (other : sign ≠ .minus)
    (spelled : sign.text.toList = c :: more) (rest : List Char) :
    piece? c (more ++ rest) = some ⟨some (.symbol sign), more.length⟩ := by
  have front := Symbol.front?_text other rest
  have noComment := Symbol.not_comment sign sign.mem_all other
  have length : sign.text.length - 1 = more.length := by
    rw [← String.length_toList, spelled, List.length_cons, Nat.add_sub_cancel]
  rw [spelled] at front noComment
  rw [← length]
  refine piece?_of_front? (by rw [spelled]; rfl) ?_ front
  rintro ⟨rfl, prolonged⟩
  obtain rfl : more = ['>'] := noComment rfl
  cases prolonged

theorem Glue.sign {sign : Symbol} (other : sign ≠ .minus) : Glue sign.text [.symbol sign] := by
  intro rest ls scans
  obtain ⟨c, more, spelled⟩ := sign.text_eq_cons
  rw [spelled]
  refine .lexeme (piece?_sign other spelled rest) ?_
  show Scans ((more ++ rest).drop _) ls
  rw [List.drop_left]
  exact scans

/-- A minus sign is not read as a part of a comment or an arrow if a blank or a digit follows. -/
theorem piece?_minus {c : Char} (rest : List Char) (apart : c ≠ '-' ∧ c ≠ '>') :
    piece? '-' (c :: rest) = some ⟨some (.symbol .minus), 0⟩ := by
  refine piece?_of_front? (by rfl) ?_ ?_
  · rintro ⟨-, prolonged⟩
    exact apart.1 (Option.some.inj prolonged)
  · have noArrow : ('>' == c) = false := by simp [apart.2.symm]
    have noPrefix : "->".toList.isPrefixOf ('-' :: c :: rest) = false := by
      show ('-' == '-' && ('>' == c && true)) = false
      rw [noArrow]
      rfl
    simp only [Symbol.front?, Symbol.all, Symbol.text, List.find?_cons, noPrefix]
    rfl

/-- A blank is a fence, so anything may follow it. -/
theorem Spells.spaced {text spaced : String} {ls : List Lexeme} (spells : Spells text ls)
    (behind : spaced = text ++ " ") : Glue spaced ls := by
  have glue := spells.glue Glue.space (Fenced.space "")
  rwa [List.append_nil, ← behind] at glue

theorem Spells.padded {text padded : String} {ls : List Lexeme} (spells : Spells text ls)
    (around : padded = " " ++ (text ++ " ")) : Glue padded ls := by
  rw [around]
  exact Glue.space.glue (spells.spaced rfl)

theorem Glue.operator (op : Operator) : Glue (op.symbol ++ " ") [.symbol op.sign] := by
  have spelled : op.symbol = op.sign.text := symbol_eq_text.mpr rfl
  by_cases minus : op.sign = .minus
  · rw [spelled, minus]
    intro rest ls scans
    exact .lexeme (piece?_minus rest (by decide)) (Glue.space rest ls scans)
  · rw [spelled]
    exact (Glue.sign minus).glue .space

theorem takeWhile_run {p : Char → Bool} {run rest : List Char} (inside : ∀ c ∈ run, p c)
    (stops : ∀ c ∈ rest.head?, p c = false) : (run ++ rest).takeWhile p = run := by
  rw [List.takeWhile_append_of_pos inside]
  cases rest with
  | nil => simp
  | cons c rest => simp [stops c rfl]

theorem isDigit_of_ascii {c : Char} (ascii : c.isDigit) :
    Text.isBlank c = false ∧ Text.isDigit c = true ∧ c ≠ '-' := by
  rw [Char.isDigit_iff_toNat, show '0'.toNat = 48 from rfl, show '9'.toNat = 57 from rfl] at ascii
  refine ⟨?_, ?_, ?_⟩
  · simp [Text.isBlank, Text.blanks, Text.CodePoints.contains]
    omega
  · simp [Text.isDigit, Text.digits, Text.CodePoints.contains]
    omega
  · rintro rfl
    revert ascii
    decide

theorem Spells.numeral {digits : String} {n : Nat} (value : Numeral digits.toList n) :
    Spells digits [.numeral digits] := by
  intro rest ls fence scans
  cases spelled : digits.toList with
  | nil => exact absurd spelled value.nonempty
  | cons c more =>
    have ascii := value.ascii
    rw [spelled] at ascii
    obtain ⟨noBlank, digit, noMinus⟩ := isDigit_of_ascii (ascii c List.mem_cons_self)
    have run : (more ++ rest).takeWhile Text.isDigit = more :=
      takeWhile_run (fun d member => (isDigit_of_ascii (ascii d (List.mem_cons_of_mem c member))).2.1)
        fence.not_isDigit
    have front : piece? c (more ++ rest) = some ⟨some (.numeral digits), more.length⟩ := by
      simp only [piece?, noBlank, noMinus, digit, run, ← spelled, false_and, if_false, if_true,
        Bool.false_eq_true, String.ofList_toList]
    refine .lexeme front ?_
    show Scans ((more ++ rest).drop _) ls
    rw [List.drop_left]
    exact scans

theorem Spells.negative {digits : String} {n : Nat} (value : Numeral digits.toList n) :
    Spells ("-" ++ digits) [.symbol .minus, .numeral digits] := by
  intro rest ls fence scans
  have number := Spells.numeral value rest ls fence scans
  rw [String.toList_append, List.append_assoc]
  cases spelled : digits.toList with
  | nil => exact absurd spelled value.nonempty
  | cons c more =>
    have digit := value.ascii c (by rw [spelled]; exact List.mem_cons_self)
    have apart : c ≠ '-' ∧ c ≠ '>' := by
      constructor <;> rintro rfl <;> revert digit <;> decide
    rw [spelled] at number
    exact .lexeme (piece?_minus (more ++ rest) apart) number

/-- The text is a name or a keyword. -/
def IsWord (word : String) : Prop :=
  ∃ c more, word.toList = c :: more ∧ Text.isBlank c = false ∧ Text.isDigit c = false ∧
    isNameStart c ∧ ∀ d ∈ more, isNamePart d

theorem IsWord.front {word : String} (whole : IsWord word) :
    ∃ c more, word.toList = c :: more ∧ ∀ rest, Fence rest →
      piece? c (more ++ rest) = some ⟨some (.ofWord word), more.length⟩ := by
  obtain ⟨c, more, spelled, noBlank, noDigit, start, parts⟩ := whole
  have noMinus : c ≠ '-' := by
    rintro rfl
    revert start
    decide +kernel
  refine ⟨c, more, spelled, fun rest fence => ?_⟩
  have run : (more ++ rest).takeWhile isNamePart = more := takeWhile_run parts fence
  simp only [piece?, noBlank, noMinus, noDigit, start, run, ← spelled, false_and, if_false,
    if_true, Bool.false_eq_true, String.ofList_toList]

theorem Spells.word {word : String} (whole : IsWord word) : Spells word [.ofWord word] := by
  intro rest ls fence scans
  obtain ⟨c, more, spelled, front⟩ := whole.front
  rw [spelled]
  refine .lexeme (front rest fence) ?_
  show Scans ((more ++ rest).drop _) ls
  rw [List.drop_left]
  exact scans

theorem Spells.keyword (word : Keyword) : Spells word.text [.keyword word] := by
  have known : Lexeme.ofWord word.text = .keyword word := by
    cases word <;> decide
  rw [← known]
  apply Spells.word
  cases word <;> exact ⟨_, _, rfl, by decide +kernel, by decide +kernel, by decide +kernel,
    List.all_eq_true.mp (by decide +kernel)⟩

/-- The scanner takes `c :: run` from the front and leaves `tail`: a blank, a comment up to the end of
its line, a numeral or a word that does not go on in `tail`, or a sign that is not part of a longer
one. -/
inductive Takes (c : Char) (run tail : List Char) : Option Lexeme → Prop
  | blank (space : Text.isBlank c) (alone : run = []) : Takes c run tail none
  | comment {body : List Char} (begins : c = '-') (again : run = '-' :: body) (line : '\n' ∉ body)
      (ends : ∀ d ∈ tail.head?, d = '\n') : Takes c run tail none
  | numeral (digit : Text.isDigit c) (digits : ∀ d ∈ run, Text.isDigit d)
      (ends : ∀ d ∈ tail.head?, Text.isDigit d = false) :
      Takes c run tail (some (.numeral (String.ofList (c :: run))))
  | word (whole : IsWord (String.ofList (c :: run))) (ends : Fence tail) :
      Takes c run tail (some (.ofWord (String.ofList (c :: run))))
  | sign {sign : Symbol} (spelled : sign.text.toList = c :: run)
      (ends : sign = .minus → ∀ d ∈ tail.head?, d ≠ '-' ∧ d ≠ '>') :
      Takes c run tail (some (.symbol sign))

theorem not_isBlank_of_isDigit {c : Char} (digit : Text.isDigit c) : Text.isBlank c = false :=
  Text.CodePoints.contains_eq_false (by decide +kernel) digit

theorem commentPart_of_mem {body : List Char} (line : '\n' ∉ body) : ∀ d ∈ body, commentPart d := by
  intro d member
  have other : d ≠ '\n' := ne_of_mem_of_not_mem member line
  simpa [commentPart] using other

theorem Takes.piece? {c : Char} {run tail : List Char} {lexeme? : Option Lexeme}
    (takes : Takes c run tail lexeme?) : piece? c (run ++ tail) = some ⟨lexeme?, run.length⟩ := by
  cases takes with
  | blank space alone =>
    subst alone
    simp only [Source.piece?, space, if_true, List.length_nil]
  | @comment body begins again line ends =>
    subst begins again
    have inside : ∀ d ∈ '-' :: body, commentPart d :=
      commentPart_of_mem (List.not_mem_cons_of_ne_of_not_mem (by decide) line)
    have stops : ∀ d ∈ tail.head?, commentPart d = false := by
      intro d front
      rw [ends d front]
      rfl
    have taken : Source.piece? '-' ('-' :: body ++ tail) =
        some ⟨none, (('-' :: body ++ tail).takeWhile commentPart).length⟩ := by rfl
    rw [taken, takeWhile_run inside stops]
  | numeral digit digits ends =>
    have noBlank := not_isBlank_of_isDigit digit
    have noMinus : c ≠ '-' := by
      rintro rfl
      revert digit
      decide +kernel
    simp only [Source.piece?, noBlank, noMinus, digit, takeWhile_run digits ends, false_and, if_false,
      if_true, Bool.false_eq_true]
  | word whole ends =>
    obtain ⟨d, more, spelled, front⟩ := whole.front
    rw [String.toList_ofList] at spelled
    cases spelled
    exact front tail ends
  | @sign sign spelled ends =>
    by_cases minus : sign = .minus
    · subst minus
      have minus : ['-'] = c :: run := spelled
      cases minus
      cases tail with
      | nil => exact piece?_of_front? (by rfl) (by simp) (by rfl)
      | cons d rest => exact piece?_minus rest (ends rfl d rfl)
    · exact piece?_sign minus spelled tail

/-- A run of characters is taken as far as it goes. -/
theorem exists_run (p : Char → Bool) (rest : List Char) : ∃ run tail,
    rest = run ++ tail ∧ rest.takeWhile p = run ∧ (∀ d ∈ run, p d) ∧
      ∀ d ∈ tail.head?, p d = false := by
  refine ⟨rest.takeWhile p, rest.dropWhile p, List.takeWhile_append_dropWhile.symm, rfl,
    List.all_eq_true.mp List.all_takeWhile, ?_⟩
  intro d front
  have stops := List.head?_dropWhile_not p rest
  rw [Option.mem_def.mp front] at stops
  exact stops

theorem takes_sign {c : Char} {rest : List Char} {sign : Symbol}
    (noComment : ¬ (c = '-' ∧ rest.head? = some '-'))
    (front : Symbol.front? (c :: rest) = some sign) :
    ∃ run tail, rest = run ++ tail ∧ run.length = sign.text.length - 1 ∧
      Takes c run tail (some (.symbol sign)) := by
  have found := List.find?_some front
  have begins : sign.text.toList <+: c :: rest := List.isPrefixOf_iff_prefix.mp found
  obtain ⟨d, run, spelled⟩ := sign.text_eq_cons
  have length : run.length = sign.text.length - 1 := by
    rw [← String.length_toList, spelled, List.length_cons, Nat.add_sub_cancel]
  rw [spelled] at begins
  obtain ⟨tail, whole⟩ := begins
  cases whole
  refine ⟨run, tail, rfl, length, .sign spelled ?_⟩
  rintro rfl e first
  have minus : ['-'] = c :: run := spelled
  cases minus
  obtain ⟨further, rfl⟩ : ∃ further, tail = e :: further := List.head?_eq_some_iff.mp first
  constructor
  · rintro rfl
    exact noComment ⟨rfl, rfl⟩
  · rintro rfl
    have arrow : Symbol.front? ('-' :: '>' :: further) = some .arrow := by rfl
    cases arrow.symm.trans front

theorem takes_comment (rest : List Char) : ∃ run tail,
    '-' :: rest = run ++ tail ∧ run.length = (('-' :: rest).takeWhile commentPart).length ∧
      Takes '-' run tail none := by
  obtain ⟨body, tail, whole, taken, inside, stops⟩ := exists_run commentPart rest
  have again : ('-' :: rest).takeWhile commentPart = '-' :: body := by
    rw [List.takeWhile_cons_of_pos (by rfl), taken]
  have line : '\n' ∉ body := by
    intro member
    cases inside '\n' member
  have ends : ∀ d ∈ tail.head?, d = '\n' := by
    intro d front
    simpa [commentPart] using stops d front
  exact ⟨'-' :: body, tail, by rw [whole, List.cons_append], by rw [again], .comment rfl rfl line ends⟩

theorem takes_of_piece? {c : Char} {rest : List Char} {lexeme? : Option Lexeme} {more : Nat}
    (front : piece? c rest = some ⟨lexeme?, more⟩) :
    ∃ run tail, rest = run ++ tail ∧ run.length = more ∧ Takes c run tail lexeme? := by
  unfold piece? at front
  split at front
  · rename_i space
    cases front
    exact ⟨[], rest, rfl, rfl, .blank space rfl⟩
  · rename_i noBlank
    split at front
    · rename_i comment
      obtain ⟨rfl, second⟩ := comment
      obtain ⟨more, rfl⟩ := List.head?_eq_some_iff.mp second
      cases front
      exact takes_comment more
    · rename_i noComment
      split at front
      · rename_i digit
        obtain ⟨run, tail, whole, taken, inside, stops⟩ := exists_run Text.isDigit rest
        simp only [Option.some.injEq, Piece.mk.injEq, taken] at front
        obtain ⟨rfl, rfl⟩ := front
        exact ⟨run, tail, whole, rfl, .numeral digit inside stops⟩
      · rename_i noDigit
        split at front
        · rename_i start
          obtain ⟨run, tail, whole, taken, inside, stops⟩ := exists_run isNamePart rest
          simp only [Option.some.injEq, Piece.mk.injEq, taken] at front
          obtain ⟨rfl, rfl⟩ := front
          have isWord : IsWord (String.ofList (c :: run)) :=
            ⟨c, run, String.toList_ofList, by simpa using noBlank, by simpa using noDigit, start, inside⟩
          exact ⟨run, tail, whole, rfl, .word isWord stops⟩
        · obtain ⟨sign, found, same⟩ := Option.map_eq_some_iff.mp front
          cases same
          exact takes_sign noComment found

/-- What is read as an identifier is a word and none that is reserved. -/
theorem piece?_ident {c : Char} {rest : List Char} {x : Name} {more : Nat}
    (front : piece? c rest = some ⟨some (.ident x), more⟩) :
    IsWord x ∧ Lexeme.ofWord x = .ident x := by
  obtain ⟨run, tail, -, -, takes⟩ := takes_of_piece? front
  generalize found : some (Lexeme.ident x) = lexeme? at takes
  cases takes with
  | word whole ends =>
    have lexeme := Option.some.inj found
    have same : String.ofList (c :: run) = x := by
      unfold Lexeme.ofWord at lexeme
      split at lexeme
      · cases lexeme
      · exact (Lexeme.ident.inj lexeme).symm
    rw [same] at whole lexeme
    exact ⟨whole, lexeme.symm⟩
  | _ => cases found

/-- The text is one identifier from its first character to its last. -/
def IsIdentifier (x : Name) : Prop :=
  ∃ c more, x.toList = c :: more ∧ piece? c more = some ⟨some (.ident x), more.length⟩

theorem isIdentifier_iff {x : Name} :
    IsIdentifier x ↔ IsWord x ∧ Lexeme.ofWord x = .ident x := by
  constructor
  · rintro ⟨c, more, -, front⟩
    exact piece?_ident front
  · rintro ⟨word, known⟩
    obtain ⟨c, more, spelled, front⟩ := word.front
    have alone := front [] (fun c first => nomatch first)
    rw [List.append_nil, known] at alone
    exact ⟨c, more, spelled, alone⟩

theorem Scans.isIdentifier {text : List Char} {ls : List Lexeme} (scans : Scans text ls) {x : Name}
    (member : .ident x ∈ ls) : IsIdentifier x := by
  induction scans with
  | nil => cases member
  | gap front behind ih => exact ih member
  | lexeme front behind ih =>
    rcases List.mem_cons.mp member with rfl | further
    · exact isIdentifier_iff.mpr (piece?_ident front)
    · exact ih further

theorem IsIdentifier.spells {x : Name} (identifier : IsIdentifier x) : Spells x [.ident x] := by
  obtain ⟨word, known⟩ := isIdentifier_iff.mp identifier
  exact known ▸ Spells.word word

end Source
end DepCalc

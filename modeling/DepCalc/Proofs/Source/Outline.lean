import DepCalc.Proofs.Source.Identifiers
import DepCalc.Proofs.Text.Words

/-!
The text of a displayed term determines the surface term with the displayed names. Texts are read
coarsely for this: all constants count as names, among them those that no source text spells, since
only the places of its words give a text its structure. Read so, a text has one outline by the
grammar, and what the words of an outline stand for is seen from the words themselves.
-/
namespace DepCalc

open Source
open Text (Chunk chunks)

namespace Source

/-- A name for any word, none of which spells a universe. -/
def disguise (word : String) : Name :=
  "'" ++ word

def signs : List (Char × Lexeme) :=
  [('(', .symbol .openParen), (')', .symbol .closeParen), (':', .symbol .colon),
   ('.', .symbol .dot), ('!', .symbol .bang), ('λ', .symbol .lambda), ('∀', .symbol .forallSign),
   ('∃', .symbol .existsSign)]

def reserved : List (String × Lexeme) :=
  [("if", .keyword .ifWord), ("then", .keyword .thenWord), ("else", .keyword .elseWord),
   ("->", .symbol .arrow), ("+", .symbol .plus), ("-", .symbol .minus), ("*", .symbol .times),
   ("/", .symbol .slash), ("==", .symbol .equal), ("<", .symbol .less), ("&&", .symbol .and),
   ("||", .symbol .or)]

/-- A space is no lexeme, and a word that is not reserved is a name. -/
def coarseLexeme? : Chunk → Option Lexeme
  | .mark c => signs.lookup c
  | .word w => some ((reserved.lookup (String.ofList w)).getD (.ident (disguise (String.ofList w))))

def coarse (text : String) : List Lexeme :=
  (chunks text).filterMap coarseLexeme?

theorem coarse_word {word : String} (text : chunks word = [.word word.toList])
    (free : ∀ entry ∈ reserved, word ≠ entry.1) : coarse word = [.ident (disguise word)] := by
  have missing : reserved.lookup word = none :=
    List.lookup_eq_none_iff.mpr fun entry member => by simpa using free entry member
  simp [coarse, text, coarseLexeme?, missing]

theorem coarse_constant (c : Constant) : coarse c.text = [.ident (disguise c.text)] := by
  have others : reserved.all (fun e => (Constant.read e.1.toList).text != e.1) = true := by
    decide +kernel
  refine coarse_word c.chunks_text fun entry member => Constant.text_ne ?_ c
  simpa using List.all_eq_true.mp others entry member

theorem IsWord.chunks {x : Name} (word : IsWord x) : chunks x = [.word x.toList] := by
  have outside : Text.marks.all (fun c => !isNamePart c) = true := by decide +kernel
  have unmarked : ∀ c : Char, isNamePart c → c ∉ Text.marks := fun c part mark => by
    have other := List.all_eq_true.mp outside c mark
    rw [part] at other
    cases other
  obtain ⟨c, more, spelled, -, -, start, parts⟩ := word
  have first : isNamePart c := by simp [isNamePart, start]
  apply Text.chunks_word
  · simp [spelled]
  · rw [spelled]
    exact List.forall_mem_cons.mpr ⟨unmarked c first, fun d member => unmarked d (parts d member)⟩

theorem IsIdentifier.coarse {x : Name} (identifier : IsIdentifier x) :
    coarse x = [.ident (disguise x)] := by
  have others : reserved.all (fun e => Lexeme.ofWord e.1 != .ident e.1 ||
      !e.1.toList.head?.any isNameStart) = true := by
    decide +kernel
  obtain ⟨word, known⟩ := isIdentifier_iff.mp identifier
  refine coarse_word word.chunks fun entry member same => ?_
  have other := List.all_eq_true.mp others entry member
  obtain ⟨c, more, spelled, -, -, start, -⟩ := word
  rw [← same, known, spelled] at other
  simp [start] at other

-- The lexemes of a text that is put together with marks are those of its parts.
theorem coarse_append_begins {sep : String} (begins : Text.Begins sep) (text : String) :
    coarse (text ++ sep) = coarse text ++ coarse sep := by
  rw [coarse, Text.chunks_append_begins begins, List.filterMap_append]
  rfl

theorem coarse_append_ends {sep : String} (ends : Text.Ends sep) (text : String) :
    coarse (sep ++ text) = coarse sep ++ coarse text := by
  rw [coarse, Text.chunks_append_ends ends, List.filterMap_append]
  rfl

theorem coarse_append_joint {sep : String} (begins : Text.Begins sep) (text behind : String) :
    coarse (text ++ (sep ++ behind)) = coarse text ++ coarse (sep ++ behind) := by
  rw [coarse, Text.chunks_append_joint begins, List.filterMap_append]
  rfl

theorem coarse_brackets (text : String) :
    coarse ("(" ++ text ++ ")") = .symbol .openParen :: coarse text ++ [.symbol .closeParen] := by
  simp (disch := decide) only [coarse_append_begins, coarse_append_ends]
  rfl

theorem coarse_binop (op : Operator) (l r : String) :
    coarse (l ++ " " ++ op.symbol ++ " " ++ r) = coarse l ++ .symbol op.sign :: coarse r := by
  have sign : coarse op.symbol = [.symbol op.sign] := by cases op <;> rfl
  simp (disch := decide) only [String.append_assoc, coarse_append_joint, coarse_append_ends, sign]
  rfl

theorem coarse_not (text : String) : coarse ("!" ++ text) = .symbol .bang :: coarse text :=
  coarse_append_ends (by decide) text

theorem coarse_app (f a : String) : coarse (f ++ " " ++ a) = coarse f ++ coarse a := by
  simp (disch := decide) only [String.append_assoc, coarse_append_joint, coarse_append_ends]
  rfl

theorem coarse_arrow (dom cod : String) :
    coarse (dom ++ " -> " ++ cod) = coarse dom ++ .symbol .arrow :: coarse cod := by
  simp (disch := decide) only [String.append_assoc, coarse_append_joint, coarse_append_ends]
  rfl

theorem coarse_lambda (x dom body : String) :
    coarse (Term.binderHead .lam x dom ++ ". " ++ body) =
      .symbol .lambda :: coarse x ++ .symbol .colon :: coarse dom ++
        .symbol .dot :: coarse body := by
  simp (disch := decide) only [Term.binderHead, String.append_assoc, coarse_append_joint,
    coarse_append_ends, List.append_assoc, List.cons_append]
  rfl

theorem coarse_quantifier {b : Binder} (type : b ≠ .lam) (x dom body : String) :
    coarse (Term.binderHead b x dom ++ ". " ++ body) =
      coarse b.glyph ++ .symbol .openParen :: coarse x ++ .symbol .colon :: coarse dom ++
        .symbol .closeParen :: .symbol .dot :: coarse body := by
  cases b with
  | lam => exact absurd rfl type
  | _ =>
    simp (disch := decide) only [Term.binderHead, String.append_assoc, Binder.glyph,
      coarse_append_joint, coarse_append_ends, List.append_assoc, List.cons_append]
    rfl

theorem coarse_cond (t yes no : String) :
    coarse ("if " ++ t ++ " then " ++ yes ++ " else " ++ no) =
      .keyword .ifWord :: coarse t ++ .keyword .thenWord :: coarse yes ++
        .keyword .elseWord :: coarse no := by
  simp (disch := decide) only [String.append_assoc, coarse_append_joint, coarse_append_ends,
    List.append_assoc, List.cons_append]
  rfl

theorem coarse_ascribe (t type : String) :
    coarse ("(" ++ t ++ " : " ++ type ++ ")") =
      .symbol .openParen :: coarse t ++ .symbol .colon :: coarse type ++ [.symbol .closeParen] := by
  simp (disch := decide) only [String.append_assoc, coarse_append_joint, coarse_append_begins,
    coarse_append_ends, List.append_assoc, List.cons_append]
  rfl

/-- Brackets around a text do not change its outline. -/
theorem Derives.bracketAbove {limit tier : Nat} {text : String} {t : Surface}
    (form : Derives tier (coarse text) t) (most : tier ≤ Tier.term) (within : limit ≤ Tier.term) :
    Derives limit (coarse (Term.bracketAbove limit tier text)) t := by
  unfold Term.bracketAbove
  split
  · rw [coarse_brackets]
    exact (Derives.brackets (form.mono most (Nat.le_refl _))).mono (Nat.zero_le _) within
  · rename_i fits
    exact form.mono (Nat.le_of_not_lt fits) within

theorem derives_disguise (word : String) :
    Derives Tier.atom [.ident (disguise word)] (.var (disguise word)) := by
  refine .var (not_spellsUniverse ?_)
  rw [disguise, String.toList_append]
  simp

end Source

namespace Term

/-- The term with all its constants and names disguised, but for the wildcard of an arrow, which has
no word in the text. -/
def outline : Surface → Surface
  | var x => var (disguise x)
  | const c => var (disguise c.text)
  | binop op l r => binop op l.outline r.outline
  | not t => not t.outline
  | app f a => app f.outline a.outline
  | bind b x dom body =>
    bind b (if b = .pi ∧ x = wildcard then wildcard else disguise x) dom.outline body.outline
  | cond t yes no => cond t.outline yes.outline no.outline
  | ascribe t type => ascribe t.outline type.outline

/-- The displayed text has the outline of the surface term with the displayed names. -/
theorem render_outline (t : Indexed) {p : Constant → Prop} {shown : List Name} {limit : Nat}
    (spelled : (t.surface shown).Spelled Bindable p) (within : limit ≤ Tier.term) :
    Derives limit (coarse (t.render shown limit)) (t.surface shown).outline := by
  induction t generalizing shown limit with
  | var v =>
    have word : coarse (render shown limit (.var v)) = _ := spelled.identifier.coarse
    rw [word]
    exact (derives_disguise _).mono (Nat.zero_le _) within
  | const c =>
    have word := derives_disguise c.text
    rw [← coarse_constant] at word
    exact (word.mono (Nat.zero_le _) c.tier_le).bracketAbove c.tier_le within
  | binop op l r leftIh rightIh =>
    have most : op.leftTier ≤ Tier.term ∧ op.tier ≤ Tier.term := by
      cases op <;> decide
    have left := leftIh spelled.1 most.1
    have right := rightIh spelled.2 (Nat.le_trans (Nat.sub_le _ 1) most.2)
    have form := Derives.binop op left right
    rw [← coarse_binop] at form
    exact form.bracketAbove most.2 within
  | not t ih =>
    have operand : Derives Tier.atom _ _ := ih spelled (by decide)
    have form := Derives.negation (operand.mono (by decide) (by decide))
    rw [← coarse_not] at form
    exact form.bracketAbove (by decide) within
  | app f a fnIh argIh =>
    have fn : Derives Tier.application _ _ := fnIh spelled.1 (by decide)
    have arg : Derives Tier.atom _ _ := argIh spelled.2 (by decide)
    have form := Derives.application fn arg
    rw [← coarse_app] at form
    exact form.bracketAbove (by decide) within
  | bind b x dom body domIh bodyIh =>
    obtain ⟨identifier, domain, under⟩ := spelled
    simp only [render, surface, outline]
    split
    · rename_i anonymous
      obtain ⟨rfl, rfl⟩ := anonymous
      have left : Derives (Tier.arrow - 1) _ _ := domIh domain (by decide)
      have right : Derives Tier.arrow _ _ := bodyIh under (by decide)
      have form := Derives.arrow left (right.mono (by decide) (Nat.le_refl _))
      rw [← coarse_arrow] at form
      simpa only [freshen_wildcard, and_self, if_true] using form.bracketAbove (by decide) within
    · rename_i named
      have left := domIh domain (Nat.le_refl _)
      have right := bodyIh under (Nat.le_refl _)
      have word := identifier.coarse
      have bound : ¬ (b = .pi ∧ freshen shown x = wildcard) := fun arrow =>
        freshen_ne_wildcard (fun same => named ⟨arrow.1, same⟩) arrow.2
      rw [if_neg bound]
      refine Derives.bracketAbove ?_ (Nat.le_refl _) within
      cases b with
      | lam =>
        rw [coarse_lambda, word]
        exact .lambda (by decide : Lexeme.symbol .lambda ∈ openings .lam) left right
      | pi =>
        rw [coarse_quantifier (by decide), word]
        exact .quantifier (by decide) (by decide : Lexeme.symbol .forallSign ∈ _) left right
      | sigma =>
        rw [coarse_quantifier (by decide), word]
        exact .quantifier (by decide) (by decide : Lexeme.symbol .existsSign ∈ _) left right
  | cond t yes no testIh yesIh noIh =>
    have test := testIh spelled.1 (Nat.le_refl _)
    have first := yesIh spelled.2.1 (Nat.le_refl _)
    have second := noIh spelled.2.2 (Nat.le_refl _)
    have form := Derives.conditional test first second
    rw [← coarse_cond] at form
    exact form.bracketAbove (by decide) within
  | ascribe t type ih typeIh =>
    have subject := ih spelled.1 (Nat.le_refl _)
    have ascribed := typeIh spelled.2 (Nat.le_refl _)
    have form := Derives.ascription subject ascribed
    rw [← coarse_ascribe] at form
    exact form.mono (Nat.zero_le _) within

end Term

/-- No word begins with a digit or a sign. -/
theorem Source.IsWord.ne_ofInt {word : String} (whole : IsWord word) (n : Int) :
    Text.Decimal.ofInt n ≠ word := by
  rintro rfl
  obtain ⟨c, more, spelled, -, noDigit, start, -⟩ := whole
  obtain ⟨d, digits, -, ascii, text⟩ := Text.Decimal.toList_ofInt n
  rw [text] at spelled
  split at spelled
  · cases spelled
    exact absurd start (by decide +kernel)
  · cases spelled
    rw [(isDigit_of_ascii (ascii c List.mem_cons_self)).2.1] at noDigit
    cases noDigit

/-- A word of the letter of universes and a number spells one, for a sign is no part of a word. -/
theorem Source.IsWord.spellsUniverse {n : Int} (whole : IsWord ("U" ++ Text.Decimal.ofInt n)) :
    SpellsUniverse ("U" ++ Text.Decimal.ofInt n) := by
  have letter : ("U" ++ Text.Decimal.ofInt n).toList = 'U' :: (Text.Decimal.ofInt n).toList :=
    String.toList_append
  obtain ⟨c, more, spelled, -, -, -, parts⟩ := whole
  obtain ⟨d, digits, -, ascii, text⟩ := Text.Decimal.toList_ofInt n
  rw [letter, text] at spelled
  split at spelled
  · cases spelled
    exact absurd (parts '-' List.mem_cons_self) (by decide +kernel)
  · rename_i nonneg
    rw [text, if_neg nonneg] at letter
    exact ⟨d :: digits, List.cons_ne_nil d digits, ascii, letter⟩

/-- No name is written as a constant. -/
theorem Bindable.ne_text {x : Name} (bindable : Bindable x) (c : Constant) : c.text ≠ x := by
  rintro rfl
  obtain ⟨word, known⟩ := isIdentifier_iff.mp bindable.identifier
  cases c with
  | int n => exact word.ne_ofInt n.toInt rfl
  | bool b => cases b <;> exact absurd known (by decide)
  | intType | boolType => exact absurd known (by decide)
  | univ level =>
    have plain := bindable.plain
    rw [Constant.text] at word known plain
    split at word
    · rename_i zero
      rw [if_pos zero] at known
      exact absurd known (by decide)
    · rename_i nonzero
      rw [if_neg nonzero] at plain
      exact plain word.spellsUniverse

def Source.uncover (x : Name) : String :=
  String.ofList x.toList.tail

@[simp] theorem Source.uncover_disguise (word : String) : uncover (disguise word) = word := by
  simp [uncover, disguise]

theorem Source.disguise_ne_wildcard (word : String) : disguise word ≠ wildcard := fun same => by
  have characters := congrArg String.toList same
  rw [disguise, String.toList_append] at characters
  simp [wildcard] at characters

namespace Term

/-- The term that has an outline. -/
def uncovered : Surface → Surface
  | var x =>
    let c := Constant.read (uncover x).toList
    if c.text = uncover x then const c else var (uncover x)
  | const c => const c
  | binop op l r => binop op l.uncovered r.uncovered
  | not t => not t.uncovered
  | app f a => app f.uncovered a.uncovered
  | bind b x dom body =>
    bind b (if x = wildcard then wildcard else uncover x) dom.uncovered body.uncovered
  | cond t yes no => cond t.uncovered yes.uncovered no.uncovered
  | ascribe t type => ascribe t.uncovered type.uncovered

theorem uncovered_outline {t : Surface} {p : Constant → Prop} (spelled : t.Spelled Bindable p) :
    t.outline.uncovered = t := by
  induction t with
  | var x => simp [outline, uncovered, Bindable.ne_text spelled]
  | const c => simp [outline, uncovered, Constant.read_text]
  | not t ih => rw [outline, uncovered, ih spelled]
  | bind b x dom body domIh bodyIh =>
    rw [outline, uncovered, domIh spelled.2.1, bodyIh spelled.2.2]
    split
    · rename_i anonymous
      rw [if_pos rfl, anonymous.2]
    · rw [if_neg (disguise_ne_wildcard x), uncover_disguise]
  | cond t yes no testIh yesIh noIh =>
    rw [outline, uncovered, testIh spelled.1, yesIh spelled.2.1, noIh spelled.2.2]
  | binop _ _ _ left right | app _ _ left right | ascribe _ _ left right =>
    rw [outline, uncovered, left spelled.1, right spelled.2]

/-- Terms that are displayed alike have the same names displayed at the same places. -/
theorem surface_eq_of_render_eq {a b : Indexed} {p : Constant → Prop} {shown : List Name}
    (spelled : (a.surface shown).Spelled Bindable p)
    (spelled' : (b.surface shown).Spelled Bindable p)
    (same : a.render shown Tier.term = b.render shown Tier.term) :
    a.surface shown = b.surface shown := by
  have form := a.render_outline spelled (Nat.le_refl _)
  have form' := b.render_outline spelled' (Nat.le_refl _)
  rw [← same] at form'
  rw [← uncovered_outline spelled, form.unique form', uncovered_outline spelled']

end Term
end DepCalc

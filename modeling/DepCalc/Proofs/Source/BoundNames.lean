import DepCalc.Proofs.Source.Identifiers

/-!
Where the names of a parsed term come from. Its variables are words of the text that spell no
universe. Its binders are the words that stand behind the signs of binders, and these are not asked
whether they spell one; a binder that does cannot be called by its name.
-/
namespace DepCalc

open Source

/-- The names of the binders, from left to right. -/
def Term.binders : Surface → List Name
  | var _ | const _ => []
  | binop _ l r => l.binders ++ r.binders
  | not t => t.binders
  | app f a => f.binders ++ a.binders
  | bind _ x dom body => x :: dom.binders ++ body.binders
  | cond t yes no => t.binders ++ yes.binders ++ no.binders
  | ascribe t type => t.binders ++ type.binders

theorem Term.Spelled.isIdentifier {t : Surface} {q : Name → Prop} {p : Constant → Prop} {x : Name}
    (spelled : t.Spelled q p) (member : x ∈ t.binders) : IsIdentifier x := by
  induction t with
  | var | const => exact absurd member List.not_mem_nil
  | not t ih => exact ih spelled member
  | bind b y dom body domIh bodyIh =>
    simp only [binders, List.cons_append, List.mem_cons, List.mem_append] at member
    rcases member with rfl | inDomain | inBody
    · exact spelled.1
    · exact domIh spelled.2.1 inDomain
    · exact bodyIh spelled.2.2 inBody
  | cond t yes no testIh yesIh noIh =>
    simp only [binders, List.mem_append] at member
    rcases member with (inTest | inYes) | inNo
    · exact testIh spelled.1 inTest
    · exact yesIh spelled.2.1 inYes
    · exact noIh spelled.2.2 inNo
  | binop _ _ _ left right | app _ _ left right | ascribe _ _ left right =>
    rcases List.mem_append.mp member with inLeft | inRight
    · exact left spelled.1 inLeft
    · exact right spelled.2 inRight

namespace Source

/-- The name that a lexeme binds, given what stands behind it. -/
def boundBy? (lexeme : Lexeme) : List Lexeme → Option Name
  | .ident x :: _ => if lexeme ∈ openings .lam then some x else none
  | .symbol .openParen :: .ident x :: _ =>
    if lexeme ∈ openings .pi ++ openings .sigma then some x else none
  | _ => none

def binderWords : List Lexeme → List Name
  | [] => []
  | lexeme :: rest => (boundBy? lexeme rest).toList ++ binderWords rest

theorem binderWords_cons {lexeme : Lexeme} (rest : List Lexeme)
    (plain : lexeme ∉ openings .lam ++ (openings .pi ++ openings .sigma)) :
    binderWords (lexeme :: rest) = binderWords rest := by
  rw [List.mem_append, not_or] at plain
  have none : boundBy? lexeme rest = none := by
    unfold boundBy?
    split
    · exact if_neg plain.1
    · exact if_neg plain.2
    · rfl
  rw [binderWords, none]
  rfl

theorem binderWords_ident (x : Name) (rest : List Lexeme) :
    binderWords (.ident x :: rest) = binderWords rest :=
  binderWords_cons rest (by simp [openings])

theorem binderWords_numeral (digits : String) (rest : List Lexeme) :
    binderWords (.numeral digits :: rest) = binderWords rest :=
  binderWords_cons rest (by simp [openings])

theorem binderWords_constant {word : Keyword} {c : Constant} (means : (word, c) ∈ constantWords)
    (rest : List Lexeme) : binderWords (.keyword word :: rest) = binderWords rest := by
  refine binderWords_cons rest ?_
  cases word <;> cases constant?_eq_some.mpr means <;> decide

theorem binderWords_sign (op : Operator) (rest : List Lexeme) :
    binderWords (.symbol op.sign :: rest) = binderWords rest :=
  binderWords_cons rest (by cases op <;> decide)

theorem binderWords_lambda {opening : Lexeme} (opens : opening ∈ openings .lam) (x : Name)
    (rest : List Lexeme) :
    binderWords (opening :: .ident x :: rest) = x :: binderWords rest := by
  rw [binderWords, boundBy?, if_pos opens, binderWords_ident]
  rfl

theorem binderWords_quantifier {b : Binder} {opening : Lexeme} (type : b ≠ .lam)
    (opens : opening ∈ openings b) (x : Name) (rest : List Lexeme) :
    binderWords (opening :: .symbol .openParen :: .ident x :: rest) = x :: binderWords rest := by
  have quantifies : opening ∈ openings .pi ++ openings .sigma := by
    cases b with
    | lam => exact absurd rfl type
    | pi => exact List.mem_append_left _ opens
    | sigma => exact List.mem_append_right _ opens
  rw [binderWords, boundBy?, if_pos quantifies, binderWords_cons _ (by decide), binderWords_ident]
  rfl

/-- The names among some others that are not the wildcard. -/
def named (names : List Name) : List Name :=
  names.filter (· ≠ wildcard)

theorem named_append (names names' : List Name) :
    named (names ++ names') = named names ++ named names' :=
  List.filter_append names names'

theorem named_cons (x : Name) {names names' : List Name} (same : named names = named names') :
    named (x :: names) = named (x :: names') := by
  simp only [named, List.filter_cons] at same ⊢
  rw [same]

/-- Only the wildcards of arrows are binders without a word of their own. What follows a form is not
bound by a sign inside it. -/
theorem Derives.binders {tier : Nat} {ls : List Lexeme} {t : Surface} (form : Derives tier ls t)
    (rest : List Lexeme) :
    named (binderWords (ls ++ rest)) = named t.binders ++ named (binderWords rest) := by
  induction form generalizing rest with
  | numeral => exact congrArg named (binderWords_numeral _ rest)
  | constant means => exact congrArg named (binderWords_constant means rest)
  | univ | var => exact congrArg named (binderWords_ident _ rest)
  | brackets inside ih =>
    simp (disch := decide) only [List.cons_append, List.append_assoc, List.nil_append,
      binderWords_cons, ih]
  | ascription subject ascribed ih ih' =>
    simp (disch := decide) only [List.cons_append, List.append_assoc, List.nil_append,
      binderWords_cons, ih, ih', Term.binders, named_append]
  | application fn arg ih ih' =>
    simp only [List.append_assoc, ih, ih', Term.binders, named_append]
  | negation operand ih =>
    simp (disch := decide) only [List.cons_append, binderWords_cons, ih, Term.binders]
  | negative value =>
    simp (disch := decide) only [List.cons_append, List.nil_append, binderWords_cons,
      binderWords_numeral]
    rfl
  | operation op left right ih ih' =>
    simp only [List.append_assoc, List.cons_append, ih, binderWords_sign, ih', Term.binders,
      named_append]
  | arrow domain codomain ih ih' =>
    have anonymous (names : List Name) : named (wildcard :: names) = named names := by
      simp [named]
    simp (disch := decide) only [List.append_assoc, List.cons_append, ih, binderWords_cons, ih',
      Term.binders, anonymous, named_append]
  | @lambda opening x ls ls' dom body opens domain under ih ih' =>
    have inside : named (binderWords (.symbol .colon :: ls ++ .symbol .dot :: ls' ++ rest)) =
        named (dom.binders ++ body.binders ++ binderWords rest) := by
      simp (disch := decide) only [List.append_assoc, List.cons_append, binderWords_cons, ih, ih',
        named_append]
    have words := binderWords_lambda opens x (.symbol .colon :: ls ++ .symbol .dot :: ls' ++ rest)
    rw [← named_append]
    exact (congrArg named words).trans (named_cons x inside)
  | @quantifier b opening x ls ls' dom body type opens domain under ih ih' =>
    have inside : named (binderWords
        (.symbol .colon :: ls ++ .symbol .closeParen :: .symbol .dot :: ls' ++ rest)) =
        named (dom.binders ++ body.binders ++ binderWords rest) := by
      simp (disch := decide) only [List.append_assoc, List.cons_append, binderWords_cons, ih, ih',
        named_append]
    have words := binderWords_quantifier type opens x
      (.symbol .colon :: ls ++ .symbol .closeParen :: .symbol .dot :: ls' ++ rest)
    rw [← named_append]
    exact (congrArg named words).trans (named_cons x inside)
  | conditional test first second ih ih' ih'' =>
    simp (disch := decide) only [List.append_assoc, List.cons_append, binderWords_cons, ih, ih',
      ih'', Term.binders, named_append]
  | looser below form ih => exact ih rest

/-- An identifier by itself is read as a variable unless it spells a universe. -/
theorem IsIdentifier.parse_eq_var {x : Name} (identifier : IsIdentifier x) :
    parse x.toList = .ok (.var x) ↔ ¬ SpellsUniverse x := by
  obtain ⟨tokens, scanned, lexemes⟩ := identifier.spells.scans.scan
  constructor
  · intro parsed
    exact parse_spelled parsed fun _ _ _ _ plain => plain
  · intro plain
    have form : Derives Tier.term [.ident x] (.var x) :=
      .mono (.var plain) (Nat.zero_le _) (Nat.le_refl _)
    exact parse_eq_ok_iff.mpr ⟨tokens, scanned, lexemes ▸ form⟩

/-- The variables of a parsed term are identifiers that spell no universe. Its binders, but for the
wildcards, are the words behind the signs of binders, in their order; none of them spells a universe
if and only if none of these words does, and each binder is an identifier that is read as a variable
if and only if it spells no universe. -/
theorem parsed_names {text : List Char} {t : Surface} (parsed : parse text = .ok t) :
    t.Spelled Bindable Constant.Writable ∧
    (∃ tokens, Tokens.scan text = .ok tokens ∧
      named t.binders = named (binderWords (tokens.list.map Token.lexeme)) ∧
      ((∀ x ∈ t.binders, Bindable x) ↔
        ∀ x ∈ binderWords (tokens.list.map Token.lexeme), ¬ SpellsUniverse x)) ∧
    ∀ x ∈ t.binders, IsIdentifier x ∧ (parse x.toList = .ok (.var x) ↔ ¬ SpellsUniverse x) := by
  obtain ⟨tokens, scanned, form⟩ := parse_eq_ok_iff.mp parsed
  have spelled : t.Spelled Bindable Constant.Writable := parse_spelled parsed
    fun other scanned x member plain => ⟨(scans_of_scan scanned).isIdentifier member, plain⟩
  have words : named t.binders = named (binderWords (tokens.list.map Token.lexeme)) := by
    have ends := form.binders []
    rw [List.append_nil] at ends
    rw [ends]
    exact (List.append_nil _).symm
  have member (x : Name) (other : x ≠ wildcard) :
      x ∈ t.binders ↔ x ∈ binderWords (tokens.list.map Token.lexeme) := by
    have same : x ∈ named t.binders ↔ x ∈ named (binderWords (tokens.list.map Token.lexeme)) := by
      rw [words]
    simpa [named, other] using same
  refine ⟨spelled, ⟨tokens, scanned, words, ?_⟩, fun x bound => ?_⟩
  · constructor
    · intro bindable x word
      by_cases anonymous : x = wildcard
      · exact anonymous ▸ not_spellsUniverse_wildcard
      · exact (bindable x ((member x anonymous).mpr word)).plain
    · intro plain x bound
      refine ⟨spelled.isIdentifier bound, ?_⟩
      by_cases anonymous : x = wildcard
      · exact anonymous ▸ not_spellsUniverse_wildcard
      · exact plain x ((member x anonymous).mp bound)
  · exact ⟨spelled.isIdentifier bound, (spelled.isIdentifier bound).parse_eq_var⟩

/-- The universe stands where no name is bound, and the binder can be called. -/
theorem parsed_names_universe :
    parse "λx:U1. x".toList = .ok (.bind .lam "x" (.const (.univ 1)) (.var "x")) ∧
      parse "x".toList = .ok (.var "x") := by
  have parsed : parse "λx:U1. x".toList = .ok (.bind .lam "x" (.const (.univ 1)) (.var "x")) := by
    decide +kernel
  obtain ⟨-, -, called⟩ := parsed_names parsed
  obtain ⟨-, reads⟩ := called "x" List.mem_cons_self
  exact ⟨parsed, reads.mpr (not_spellsUniverse (by decide))⟩

/-- The binder is called as a universe, which is what stands in its body. -/
theorem parse_universe_bound :
    parse "\\U1:Int. U1".toList = .ok (.bind .lam "U1" (.const .intType) (.const (.univ 1))) ∧
      SpellsUniverse "U1" :=
  ⟨by decide +kernel, ['1'], by decide, List.forall_mem_singleton.mpr rfl, rfl⟩

end Source
end DepCalc

import DepCalc.Proofs.Naming
import DepCalc.Proofs.Source.Parsing
import DepCalc.Scope
import DepCalc.Term.Alpha
import DepCalc.Term.Display

/-!
What is displayed is read back. The text of an indexed term is parsed as a surface term with the
displayed names, and that is resolved to the indexed term itself, up to names: brackets stand where
the grammar asks for them, tokens do not run together, and no displayed name hides another one that
is in use.
-/
namespace DepCalc

open Source

/-- An identifier that is read as a name, not as a universe. -/
structure Bindable (x : Name) : Prop where
  identifier : IsIdentifier x
  plain : ¬ SpellsUniverse x

theorem Source.IsWord.primed {x : Name} (word : IsWord x) (count : Nat) :
    IsWord (primed x count) := by
  obtain ⟨c, more, spelled, noBlank, noDigit, start, parts⟩ := word
  refine ⟨c, more ++ List.replicate count '\'', ?_, noBlank, noDigit, start, ?_⟩
  · rw [toList_primed, spelled, List.cons_append]
  · intro d member
    rcases List.mem_append.mp member with inside | prime
    · exact parts d inside
    · rw [List.eq_of_mem_replicate prime]
      simp [isNamePart]

/-- No keyword has a prime. -/
theorem ofWord_primed (x : Name) (count : Nat) :
    Lexeme.ofWord (primed x (count + 1)) = .ident (primed x (count + 1)) := by
  have unknown : Keyword.ofText? (primed x (count + 1)) = none := by
    rw [Keyword.ofText?, List.find?_eq_none]
    intro word _ same
    have prime : '\'' ∈ word.text.toList := by
      rw [beq_iff_eq.mp same, toList_primed]
      simp
    revert prime
    cases word <;> decide
  simp only [Lexeme.ofWord, unknown]

theorem Source.IsIdentifier.primed {x : Name} (identifier : IsIdentifier x) (count : Nat) :
    IsIdentifier (primed x count) := by
  cases count with
  | zero =>
    rw [primed_zero]
    exact identifier
  | succ count =>
    obtain ⟨word, -⟩ := isIdentifier_iff.mp identifier
    exact isIdentifier_iff.mpr ⟨word.primed (count + 1), ofWord_primed x count⟩

theorem not_spellsUniverse_primed {x : Name} (plain : ¬ SpellsUniverse x) (count : Nat) :
    ¬ SpellsUniverse (primed x count) := by
  cases count with
  | zero =>
    rw [primed_zero]
    exact plain
  | succ count =>
    rintro ⟨digits, -, ascii, spelled⟩
    have prime : '\'' ∈ 'U' :: digits := by
      rw [← spelled, toList_primed]
      simp
    rcases List.mem_cons.mp prime with same | member
    · revert same
      decide
    · have digit := ascii '\'' member
      revert digit
      decide

theorem Source.IsIdentifier.freshen {x : Name} (identifier : IsIdentifier x) (taken : List Name) :
    IsIdentifier (freshen taken x) := by
  by_cases named : x = wildcard
  · rw [named, freshen_wildcard]
    exact named ▸ identifier
  · obtain ⟨count, chosen, -, -⟩ := freshen_spec taken named
    rw [chosen]
    exact identifier.primed count

/-- A name by which a variable can be called. -/
structure Referable (x : Name) : Prop where
  named : x ≠ wildcard
  plain : ¬ SpellsUniverse x

theorem Referable.freshen {x : Name} (referable : Referable x) (taken : List Name) :
    Referable (freshen taken x) := by
  refine ⟨freshen_ne_wildcard referable.named, ?_⟩
  obtain ⟨count, chosen, -, -⟩ := freshen_spec taken referable.named
  rw [chosen]
  exact not_spellsUniverse_primed referable.plain count

/-- The names of a scope, innermost first, and the names under which they are displayed. -/
inductive Shown : List Name → List Name → Prop
  | nil : Shown [] []
  | cons {names shown : List Name} {x : Name} (identifier : IsIdentifier x)
      (outer : Shown names shown) : Shown (x :: names) (freshen shown x :: shown)

/-- Distinct names are displayed as they are. -/
theorem Shown.of_nodup {names : List Name} (distinct : names.Nodup)
    (identifiers : ∀ x ∈ names, IsIdentifier x) : Shown names names := by
  induction names with
  | nil => exact .nil
  | cons x names ih =>
    obtain ⟨free, distinct⟩ := List.nodup_cons.mp distinct
    have outer := ih distinct fun y member => identifiers y (List.mem_cons_of_mem x member)
    have head := Shown.cons (identifiers x List.mem_cons_self) outer
    rwa [freshen_of_not_mem free] at head

/-- A name that does not refer to the new binder is found one place further out. -/
theorem Scope.lookup_lift_of_passed (scope : Scope) {how : Matching} {x y : Name}
    (passed : how.refersTo y x = false) :
    (scope.lift x).lookup how y = (scope.lookup how y).map (· + 1) := by
  simp only [Scope.lookup, Scope.lift, List.find?_cons, passed, List.find?_map, Function.comp_def]
  cases scope.find? fun e => how.refersTo y e.name with
  | none => simp [Except.map]
  | some e => simp [Except.map]

theorem Scope.lookup_lift (scope : Scope) {x y : Name} (apart : y ≠ x) :
    (scope.lift x).lookup .textual y = (scope.lookup .textual y).map (· + 1) :=
  scope.lookup_lift_of_passed (beq_false_of_ne apart)

/-- A name by which a variable can be called is displayed as another one, which refers to the same
place. -/
theorem Shown.lookup {names shown : List Name} (scope : Shown names shown) {i : Nat} {x : Name}
    (found : names[i]? = some x) (referable : Referable x) :
    ∃ y, shown[i]? = some y ∧ IsIdentifier y ∧ Referable y ∧
      (Scope.ofNames shown).lookup .textual y = .ok (Int64.ofNat i) := by
  induction scope generalizing i with
  | nil => simp at found
  | @cons names shown z identifier outer ih =>
    cases i with
    | zero =>
      simp only [List.getElem?_cons_zero, Option.some.injEq] at found
      subst found
      refine ⟨_, rfl, identifier.freshen shown, referable.freshen shown, ?_⟩
      simp [Scope.lookup, Scope.ofNames, Scope.lift, Matching.refersTo]
    | succ i =>
      rw [List.getElem?_cons_succ] at found
      obtain ⟨y, place, ok, other, resolves⟩ := ih found
      refine ⟨y, place, ok, other, ?_⟩
      have apart : y ≠ freshen shown z := by
        rintro rfl
        by_cases anonymous : z = wildcard
        · exact other.named (by rw [anonymous, freshen_wildcard])
        · exact freshen_not_mem anonymous (List.mem_of_getElem? place)
      rw [Scope.ofNames, Scope.lookup_lift _ apart, resolves]
      simp [Except.map]

theorem atIndex?_eq_some {α : Type} {entries : List α} {ix : Int64} {entry : α} :
    atIndex? entries ix = some entry ↔ ¬ ix < 0 ∧ entries[ix.toNatClampNeg]? = some entry := by
  unfold atIndex?
  split <;> simp [*]

/-- The least word and negative universe levels have no spelling. -/
def Constant.Writable : Constant → Prop
  | int n => Int64.minValue < n
  | univ level => 0 ≤ level
  | _ => True

/-- No condition on constants. -/
abbrev anyConstant : Constant → Prop := fun _ => True

namespace Term

/-- All variables refer to names in scope other than the wildcard, and all binders have names that
can be displayed. -/
def Writable (names : List Name) : Indexed → Prop
  | var v => ∃ x, atIndex? names v.ix = some x ∧ x ≠ wildcard
  | const c => c.Writable
  | binop _ l r => l.Writable names ∧ r.Writable names
  | not t => t.Writable names
  | app f a => f.Writable names ∧ a.Writable names
  | bind _ x dom body => Bindable x ∧ dom.Writable names ∧ body.Writable (x :: names)
  | cond t yes no => t.Writable names ∧ yes.Writable names ∧ no.Writable names
  | ascribe t type => t.Writable names ∧ type.Writable names

/-- All variables refer to names in scope of which `q` holds, all binders are identifiers, and `p`
holds of all constants. Nothing more is asked of binders that no variable refers to. -/
def Readable (q : Name → Prop) (p : Constant → Prop) (names : List Name) : Indexed → Prop
  | var v => ∃ x, atIndex? names v.ix = some x ∧ q x
  | const c => p c
  | binop _ l r => l.Readable q p names ∧ r.Readable q p names
  | not t => t.Readable q p names
  | app f a => f.Readable q p names ∧ a.Readable q p names
  | bind _ x dom body => IsIdentifier x ∧ dom.Readable q p names ∧ body.Readable q p (x :: names)
  | cond t yes no => t.Readable q p names ∧ yes.Readable q p names ∧ no.Readable q p names
  | ascribe t type => t.Readable q p names ∧ type.Readable q p names

/-- The surface term with the displayed names. -/
def surface (shown : List Name) : Indexed → Surface
  | var v => .var ((atIndex? shown v.ix).getD v.name)
  | const c => .const c
  | binop op l r => .binop op (l.surface shown) (r.surface shown)
  | not t => .not (t.surface shown)
  | app f a => .app (f.surface shown) (a.surface shown)
  | bind b x dom body =>
    .bind b (freshen shown x) (dom.surface shown) (body.surface (freshen shown x :: shown))
  | cond t yes no => .cond (t.surface shown) (yes.surface shown) (no.surface shown)
  | ascribe t type => .ascribe (t.surface shown) (type.surface shown)

theorem Writable.readable {t : Indexed} {names : List Name} (writable : t.Writable names)
    (bindable : ∀ x ∈ names, Bindable x) : t.Readable Referable Constant.Writable names := by
  induction t generalizing names with
  | var v =>
    obtain ⟨x, found, named⟩ := writable
    obtain ⟨-, place⟩ := atIndex?_eq_some.mp found
    exact ⟨x, found, named, (bindable x (List.mem_of_getElem? place)).plain⟩
  | const c => exact writable
  | not t ih => exact ih writable bindable
  | bind b x dom body domIh bodyIh =>
    obtain ⟨binder, domain, under⟩ := writable
    refine ⟨binder.identifier, domIh domain bindable, bodyIh under ?_⟩
    exact List.forall_mem_cons.mpr ⟨binder, bindable⟩
  | cond t yes no testIh yesIh noIh =>
    exact ⟨testIh writable.1 bindable, yesIh writable.2.1 bindable, noIh writable.2.2 bindable⟩
  | binop _ _ _ left right | app _ _ left right | ascribe _ _ left right =>
    exact ⟨left writable.1 bindable, right writable.2 bindable⟩

end Term

theorem ofNat_toNatClampNeg {ix : Int64} (nonneg : ¬ ix < 0) :
    Int64.ofNat ix.toNatClampNeg = ix := by
  rw [Int64.lt_iff_toInt_lt] at nonneg
  have word : (ix.toInt.toNat : Int) = ix.toInt := Int.toNat_of_nonneg (Int.not_lt.mp nonneg)
  rw [← Int64.toNat_toInt, ← Int64.ofInt_eq_ofNat, word, Int64.ofInt_toInt]

theorem Shown.atIndex? {names shown : List Name} (scope : Shown names shown) {ix : Int64} {x : Name}
    (found : atIndex? names ix = some x) (referable : Referable x) :
    ∃ y, atIndex? shown ix = some y ∧ IsIdentifier y ∧ Referable y ∧
      (Scope.ofNames shown).lookup .textual y = .ok ix := by
  obtain ⟨nonneg, found⟩ := atIndex?_eq_some.mp found
  obtain ⟨y, place, identifier, other, resolves⟩ := scope.lookup found referable
  rw [ofNat_toNatClampNeg nonneg] at resolves
  exact ⟨y, atIndex?_eq_some.mpr ⟨nonneg, place⟩, identifier, other, resolves⟩

/-- The text is read as the term, as a form of the tier. -/
def Written (tier : Nat) (text : String) (t : Surface) : Prop :=
  ∃ ls, Spells text ls ∧ Derives tier ls t

namespace Written

variable {tier : Nat} {text : String} {t : Surface}

theorem mono {tier' : Nat} (written : Written tier text t) (le : tier ≤ tier')
    (most : tier' ≤ Tier.term) : Written tier' text t := by
  obtain ⟨ls, spells, form⟩ := written
  exact ⟨ls, spells, form.mono le most⟩

theorem bracketAbove {limit : Nat} (written : Written tier text t) (most : tier ≤ Tier.term)
    (within : limit ≤ Tier.term) : Written limit (Term.bracketAbove limit tier text) t := by
  unfold Term.bracketAbove
  split
  · obtain ⟨ls, spells, form⟩ := written.mono most (Nat.le_refl _)
    have closed : Glue Symbol.closeParen.text _ := Glue.sign (by decide)
    have opened : Glue Symbol.openParen.text _ := Glue.sign (by decide)
    refine ⟨_, ?_, (Derives.brackets form).mono (Nat.zero_le _) within⟩
    rw [String.append_assoc]
    exact opened.append (spells.append closed.spells (by decide +kernel))
  · rename_i fits
    exact written.mono (Nat.le_of_not_lt fits) within

end Written

theorem numeral_repr {n : Nat} (fits : n < 2 ^ 63) : Numeral n.repr.toList n := by
  rw [Nat.toList_repr]
  exact ⟨Nat.toDigits_ne_nil,
    fun c member => Nat.isDigit_of_mem_toDigits (by decide) (by decide) member,
    Nat.ofDigitChars_ten_toDigits, fits⟩

theorem head?_toDigits_ne_zero (n : Nat) (pos : 0 < n) :
    (Nat.toDigits 10 n).head? ≠ some '0' := by
  by_cases small : n < 10
  · rw [Nat.toDigits_of_lt_base small, List.head?_cons, ne_eq, Option.some.injEq,
      Nat.digitChar_eq_zero]
    omega
  · rw [Nat.toDigits_of_base_le (by decide) (by omega),
      List.head?_append_of_ne_nil _ Nat.toDigits_ne_nil]
    exact head?_toDigits_ne_zero (n / 10) (by omega)

/-- A universe is spelled by one word, since its digits prolong the letter in front of them. -/
theorem spells_universe {n : Nat} (fits : n < 2 ^ 63) :
    Spells ("U" ++ n.repr) [.ident ("U" ++ n.repr)] := by
  have value := numeral_repr fits
  have spelled : ("U" ++ n.repr).toList = 'U' :: n.repr.toList := by
    rw [String.toList_append]
    rfl
  apply IsIdentifier.spells
  rw [isIdentifier_iff]
  refine ⟨⟨'U', n.repr.toList, spelled, ?_, ?_, ?_, ?_⟩, ?_⟩
  · decide +kernel
  · decide +kernel
  · decide +kernel
  · intro c member
    simp [isNamePart, (isDigit_of_ascii (value.ascii c member)).2.1]
  · have unknown : Keyword.ofText? ("U" ++ n.repr) = none := by
      rw [Keyword.ofText?, List.find?_eq_none]
      intro word _ same
      have begins : word.text.toList.head? = some 'U' := by
        rw [beq_iff_eq.mp same, spelled]
        rfl
      revert begins
      cases word <;> decide
    simp only [Lexeme.ofWord, unknown]

theorem Constant.written_int {n : Int64} (writable : Int64.minValue < n) :
    Written (Constant.int n).tier (Constant.int n).text (.const (.int n)) := by
  rw [Int64.lt_iff_toInt_lt, show Int64.minValue.toInt = -2 ^ 63 by decide] at writable
  have below := n.toInt_lt
  have value := numeral_repr (n := n.toInt.natAbs) (by omega)
  by_cases negative : n < 0
  · have sign : n.toInt < 0 := by rwa [Int64.lt_iff_toInt_lt] at negative
    have word : -Int64.ofNat n.toInt.natAbs = n := by
      rw [← Int64.ofInt_eq_ofNat, ← Int64.ofInt_neg, Int.ofNat_natAbs_of_nonpos (by omega),
        Int.neg_neg, Int64.ofInt_toInt]
    have form := Derives.negative value
    rw [word] at form
    simp only [Constant.tier, if_pos negative, Constant.text, Text.Decimal.ofInt, if_pos sign]
    exact ⟨_, Spells.negative value, form⟩
  · have sign : ¬ n.toInt < 0 := by rwa [Int64.lt_iff_toInt_lt] at negative
    have word : Int64.ofNat n.toInt.natAbs = n := by
      rw [← Int64.ofInt_eq_ofNat, Int.natAbs_of_nonneg (by omega), Int64.ofInt_toInt]
    have form := Derives.numeral value
    rw [word] at form
    simp only [Constant.tier, if_neg negative, Constant.text, Text.Decimal.ofInt, if_neg sign]
    exact ⟨_, Spells.numeral value, form⟩

theorem Constant.written_univ {level : Int64} (writable : 0 ≤ level) (nonzero : level ≠ 0) :
    Written (Constant.univ level).tier (Constant.univ level).text (.const (.univ level)) := by
  rw [Int64.le_iff_toInt_le, Int64.toInt_zero] at writable
  have positive : level.toInt ≠ 0 := by
    rw [← Int64.toInt_zero]
    exact fun same => nonzero (Int64.toInt_inj.mp same)
  have below := level.toInt_lt
  have value := numeral_repr (n := level.toInt.natAbs) (by omega)
  have word : Int64.ofNat level.toInt.natAbs = level := by
    rw [← Int64.ofInt_eq_ofNat, Int.natAbs_of_nonneg writable, Int64.ofInt_toInt]
  have canonical : level.toInt.natAbs.repr.toList.head? = some '0' →
      level.toInt.natAbs.repr.toList = ['0'] := by
    rw [Nat.toList_repr]
    exact fun zero => absurd zero (head?_toDigits_ne_zero _ (by omega))
  have form := Derives.univ (x := "U" ++ level.toInt.natAbs.repr) (by rw [String.toList_append]; rfl)
    value canonical
  rw [word] at form
  simp only [Constant.text, if_neg nonzero, Text.Decimal.ofInt, if_neg (Int.not_lt.mpr writable)]
  exact ⟨_, spells_universe (by omega), form⟩

theorem Constant.written {c : Constant} (writable : c.Writable) :
    Written c.tier c.text (.const c) := by
  cases c with
  | int n => exact Constant.written_int writable
  | bool b =>
    cases b with
    | true => exact ⟨_, Spells.keyword .trueWord, .constant (by decide)⟩
    | false => exact ⟨_, Spells.keyword .falseWord, .constant (by decide)⟩
  | intType => exact ⟨_, Spells.keyword .intWord, .constant (by decide)⟩
  | boolType => exact ⟨_, Spells.keyword .boolWord, .constant (by decide)⟩
  | univ level =>
    by_cases zero : level = 0
    · subst zero
      exact ⟨_, Spells.keyword .typeWord, .constant (by decide)⟩
    · exact Constant.written_univ writable zero

namespace Written

variable {text text' text'' : String} {t u v : Surface}

theorem binop (op : Operator) (left : Written op.leftTier text t)
    (right : Written (op.tier - 1) text' u) :
    Written op.tier (text ++ " " ++ op.symbol ++ " " ++ text') (.binop op t u) := by
  obtain ⟨ls, spells, form⟩ := left
  obtain ⟨ls', spells', form'⟩ := right
  have tail := Glue.space.append ((Glue.operator op).append spells')
  refine ⟨_, ?_, .binop op form form'⟩
  have all := spells.append tail (.space _)
  simpa only [String.append_assoc, List.nil_append, List.singleton_append] using all

theorem not (operand : Written Tier.atom text t) : Written Tier.unary ("!" ++ text) (.not t) := by
  obtain ⟨ls, spells, form⟩ := operand
  have bang : Glue Symbol.bang.text _ := Glue.sign (by decide)
  exact ⟨_, bang.append spells, .negation (form.mono (by decide) (by decide))⟩

theorem app (fn : Written Tier.application text t) (arg : Written Tier.atom text' u) :
    Written Tier.application (text ++ " " ++ text') (.app t u) := by
  obtain ⟨ls, spells, form⟩ := fn
  obtain ⟨ls', spells', form'⟩ := arg
  refine ⟨_, ?_, .application form form'⟩
  rw [String.append_assoc]
  exact spells.append (Glue.space.append spells') (.space _)

theorem arrow (domain : Written (Tier.arrow - 1) text t) (codomain : Written Tier.arrow text' u) :
    Written Tier.arrow (text ++ " -> " ++ text') (.bind .pi wildcard t u) := by
  obtain ⟨ls, spells, form⟩ := domain
  obtain ⟨ls', spells', form'⟩ := codomain.mono (by decide) (Nat.le_refl _)
  have sign : Glue Symbol.arrow.text _ := Glue.sign (by decide)
  have padded : Glue " -> " _ := sign.spells.padded (by decide)
  refine ⟨_, ?_, .arrow form form'⟩
  rw [String.append_assoc]
  exact spells.append (padded.append spells') (.append (by decide +kernel) _)

theorem lambda {x : Name} (identifier : IsIdentifier x) (domain : Written Tier.term text t)
    (body : Written Tier.term text' u) :
    Written Tier.term (Term.binderHead .lam x text ++ ". " ++ text') (.bind .lam x t u) := by
  obtain ⟨ls, spells, form⟩ := domain
  obtain ⟨ls', spells', form'⟩ := body
  have opening : Glue Symbol.lambda.text _ := Glue.sign (by decide)
  have colon : Glue Symbol.colon.text _ := Glue.sign (by decide)
  have sign : Glue Symbol.dot.text _ := Glue.sign (by decide)
  have dot : Glue ". " _ := sign.spells.spaced (by decide)
  have dotted := spells.append (dot.append spells') (.append (by decide +kernel) _)
  have bound := identifier.spells.append (colon.append dotted) (.append (by decide +kernel) _)
  refine ⟨_, ?_, .lambda (by decide : Lexeme.symbol .lambda ∈ openings .lam) form form'⟩
  have all := opening.append bound
  simp only [Term.binderHead, String.append_assoc]
  exact all

theorem quantifier {b : Binder} {x : Name} (type : b ≠ .lam) (identifier : IsIdentifier x)
    (domain : Written Tier.term text t) (body : Written Tier.term text' u) :
    Written Tier.term (Term.binderHead b x text ++ ". " ++ text') (.bind b x t u) := by
  obtain ⟨ls, spells, form⟩ := domain
  obtain ⟨ls', spells', form'⟩ := body
  have opened : Glue Symbol.openParen.text _ := Glue.sign (by decide)
  have closed : Glue Symbol.closeParen.text _ := Glue.sign (by decide)
  have colon : Glue Symbol.colon.text _ := Glue.sign (by decide)
  have sign : Glue Symbol.dot.text _ := Glue.sign (by decide)
  have dot : Glue ". " _ := sign.spells.spaced (by decide)
  have dotted := spells.append (closed.append (dot.append spells')) (.append (by decide +kernel) _)
  have bound := identifier.spells.append (colon.append dotted) (.append (by decide +kernel) _)
  have inside := opened.append bound
  cases b with
  | lam => exact absurd rfl type
  | pi =>
    have glyph : Glue Symbol.forallSign.text _ := Glue.sign (by decide)
    refine ⟨_, ?_, .quantifier type (by decide : Lexeme.symbol .forallSign ∈ _) form form'⟩
    have all := glyph.append inside
    simp only [Term.binderHead, Binder.glyph, String.append_assoc]
    exact all
  | sigma =>
    have glyph : Glue Symbol.existsSign.text _ := Glue.sign (by decide)
    refine ⟨_, ?_, .quantifier type (by decide : Lexeme.symbol .existsSign ∈ _) form form'⟩
    have all := glyph.append inside
    simp only [Term.binderHead, Binder.glyph, String.append_assoc]
    exact all

theorem cond (test : Written Tier.term text t) (yes : Written Tier.term text' u)
    (no : Written Tier.term text'' v) :
    Written Tier.term ("if " ++ text ++ " then " ++ text' ++ " else " ++ text'') (.cond t u v) := by
  obtain ⟨ls, spells, form⟩ := test
  obtain ⟨ls', spells', form'⟩ := yes
  obtain ⟨ls'', spells'', form''⟩ := no
  have ifWord : Glue "if " _ := (Spells.keyword .ifWord).spaced (by decide)
  have thenWord : Glue " then " _ := (Spells.keyword .thenWord).padded (by decide)
  have elseWord : Glue " else " _ := (Spells.keyword .elseWord).padded (by decide)
  have second := spells'.append (elseWord.append spells'') (.append (by decide +kernel) _)
  have first := spells.append (thenWord.append second) (.append (by decide +kernel) _)
  refine ⟨_, ?_, .conditional form form' form''⟩
  have all := ifWord.append first
  simpa only [String.append_assoc, List.append_assoc, List.cons_append, List.nil_append] using all

theorem ascribe (subject : Written Tier.term text t) (type : Written Tier.term text' u) :
    Written Tier.atom ("(" ++ text ++ " : " ++ text' ++ ")") (.ascribe t u) := by
  obtain ⟨ls, spells, form⟩ := subject
  obtain ⟨ls', spells', form'⟩ := type
  have opened : Glue Symbol.openParen.text _ := Glue.sign (by decide)
  have closed : Glue Symbol.closeParen.text _ := Glue.sign (by decide)
  have sign : Glue Symbol.colon.text _ := Glue.sign (by decide)
  have colon : Glue " : " _ := sign.spells.padded (by decide)
  have second := spells'.append closed.spells (by decide +kernel)
  have first := spells.append (colon.append second) (.append (by decide +kernel) _)
  refine ⟨_, ?_, .ascription form form'⟩
  have all := opened.append first
  simpa only [Symbol.text, String.append_assoc, List.append_assoc, List.cons_append,
    List.nil_append] using all

end Written

theorem Constant.tier_le (c : Constant) : c.tier ≤ Tier.term := by
  cases c with
  | int n =>
    simp only [Constant.tier]
    split <;> decide
  | _ => exact Nat.zero_le _

/-- The displayed text is read as the surface term with the displayed names. -/
theorem Term.render_written (t : Indexed) {names shown : List Name} {limit : Nat}
    (readable : t.Readable Referable Constant.Writable names) (scope : Shown names shown)
    (within : limit ≤ Tier.term) :
    Written limit (t.render shown limit) (t.surface shown) := by
  induction t generalizing names shown limit with
  | var v =>
    obtain ⟨x, found, referable⟩ := readable
    obtain ⟨y, place, identifier, other, -⟩ := scope.atIndex? found referable
    simp only [render, surface, place, Option.getD_some]
    exact .mono ⟨_, identifier.spells, .var other.plain⟩ (Nat.zero_le _) within
  | const c => exact (Constant.written readable).bracketAbove c.tier_le within
  | binop op l r leftIh rightIh =>
    have most : op.leftTier ≤ Tier.term ∧ op.tier ≤ Tier.term := by
      cases op <;> decide
    have left := leftIh readable.1 scope most.1
    have right := rightIh readable.2 scope (Nat.le_trans (Nat.sub_le _ 1) most.2)
    exact (Written.binop op left right).bracketAbove most.2 within
  | not t ih =>
    exact (Written.not (ih readable scope (by decide))).bracketAbove (by decide) within
  | app f a fnIh argIh =>
    have fn : Written Tier.application _ _ := fnIh readable.1 scope (by decide)
    have arg : Written Tier.atom _ _ := argIh readable.2 scope (by decide)
    exact (Written.app fn arg).bracketAbove (by decide) within
  | bind b x dom body domIh bodyIh =>
    obtain ⟨identifier, domain, under⟩ := readable
    have inner := scope.cons identifier
    simp only [render, surface]
    split
    · rename_i anonymous
      obtain ⟨rfl, rfl⟩ := anonymous
      have left : Written (Tier.arrow - 1) _ _ := domIh domain scope (by decide)
      have right : Written Tier.arrow _ _ := bodyIh under inner (by decide)
      rw [freshen_wildcard] at right ⊢
      exact (Written.arrow left right).bracketAbove (by decide) within
    · have left := domIh domain scope (Nat.le_refl _)
      have right := bodyIh under inner (Nat.le_refl _)
      by_cases abstraction : b = .lam
      · subst abstraction
        exact (Written.lambda (identifier.freshen shown) left right).bracketAbove (by decide) within
      · exact (Written.quantifier abstraction (identifier.freshen shown) left right).bracketAbove
          (by decide) within
  | cond t yes no testIh yesIh noIh =>
    have test := testIh readable.1 scope (Nat.le_refl _)
    have first := yesIh readable.2.1 scope (Nat.le_refl _)
    have second := noIh readable.2.2 scope (Nat.le_refl _)
    exact (Written.cond test first second).bracketAbove (by decide) within
  | ascribe t type ih typeIh =>
    have subject := ih readable.1 scope (Nat.le_refl _)
    have ascribed := typeIh readable.2 scope (Nat.le_refl _)
    exact (Written.ascribe subject ascribed).mono (Nat.zero_le _) within

/-- Each displayed name resolves to the index it was displayed for. -/
theorem Term.surface_resolves (t : Indexed) {names shown : List Name}
    (readable : t.Readable Referable Constant.Writable names) (scope : Shown names shown) :
    ∃ u, (t.surface shown).resolve .textual (Scope.ofNames shown) = .ok u ∧ AlphaEq u t := by
  induction t generalizing names shown with
  | var v =>
    obtain ⟨x, found, referable⟩ := readable
    obtain ⟨y, place, -, -, resolves⟩ := scope.atIndex? found referable
    simp only [surface, resolve, place, Option.getD_some, resolves]
    exact ⟨_, rfl, rfl⟩
  | const c => exact ⟨_, rfl, rfl⟩
  | binop op l r leftIh rightIh =>
    obtain ⟨left, first, same⟩ := leftIh readable.1 scope
    obtain ⟨right, second, same'⟩ := rightIh readable.2 scope
    simp only [surface, resolve, first, second]
    exact ⟨_, rfl, congrArg₂ (Term.binop op) same same'⟩
  | not t ih =>
    obtain ⟨operand, first, same⟩ := ih readable scope
    simp only [surface, resolve, first]
    exact ⟨_, rfl, congrArg Term.not same⟩
  | app f a fnIh argIh =>
    obtain ⟨fn, first, same⟩ := fnIh readable.1 scope
    obtain ⟨arg, second, same'⟩ := argIh readable.2 scope
    simp only [surface, resolve, first, second]
    exact ⟨_, rfl, congrArg₂ Term.app same same'⟩
  | bind b x dom body domIh bodyIh =>
    obtain ⟨identifier, domain, under⟩ := readable
    obtain ⟨left, first, same⟩ := domIh domain scope
    obtain ⟨right, second, same'⟩ := bodyIh under (scope.cons identifier)
    rw [Scope.ofNames] at second
    simp only [surface, resolve, first, second]
    exact ⟨_, rfl, congrArg₂ (Term.bind b "") same same'⟩
  | cond t yes no testIh yesIh noIh =>
    obtain ⟨test, first, same⟩ := testIh readable.1 scope
    obtain ⟨yes', second, same'⟩ := yesIh readable.2.1 scope
    obtain ⟨no', third, same''⟩ := noIh readable.2.2 scope
    simp only [surface, resolve, first, second, third]
    refine ⟨_, rfl, ?_⟩
    simp only [AlphaEq, forgetNames] at same same' same'' ⊢
    rw [same, same', same'']
  | ascribe t type ih typeIh =>
    obtain ⟨subject, first, same⟩ := ih readable.1 scope
    obtain ⟨type', second, same'⟩ := typeIh readable.2 scope
    simp only [surface, resolve, first, second]
    exact ⟨_, rfl, congrArg₂ Term.ascribe same same'⟩

theorem Term.negativeIndex?_eq_none (t : Indexed) {q : Name → Prop} {p : Constant → Prop}
    {names : List Name} (readable : t.Readable q p names) : t.negativeIndex? = none := by
  induction t generalizing names with
  | var v =>
    obtain ⟨x, found, -⟩ := readable
    rw [negativeIndex?, if_neg (atIndex?_eq_some.mp found).1]
  | const c => rfl
  | binop op l r leftIh rightIh =>
    simp [negativeIndex?, leftIh readable.1, rightIh readable.2]
  | not t ih => exact ih readable
  | app f a fnIh argIh => simp [negativeIndex?, fnIh readable.1, argIh readable.2]
  | bind b x dom body domIh bodyIh =>
    simp [negativeIndex?, domIh readable.2.1, bodyIh readable.2.2]
  | cond t yes no testIh yesIh noIh =>
    simp [negativeIndex?, testIh readable.1, yesIh readable.2.1, noIh readable.2.2]
  | ascribe t type ih typeIh => simp [negativeIndex?, ih readable.1, typeIh readable.2]

/-- A rendered term is parsed, and resolved in the scope of the displayed names to the same term. -/
theorem Term.render_reads {t : Indexed} {names shown : List Name}
    (readable : t.Readable Referable Constant.Writable names) (scope : Shown names shown) :
    ∃ s u, Source.parse (t.render shown Tier.term).toList = .ok s ∧
      s.resolve .textual (Scope.ofNames shown) = .ok u ∧ AlphaEq u t := by
  obtain ⟨ls, spells, form⟩ := t.render_written readable scope (Nat.le_refl _)
  obtain ⟨tokens, scanned, lexemes⟩ := spells.scans.scan
  obtain ⟨u, resolved, same⟩ := t.surface_resolves readable scope
  exact ⟨t.surface shown, u, parse_eq_ok_iff.mpr ⟨tokens, scanned, lexemes ▸ form⟩, resolved, same⟩

/-- Displayed, parsed and resolved again in the same scope, a term is the same up to names. -/
theorem display_parse_resolve (names : List Name) (t : Indexed) (distinct : names.Nodup)
    (bindable : ∀ x ∈ names, Bindable x) (writable : t.Writable names) :
    ∃ text s u, t.display names = .ok text ∧ Source.parse text.toList = .ok s ∧
      s.resolve .textual (Scope.ofNames names) = .ok u ∧ Term.AlphaEq u t := by
  have scope := Shown.of_nodup distinct fun x member => (bindable x member).identifier
  have readable := writable.readable bindable
  obtain ⟨s, u, parsed, resolved, same⟩ := Term.render_reads readable scope
  refine ⟨t.render names Tier.term, s, u, ?_, parsed, resolved, same⟩
  simp only [Term.display, t.negativeIndex?_eq_none readable]

/-- The binder shadows the only name in scope and is displayed with a prime; the literal needs
brackets, the difference on the right too. -/
theorem display_parse_resolve_shadowing :
    ∃ text s u,
      Term.display ["x"] (.bind .lam "x" (.const .intType) (.binop .sub (.var ⟨"x", 0⟩)
        (.binop .sub (.app (.var ⟨"x", 1⟩) (.const (.int (-1)))) (.var ⟨"x", 0⟩)))) = .ok text ∧
      Source.parse text.toList = .ok s ∧
      s.resolve .textual (Scope.ofNames ["x"]) = .ok u ∧
      Term.AlphaEq u (.bind .lam "x" (.const .intType) (.binop .sub (.var ⟨"x", 0⟩)
        (.binop .sub (.app (.var ⟨"x", 1⟩) (.const (.int (-1)))) (.var ⟨"x", 0⟩)))) := by
  have bindable : Bindable "x" :=
    ⟨⟨'x', [], rfl, by decide +kernel⟩, not_spellsUniverse (by decide)⟩
  refine display_parse_resolve ["x"] _ (by decide) ?_ ?_
  · intro y member
    rw [List.mem_singleton.mp member]
    exact bindable
  · have inner : atIndex? ["x", "x"] 0 = some "x" := rfl
    have outer : atIndex? ["x", "x"] 1 = some "x" := rfl
    exact ⟨bindable, trivial, ⟨"x", inner, by decide⟩,
      ⟨⟨"x", outer, by decide⟩, (by decide : Int64.minValue < -1)⟩, ⟨"x", inner, by decide⟩⟩

end DepCalc

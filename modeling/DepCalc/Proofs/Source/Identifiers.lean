import DepCalc.Proofs.BinderNames
import DepCalc.Proofs.Weakening

/-!
The names that a source text gives to a term. Every binder of a parsed term is an identifier of the
text, or the wildcard of an arrow, and every variable a name that spells no universe; resolved, each
variable refers to a binder of its own name. A term from a text without the wildcard can therefore be
written out again.
-/
namespace DepCalc

open Source

namespace Term

/-- All variables have names of which `q` holds, all binders are identifiers, and `p` holds of all
constants. -/
def Spelled (q : Name → Prop) (p : Constant → Prop) : Surface → Prop
  | var x => q x
  | const c => p c
  | binop _ l r => l.Spelled q p ∧ r.Spelled q p
  | not t => t.Spelled q p
  | app f a => f.Spelled q p ∧ a.Spelled q p
  | bind _ x dom body => IsIdentifier x ∧ dom.Spelled q p ∧ body.Spelled q p
  | cond t yes no => t.Spelled q p ∧ yes.Spelled q p ∧ no.Spelled q p
  | ascribe t type => t.Spelled q p ∧ type.Spelled q p

end Term

theorem isIdentifier_wildcard : IsIdentifier wildcard :=
  ⟨'_', [], rfl, by decide +kernel⟩

theorem not_spellsUniverse_wildcard : ¬ SpellsUniverse wildcard :=
  not_spellsUniverse (by decide)

/-- The lexemes name only identifiers, and `q` holds of those that spell no universe. -/
def Source.Named (q : Name → Prop) (ls : List Lexeme) : Prop :=
  ∀ x, .ident x ∈ ls → IsIdentifier x ∧ (¬ SpellsUniverse x → q x)

theorem Source.Named.part {q : Name → Prop} {ls ls' : List Lexeme} (named : Named q ls)
    (part : ls' ⊆ ls) : Named q ls' :=
  fun x member => named x (part member)

theorem Source.Numeral.toInt {digits : List Char} {n : Nat} (value : Numeral digits n) :
    (Int64.ofNat n).toInt = n :=
  Int64.toInt_ofNat_of_lt value.fits

theorem toInt_minValue : Int64.minValue.toInt = -2 ^ 63 := by decide

theorem Source.Derives.spelled {q : Name → Prop} {tier : Nat} {ls : List Lexeme} {t : Surface}
    (form : Derives tier ls t) (named : Named q ls) : t.Spelled q Constant.Writable := by
  induction form with
  | numeral value =>
    change Int64.minValue < _
    rw [Int64.lt_iff_toInt_lt, toInt_minValue, value.toInt]
    omega
  | @constant word c means =>
    cases word <;> cases constant?_eq_some.mpr means <;> trivial
  | univ spelled value _ =>
    change 0 ≤ _
    rw [Int64.le_iff_toInt_le, value.toInt, Int64.toInt_zero]
    omega
  | var plain => exact (named _ List.mem_cons_self).2 plain
  | brackets inside ih => exact ih (named.part (by grind))
  | ascription subject ascribed ih ih' =>
    exact ⟨ih (named.part (by grind)), ih' (named.part (by grind))⟩
  | application fn arg ih ih' => exact ⟨ih (named.part (by grind)), ih' (named.part (by grind))⟩
  | negation operand ih => exact ih (named.part (by grind))
  | negative value =>
    have fits := value.fits
    change Int64.minValue < _
    rw [Int64.lt_iff_toInt_lt, toInt_minValue, Int64.toInt_neg, value.toInt,
      Int.bmod_eq_of_le (by omega) (by omega)]
    omega
  | operation op left right ih ih' =>
    exact ⟨ih (named.part (by grind)), ih' (named.part (by grind))⟩
  | arrow domain codomain ih ih' =>
    exact ⟨isIdentifier_wildcard, ih (named.part (by grind)), ih' (named.part (by grind))⟩
  | lambda opens domain under ih ih' =>
    exact ⟨(named _ (by simp)).1, ih (named.part (by grind)), ih' (named.part (by grind))⟩
  | quantifier type opens domain under ih ih' =>
    exact ⟨(named _ (by simp)).1, ih (named.part (by grind)), ih' (named.part (by grind))⟩
  | conditional test first second ih ih' ih'' =>
    exact ⟨ih (named.part (by grind)), ih' (named.part (by grind)), ih'' (named.part (by grind))⟩
  | looser below form ih => exact ih named

/-- Numerals that do not fit a word stand in no derivation. -/
theorem Source.Derives.numeral_fits {tier : Nat} {ls : List Lexeme} {t : Surface} {digits : String}
    (form : Derives tier ls t) (member : .numeral digits ∈ ls) : ∃ n, Numeral digits.toList n := by
  induction form with
  | numeral value =>
    cases List.mem_singleton.mp member
    exact ⟨_, value⟩
  | negative value =>
    simp only [List.mem_cons, reduceCtorEq, Lexeme.numeral.injEq, List.not_mem_nil, or_false,
      false_or] at member
    exact ⟨_, member ▸ value⟩
  | constant | univ | var => simp at member
  | lambda opens domain under ih ih' => grind [openings]
  | @quantifier b opening x ls ls' dom body type opens domain under ih ih' =>
    cases b <;> grind [openings]
  | looser below form ih => exact ih member
  | _ => grind

/-- The text has no wildcard among its tokens. -/
def Source.NoWildcard (text : List Char) : Prop :=
  ∀ tokens, Tokens.scan text = .ok tokens → .ident wildcard ∉ tokens.list.map Token.lexeme

theorem Source.parse_spelled {q : Name → Prop} {text : List Char} {t : Surface}
    (parsed : parse text = .ok t)
    (named : ∀ tokens, Tokens.scan text = .ok tokens → ∀ x,
      .ident x ∈ tokens.list.map Token.lexeme → ¬ SpellsUniverse x → q x) :
    t.Spelled q Constant.Writable := by
  obtain ⟨tokens, scanned, form⟩ := parse_eq_ok_iff.mp parsed
  exact form.spelled fun x member =>
    ⟨(scans_of_scan scanned).isIdentifier member, named tokens scanned x member⟩

theorem Source.NoWildcard.referable {text : List Char} (named : NoWildcard text) {tokens : Tokens}
    (scanned : Tokens.scan text = .ok tokens) {x : Name}
    (member : .ident x ∈ tokens.list.map Token.lexeme) (plain : ¬ SpellsUniverse x) :
    Referable x :=
  ⟨fun same => named tokens scanned (same ▸ member), plain⟩

theorem getElem?_of_place {scope : List Name} {x : Name} {i : Nat} (found : place scope x = .inl i) :
    scope[i]? = some x := by
  induction scope generalizing i with
  | nil => cases found
  | cons y scope ih =>
    by_cases bound : x = y
    · subst bound
      rw [place, if_pos rfl] at found
      cases found
      rfl
    · rw [place_cons_of_ne scope bound] at found
      cases inner : place scope x with
      | inr z =>
        rw [inner] at found
        cases found
      | inl j =>
        rw [inner] at found
        cases found
        exact ih inner

/-- Each variable refers to a binder of its own name. -/
theorem Term.resolve_readable {q : Name → Prop} {p : Constant → Prop} {names : List Name}
    {t : Surface} (spelled : t.Spelled q p) (room : names.length + t.depth ≤ 2 ^ 63) :
    Outcome (fun _ => True) (Readable q p names)
      (t.resolve .textual (Scope.ofNames names)) := by
  induction t generalizing names with
  | var x =>
    apply lookup_place.bind
    rintro ix ⟨i, inside, found, rfl⟩
    have word : (Int64.ofNat i).toInt = i := Int64.toInt_ofNat_of_lt (by omega)
    have bound := getElem?_of_place found
    exact ⟨x, by rw [atIndex?_eq word, bound], spelled⟩
  | const c => exact spelled
  | binop op l r left right =>
    simp only [depth] at room
    apply (left spelled.1 (by omega)).bind
    intro l' leftReadable
    apply (right spelled.2 (by omega)).bind
    intro r' rightReadable
    exact ⟨leftReadable, rightReadable⟩
  | not t operand =>
    apply (operand spelled room).bind
    intro t' readable
    exact readable
  | app f a fn arg =>
    simp only [depth] at room
    apply (fn spelled.1 (by omega)).bind
    intro f' fnReadable
    apply (arg spelled.2 (by omega)).bind
    intro a' argReadable
    exact ⟨fnReadable, argReadable⟩
  | bind b x dom body domain under =>
    simp only [depth] at room
    apply (domain spelled.2.1 (by omega)).bind
    intro dom' domReadable
    have inside := @under (x :: names) spelled.2.2 (by rw [List.length_cons]; omega)
    apply inside.bind
    intro body' bodyReadable
    exact ⟨spelled.1, domReadable, bodyReadable⟩
  | cond t y n test yes no =>
    simp only [depth] at room
    apply (test spelled.1 (by omega)).bind
    intro t' testReadable
    apply (yes spelled.2.1 (by omega)).bind
    intro y' yesReadable
    apply (no spelled.2.2 (by omega)).bind
    intro n' noReadable
    exact ⟨testReadable, yesReadable, noReadable⟩
  | ascribe t type subject ascribed =>
    simp only [depth] at room
    apply (subject spelled.1 (by omega)).bind
    intro t' subjectReadable
    apply (ascribed spelled.2 (by omega)).bind
    intro type' typeReadable
    exact ⟨subjectReadable, typeReadable⟩

end DepCalc

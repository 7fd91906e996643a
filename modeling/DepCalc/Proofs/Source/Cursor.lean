import DepCalc.Proofs.Source.Parsing

/-!
The parser as a reader that moves a cursor over an indexed list of tokens. The list ends in a mark, and
reading outside of it is a fault of its own. The fuel bounds how deep calls may nest, a turn of a loop
counted as a call, so a call that never comes back runs out of any fuel. Step by step the reader is
compared with the parser proper, which hands on the tokens that are left.
-/
namespace DepCalc.Source

/-- A token, or the mark at the end of the input. -/
structure Item where
  lexeme? : Option Lexeme
  pos : Position
  deriving DecidableEq, Repr

def Token.item (token : Token) : Item :=
  ⟨some token.lexeme, token.pos⟩

/-- The tokens with the only mark behind them. -/
def Tokens.items (tokens : Tokens) : List Item :=
  tokens.list.map Token.item ++ [⟨none, tokens.stop⟩]

namespace Cursor

inductive Fault where
  | malformed (e : Error)
  | outOfRange (i : Nat)
  | outOfFuel
  deriving DecidableEq, Repr

/-- The state is the place of the cursor. -/
abbrev Reader := StateT Nat (Except Fault)

section Reading

variable (items : List Item)

/-- The item that stands `ahead` places behind the cursor. -/
def look (ahead : Nat) : Reader Item := do
  let i ← get
  match items[i + ahead]? with
  | some item => return item
  | none => throw (.outOfRange (i + ahead))

/-- The item at the cursor, which moves on unless it is at the mark. -/
def next : Reader Item := do
  let item ← look items 0
  if item.lexeme?.isSome then modify (· + 1)
  return item

def accept (wanted : Lexeme) : Reader Bool := do
  let item ← look items 0
  if item.lexeme? = some wanted then
    let _ ← next items
    return true
  else return false

def expect (wanted : Lexeme) : Reader Unit := do
  let item ← look items 0
  if item.lexeme? = some wanted then
    let _ ← next items
  else throw (.malformed ⟨item.pos, .expected (.lexeme wanted) item.lexeme?⟩)

def expectName : Reader Name := do
  let item ← look items 0
  match item.lexeme? with
  | some (.ident x) =>
    let _ ← next items
    return x
  | found => throw (.malformed ⟨item.pos, .expected .identifier found⟩)

def expectEnd : Reader Unit := do
  let item ← look items 0
  match item.lexeme? with
  | none => return
  | found => throw (.malformed ⟨item.pos, .expected .endOfInput found⟩)

def ofExcept {α : Type} : Except Error α → Reader α
  | .ok a => return a
  | .error e => throw (.malformed e)

/-- How many tiers of operators are tighter than that of the level. Levels count the tiers from the
loosest on. -/
def levelTiers (level : Nat) : Nat :=
  Tier.operators - (level + 1)

def comparisonLevel : Nat := 2

/-- The operator of the level at the cursor. -/
def operator? (level : Nat) : Reader (Option Operator) := do
  let item ← look items 0
  return item.lexeme?.bind (Lexeme.operator? (levelTiers level))

/-- The digits of a negative literal at the cursor. What stands behind the cursor is looked at only
if there is a minus. -/
def negative? : Reader (Option String) := do
  let item ← look items 0
  if item.lexeme? = some (.symbol .minus) then
    let second ← look items 1
    match second.lexeme? with
    | some (.numeral digits) => return some digits
    | _ => return none
  else return none

def beginsAtom : Reader Bool := do
  let item ← look items 0
  return item.lexeme?.any Lexeme.beginsAtom

mutual

def term (fuel : Nat) : Reader Surface :=
  match fuel with
  | 0 => throw .outOfFuel
  | fuel + 1 => do
    let item ← look items 0
    match item.lexeme?.bind Lexeme.opening? with
    | some .lambda =>
      let _ ← next items
      let x ← expectName items
      expect items (.symbol .colon)
      let dom ← term fuel
      expect items (.symbol .dot)
      let body ← term fuel
      return .bind .lam x dom body
    | some (.quantifier b) =>
      let _ ← next items
      let q ← quantifier fuel
      return .bind b q.1 q.2.1 q.2.2
    | some .conditional =>
      let _ ← next items
      let test ← term fuel
      expect items (.keyword .thenWord)
      let yes ← term fuel
      expect items (.keyword .elseWord)
      let no ← term fuel
      return .cond test yes no
    | none => arrow fuel

/-- The name, the domain and the body behind the word or the sign of a quantifier. -/
def quantifier (fuel : Nat) : Reader (Name × Surface × Surface) :=
  match fuel with
  | 0 => throw .outOfFuel
  | fuel + 1 => do
    expect items (.symbol .openParen)
    let x ← expectName items
    expect items (.symbol .colon)
    let dom ← term fuel
    expect items (.symbol .closeParen)
    expect items (.symbol .dot)
    let body ← term fuel
    return (x, dom, body)

def arrow (fuel : Nat) : Reader Surface :=
  match fuel with
  | 0 => throw .outOfFuel
  | fuel + 1 => do
    let dom ← binary fuel 0
    if ← accept items (.symbol .arrow) then
      let body ← term fuel
      return .bind .pi wildcard dom body
    else return dom

/-- Beyond the last level there is no end to the calls. -/
def binary (fuel level : Nat) : Reader Surface :=
  match fuel with
  | 0 => throw .outOfFuel
  | fuel + 1 =>
    if level = Tier.operators then unary fuel
    else do
      let left ← binary fuel (level + 1)
      operands fuel level left

def operands (fuel level : Nat) (left : Surface) : Reader Surface :=
  match fuel with
  | 0 => throw .outOfFuel
  | fuel + 1 => do
    match ← operator? items level with
    | none => return left
    | some op =>
      let _ ← next items
      let right ← binary fuel (level + 1)
      if level = comparisonLevel then
        match ← operator? items level with
        | some _ =>
          let item ← look items 0
          throw (.malformed ⟨item.pos, .chainedComparison⟩)
        | none => return .binop op left right
      else operands fuel level (.binop op left right)

def unary (fuel : Nat) : Reader Surface :=
  match fuel with
  | 0 => throw .outOfFuel
  | fuel + 1 => do
    if ← accept items (.symbol .bang) then
      let t ← unary fuel
      return .not t
    else
      match ← negative? items with
      | some digits =>
        let _ ← next items
        let item ← next items
        let n ← ofExcept (integer item.pos digits)
        return .const (.int (-n))
      | none =>
        let fn ← atom fuel
        arguments fuel fn

def arguments (fuel : Nat) (fn : Surface) : Reader Surface :=
  match fuel with
  | 0 => throw .outOfFuel
  | fuel + 1 => do
    if ← beginsAtom items then
      let arg ← atom fuel
      arguments fuel (.app fn arg)
    else return fn

def atom (fuel : Nat) : Reader Surface :=
  match fuel with
  | 0 => throw .outOfFuel
  | fuel + 1 => do
    let item ← next items
    match item.lexeme? with
    | some (.numeral digits) =>
      let n ← ofExcept (integer item.pos digits)
      return .const (.int n)
    | some (.ident x) => ofExcept (variableOrUniverse item.pos x)
    | some (.keyword word) =>
      match word.constant? with
      | some c => return .const c
      | none => throw (.malformed ⟨item.pos, .unexpected item.lexeme?⟩)
    | some (.symbol .openParen) =>
      let t ← term fuel
      if ← accept items (.symbol .colon) then
        let type ← term fuel
        expect items (.symbol .closeParen)
        return .ascribe t type
      else
        expect items (.symbol .closeParen)
        return t
    | _ => throw (.malformed ⟨item.pos, .unexpected item.lexeme?⟩)

end

/-- One term up to the mark. -/
def whole (fuel : Nat) : Reader Surface := do
  let t ← term items fuel
  expectEnd items
  return t

end Reading

def parse (fuel : Nat) (text : List Char) : Except Fault Surface :=
  match Tokens.scan text with
  | .error e => .error (.malformed e)
  | .ok tokens => ((whole tokens.items fuel).run 0).map Prod.fst

/-- The first of the tokens that are left, or the mark when there are none. -/
def front (tokens : Tokens) : List Token → Item
  | [] => ⟨none, tokens.stop⟩
  | token :: _ => token.item

/-- The cursor stands before these tokens. -/
structure At (tokens : Tokens) (i : Nat) (list : List Token) : Prop where
  inside : i ≤ tokens.list.length
  left : tokens.list.drop i = list

namespace At

variable {tokens : Tokens} {i : Nat} {token : Token} {rest list : List Token}

theorem item (here : At tokens i list) : tokens.items[i]? = some (front tokens list) := by
  cases list with
  | nil =>
    have past := List.drop_eq_nil_iff.mp here.left
    obtain rfl : i = tokens.list.length := Nat.le_antisymm here.inside past
    simp [Tokens.items, front]
  | cons token rest =>
    have found : tokens.list[i]? = some token := by
      have first : (tokens.list.drop i)[0]? = tokens.list[i + 0]? := List.getElem?_drop
      rw [here.left] at first
      exact first.symm
    have shorter := (List.getElem?_eq_some_iff.mp found).1
    rw [Tokens.items, List.getElem?_append_left (by simpa using shorter), List.getElem?_map, found]
    rfl

theorem behind (here : At tokens i (token :: rest)) : At tokens (i + 1) rest where
  inside := by
    have longer := congrArg List.length here.left
    rw [List.length_drop, List.length_cons] at longer
    omega
  left := by
    rw [← List.drop_drop, here.left]
    rfl

theorem unique {j : Nat} (here : At tokens i rest) (there : At tokens j rest) : i = j := by
  have lengths := congrArg List.length (here.left.trans there.left.symm)
  rw [List.length_drop, List.length_drop] at lengths
  have inside := here.inside
  have inside' := there.inside
  omega

end At

section Steps

variable {α β : Type} {i j : Nat} {items : List Item} {r : Reader α} {f : α → Reader β}

theorem run_bind_ok {a : α} (ran : r.run i = .ok (a, j)) : (r >>= f).run i = (f a).run j := by
  rw [StateT.run_bind, ran]
  rfl

theorem run_bind_error {e : Fault} (ran : r.run i = .error e) : (r >>= f).run i = .error e := by
  rw [StateT.run_bind, ran]
  rfl

theorem run_look {ahead : Nat} {item : Item} (found : items[i + ahead]? = some item) :
    (look items ahead).run i = .ok (item, i) := by
  change (match items[i + ahead]? with
    | some item => pure item
    | none => throw (.outOfRange (i + ahead)) : Reader Item).run i = _
  rw [found]
  rfl

variable {tokens : Tokens} {token : Token} {rest list : List Token}

theorem At.look (here : At tokens i list) :
    (Cursor.look tokens.items 0).run i = .ok (front tokens list, i) :=
  run_look here.item

theorem At.next (here : At tokens i (token :: rest)) :
    (Cursor.next tokens.items).run i = .ok (token.item, i + 1) := by
  unfold Cursor.next
  rw [run_bind_ok here.look]
  rfl

theorem At.next_end (here : At tokens i []) :
    (Cursor.next tokens.items).run i = .ok (⟨none, tokens.stop⟩, i) := by
  unfold Cursor.next
  rw [run_bind_ok here.look]
  rfl

theorem At.expectEnd (here : At tokens i []) :
    (Cursor.expectEnd tokens.items).run i = .ok ((), i) := by
  unfold Cursor.expectEnd
  rw [run_bind_ok here.look]
  rfl

theorem At.expectEnd_token (here : At tokens i (token :: rest)) :
    (Cursor.expectEnd tokens.items).run i =
      .error (.malformed ⟨token.pos, .expected .endOfInput (some token.lexeme)⟩) := by
  unfold Cursor.expectEnd
  rw [run_bind_ok here.look]
  rfl

/-- From the place `i` the reader ends as the step of the parser does: with the same error, or with the
same value and the cursor before the tokens that are left. -/
def Follows (tokens : Tokens) (i : Nat) (r : Reader α) {bound : Nat} :
    Except Error (Parsed α bound) → Prop
  | .ok p => ∃ j, r.run i = .ok (p.value, j) ∧ At tokens j p.rest
  | .error e => r.run i = .error (.malformed e)

variable {m n : Nat}

theorem Follows.ends {a : α} {fewer : list.length < n} (here : At tokens i list) :
    Follows tokens i (pure a) (.ok ⟨a, list, fewer⟩) :=
  ⟨i, rfl, here⟩

/-- A step that only the reader makes. -/
theorem Follows.step {a : α} {y : Except Error (Parsed β n)} (ran : r.run i = .ok (a, j))
    (further : Follows tokens j (f a) y) : Follows tokens i (r >>= f) y := by
  unfold Follows
  rw [run_bind_ok ran]
  exact further

theorem Follows.bind {x : Except Error (Parsed α m)} {g : Parsed α m → Except Error (Parsed β n)}
    (first : Follows tokens i r x)
    (further : ∀ a j rest fewer, At tokens j rest → Follows tokens j (f a) (g ⟨a, rest, fewer⟩)) :
    Follows tokens i (r >>= f) (x >>= g) := by
  cases x with
  | error e => exact run_bind_error first
  | ok p =>
    obtain ⟨j, ran, there⟩ := first
    exact .step ran (further p.value j p.rest p.fewer there)

/-- The parser wraps up what its last step gives. -/
theorem Follows.last {x : Except Error (Parsed α m)} {g : Parsed α m → Except Error (Parsed α n)}
    (follows : Follows tokens i r x)
    (wraps : ∀ a rest fewer, ∃ fewer', g ⟨a, rest, fewer⟩ = .ok ⟨a, rest, fewer'⟩) :
    Follows tokens i r (x >>= g) := by
  cases x with
  | error e => exact follows
  | ok p =>
    obtain ⟨fewer, wrapped⟩ := wraps p.value p.rest p.fewer
    change Follows tokens i r (g ⟨p.value, p.rest, p.fewer⟩)
    rw [wrapped]
    exact follows

theorem Follows.ofExcept {x : Except Error α} {g : α → Except Error (Parsed β n)}
    (further : ∀ a, Follows tokens i (f a) (g a)) :
    Follows tokens i (Cursor.ofExcept x >>= f) (x >>= g) := by
  cases x with
  | error e => rfl
  | ok a => exact further a

theorem Follows.ofExcept_last {x : Except Error α} {g : α → Except Error (Parsed α n)}
    (here : At tokens i list) (wraps : ∀ a, ∃ fewer, g a = .ok ⟨a, list, fewer⟩) :
    Follows tokens i (Cursor.ofExcept x) (x >>= g) := by
  cases x with
  | error e => rfl
  | ok a =>
    obtain ⟨fewer, wrapped⟩ := wraps a
    change Follows tokens i (pure a) (g a)
    rw [wrapped]
    exact .ends here

theorem expect_follows (here : At tokens i list) (wanted : Lexeme) :
    Follows tokens i (expect tokens.items wanted) (Source.expect tokens.stop wanted list) := by
  unfold expect
  cases list with
  | nil => exact .step here.look rfl
  | cons token rest =>
    apply Follows.step here.look
    by_cases found : token.lexeme = wanted
    · simp only [front, Token.item, found, Source.expect, if_true]
      exact .step here.next (.ends here.behind)
    · simp only [front, Token.item, Option.some.injEq, found, Source.expect, if_false]
      rfl

theorem expectName_follows (here : At tokens i list) :
    Follows tokens i (expectName tokens.items) (Source.expectName tokens.stop list) := by
  unfold expectName
  cases list with
  | nil => exact .step here.look rfl
  | cons token rest =>
    apply Follows.step here.look
    obtain ⟨lexeme, pos⟩ := token
    cases lexeme with
    | ident x => exact .step here.next (.ends here.behind)
    | _ => rfl

theorem At.refuses {wanted : Lexeme} (here : At tokens i list)
    (refused : accept? wanted list = none) :
    (accept tokens.items wanted).run i = .ok (false, i) := by
  unfold accept
  rw [run_bind_ok here.look]
  cases list with
  | nil => rfl
  | cons token rest =>
    have other : token.lexeme ≠ wanted := by simpa [accept?] using refused
    simp only [front, Token.item, Option.some.injEq, other, if_false]
    rfl

theorem At.accepts {wanted : Lexeme} {p : Parsed Unit list.length} (here : At tokens i list)
    (accepted : accept? wanted list = some p) :
    (accept tokens.items wanted).run i = .ok (true, i + 1) ∧ At tokens (i + 1) p.rest := by
  obtain ⟨pos, taken⟩ := accept?_sound accepted
  rw [taken] at here
  refine ⟨?_, here.behind⟩
  unfold accept
  rw [run_bind_ok here.look]
  simp only [front, Token.item, if_true]
  rw [run_bind_ok here.next]
  rfl

theorem At.operator? (here : At tokens i list) (level : Nat) :
    (Cursor.operator? tokens.items level).run i =
      .ok (list.head?.bind fun token => token.lexeme.operator? (levelTiers level), i) := by
  unfold Cursor.operator?
  rw [run_bind_ok here.look]
  cases list <;> rfl

theorem At.beginsAtom (here : At tokens i list) :
    (Cursor.beginsAtom tokens.items).run i =
      .ok (list.head?.any fun token => token.lexeme.beginsAtom, i) := by
  unfold Cursor.beginsAtom
  rw [run_bind_ok here.look]
  cases list <;> rfl

/-- The digits of the negative literal with which the tokens begin. -/
def frontNegative? : List Token → Option String
  | ⟨.symbol .minus, _⟩ :: ⟨.numeral digits, _⟩ :: _ => some digits
  | _ => none

/-- A minus is no mark, so there is something to look at behind it. -/
theorem At.negative? (here : At tokens i list) :
    (Cursor.negative? tokens.items).run i = .ok (frontNegative? list, i) := by
  unfold Cursor.negative?
  rw [run_bind_ok here.look]
  cases list with
  | nil => rfl
  | cons token rest =>
    by_cases minus : token.lexeme = .symbol .minus
    · obtain ⟨lexeme, pos⟩ := token
      subst minus
      simp only [front, Token.item, if_true]
      rw [run_bind_ok (run_look here.behind.item)]
      cases rest with
      | nil => rfl
      | cons second rest =>
        obtain ⟨lexeme, place⟩ := second
        cases lexeme <;> rfl
    · simp only [front, Token.item, Option.some.injEq, minus, if_false]
      have unsigned : frontNegative? (token :: rest) = none := by
        unfold frontNegative?
        split
        · rename_i signed
          cases signed
          exact absurd rfl minus
        · rfl
      rw [unsigned]
      rfl

end Steps

end Cursor
end DepCalc.Source

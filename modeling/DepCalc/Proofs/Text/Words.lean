import DepCalc.Constant

/-!
Displayed texts as words and marks. A mark is a character that stands for itself, and a word is a
longest run of other characters. Where a mark stands at the joint, the words and marks of a text are
those of its two parts, so that a text which is put together with marks determines the parts.
-/
namespace DepCalc

namespace Text

def marks : List Char :=
  [' ', '(', ')', ':', '.', '!', 'λ', '∀', '∃']

inductive Chunk where
  | mark (c : Char)
  | word (w : List Char)
  deriving DecidableEq, Repr

/-- A character of a word in front of the chunks behind it. -/
def Chunk.grow (c : Char) : List Chunk → List Chunk
  | .word w :: rest => .word (c :: w) :: rest
  | rest => .word [c] :: rest

def cut : List Char → List Chunk
  | [] => []
  | c :: rest => if c ∈ marks then .mark c :: cut rest else Chunk.grow c (cut rest)

def chunks (text : String) : List Chunk :=
  cut text.toList

theorem Chunk.grow_append_mark (c d : Char) (front behind : List Chunk) :
    grow c (front ++ .mark d :: behind) = grow c front ++ .mark d :: behind := by
  cases front with
  | nil => rfl
  | cons first rest => cases first <;> rfl

theorem cut_append_mark (front : List Char) {c : Char} (mark : c ∈ marks) (behind : List Char) :
    cut (front ++ c :: behind) = cut front ++ .mark c :: cut behind := by
  induction front with
  | nil => simp [cut, mark]
  | cons d front ih =>
    by_cases other : d ∈ marks
    · simp [cut, other, ih]
    · simp [cut, other, ih, Chunk.grow_append_mark]

/-- A text without marks is one word. -/
theorem chunks_word {text : String} (nonempty : text.toList ≠ [])
    (unmarked : ∀ c ∈ text.toList, c ∉ marks) : chunks text = [.word text.toList] := by
  unfold chunks
  generalize text.toList = w at nonempty unmarked ⊢
  induction w with
  | nil => exact absurd rfl nonempty
  | cons c w ih =>
    rw [List.forall_mem_cons] at unmarked
    cases w with
    | nil => simp [cut, unmarked.1, Chunk.grow]
    | cons d w => rw [cut, if_neg unmarked.1, ih (List.cons_ne_nil d w) unmarked.2, Chunk.grow]

/-- The text begins with a mark. -/
def Begins (text : String) : Prop :=
  text.toList.head?.any (· ∈ marks) = true

/-- The text ends with a mark. -/
def Ends (text : String) : Prop :=
  text.toList.getLast?.any (· ∈ marks) = true

instance (text : String) : Decidable (Begins text) :=
  inferInstanceAs (Decidable (_ = _))

instance (text : String) : Decidable (Ends text) :=
  inferInstanceAs (Decidable (_ = _))

theorem chunks_append_begins {sep : String} (begins : Begins sep) (text : String) :
    chunks (text ++ sep) = chunks text ++ chunks sep := by
  unfold chunks Begins at *
  rw [String.toList_append]
  cases spelled : sep.toList with
  | nil => simp [spelled] at begins
  | cons c rest =>
    have mark : c ∈ marks := by simpa [spelled] using begins
    rw [cut_append_mark _ mark, cut, if_pos mark]

theorem chunks_append_ends {sep : String} (ends : Ends sep) (text : String) :
    chunks (sep ++ text) = chunks sep ++ chunks text := by
  unfold chunks Ends at *
  rw [String.toList_append]
  rcases List.eq_nil_or_concat sep.toList with empty | ⟨front, c, spelled⟩
  · simp [empty] at ends
  · rw [List.concat_eq_append] at spelled
    have mark : c ∈ marks := by simpa [spelled] using ends
    rw [spelled, List.append_assoc, List.singleton_append, cut_append_mark _ mark,
      cut_append_mark _ mark, List.append_assoc]
    rfl

theorem chunks_append_joint {sep : String} (begins : Begins sep) (text behind : String) :
    chunks (text ++ (sep ++ behind)) = chunks text ++ chunks (sep ++ behind) := by
  apply chunks_append_begins
  unfold Begins at *
  rw [String.toList_append]
  cases spelled : sep.toList with
  | nil => simp [spelled] at begins
  | cons c rest => simpa [spelled] using begins

namespace Decimal

/-- The digits of a number, with a sign in front if it is negative. -/
theorem toList_ofInt (n : Int) :
    ∃ c digits, n.natAbs.repr.toList = c :: digits ∧ (∀ d ∈ c :: digits, d.isDigit) ∧
      (ofInt n).toList = if n < 0 then '-' :: c :: digits else c :: digits := by
  have ascii : ∀ d ∈ n.natAbs.repr.toList, d.isDigit := fun d member => by
    rw [Nat.toList_repr] at member
    exact Nat.isDigit_of_mem_toDigits (by decide) (by decide) member
  cases spelled : n.natAbs.repr.toList with
  | nil =>
    rw [Nat.toList_repr] at spelled
    exact absurd spelled Nat.toDigits_ne_nil
  | cons c digits =>
    refine ⟨c, digits, rfl, spelled ▸ ascii, ?_⟩
    unfold ofInt
    split
    · rw [String.toList_append, spelled]
      rfl
    · exact spelled

/-- The number that digits denote, negative behind a minus sign. -/
def read : List Char → Int
  | '-' :: digits => -(Nat.ofDigitChars 10 digits 0)
  | digits => Nat.ofDigitChars 10 digits 0

theorem read_ofInt (n : Int) : read (ofInt n).toList = n := by
  obtain ⟨c, digits, spelled, ascii, text⟩ := toList_ofInt n
  have value : Nat.ofDigitChars 10 (c :: digits) 0 = n.natAbs := by
    rw [← spelled, Nat.toList_repr, Nat.ofDigitChars_ten_toDigits]
  have noSign : c ≠ '-' := by
    rintro rfl
    exact absurd (ascii '-' List.mem_cons_self) (by decide)
  rw [text]
  split
  · rw [read, value]
    omega
  · rw [read, value]
    · omega
    · simp [noSign]

end Decimal
end Text

namespace Constant

/-- The constant that is written as a word. -/
def read : List Char → Constant
  | 'T' :: 'r' :: _ => bool true
  | 'T' :: _ => univ 0
  | 'F' :: _ => bool false
  | 'I' :: _ => intType
  | 'B' :: _ => boolType
  | 'U' :: digits => univ (Int64.ofInt (Text.Decimal.read digits))
  | digits => int (Int64.ofInt (Text.Decimal.read digits))

/-- All constants but the integers begin with one of these. -/
def capitals : List Char :=
  ['T', 'F', 'I', 'B', 'U']

theorem ofInt_begins {n : Int} {c : Char} {rest : List Char}
    (spelled : (Text.Decimal.ofInt n).toList = c :: rest) : c ∉ capitals := by
  obtain ⟨d, digits, -, ascii, text⟩ := Text.Decimal.toList_ofInt n
  have noDigit : capitals.all (fun d => !d.isDigit) = true := by decide
  rw [text] at spelled
  split at spelled
  · cases spelled
    decide
  · cases spelled
    intro capital
    have digit := ascii c List.mem_cons_self
    have other := List.all_eq_true.mp noDigit c capital
    rw [digit] at other
    cases other

theorem read_text (c : Constant) : read c.text.toList = c := by
  cases c with
  | int n =>
    rw [Constant.text, read, Text.Decimal.read_ofInt, Int64.ofInt_toInt]
    all_goals
      intros
      rename_i spelled
      exact ofInt_begins spelled (by decide)
  | bool b => cases b <;> rfl
  | intType | boolType => rfl
  | univ level =>
    rw [Constant.text]
    split
    · rename_i zero
      rw [zero]
      rfl
    · have spelled : ("U" ++ Text.Decimal.ofInt level.toInt).toList =
          'U' :: (Text.Decimal.ofInt level.toInt).toList := String.toList_append
      rw [spelled, read, Text.Decimal.read_ofInt, Int64.ofInt_toInt]

theorem text_injective : Function.Injective Constant.text := fun c d same => by
  rw [← read_text c, same, read_text]

/-- A word is no constant if it is not what it would be read as. -/
theorem text_ne {word : String} (other : (read word.toList).text ≠ word) (c : Constant) :
    c.text ≠ word := fun same => by
  rw [← same, read_text] at other
  exact other rfl

theorem ofInt_unmarked (n : Int) : ∀ c ∈ (Text.Decimal.ofInt n).toList, c ∉ Text.marks := by
  obtain ⟨d, digits, -, ascii, text⟩ := Text.Decimal.toList_ofInt n
  have noDigit : Text.marks.all (fun c => !c.isDigit) = true := by decide
  have unmarked : ∀ c ∈ d :: digits, c ∉ Text.marks := fun c member mark => by
    have other := List.all_eq_true.mp noDigit c mark
    rw [ascii c member] at other
    cases other
  rw [text]
  split
  · exact List.forall_mem_cons.mpr ⟨by decide, unmarked⟩
  · exact unmarked

theorem chunks_text (c : Constant) : Text.chunks c.text = [.word c.text.toList] := by
  cases c with
  | int n =>
    obtain ⟨d, digits, -, -, text⟩ := Text.Decimal.toList_ofInt n.toInt
    refine Text.chunks_word ?_ (ofInt_unmarked n.toInt)
    rw [Constant.text, text]
    split <;> exact List.cons_ne_nil _ _
  | bool b => cases b <;> rfl
  | intType | boolType => rfl
  | univ level =>
    rw [Constant.text]
    split
    · rfl
    · have spelled : ("U" ++ Text.Decimal.ofInt level.toInt).toList =
          'U' :: (Text.Decimal.ofInt level.toInt).toList := String.toList_append
      apply Text.chunks_word
      · simp [spelled]
      · rw [spelled]
        exact List.forall_mem_cons.mpr ⟨by decide, ofInt_unmarked level.toInt⟩

end Constant

theorem Operator.chunks_symbol (op : Operator) :
    Text.chunks op.symbol = [.word op.symbol.toList] := by
  cases op <;> rfl

theorem Operator.symbol_injective : Function.Injective Operator.symbol := fun op op' same => by
  cases op <;> cases op' <;> first | rfl | exact absurd same (by decide)

end DepCalc

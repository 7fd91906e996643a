import DepCalc.Proofs.Text.Words
import DepCalc.Term.Alpha
import DepCalc.Term.Bracketed

/-!
Texts with indices in place of names are uniquely readable. What they leave open is only whether a
number is an index or an integer literal. The words and marks of such a text are a prefix-free code:
a text that begins with that of a term determines the term and what is behind it, although negations
and conditionals stand without brackets.
-/
namespace DepCalc

open Text (Chunk chunks)

/-- The mark with which a binder begins. -/
def Binder.mark : Binder → Char
  | lam => 'λ'
  | pi => '∀'
  | sigma => '∃'

namespace Term

/-- The term with each variable replaced by the literal of its index. -/
def counted : Indexed → Indexed
  | var v => const (.int v.ix)
  | const c => const c
  | binop op l r => binop op l.counted r.counted
  | not t => not t.counted
  | app f a => app f.counted a.counted
  | bind b x dom body => bind b x dom.counted body.counted
  | cond t yes no => cond t.counted yes.counted no.counted
  | ascribe t type => ascribe t.counted type.counted

/-- Neither names nor the difference between indices and literals are shown. -/
theorem numbered_counted (t : Indexed) : t.counted.forgetNames.numbered = t.numbered := by
  unfold numbered
  induction t with
  | var v => rfl
  | const c => rfl
  | not t ih => simp only [counted, forgetNames, bracketed, ih]
  | binop _ _ _ ih ih' | app _ _ ih ih' | ascribe _ _ ih ih' =>
    simp only [counted, forgetNames, bracketed, ih, ih']
  | bind b x dom body ih ih' =>
    simp only [counted, forgetNames, bracketed, numberedBinding, ih, ih']
  | cond t yes no ih ih' ih'' => simp only [counted, forgetNames, bracketed, ih, ih', ih'']

/-- What stands between two terms in brackets: an operator, a colon, or nothing. -/
inductive Link where
  | operator (op : Operator)
  | colon
  | nothing

namespace Link

def join : Link → Indexed → Indexed → Indexed
  | operator op => binop op
  | colon => ascribe
  | nothing => app

def chunks : Link → List Chunk
  | operator op => [.word op.symbol.toList, .mark ' ']
  | colon => [.mark ':', .mark ' ']
  | nothing => []

end Link

@[simp] theorem chunks_var (v : Occurrence) :
    chunks (numbered (var v)) = [.word (Constant.int v.ix).text.toList] :=
  Constant.chunks_text (.int v.ix)

@[simp] theorem chunks_const (c : Constant) :
    chunks (numbered (const c)) = [.word c.text.toList] :=
  Constant.chunks_text c

@[simp] theorem chunks_not (t : Indexed) :
    chunks (numbered (not t)) = .mark '!' :: chunks t.numbered := by
  change chunks ("!" ++ t.numbered) = _
  simp (disch := decide) only [Text.chunks_append_ends]
  rfl

@[simp] theorem chunks_cond (t yes no : Indexed) :
    chunks (numbered (cond t yes no)) =
      .word "if".toList :: .mark ' ' :: (chunks t.numbered ++ .mark ' ' :: .word "then".toList ::
        .mark ' ' :: (chunks yes.numbered ++ .mark ' ' :: .word "else".toList :: .mark ' ' ::
          chunks no.numbered)) := by
  change chunks ("if " ++ t.numbered ++ " then " ++ yes.numbered ++ " else " ++ no.numbered) = _
  simp (disch := decide) only [String.append_assoc, Text.chunks_append_joint,
    Text.chunks_append_ends]
  rfl

@[simp] theorem chunks_bind (b : Binder) (x : Name) (dom body : Indexed) :
    chunks (numbered (bind b x dom body)) =
      .mark '(' :: .mark b.mark :: .mark ':' ::
        (chunks dom.numbered ++ .mark '.' :: (chunks body.numbered ++ [.mark ')'])) := by
  change chunks ("(" ++ b.glyph ++ ":" ++ dom.numbered ++ "." ++ body.numbered ++ ")") = _
  cases b <;>
  simp (disch := decide) only [String.append_assoc, Text.chunks_append_joint,
    Text.chunks_append_begins, Text.chunks_append_ends, Binder.glyph] <;>
  rfl

@[simp] theorem chunks_join (link : Link) (t u : Indexed) :
    chunks (link.join t u).numbered =
      .mark '(' :: (chunks t.numbered ++ .mark ' ' :: (link.chunks ++
        (chunks u.numbered ++ [.mark ')']))) := by
  cases link with
  | operator op =>
    change chunks ("(" ++ t.numbered ++ " " ++ op.symbol ++ " " ++ u.numbered ++ ")") = _
    simp (disch := decide) only [String.append_assoc, Text.chunks_append_joint,
      Text.chunks_append_begins, Text.chunks_append_ends, op.chunks_symbol]
    rfl
  | colon =>
    change chunks ("(" ++ t.numbered ++ " : " ++ u.numbered ++ ")") = _
    simp (disch := decide) only [String.append_assoc, Text.chunks_append_joint,
      Text.chunks_append_begins, Text.chunks_append_ends]
    rfl
  | nothing =>
    change chunks ("(" ++ t.numbered ++ " " ++ u.numbered ++ ")") = _
    simp (disch := decide) only [String.append_assoc, Text.chunks_append_joint,
      Text.chunks_append_begins, Text.chunks_append_ends]
    rfl

/-- The forms of a term that its text tells apart. A leaf is a variable or a constant. -/
inductive Form : Indexed → Prop
  | leaf {t : Indexed} {c : Constant} (text : chunks t.numbered = [.word c.text.toList])
      (counts : t.counted = const c) : Form t
  | not (t : Indexed) : Form (not t)
  | cond (t yes no : Indexed) : Form (cond t yes no)
  | bind (b : Binder) (x : Name) (dom body : Indexed) : Form (bind b x dom body)
  | join (link : Link) (t u : Indexed) : Form (link.join t u)

theorem form (t : Indexed) : Form t := by
  cases t with
  | var v => exact .leaf (chunks_var v) rfl
  | const c => exact .leaf (chunks_const c) rfl
  | not t => exact .not t
  | cond t yes no => exact .cond t yes no
  | bind b x dom body => exact .bind b x dom body
  | binop op l r => exact .join (.operator op) l r
  | app f a => exact .join .nothing f a
  | ascribe t type => exact .join .colon t type

/-- Whether a term may begin so. -/
def begins : Chunk → Bool
  | .mark c => c == '(' || c == '!'
  | .word w => w == "if".toList || (Constant.read w).text.toList == w

theorem numbered_begins (t : Indexed) :
    ∃ first rest, chunks t.numbered = first :: rest ∧ begins first := by
  cases form t with
  | leaf text counts => exact ⟨_, _, text, by simp [begins, Constant.read_text]⟩
  | not t => exact ⟨_, _, chunks_not t, rfl⟩
  | cond t yes no => exact ⟨_, _, chunks_cond t yes no, rfl⟩
  | bind b x dom body => exact ⟨_, _, chunks_bind b x dom body, rfl⟩
  | join link t u => exact ⟨_, _, chunks_join link t u, rfl⟩

theorem ne_numbered {first : Chunk} (other : begins first = false) (t : Indexed)
    (rest behind : List Chunk) : first :: rest ≠ chunks t.numbered ++ behind := fun same => by
  obtain ⟨front, more, text, begun⟩ := numbered_begins t
  rw [text, List.cons_append] at same
  rw [(List.cons.inj same).1, begun] at other
  cases other

theorem begins_operator (op : Operator) : begins (.word op.symbol.toList) = false := by
  cases op <;> decide

theorem begins_binder (b : Binder) : begins (.mark b.mark) = false := by
  cases b <;> decide

/-- A link is known from how it begins, since no term begins so. -/
theorem link_prefix {link link' : Link} {t u : Indexed} {rest behind : List Chunk}
    (same : link.chunks ++ (chunks t.numbered ++ rest) =
      link'.chunks ++ (chunks u.numbered ++ behind)) :
    link = link' ∧ chunks t.numbered ++ rest = chunks u.numbered ++ behind := by
  cases link with
  | operator op =>
    cases link' with
    | operator op' =>
      simp only [Link.chunks, List.cons_append, List.nil_append, List.cons.injEq, Chunk.word.injEq,
        true_and, String.toList_inj] at same
      exact ⟨congrArg Link.operator (Operator.symbol_injective same.1), same.2⟩
    | colon => simp [Link.chunks] at same
    | nothing => exact absurd same (ne_numbered (begins_operator op) u _ _)
  | colon =>
    cases link' with
    | operator op' => simp [Link.chunks] at same
    | colon => exact ⟨rfl, List.append_cancel_left same⟩
    | nothing => exact absurd same (ne_numbered rfl u _ _)
  | nothing =>
    cases link' with
    | operator op' => exact absurd same.symm (ne_numbered (begins_operator op') t _ _)
    | colon => exact absurd same.symm (ne_numbered rfl t _ _)
    | nothing => exact ⟨rfl, same⟩

/-- A text that begins with that of the term determines the term and what is behind it. -/
def Determined (t : Indexed) : Prop :=
  ∀ (u : Indexed) (rest behind : List Chunk),
    chunks t.numbered ++ rest = chunks u.numbered ++ behind →
      AlphaEq t.counted u.counted ∧ rest = behind

namespace Determined

theorem leaf {t : Indexed} {c : Constant} (text : chunks t.numbered = [.word c.text.toList])
    (counts : t.counted = const c) : Determined t := fun u rest behind same => by
  rw [text, List.singleton_append] at same
  cases form u with
  | leaf text' counts' =>
    rw [text', List.singleton_append, List.cons.injEq, Chunk.word.injEq, String.toList_inj] at same
    rw [counts, counts', Constant.text_injective same.1]
    exact ⟨rfl, same.2⟩
  | cond u yes no =>
    rw [chunks_cond, List.cons_append, List.cons.injEq, Chunk.word.injEq, String.toList_inj] at same
    exact absurd same.1 (Constant.text_ne (by decide) c)
  | _ => simp at same

theorem not {t : Indexed} (operand : Determined t) : Determined (not t) :=
    fun u rest behind same => by
  cases form u with
  | leaf text counts => simp [text] at same
  | not u =>
    simp only [chunks_not, List.cons_append, List.cons.injEq, true_and] at same
    obtain ⟨inner, rfl⟩ := operand u rest behind same
    exact ⟨congrArg Term.not inner, rfl⟩
  | _ => simp at same

theorem cond {t yes no : Indexed} (test : Determined t) (first : Determined yes)
    (second : Determined no) : Determined (cond t yes no) := fun u rest behind same => by
  cases form u with
  | leaf text counts =>
    rw [text, chunks_cond, List.cons_append, List.singleton_append, List.cons.injEq,
      Chunk.word.injEq, String.toList_inj] at same
    exact absurd same.1.symm (Constant.text_ne (by decide) _)
  | cond u yes' no' =>
    simp only [chunks_cond, List.cons_append, List.append_assoc, List.cons.injEq, true_and] at same
    obtain ⟨sameTest, same⟩ := test u _ _ same
    simp only [List.cons.injEq, true_and] at same
    obtain ⟨sameFirst, same⟩ := first yes' _ _ same
    simp only [List.cons.injEq, true_and] at same
    obtain ⟨sameSecond, rfl⟩ := second no' _ _ same
    simp only [AlphaEq, counted, forgetNames] at sameTest sameFirst sameSecond ⊢
    rw [sameTest, sameFirst, sameSecond]
    exact ⟨rfl, trivial⟩
  | _ => simp at same

theorem bind {b : Binder} {x : Name} {dom body : Indexed} (domain : Determined dom)
    (under : Determined body) : Determined (bind b x dom body) := fun u rest behind same => by
  cases form u with
  | leaf text counts => simp [text] at same
  | bind b' x' dom' body' =>
    simp only [chunks_bind, List.cons_append, List.append_assoc, List.cons.injEq, true_and] at same
    obtain ⟨sameMark, same⟩ := same
    obtain ⟨sameDomain, same⟩ := domain dom' _ _ same
    simp only [List.cons.injEq, true_and] at same
    obtain ⟨sameBody, same⟩ := under body' _ _ same
    obtain rfl : b = b' := by
      cases b <;> cases b' <;> first | rfl | exact absurd sameMark (by decide)
    simp only [AlphaEq, counted, forgetNames] at sameDomain sameBody ⊢
    rw [sameDomain, sameBody]
    exact ⟨rfl, by simpa using same⟩
  | join link l r =>
    simp only [chunks_bind, chunks_join, List.cons_append, List.append_assoc, List.cons.injEq,
      true_and] at same
    exact absurd same (ne_numbered (begins_binder b) l _ _)
  | _ => simp at same

theorem join (link : Link) {t u : Indexed} (first : Determined t) (second : Determined u) :
    Determined (link.join t u) := fun v rest behind same => by
  cases form v with
  | leaf text counts => simp [text] at same
  | bind b x dom body =>
    simp only [chunks_bind, chunks_join, List.cons_append, List.append_assoc, List.cons.injEq,
      true_and] at same
    exact absurd same.symm (ne_numbered (begins_binder b) t _ _)
  | join link' t' u' =>
    simp only [chunks_join, List.cons_append, List.append_assoc, List.cons.injEq, true_and] at same
    obtain ⟨sameFirst, same⟩ := first t' _ _ same
    simp only [List.cons.injEq, true_and] at same
    obtain ⟨rfl, linked⟩ := link_prefix same
    obtain ⟨sameSecond, closed⟩ := second u' _ _ linked
    refine ⟨?_, by simpa using closed⟩
    simp only [AlphaEq] at sameFirst sameSecond ⊢
    cases link <;> simp only [Link.join, counted, forgetNames, sameFirst, sameSecond]
  | _ => simp at same

end Determined

theorem determined (t : Indexed) : Determined t := by
  induction t with
  | var v => exact .leaf (chunks_var v) rfl
  | const c => exact .leaf (chunks_const c) rfl
  | binop op l r left right => exact .join (.operator op) left right
  | not t operand => exact operand.not
  | app f a fn arg => exact .join .nothing fn arg
  | bind b x dom body domain under => exact domain.bind under
  | cond t yes no test first second => exact test.cond first second
  | ascribe t type subject ascribed => exact .join .colon subject ascribed

end Term

/-- Two terms have the same text with indices if and only if they are equal up to names once the
variables are literals: nothing but the difference between an index and a literal is lost. -/
theorem numbered_eq_iff_counted (a b : Indexed) :
    a.numbered = b.numbered ↔ Term.AlphaEq a.counted b.counted := by
  constructor
  · intro same
    exact (a.determined b [] [] (by rw [same])).1
  · intro same
    rw [← a.numbered_counted, ← b.numbered_counted]
    exact congrArg Term.numbered same

end DepCalc

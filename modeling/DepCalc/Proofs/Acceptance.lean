import DepCalc.Proofs.Inference

/-!
What inference accepts. A typed term is accepted if its ascriptions are justified, that is, if each
ascribed type has a normal form to which the type of its subject is convertible; inference has no
other reason to reject it than that the fuel runs out.
-/
namespace DepCalc

open Bare (HasType WellTyped Joinable univ)

namespace Term

theorem Faultless.const (scope : List Name) (c : Constant) : Faultless scope (.const c) :=
  .of_normalize (by rfl : Term.normalize 1 scope (.const c) = .ok (.const c))

/-- Faultless terms with a common reduct are found convertible, if the fuel suffices. -/
theorem Faultless.convertible {fuel : Nat} {scope : List Name} {s t : Indexed}
    (left : s.Faultless scope) (right : t.Faultless scope) (same : Joinable s.erase t.erase)
    (levels : scope.length + fuel < 2 ^ 63) :
    Outcome (· = .outOfFuel) (· = true) (s.convertible fuel scope t) := by
  apply (left fuel levels).bind
  intro n readsLeft
  apply (right fuel levels).bind
  intro m readsRight
  exact decide_eq_true ((readsLeft.alphaEq_iff readsRight).mpr same)

/-- The ascribed type has a normal form, and it is a type of the subject up to conversion. -/
def Ascribable (scope : List Name) (Δ : List Bare) (t type : Indexed) : Prop :=
  ∃ A, HasType Δ t.erase A ∧ ∃ fuel < sizeLimit, ∃ n, type.normalize fuel scope = .ok n ∧
    Joinable A n.erase

/-- The types of all ascriptions may be ascribed where they stand. -/
def Justified (scope : List Name) (Δ : List Bare) : Indexed → Prop
  | var _ | const _ => True
  | binop _ l r => l.Justified scope Δ ∧ r.Justified scope Δ
  | not t => t.Justified scope Δ
  | app f a => f.Justified scope Δ ∧ a.Justified scope Δ
  | bind _ x dom body => dom.Justified scope Δ ∧ body.Justified (x :: scope) (dom.erase :: Δ)
  | cond t yes no => t.Justified scope Δ ∧ yes.Justified scope Δ ∧ no.Justified scope Δ
  | ascribe t type => t.Justified scope Δ ∧ Ascribable scope Δ t type

theorem Ascribable.faultless {scope : List Name} {Δ : List Bare} {t type : Indexed}
    (ascribable : Ascribable scope Δ t type) : type.Faultless scope := by
  obtain ⟨A, -, fuel, -, n, normalized, -⟩ := ascribable
  exact .of_normalize normalized

/-- An ascribable type is convertible to every type of the subject. -/
theorem Ascribable.same {scope : List Name} {Δ : List Bare} {t type : Indexed} {A : Bare}
    (ascribable : Ascribable scope Δ t type) (typed : HasType Δ t.erase A)
    (levels : ∀ fuel < sizeLimit, scope.length + fuel < 2 ^ 63) : Joinable A type.erase := by
  obtain ⟨B, typed', fuel, enough, n, normalized, joined⟩ := ascribable
  have room := levels fuel enough
  have bound := normalize_depth_lt normalized
  have reads := normalize_reads normalized (by omega)
  exact (typed.unique typed').trans (joined.trans reads.reduces.joinable.symm)

theorem Justified.part {scope : List Name} {Δ : List Bare} {s t : Indexed}
    (justified : t.Justified scope Δ) (member : s ∈ t.parts) : s.Justified scope Δ := by
  cases t <;> simp only [parts, List.mem_cons, List.not_mem_nil, or_false] at member
  all_goals
    simp only [Justified] at justified
    grind

/-- A normal form has no ascriptions. -/
theorem IsNormal.justified {t : Indexed} (normal : t.IsNormal) (scope : List Name)
    (Δ : List Bare) : t.Justified scope Δ := by
  induction t generalizing scope Δ with
  | var | const => trivial
  | binop op l r left right => exact ⟨left normal.1 scope Δ, right normal.2.1 scope Δ⟩
  | not t ih => exact ih normal.1 scope Δ
  | app f a fn arg => exact ⟨fn normal.1 scope Δ, arg normal.2.2 scope Δ⟩
  | bind b x dom body domain under => exact ⟨domain normal.1 _ _, under normal.2 _ _⟩
  | cond t y n test yes no =>
    exact ⟨test normal.1 scope Δ, yes normal.2.2.1 scope Δ, no normal.2.2.2 scope Δ⟩
  | ascribe t type _ _ => exact normal.elim

end Term

namespace Context

theorem convertible_accepts {fuel : Nat} {Γ : Context} {s t : Indexed}
    (levels : Γ.names.length + fuel < 2 ^ 63) (left : s.Faultless Γ.names)
    (right : t.Faultless Γ.names) (same : Joinable s.erase t.erase) :
    Outcome (· = .halted .outOfFuel) (· = true) (Γ.convertible fuel s t) :=
  (left.convertible right same levels).mapError fun _ out => congrArg Rejection.halted out

theorem equate_accepts {fuel : Nat} {Γ : Context} {s t : Indexed} {cause : TypeError}
    (levels : Γ.names.length + fuel < 2 ^ 63) (left : s.Faultless Γ.names)
    (right : t.Faultless Γ.names) (same : Joinable s.erase t.erase) :
    Outcome (· = .halted .outOfFuel) (fun _ => True) (Γ.equate fuel s t cause) := by
  apply (convertible_accepts levels left right same).bind
  intro answer yes
  subst yes
  trivial

theorem normalize_accepts {fuel : Nat} {Γ : Context} {t : Indexed}
    (levels : Γ.names.length + fuel < 2 ^ 63) (faultless : t.Faultless Γ.names) :
    Outcome (· = .halted .outOfFuel) (Reads Γ.names.length t.erase) (Γ.normalize fuel t) :=
  (faultless fuel levels).mapError fun _ out => congrArg Rejection.halted out

theorem universeLevel_accepts {fuel : Nat} {Γ : Context} {t type : Indexed} {k : Int64}
    (levels : Γ.names.length + fuel < 2 ^ 63) (faultless : type.Faultless Γ.names)
    (same : Joinable type.erase (univ k)) :
    Outcome (· = .halted .outOfFuel) (fun _ => True) (Γ.universeLevel fuel t type) := by
  apply (normalize_accepts levels faultless).bind
  intro n reads
  have shown : n.erase = univ k :=
    (reads.reduces.joinable.symm.trans same).eq reads.normal.rigid_erase (.const _)
  obtain rfl := reads.normal.eq_const shown
  trivial

/-- The inferred type is, up to conversion, the type that the term is known to have. -/
theorem Infers.same {Γ : Context} {t type : Indexed} {A : Bare} (h : Γ.Infers t type)
    (typed : HasType Γ.erase t.erase A) : Joinable type.erase A := by
  obtain ⟨B, typed', toType⟩ := h.typed
  exact toType.symm.trans (typed'.unique typed)

theorem lookup_isSome {Γ : Context} {v : Occurrence} {A : Bare}
    (typed : HasType Γ.erase (Term.var v).erase A) : ∃ type, Γ.lookup? v.ix = some type := by
  simp only [Term.erase, Term.widen, Term.bare] at typed
  have nonneg : ¬ v.ix.toInt < 0 := by
    intro negative
    rw [Bare.ofIndex_neg negative] at typed
    exact typed.generates.elim
  rw [Bare.ofIndex, if_neg nonneg, Int64.toNat_toInt] at typed
  obtain ⟨B, found, -⟩ := typed.generates
  have inside := found.lt_length
  rw [length_erase] at inside
  unfold lookup? atIndex?
  rw [if_neg (by rwa [Int64.lt_iff_toInt_lt]), List.getElem?_eq_getElem inside]
  exact ⟨_, rfl⟩

theorem Infers.agree {Γ : Context} {t type type' : Indexed} (h : Γ.Infers t type)
    (h' : Γ.Infers t type') : Joinable type.erase type'.erase := by
  obtain ⟨A, typed, toType⟩ := h'.typed
  exact (h.same typed).trans toType

/-- When the type of an applied function is normalised, it shows itself as a function type. -/
theorem functionType_accepts {fuel : Nat} {Γ : Context} {f fnType : Indexed} {A B : Bare}
    (levels : Γ.names.length + fuel < 2 ^ 63) (context : WellTyped Γ.erase) (fn : Γ.Infers f fnType)
    (typed : HasType Γ.erase f.erase (.bind .pi A B)) :
    Outcome (· = .halted .outOfFuel)
      (fun p => Joinable A p.1.erase ∧ p.1.Faultless Γ.names) (Γ.functionType fuel f fnType) := by
  apply (normalize_accepts levels fn.faultless).bind
  intro n reads
  have joined := reads.reduces.joinable.symm.trans (fn.same typed)
  obtain ⟨A', B', shown, domain, -⟩ := (joined.symm.reduces reads.normal.rigid_erase).bind_inv
  obtain ⟨x, dom, cod, rfl, rfl, rfl⟩ := reads.normal.eq_bind shown
  exact ⟨domain.joinable, fn.domain context reads⟩

theorem variableType_accepts {Γ : Context} {v : Occurrence} {A : Bare}
    (typed : HasType Γ.erase (Term.var v).erase A) :
    Outcome (· = .halted .outOfFuel) (fun _ => True) (Γ.variableType v) := by
  obtain ⟨type, found⟩ := lookup_isSome typed
  rw [variableType, found]
  trivial

/-- A typed term with justified ascriptions. -/
structure Acceptable (Γ : Context) (t : Indexed) : Prop where
  context : WellTyped Γ.erase
  room : Γ.HasRoom t
  justified : t.Justified Γ.names Γ.erase
  typed : ∃ A, HasType Γ.erase t.erase A

namespace Acceptable

variable {Γ : Context} {t s : Indexed}

theorem part (acceptable : Γ.Acceptable t) (member : s ∈ t.parts) : Γ.Acceptable s := by
  obtain ⟨context, room, justified, A, typed⟩ := acceptable
  refine ⟨context, room.part member, justified.part member, ?_⟩
  cases t <;> simp only [Term.parts, List.mem_cons, List.not_mem_nil, or_false] at member
  case binop op l r =>
    obtain ⟨left, right, -⟩ := typed.generates
    rcases member with rfl | rfl
    · exact ⟨_, left⟩
    · exact ⟨_, right⟩
  case not t =>
    subst member
    exact ⟨_, typed.generates.1⟩
  case app f a =>
    obtain ⟨C, D, fn, arg, -⟩ := typed.generates
    rcases member with rfl | rfl
    · exact ⟨_, fn⟩
    · exact ⟨_, arg⟩
  case bind b x dom body =>
    subst member
    obtain ⟨k, B, domain, -⟩ := typed.bind_parts
    exact ⟨_, domain⟩
  case cond t yes no =>
    obtain ⟨C, test, whenTrue, whenFalse, -⟩ := typed.generates
    rcases member with rfl | rfl | rfl
    · exact ⟨_, test⟩
    · exact ⟨_, whenTrue⟩
    · exact ⟨_, whenFalse⟩
  case ascribe t type =>
    subst member
    exact ⟨A, typed⟩

theorem body {b : Binder} {x : Name} {dom body : Indexed}
    (acceptable : Γ.Acceptable (.bind b x dom body)) : (Γ.extend x dom).Acceptable body := by
  obtain ⟨context, room, justified, A, typed⟩ := acceptable
  obtain ⟨k, B, domain, under⟩ := typed.bind_parts
  exact ⟨.cons context domain, room.under, justified.2, B, under⟩

theorem operand {c : Constant} (acceptable : Γ.Acceptable t) (member : (s, c) ∈ t.operands) :
    Γ.Infers s (.const c) := by
  suffices typed : HasType Γ.erase s.erase (.const c) from ⟨⟨_, typed, .refl _⟩, .const _ c⟩
  obtain ⟨-, -, -, A, typed⟩ := acceptable
  cases t <;>
    simp only [Term.operands, List.mem_cons, List.not_mem_nil, or_false, Prod.mk.injEq] at member
  case binop op l r =>
    obtain ⟨left, right, -⟩ := typed.generates
    rcases member with ⟨rfl, rfl⟩ | ⟨rfl, rfl⟩
    · exact left
    · exact right
  case not t =>
    obtain ⟨rfl, rfl⟩ := member
    exact typed.generates.1
  case cond t yes no =>
    obtain ⟨rfl, rfl⟩ := member
    obtain ⟨C, test, -⟩ := typed.generates
    exact test

end Acceptable

/-- A typed term whose ascriptions are justified has every type against which it is checked. -/
abbrev acceptance : Account where
  Before := Acceptable
  After := Infers
  Wanted := Infers
  Meets _ _ _ := True
  Level _ _ _ := True
  Function Γ _ a dom _ := Γ.Infers a dom
  Makes _ _ _ := True

theorem acceptance_holds {fuel : Nat} (enough : fuel < sizeLimit) :
    acceptance.Holds (.outcome fuel (· = .halted .outOfFuel)) where
  part ready := ready.part
  body ready _ := ready.body
  operand ready := ready.operand
  argument _ wanted := wanted
  ascribed ready := by
    obtain ⟨context, room, justified, A, typed⟩ := ready
    exact ⟨⟨A, typed, justified.2.same typed fun _ => room.levels⟩, justified.2.faultless⟩
  expect ready infers wanted := equate_accepts (ready.room.levels enough) infers.faultless
    wanted.faultless (infers.agree wanted)
  function ready infers := by
    obtain ⟨context, room, -, A, typed⟩ := ready
    obtain ⟨C, D, fn, arg, -⟩ := typed.generates
    apply (functionType_accepts (room.levels enough) context infers fn).mono
    rintro p ⟨same, faultless⟩
    exact ⟨⟨C, arg, same⟩, faultless⟩
  domain ready infers := by
    obtain ⟨context, room, -, A, typed⟩ := ready
    obtain ⟨k, B, domain, -⟩ := typed.bind_parts
    exact universeLevel_accepts (room.levels enough) infers.faultless (infers.same domain)
  codomain type ready inside infers := by
    obtain ⟨-, -, -, A, typed⟩ := ready
    obtain ⟨j, under⟩ := typed.form_body type
    exact universeLevel_accepts (inside.room.levels enough) infers.faultless (infers.same under)
  branches ready _ yes no := by
    obtain ⟨-, room, -, A, typed⟩ := ready
    obtain ⟨C, -, whenTrue, whenFalse, -⟩ := typed.generates
    exact equate_accepts (room.levels enough) yes.faultless no.faultless
      ((yes.same whenTrue).trans (no.same whenFalse).symm)
  var ready := by
    obtain ⟨-, -, -, A, typed⟩ := ready
    exact variableType_accepts typed
  const _ := trivial
  binop _ _ _ := trivial
  not _ _ := trivial
  app _ _ _ := trivial
  lam _ _ _ := trivial
  form _ _ _ _ := trivial
  ascribe _ _ := trivial
  -- An answer is right whatever the term; what had to be seen is that nothing fails.
  settle ready made := made.of_answer (infer_sound enough ready.context ready.room)

/-- A typed term whose ascriptions are justified is accepted. Without that, the type of an ascription
might lead to a fault although it is a type of the term. -/
theorem infer_accepts_justified {fuel : Nat} (enough : fuel < sizeLimit) {Γ : Context} {t : Indexed}
    {A : Bare} (context : WellTyped Γ.erase) (room : Γ.HasRoom t)
    (justified : t.Justified Γ.names Γ.erase) (typed : HasType Γ.erase t.erase A) :
    Outcome (· = .halted .outOfFuel) (Γ.Infers t) (Γ.infer fuel t) :=
  (acceptance_holds enough).infer ⟨context, room, justified, A, typed⟩

end Context
end DepCalc

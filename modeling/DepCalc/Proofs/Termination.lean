import DepCalc.Proofs.Bare.Validity
import DepCalc.Proofs.EnoughFuel
import DepCalc.Proofs.Fuel
import DepCalc.Proofs.Refusal
import DepCalc.Proofs.Universes

/-!
Type inference comes back. Every type that is inferred is valid, up to conversion, and so it halts,
with one exception: the type of an ascription is normalised although nobody has checked it. Main
result: inference comes to an end if the ascribed types can be normalised, as long as no universe is
the last one, after which the levels begin again with the least, and no type has a normal form too
deep for its indices to be words.
-/
namespace DepCalc

open Bare (Joinable Valid ValidContext univ)

namespace Term.Normalizable

/-- What has finished once is finished with any more fuel. -/
theorem of_finished {fuel : Nat} {scope : List Name} {t : Indexed}
    (finished : t.normalize fuel scope ≠ .error .outOfFuel) : t.Normalizable scope := by
  refine ⟨fuel, t.normalize fuel scope, fun more le => normalize_mono le finished, ?_⟩
  cases outcome : t.normalize fuel scope with
  | ok n => trivial
  | error h => exact fun same => finished (outcome.trans (congrArg _ same))

theorem const (scope : List Name) (c : Constant) : Normalizable scope (.const c) :=
  normalizable_of_halts (t := .const c) (.const c) scope

theorem bind {scope : List Name} {x : Name} {dom body : Indexed} (b : Binder)
    (domain : dom.Normalizable scope) (under : body.Normalizable (x :: scope)) :
    Normalizable scope (.bind b x dom body) := by
  apply Finishes.succ
  simp only [normalize_bind]
  apply Finishes.bind domain
  intro d _
  apply Finishes.bind under
  intro u _
  exact .of_ne (by simp)

end Term.Normalizable

def Modality.finishes {ε : Type} (out : ε) : Modality ε where
  Says holds run := Finishes out holds run
  answer known := .of_outcome known
  bind first after := first.bind after

/-- A type error is not for want of fuel. -/
theorem Finishes.illTyped {α : Type} {holds : α → Prop} (e : TypeError) :
    Finishes (Rejection.halted .outOfFuel) holds fun _ => throw (.illTyped e) :=
  of_outcome fun same => nomatch same

namespace Term

/-- The term and its parts, each in the context where its type is inferred. -/
def Each (p : Context → Indexed → Prop) (Γ : Context) : Indexed → Prop
  | var v => p Γ (var v)
  | const c => p Γ (const c)
  | binop op l r => p Γ (binop op l r) ∧ l.Each p Γ ∧ r.Each p Γ
  | not t => p Γ (not t) ∧ t.Each p Γ
  | app f a => p Γ (app f a) ∧ f.Each p Γ ∧ a.Each p Γ
  | bind b x dom body => p Γ (bind b x dom body) ∧ dom.Each p Γ ∧ body.Each p (Γ.extend x dom)
  | cond t yes no => p Γ (cond t yes no) ∧ t.Each p Γ ∧ yes.Each p Γ ∧ no.Each p Γ
  | ascribe t type => p Γ (ascribe t type) ∧ t.Each p Γ

theorem Each.whole {p : Context → Indexed → Prop} {Γ : Context} {t : Indexed} (each : t.Each p Γ) :
    p Γ t := by
  cases t with
  | var | const => exact each
  | _ => exact each.1

theorem Each.part {p : Context → Indexed → Prop} {Γ : Context} {s t : Indexed} (each : t.Each p Γ)
    (member : s ∈ t.parts) : s.Each p Γ := by
  cases t <;> simp only [parts, List.mem_cons, List.not_mem_nil, or_false] at member
  all_goals
    simp only [Each] at each
    grind

end Term

namespace Context

variable {Γ : Context} {t type : Indexed}

/-- The normal form of the type that is inferred for the term, if there is one, fits into memory. -/
def HasShallowType (Γ : Context) (t : Indexed) : Prop :=
  ∀ fuel type, Γ.infer fuel t = .ok type →
    ∀ fuel' n, type.normalize fuel' Γ.names = .ok n → n.depth < sizeLimit

/-- One run tells, since the type and its normal form do not depend on the fuel. -/
theorem HasShallowType.of_run (fuel : Nat) {n : Indexed}
    (known : (Γ.infer fuel t >>= Γ.normalize fuel) = .ok n) (shallow : n.depth < sizeLimit) :
    Γ.HasShallowType t := by
  intro fuel₁ type₁ inferred₁ fuel₂ n₂ normalized₂
  cases inferred : Γ.infer fuel t with
  | error e =>
    rw [inferred] at known
    cases known
  | ok type =>
    obtain rfl := infer_unique inferred inferred₁
    rw [inferred] at known
    change (type.normalize fuel Γ.names).mapError Rejection.halted = .ok n at known
    cases normalized : type.normalize fuel Γ.names with
    | error h =>
      rw [normalized] at known
      cases known
    | ok m =>
      rw [normalized] at known
      cases known
      rwa [← normalize_unique normalized normalized₂]

/-- A type that is normalised to a term in normal form and of small depth. -/
def Normalizes (Γ : Context) (type : Indexed) : Prop :=
  Finishes Halt.outOfFuel (fun n => Reads Γ.names.length type.erase n ∧ n.depth < sizeLimit)
    fun fuel => type.normalize fuel Γ.names

theorem Normalizes.finishes (normalizes : Γ.Normalizes type) :
    Finishes (Rejection.halted .outOfFuel)
      (fun n => Reads Γ.names.length type.erase n ∧ n.depth < sizeLimit)
      fun fuel => Γ.normalize fuel type :=
  Finishes.mapError (f := Rejection.halted) (fun _ same => by injection same) normalizes

/-- Of two types that are compared it is enough to know that one has a shallow normal form. -/
theorem Normalizes.convertible {s : Indexed} (left : Γ.Normalizes s)
    (right : t.Normalizable Γ.names)
    (room : Γ.length < 2 * sizeLimit) :
    Finishes (Rejection.halted .outOfFuel) (fun answer => answer = true → Joinable s.erase t.erase)
      fun fuel => Γ.convertible fuel s t := by
  have compared : Finishes Halt.outOfFuel (fun answer => answer = true → Joinable s.erase t.erase)
      fun fuel => s.convertible fuel Γ.names t := by
    apply left.bind
    rintro n ⟨reads, shallow⟩
    have answered : ∀ fuel, Outcome (fun _ => True)
        (fun m => ∃ fuel, t.normalize fuel Γ.names = .ok m) (t.normalize fuel Γ.names) :=
      fun fuel => (Outcome.answered _).mono fun _ normalized => ⟨fuel, normalized⟩
    apply (Finishes.and right answered).bind
    rintro m ⟨-, fuel, normalized⟩
    apply Finishes.of_outcome
    intro same
    have alpha := of_decide_eq_true same
    have levels : Γ.names.length + m.depth < 2 ^ 63 := by
      rw [length_names, ← alpha.depth_eq]
      unfold sizeLimit at *
      omega
    exact (reads.alphaEq_iff (normalize_reads normalized levels)).mp alpha
  exact Finishes.mapError (f := Rejection.halted) (fun _ same => by injection same) compared

theorem Normalizes.equate {s : Indexed} {cause : TypeError} (left : Γ.Normalizes s)
    (right : t.Normalizable Γ.names) (room : Γ.length < 2 * sizeLimit) :
    Finishes (Rejection.halted .outOfFuel) (fun _ => Joinable s.erase t.erase)
      fun fuel => Γ.equate fuel s t cause := by
  apply (left.convertible right room).bind
  intro answer same
  cases answer with
  | true => exact .of_outcome (same rfl)
  | false => exact .illTyped _

/-- What an inferred type says of the term: up to conversion it is a valid type of it, and normalising
it comes to an end. -/
structure Assigns (Γ : Context) (t type : Indexed) : Prop where
  scope : t.erase.Scoped Γ.length
  valid : ∃ A, Valid Γ.erase t.erase A ∧ Joinable A type.erase
  settles : type.Normalizable Γ.names

namespace Assigns

theorem of_valid (context : ValidContext Γ.erase) (scope : t.erase.Scoped Γ.length)
    (valid : Valid Γ.erase t.erase type.erase) : Γ.Assigns t type :=
  ⟨scope, ⟨_, valid, .refl _⟩, normalizable_of_halts (valid.halts context).2 Γ.names⟩

/-- The term is valid at whatever the inferred type is reduced to in the end. -/
theorem at_rigid {B : Bare} (assigns : Γ.Assigns t type) (same : Joinable type.erase B)
    (rigid : B.Rigid) : Valid Γ.erase t.erase B := by
  obtain ⟨A, valid, toType⟩ := assigns.valid
  exact valid.reduces ((toType.trans same).reduces rigid)

theorem at_normal {n : Indexed} {level : Nat} (assigns : Γ.Assigns t type)
    (reads : Reads level type.erase n) : Valid Γ.erase t.erase n.erase :=
  assigns.at_rigid reads.reduces.joinable reads.normal.rigid_erase

theorem normalizes (assigns : Γ.Assigns t type) (shallow : Γ.HasShallowType t)
    (inferred : ∃ fuel, Γ.infer fuel t = .ok type) (room : Γ.length < 2 * sizeLimit) :
    Γ.Normalizes type := by
  obtain ⟨fuel, inferred⟩ := inferred
  apply (Finishes.and assigns.settles fun fuel' => ?_).mono fun _ known => known.2
  apply (Outcome.answered _).mono
  intro n normalized
  have bound := shallow fuel type inferred fuel' n normalized
  refine ⟨normalize_reads normalized ?_, bound⟩
  rw [length_names]
  unfold sizeLimit at *
  omega

/-- Inferring a type that fits into memory. -/
theorem finishes (shallow : Γ.HasShallowType t) (room : Γ.HasRoom t)
    (assigns : Finishes (Rejection.halted .outOfFuel) (Γ.Assigns t) fun fuel => Γ.infer fuel t) :
    Finishes (Rejection.halted .outOfFuel) (fun type => Γ.Assigns t type ∧ Γ.Normalizes type)
      fun fuel => Γ.infer fuel t := by
  have answered : ∀ fuel, Outcome (fun _ => True) (fun type => ∃ fuel, Γ.infer fuel t = .ok type)
      (Γ.infer fuel t) :=
    fun fuel => (Outcome.answered _).mono fun _ inferred => ⟨fuel, inferred⟩
  have total := room.total
  apply (assigns.and answered).mono
  rintro type ⟨assigns, inferred⟩
  exact ⟨assigns, assigns.normalizes shallow inferred (by omega)⟩

theorem at_const {c : Constant} (assigns : Γ.Assigns t (.const c)) :
    Valid Γ.erase t.erase (.const c) :=
  assigns.at_rigid (.refl _) (.const c)

theorem convert {expected : Indexed} (assigns : Γ.Assigns t type)
    (same : Joinable type.erase expected.erase) (settles : expected.Normalizable Γ.names) :
    Γ.Assigns t expected := by
  obtain ⟨A, valid, toType⟩ := assigns.valid
  exact ⟨assigns.scope, ⟨A, valid, toType.trans same⟩, settles⟩

theorem lam {x : Name} {dom body bodyType : Indexed} {k : Int64} (context : ValidContext Γ.erase)
    (scope : dom.erase.Scoped Γ.length) (domain : Valid Γ.erase dom.erase (univ k))
    (under : (Γ.extend x dom).Assigns body bodyType) :
    Γ.Assigns (.bind .lam x dom body) (.bind .pi x dom bodyType) := by
  obtain ⟨B, bodyValid, toType⟩ := under.valid
  have domSettles := normalizable_of_halts (domain.halts context).1 Γ.names
  exact ⟨⟨scope, under.scope⟩, ⟨_, .lam domain bodyValid, (Joinable.refl _).bind toType⟩,
    .bind .pi domSettles under.settles⟩

theorem cond {y n yesType noType : Indexed} (test : Γ.Assigns t (.const .boolType))
    (yes : Γ.Assigns y yesType) (no : Γ.Assigns n noType)
    (same : Joinable yesType.erase noType.erase) : Γ.Assigns (.cond t y n) yesType := by
  obtain ⟨A, yesValid, toYes⟩ := yes.valid
  obtain ⟨B, noValid, toNo⟩ := no.valid
  have agree := toNo.trans (same.symm.trans toYes.symm)
  exact ⟨⟨test.scope, yes.scope, no.scope⟩, ⟨A, .cond test.at_const yesValid noValid agree, toYes⟩,
    yes.settles⟩

end Assigns

theorem Normalizes.universeLevel (normalizes : Γ.Normalizes type) (t : Indexed) :
    Finishes (Rejection.halted .outOfFuel)
      (fun k => Reads Γ.names.length type.erase (.const (.univ k)))
      fun fuel => Γ.universeLevel fuel t type := by
  apply normalizes.finishes.bind
  rintro n ⟨reads, -⟩
  split
  · exact .of_outcome reads
  · exact .illTyped _

/-- The term is a valid function, and no index of the codomain wraps around when an argument is put
in. -/
structure IsValidFunction (Γ : Context) (f dom cod : Indexed) : Prop where
  scope : f.erase.Scoped Γ.length
  valid : Valid Γ.erase f.erase (.bind .pi dom.erase cod.erase)
  codomain : cod.erase.Scoped (Γ.length + 1)
  shallow : cod.depth < sizeLimit

theorem Assigns.functionType {f : Indexed} (assigns : Γ.Assigns f type)
    (normalizes : Γ.Normalizes type) :
    Finishes (Rejection.halted .outOfFuel) (fun p => Γ.IsValidFunction f p.1 p.2)
      fun fuel => Γ.functionType fuel f type := by
  apply normalizes.finishes.bind
  rintro n ⟨reads, bound⟩
  split
  · rename_i x dom cod
    have codomain := reads.scope.2
    rw [length_names] at codomain
    simp only [Term.depth] at bound
    have shallow : cod.depth < sizeLimit := by omega
    exact .of_outcome ⟨assigns.scope, assigns.at_normal reads, codomain, shallow⟩
  · exact .illTyped _

namespace IsValidFunction

variable {f a dom cod : Indexed}

theorem domain (function : Γ.IsValidFunction f dom cod) (context : ValidContext Γ.erase) :
    dom.Normalizable Γ.names :=
  normalizable_of_halts (function.valid.halts context).2.of_bind.1 Γ.names

theorem app (function : Γ.IsValidFunction f dom cod) (context : ValidContext Γ.erase)
    (room : Γ.HasRoom (.app f a)) (arg : Γ.Assigns a dom) :
    Γ.Assigns (.app f a) (Term.instantiate a cod) := by
  have inside : (Term.app f a).erase.Scoped Γ.length := ⟨function.scope, arg.scope⟩
  apply Assigns.of_valid context inside
  obtain ⟨A, argValid, toType⟩ := arg.valid
  rw [Term.erase_instantiate arg.scope function.codomain]
  · exact function.valid.app argValid toType
  · -- Neither the argument nor the codomain is deep enough for an index to wrap around.
    have total := room.total
    have shallow := function.shallow
    simp only [Term.depth] at total
    unfold sizeLimit at *
    omega

end IsValidFunction

theorem variableType_finishes {v : Occurrence} (context : ValidContext Γ.erase)
    (room : Γ.HasRoom (.var v)) :
    Finishes (Rejection.halted .outOfFuel) (Γ.Assigns (.var v)) fun _ => Γ.variableType v := by
  unfold variableType
  cases found : Γ.lookup? v.ix with
  | none => exact .illTyped _
  | some type =>
    obtain ⟨i, inside, index, looked⟩ := lookup_erase context.scopedTypes room found
    refine .of_outcome (Assigns.of_valid context ?_ ?_)
    · rw [index]
      exact inside
    · rw [index]
      exact .var looked

/-- What is asked of a term for the inference of its type to come to an end. -/
structure Settled (Γ : Context) (t : Indexed) : Prop where
  context : ValidContext Γ.erase
  room : Γ.HasRoom t
  levels : Int64.maxValue ∉ t.universes
  ascribed : ∀ place ∈ t.ascribed Γ.names,
    ∃ fuel, place.2.normalize fuel place.1 ≠ .error .outOfFuel
  shallow : t.Each HasShallowType Γ

namespace Settled

theorem part {s : Indexed} (ready : Γ.Settled t) (member : s ∈ t.parts) : Γ.Settled s where
  context := ready.context
  room := ready.room.part member
  levels within := ready.levels (Term.universes_part member within)
  ascribed place within := ready.ascribed place (Term.ascribed_part member within)
  shallow := ready.shallow.part member

theorem body {b : Binder} {x : Name} {dom body : Indexed} {k : Int64}
    (ready : Γ.Settled (.bind b x dom body)) (scope : dom.erase.Scoped Γ.length)
    (domain : Valid Γ.erase dom.erase (univ k)) : (Γ.extend x dom).Settled body where
  context := by
    rw [← length_erase] at scope
    exact ⟨ready.context, scope, k, domain⟩
  room := ready.room.under
  levels within := ready.levels (List.mem_append_right _ within)
  ascribed place within := ready.ascribed place (List.mem_append_right _ within)
  shallow := ready.shallow.2.2

theorem length_lt (ready : Γ.Settled t) : Γ.length < 2 * sizeLimit := by
  have total := ready.room.total
  omega

end Settled

/-- Whatever is normalised on the way is valid and therefore halts, but for the ascribed types. -/
abbrev finishing : Account where
  Before := Settled
  After Γ t type := Γ.Assigns t type ∧ Γ.Normalizes type
  Wanted Γ _ expected := expected.Normalizable Γ.names
  Meets := Assigns
  Level Γ t k := t.erase.Scoped Γ.length ∧ Valid Γ.erase t.erase (univ k)
  Function Γ f _ := Γ.IsValidFunction f
  Makes := Assigns

theorem finishing_holds : finishing.Holds (.finishes (.halted .outOfFuel)) where
  part ready := ready.part
  body ready level := ready.body level.1 level.2
  operand _ _ := .const _ _
  argument ready function := function.domain ready.context
  ascribed ready := by
    obtain ⟨fuel, finished⟩ := ready.ascribed _ List.mem_cons_self
    exact .of_finished finished
  expect ready after wanted := (after.2.equate wanted ready.length_lt).mono
    fun _ same => after.1.convert same wanted
  function _ after := after.1.functionType after.2
  domain _ after := (after.2.universeLevel _).mono
    fun _ reads => ⟨after.1.scope, after.1.at_normal reads⟩
  codomain _ _ _ after := (after.2.universeLevel _).mono
    fun _ reads => ⟨after.1.scope, after.1.at_normal reads⟩
  branches ready test yes no := (yes.2.equate no.1.settles ready.length_lt).mono
    fun _ same => .cond test yes.1 no.1 same
  var ready := variableType_finishes ready.context ready.room
  const ready := by
    refine .of_valid ready.context trivial (.const ?_)
    rintro rfl
    exact ready.levels (List.mem_singleton_self _)
  binop ready left right :=
    .of_valid ready.context ⟨left.scope, right.scope⟩ (.binop left.at_const right.at_const)
  not ready operand := .of_valid ready.context operand.scope (.not operand.at_const)
  app ready function arg := function.app ready.context ready.room arg
  lam ready level under := .lam ready.context level.1 level.2 under.1
  form type ready level level' :=
    .of_valid ready.context ⟨level.1, level'.1⟩ (.form type level.2 level'.2)
  ascribe _ subject := ⟨subject.scope, subject.valid, subject.settles⟩
  settle ready made := Assigns.finishes ready.shallow.whole ready.room made

theorem infer_finishes (context : ValidContext Γ.erase) (room : Γ.HasRoom t)
    (levels : Int64.maxValue ∉ t.universes)
    (ascribed : ∀ place ∈ t.ascribed Γ.names,
      ∃ fuel, place.2.normalize fuel place.1 ≠ .error .outOfFuel)
    (shallow : t.Each HasShallowType Γ) :
    Finishes (Rejection.halted .outOfFuel) (fun type => Γ.Assigns t type ∧ Γ.Normalizes type)
      fun fuel => Γ.infer fuel t :=
  finishing_holds.infer ⟨context, room, levels, ascribed, shallow⟩

/-- Inference of the type of a closed term comes back, with a type or with a reason to refuse the
term, and with the same one for any more fuel. The types that the term ascribes have to be such that
normalising them comes back: nothing has checked them. -/
theorem inference_comes_back {t : Indexed} (depth : t.depth < sizeLimit)
    (levels : Int64.maxValue ∉ t.universes)
    (ascribed : ∀ place ∈ t.ascribed [], ∃ fuel, place.2.normalize fuel place.1 ≠ .error .outOfFuel)
    (shallow : t.Each HasShallowType []) :
    ∃ enough outcome, (∀ fuel ≥ enough, infer fuel [] t = outcome) ∧
      outcome ≠ .error (.halted .outOfFuel) := by
  have room : HasRoom [] t := ⟨by simp, depth, by simp; omega⟩
  obtain ⟨enough, outcome, settled, known⟩ :=
    infer_finishes (Γ := []) trivial room levels ascribed shallow
  refine ⟨enough, outcome, settled, ?_⟩
  rintro rfl
  exact known rfl

/-- The identity of all types at the integers, its result ascribed a type that has to be computed. -/
def computedAscription : Indexed :=
  .ascribe
    (.app
      (.app
        (.bind .lam "A" (.const (.univ 0)) (.bind .lam "x" (.var ⟨"A", 0⟩) (.var ⟨"x", 0⟩)))
        (.const .intType))
      (.const (.int 3)))
    (.app (.bind .lam "B" (.const (.univ 0)) (.var ⟨"B", 0⟩)) (.const .intType))

theorem computedAscription_shallow : computedAscription.Each HasShallowType [] :=
  ⟨.of_run 10 rfl (by decide), .of_run 10 rfl (by decide),
    ⟨.of_run 10 rfl (by decide),
      ⟨.of_run 10 rfl (by decide), .of_run 10 rfl (by decide),
        .of_run 10 rfl (by decide), .of_run 10 rfl (by decide), .of_run 10 rfl (by decide)⟩,
      .of_run 10 rfl (by decide)⟩,
    .of_run 10 rfl (by decide)⟩

theorem inference_comes_back_computed :
    computedAscription.Each HasShallowType [] ∧
    ∃ enough outcome, (∀ fuel ≥ enough, infer fuel [] computedAscription = outcome) ∧
      outcome ≠ .error (.halted .outOfFuel) :=
  ⟨computedAscription_shallow, inference_comes_back (by decide) (by decide)
    (List.forall_mem_singleton.mpr ⟨10, fun same => nomatch same⟩) computedAscription_shallow⟩

/-- A function that applies its argument to itself; its body is ill-typed. -/
def selfApplier : Indexed :=
  .bind .lam "x" (.const .intType) (.app (.var ⟨"x", 0⟩) (.var ⟨"x", 0⟩))

/-- A literal with an ascribed type that reduces to itself. -/
def endlesslyAscribed : Indexed :=
  .ascribe (.const (.int 1)) (.app selfApplier selfApplier)

/-- Each call of the function is a call of the function. -/
theorem eval_selfApplication (fuel : Nat) :
    eval fuel [.bind .lam (.const .intType) "x" [] (.app (.var ⟨"x", 0⟩) (.var ⟨"x", 0⟩))]
      (.app (.var ⟨"x", 0⟩) (.var ⟨"x", 0⟩)) = .error .outOfFuel := by
  induction fuel with
  | zero => rfl
  | succ fuel ih =>
    cases fuel with
    | zero => rfl
    | succ fuel => exact ih

theorem normalize_selfApplication (fuel : Nat) :
    (Term.app selfApplier selfApplier).normalize fuel [] = .error .outOfFuel := by
  have loops : eval fuel [] (.app selfApplier selfApplier) = .error .outOfFuel := by
    match fuel with
    | 0 | 1 | 2 => rfl
    | fuel + 3 => exact eval_selfApplication (fuel + 2)
  change (eval fuel [] _ >>= _) = _
  rw [loops]
  rfl

theorem infer_endlesslyAscribed (fuel : Nat) :
    infer fuel [] endlesslyAscribed = .error (.halted .outOfFuel) := by
  cases fuel with
  | zero => rfl
  | succ fuel =>
    have compared : Term.convertible (fuel + 1) [] (.const (Constant.int 1).type)
        (.app selfApplier selfApplier) = .error .outOfFuel := by
      change (Term.normalize (fuel + 1) [] (.app selfApplier selfApplier) >>= _) = _
      rw [normalize_selfApplication]
      rfl
    change ((Term.convertible (fuel + 1) [] _ _).mapError Rejection.halted >>= _) >>= _ = _
    rw [compared]
    rfl

/-- Inference does not come back, though nothing but the ascribed type stands in its way. -/
theorem inference_of_endless_ascription :
    endlesslyAscribed.depth < sizeLimit ∧ Int64.maxValue ∉ endlesslyAscribed.universes ∧
      endlesslyAscribed.Each HasShallowType [] ∧
      ∀ fuel, infer fuel [] endlesslyAscribed = .error (.halted .outOfFuel) := by
  refine ⟨by decide, by decide, ⟨?_, .of_run 10 rfl (by decide)⟩, infer_endlesslyAscribed⟩
  intro fuel type inferred
  cases (infer_endlesslyAscribed fuel).symm.trans inferred

end Context
end DepCalc

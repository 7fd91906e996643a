import DepCalc.Proofs.Acceptance
import DepCalc.Proofs.Weakening

/-!
Inferred types are types. What is inferred for a term is again accepted as a type, if the types
ascribed where the term's own type comes from have been accepted; an ascription alone does not check
the type it gives. The normal form of the inferred type is accepted in any case.
-/
namespace DepCalc

open Bare (HasType WellTyped Lookup Joinable Renames univ)
open Term (raise)

namespace Term

/-- Names play no part in normalisation. -/
abbrev anyNames : Name → Name → Prop := fun _ _ => True

theorem Ascribable.shifted {scope scope' : List Name} {Δ Δ' : List Bare} {d c : Nat}
    {t t' type type' : Indexed} (ascribable : Ascribable scope Δ t type)
    (subject : Shifted anyNames d c scope.length t t')
    (ascribed : Shifted anyNames d c scope.length type type') (closed : t.erase.Scoped scope.length)
    (inner : c ≤ scope.length) (longer : scope'.length = scope.length + d)
    (renames : Renames (raise d c) Δ Δ') (room : scope'.length < 3 * sizeLimit) :
    Ascribable scope' Δ' t' type' := by
  obtain ⟨A, typed, fuel, enough, n, normalized, joined⟩ := ascribable
  have levels : scope.length + d + fuel < 2 ^ 63 := by
    unfold sizeLimit at *
    omega
  have agree := normalize_shifted inner levels ⟨longer, fun _ _ _ _ _ => trivial⟩ ascribed
  rw [normalized] at agree
  cases normalized' : type'.normalize fuel scope' with
  | error h =>
    rw [normalized'] at agree
    exact agree.elim
  | ok n' =>
    rw [normalized'] at agree
    have bound := normalize_depth_lt normalized
    have reads := normalize_reads normalized (by omega)
    refine ⟨A.rename (raise d c), ?_, fuel, enough, n', normalized', ?_⟩
    · rw [subject.erase_eq closed]
      exact typed.rename renames
    · rw [Shifted.erase_eq agree reads.scope]
      exact joined.rename _

/-- What is justified stays so when variables are brought into scope. -/
theorem Justified.shifted {scope scope' : List Name} {Δ Δ' : List Bare} {d c : Nat} {t t' : Indexed}
    (justified : t.Justified scope Δ) (shifted : Shifted anyNames d c scope.length t t')
    (closed : t.erase.Scoped scope.length) (inner : c ≤ scope.length)
    (longer : scope'.length = scope.length + d) (renames : Renames (raise d c) Δ Δ')
    (room : scope'.length + t.depth < 3 * sizeLimit) : t'.Justified scope' Δ' := by
  induction t generalizing scope scope' Δ Δ' c t' with
  | var v =>
    cases shifted
    trivial
  | const k =>
    cases shifted
    trivial
  | binop op l r left right =>
    cases shifted with
    | binop _ leftShifted rightShifted =>
      simp only [depth] at room
      exact ⟨left justified.1 leftShifted closed.1 inner longer renames (by omega),
        right justified.2 rightShifted closed.2 inner longer renames (by omega)⟩
  | not t ih =>
    cases shifted with
    | not operand =>
      have inside := ih justified operand closed inner longer renames room
      exact inside
  | app f a fn arg =>
    cases shifted with
    | app fnShifted argShifted =>
      simp only [depth] at room
      exact ⟨fn justified.1 fnShifted closed.1 inner longer renames (by omega),
        arg justified.2 argShifted closed.2 inner longer renames (by omega)⟩
  | bind b x dom body domain under =>
    cases shifted with
    | bind _ _ domShifted bodyShifted =>
      simp only [depth] at room
      have lifted := renames.lift dom.erase
      rw [lift_raise, ← domShifted.erase_eq closed.1] at lifted
      refine ⟨domain justified.1 domShifted closed.1 inner longer renames (by omega),
        under justified.2 bodyShifted closed.2 (Nat.succ_le_succ inner) ?_ lifted ?_⟩
      · simp only [List.length_cons]
        omega
      · simp only [List.length_cons]
        omega
  | cond t y n test yes no =>
    cases shifted with
    | cond testShifted yesShifted noShifted =>
      simp only [depth] at room
      exact ⟨test justified.1 testShifted closed.1 inner longer renames (by omega),
        yes justified.2.1 yesShifted closed.2.1 inner longer renames (by omega),
        no justified.2.2 noShifted closed.2.2 inner longer renames (by omega)⟩
  | ascribe t type subject _ =>
    cases shifted with
    | ascribe subjectShifted typeShifted =>
      simp only [depth] at room
      exact ⟨subject justified.1 subjectShifted closed inner longer renames (by omega),
        justified.2.shifted subjectShifted typeShifted closed inner longer renames (by omega)⟩

theorem renames_refl (Δ : List Bare) : Renames (raise 0 0) Δ Δ := by
  intro i A found
  have same : raise 0 0 = id := by
    funext j
    rfl
  rwa [same, Bare.rename_id]

theorem renames_cons {k : Nat} {Δ Δ' : List Bare} (renames : Renames (raise k 0) Δ Δ') (B : Bare) :
    Renames (raise (k + 1) 0) Δ (B :: Δ') := by
  intro i A found
  have further := Lookup.there B (renames i A found)
  rw [Bare.weaken, Bare.rename_rename] at further
  exact further

theorem renames_drop {k : Nat} {Δ : List Bare} (inside : k ≤ Δ.length) :
    Renames (raise k 0) (Δ.drop k) Δ := by
  induction k generalizing Δ with
  | zero => exact renames_refl Δ
  | succ k ih =>
    cases Δ with
    | nil => exact absurd inside (Nat.not_succ_le_zero k)
    | cons B Δ => exact renames_cons (ih (Nat.le_of_succ_le_succ inside)) B

/-- A justified term stays so when it is put in the place of a variable of a normal form. The
induction is on the normal form; under `k` of its binders the term has been shifted by `k + 1`. -/
theorem Justified.substituted {scope scope' : List Name} {Δ Δ' : List Bare} {a s t : Indexed}
    {k : Nat} {place : Int64} (justified : a.Justified scope Δ)
    (closed : a.erase.Scoped scope.length) (normal : t.IsNormal) (word : place.toInt = k)
    (shifted : Shifted anyNames (k + 1) 0 scope.length a s)
    (longer : scope'.length = scope.length + k) (renames : Renames (raise k 0) Δ Δ')
    (room : scope.length + a.depth < 2 * sizeLimit) (shallow : k + t.depth + 2 < sizeLimit) :
    ((subst place s t).shift (-1) place).Justified scope' Δ' := by
  induction t generalizing scope' Δ' s k place with
  | var v =>
    simp only [subst]
    split
    · -- One of the `k + 1` places goes when the binder does.
      have lowered : Shifted anyNames k 0 scope.length a (s.shift (-1) place) := by
        refine shifted.shift (k := k) (by decide) ?_ ?_ (Nat.le_succ k) (Nat.zero_le _) ?_
        · rw [show (-1 : Int64).toInt = -1 from rfl]
          omega
        · omega
        · unfold sizeLimit at *
          omega
      exact justified.shifted lowered closed (Nat.zero_le _) longer renames (by omega)
    · simp only [shift]
      split <;> trivial
  | const c => trivial
  | binop op l r left right =>
    simp only [depth] at shallow
    exact ⟨left normal.1 word shifted longer renames (by omega),
      right normal.2.1 word shifted longer renames (by omega)⟩
  | not t ih =>
    have inside := ih normal.1 word shifted longer renames shallow
    exact inside
  | app f b fn arg =>
    simp only [depth] at shallow
    exact ⟨fn normal.1 word shifted longer renames (by omega),
      arg normal.2.2 word shifted longer renames (by omega)⟩
  | bind b x dom body domain under =>
    simp only [depth] at shallow
    have next : (place + 1).toInt = (k + 1 : Nat) := by
      rw [toInt_succ_of_fits (by unfold sizeLimit at *; omega), word, Int.natCast_succ]
    have further : Shifted anyNames (k + 1 + 1) 0 scope.length a (s.shift 1 0) := by
      refine shifted.shift (k := 0) (by decide) ?_ ?_ (Nat.zero_le _) (Nat.zero_le _) ?_
      · rw [Int64.toInt_one]
        omega
      · rfl
      · unfold sizeLimit at *
        omega
    refine ⟨domain normal.1 word shifted longer renames (by omega),
      under normal.2 next further ?_ (renames_cons renames _) (by omega)⟩
    simp only [List.length_cons]
    omega
  | cond t y n test yes no =>
    simp only [depth] at shallow
    exact ⟨test normal.1 word shifted longer renames (by omega),
      yes normal.2.2.1 word shifted longer renames (by omega),
      no normal.2.2.2 word shifted longer renames (by omega)⟩
  | ascribe t type _ _ => exact normal.elim

theorem Justified.instantiate {scope : List Name} {Δ : List Bare} {a body : Indexed}
    (justified : a.Justified scope Δ) (closed : a.erase.Scoped scope.length) (normal : body.IsNormal)
    (room : scope.length + a.depth < 2 * sizeLimit) (shallow : body.depth + 2 < sizeLimit) :
    (Term.instantiate a body).Justified scope Δ := by
  have shifted : Shifted anyNames 1 0 scope.length a (a.shift 1 0) := by
    apply Shifted.of_shift (fun _ => trivial) rfl
    unfold sizeLimit at *
    omega
  exact justified.substituted closed normal (k := 0) rfl shifted rfl (renames_refl Δ) room (by omega)

end Term

namespace Context

/-- The ascriptions in the types of the context are justified. -/
def TypesJustified : Context → Prop
  | [] => True
  | binding :: Γ => TypesJustified Γ ∧ binding.type.Justified (names Γ) (erase Γ)

theorem TypesJustified.get {Γ : Context} {i : Nat} {binding : Binding} (types : Γ.TypesJustified)
    (got : Γ[i]? = some binding) :
    binding.type.Justified (Γ.names.drop (i + 1)) (Γ.erase.drop (i + 1)) := by
  induction Γ generalizing i with
  | nil => simp at got
  | cons head Γ ih =>
    cases i with
    | zero =>
      simp only [List.getElem?_cons_zero, Option.some.injEq] at got
      subst got
      exact types.2
    | succ i => exact ih types.1 (by simpa using got)

theorem TypesJustified.lookup {Γ : Context} {v : Occurrence} {type : Indexed}
    (types : Γ.TypesJustified) (context : WellTyped Γ.erase) (room : Γ.HasRoom (.var v))
    (found : Γ.lookup? v.ix = some type) : type.Justified Γ.names Γ.erase := by
  obtain ⟨i, binding, word, got, rfl⟩ := lookup_inv found
  obtain ⟨inside, amount⟩ := room.index word got
  have shallow := room.types binding (List.mem_of_getElem? got)
  have total := room.total
  have outer : (Γ.names.drop (i + 1)).length = Γ.length - (i + 1) := by
    rw [List.length_drop, length_names]
  have closed : binding.type.erase.Scoped (Γ.names.drop (i + 1)).length := by
    rw [outer, ← length_erase]
    exact (context.scopedTypes.get (get_erase got)).2
  have shifted : Term.Shifted Term.anyNames (i + 1) 0 (Γ.names.drop (i + 1)).length binding.type
      (binding.type.shift (v.ix + 1) 0) := by
    apply Term.Shifted.of_shift (fun _ => trivial) amount
    unfold sizeLimit at *
    omega
  refine (types.get got).shifted shifted closed (Nat.zero_le _) ?_ (Term.renames_drop ?_) ?_
  · rw [outer, length_names]
    omega
  · rw [length_erase]
    exact inside
  · rw [length_names]
    omega

/-- The type is one itself, and its ascriptions are justified. -/
structure Regular (Γ : Context) (type : Indexed) : Prop where
  justified : type.Justified Γ.names Γ.erase
  isType : ∃ k, HasType Γ.erase type.erase (univ k)

theorem Regular.of_typed {Γ : Context} {t type : Indexed} (context : WellTyped Γ.erase)
    (justified : type.Justified Γ.names Γ.erase) (typed : HasType Γ.erase t.erase type.erase) :
    Γ.Regular type :=
  ⟨justified, typed.type context⟩

theorem Regular.const {Γ : Context} {c : Constant} {k : Int64} (isType : c.type = .univ k) :
    Γ.Regular (.const c) := by
  have typed := HasType.const (Γ := Γ.erase) c
  rw [isType] at typed
  exact ⟨trivial, k, typed⟩

theorem Regular.typeOf {Γ : Context} (c : Constant) : Γ.Regular (.const c.type) := by
  cases c <;> exact .const rfl

theorem Regular.resultType {Γ : Context} (op : Operator) : Γ.Regular (.const op.resultType) := by
  cases op <;> exact .const rfl

/-- Nothing but the fuel keeps a regular type from being accepted. -/
theorem Regular.accepted {fuel : Nat} {Γ : Context} {type : Indexed} (regular : Γ.Regular type)
    (enough : fuel < sizeLimit) (context : WellTyped Γ.erase) (room : Γ.HasRoom type) :
    Outcome (· = .halted .outOfFuel) (fun _ => True) (Γ.inferUniverse fuel type) := by
  obtain ⟨justified, k, isType⟩ := regular
  apply (infer_accepts_justified enough context room justified isType).bind
  intro kind infers
  exact universeLevel_accepts (room.levels enough) infers.faultless (infers.same isType)

/-- A type that has been accepted is regular, if accepting it justified its ascriptions. -/
theorem inferUniverse_regular {fuel : Nat} (enough : fuel < sizeLimit) {Γ : Context} {t : Indexed}
    (context : WellTyped Γ.erase) (room : Γ.HasRoom t)
    (justified : Outcome (fun _ => True) (fun _ => t.Justified Γ.names Γ.erase) (Γ.infer fuel t)) :
    Outcome (fun _ => True) (fun _ => Γ.Regular t) (Γ.inferUniverse fuel t) := by
  have accepted : Outcome (fun _ => True) (fun _ => t.Justified Γ.names Γ.erase)
      (Γ.inferUniverse fuel t) := by
    apply justified.bind
    intro type fine
    exact (Outcome.answered _).mono fun _ _ => fine
  apply ((inferUniverse_sound enough context room).and accepted).mono
  rintro k ⟨isType, fine⟩
  exact ⟨fine, k, isType⟩

/-- The types ascribed where the type of the term comes from are accepted as types: that of an
ascription itself, or one in the first branch of a conditional or in the body of a function. -/
def ResultAccepted (Γ : Context) : Indexed → Prop
  | .ascribe _ type => ∃ fuel < sizeLimit, ∃ level, Γ.inferUniverse fuel type = .ok level
  | .cond _ yes _ => Γ.ResultAccepted yes
  | .bind .lam x dom body => (Γ.extend x dom).ResultAccepted body
  | _ => True

theorem equate_normalizes (fuel : Nat) (Γ : Context) (s t : Indexed) (cause : TypeError) :
    Outcome (fun _ => True) (fun _ => ∃ n, t.normalize fuel Γ.names = .ok n)
      (Γ.equate fuel s t cause) := by
  have compared : Outcome (fun _ => True) (fun _ => ∃ n, t.normalize fuel Γ.names = .ok n)
      (s.convertible fuel Γ.names t) := by
    apply (Outcome.answered _).bind
    intro _ _
    apply (Outcome.answered _).bind
    intro n normalized
    exact ⟨n, normalized⟩
  have told : Outcome (fun _ => True) (fun _ => ∃ n, t.normalize fuel Γ.names = .ok n)
      (Γ.convertible fuel s t) := compared.mapError fun _ _ => trivial
  apply told.bind
  intro answer normalizes
  cases answer with
  | true => exact normalizes
  | false => trivial

/-- A type against which a term has been checked may be ascribed to it. -/
theorem equate_ascribable {fuel : Nat} (enough : fuel < sizeLimit) {Γ : Context}
    {t type expected : Indexed} {cause : TypeError} (levels : Γ.names.length + fuel < 2 ^ 63)
    (infers : Γ.Infers t type) :
    Outcome (fun _ => True) (fun _ => Term.Ascribable Γ.names Γ.erase t expected)
      (Γ.equate fuel type expected cause) := by
  apply ((equate_sound levels _ _ _).and (equate_normalizes fuel Γ type expected cause)).mono
  rintro _ ⟨⟨same, -⟩, n, normalized⟩
  obtain ⟨A, typed, toType⟩ := infers.typed
  have bound := normalize_depth_lt normalized
  have reads := normalize_reads normalized (by omega)
  exact ⟨A, typed, fuel, enough, n, normalized, toType.trans (same.trans reads.reduces.joinable)⟩

/-- In a term that has been accepted the ascriptions are justified: inference has checked each subject
against its type. -/
abbrev justification : Account where
  Before Γ t := WellTyped Γ.erase ∧ Γ.HasRoom t
  After Γ t type := Γ.Infers t type ∧ t.Justified Γ.names Γ.erase
  Wanted _ _ _ := True
  Meets Γ t expected := t.Justified Γ.names Γ.erase ∧ Term.Ascribable Γ.names Γ.erase t expected
  Level Γ t k := t.Justified Γ.names Γ.erase ∧ HasType Γ.erase t.erase (univ k)
  Function Γ f _ _ _ := f.Justified Γ.names Γ.erase
  Makes Γ t _ := t.Justified Γ.names Γ.erase

theorem justification_holds {fuel : Nat} (enough : fuel < sizeLimit) :
    justification.Holds (.outcome fuel fun _ => True) where
  part ready member := ⟨ready.1, ready.2.part member⟩
  body ready level := ⟨.cons ready.1 level.2, ready.2.under⟩
  operand _ _ := trivial
  argument _ _ := trivial
  ascribed _ := trivial
  expect ready after _ := (equate_ascribable enough (ready.2.levels enough) after.1).mono
    fun _ ascribable => ⟨after.2, ascribable⟩
  function _ after := (Outcome.answered _).mono fun _ _ => after.2
  domain ready after := (universeLevel_sound (ready.2.levels enough) _ _).mono
    fun _ reads => ⟨after.2, after.1.at_normal ready.1 reads⟩
  codomain _ _ ready after := (universeLevel_sound (ready.2.levels enough) _ _).mono
    fun _ reads => ⟨after.2, after.1.at_normal ready.1 reads⟩
  branches _ test yes no := (Outcome.answered _).mono fun _ _ => ⟨test.1, yes.2, no.2⟩
  var _ := (Outcome.answered _).mono fun _ _ => trivial
  const _ := trivial
  binop _ left right := ⟨left.1, right.1⟩
  not _ operand := operand.1
  app _ fn arg := ⟨fn, arg.1⟩
  lam _ domain under := ⟨domain.1, under.2⟩
  form _ _ domain under := ⟨domain.1, under.1⟩
  ascribe _ subject := subject
  settle ready made := (infer_sound enough ready.1 ready.2).and made

theorem infer_justified {fuel : Nat} (enough : fuel < sizeLimit) {Γ : Context} {t : Indexed}
    (context : WellTyped Γ.erase) (room : Γ.HasRoom t) :
    Outcome (fun _ => True) (fun type => Γ.Infers t type ∧ t.Justified Γ.names Γ.erase)
      (Γ.infer fuel t) :=
  (justification_holds enough).infer ⟨context, room⟩

theorem Regular.variableType {Γ : Context} {v : Occurrence} (context : WellTyped Γ.erase)
    (types : Γ.TypesJustified) (room : Γ.HasRoom (.var v)) :
    Outcome (fun _ => True) Γ.Regular (Γ.variableType v) := by
  unfold Context.variableType
  cases found : Γ.lookup? v.ix with
  | none => trivial
  | some type =>
    exact .of_typed context (types.lookup context room found) (lookup_typed context room found)

/-- The codomain is a normal form: whatever is ascribed in the result comes from the argument. -/
theorem Regular.app {Γ : Context} {f a dom cod : Indexed} (context : WellTyped Γ.erase)
    (room : Γ.HasRoom (.app f a)) (function : Γ.IsFunction f dom cod) (normal : cod.IsNormal)
    (arg : Γ.Infers a dom) (justified : a.Justified Γ.names Γ.erase) :
    Γ.Regular (Term.instantiate a cod) := by
  obtain ⟨A, typed, -⟩ := arg.typed
  have closed := typed.scoped
  rw [length_erase, ← length_names] at closed
  refine .of_typed context (justified.instantiate closed normal ?_ function.shallow)
    (function.app context room arg)
  have total := room.total
  simp only [Term.depth] at total
  rw [length_names]
  omega

theorem Regular.lam {Γ : Context} {x : Name} {dom bodyType : Indexed} {k : Int64}
    (justified : dom.Justified Γ.names Γ.erase) (domain : HasType Γ.erase dom.erase (univ k))
    (under : (Γ.extend x dom).Regular bodyType) : Γ.Regular (.bind .pi x dom bodyType) := by
  obtain ⟨typeJustified, j, isType⟩ := under
  exact ⟨⟨justified, typeJustified⟩, _, .form (by decide) domain isType⟩

/-- The inferred type is regular unless an ascription that has not been looked at gave it. -/
abbrev regularity : Account where
  Before Γ t := WellTyped Γ.erase ∧ Γ.TypesJustified ∧ Γ.HasRoom t
  After Γ t type := (Γ.Infers t type ∧ t.Justified Γ.names Γ.erase) ∧
    (Γ.ResultAccepted t → Γ.Regular type)
  Wanted _ _ _ := True
  Meets Γ t expected := Γ.Infers t expected ∧ t.Justified Γ.names Γ.erase
  Level Γ t k := t.Justified Γ.names Γ.erase ∧ HasType Γ.erase t.erase (univ k)
  Function Γ f _ dom cod := Γ.IsFunction f dom cod ∧ cod.IsNormal
  Makes Γ t type := Γ.ResultAccepted t → Γ.Regular type

theorem regularity_holds {fuel : Nat} (enough : fuel < sizeLimit) :
    regularity.Holds (.outcome fuel fun _ => True) where
  part ready member := ⟨ready.1, ready.2.1, ready.2.2.part member⟩
  body ready level := ⟨.cons ready.1 level.2, ⟨ready.2.1, level.1⟩, ready.2.2.under⟩
  operand _ _ := trivial
  argument _ _ := trivial
  ascribed _ := trivial
  expect ready after _ := (equate_sound (ready.2.2.levels enough) _ _ _).mono
    fun _ same => ⟨after.1.1.convert same.1 same.2, after.1.2⟩
  function ready after := (functionType_sound (ready.2.2.levels enough) _ _).mono fun _ found =>
    found.elim fun _ known =>
      ⟨after.1.1.isFunction ready.1 enough known.1 known.2, known.1.normal.2⟩
  domain ready after := (universeLevel_sound (ready.2.2.levels enough) _ _).mono
    fun _ reads => ⟨after.1.2, after.1.1.at_normal ready.1 reads⟩
  codomain _ _ ready after := (universeLevel_sound (ready.2.2.levels enough) _ _).mono
    fun _ reads => ⟨after.1.2, after.1.1.at_normal ready.1 reads⟩
  branches _ _ yes _ := (Outcome.answered _).mono fun _ _ => yes.2
  var ready := (Regular.variableType ready.1 ready.2.1 ready.2.2).mono fun _ regular _ => regular
  const _ _ := .typeOf _
  binop _ _ _ _ := .resultType _
  not _ _ _ := .const rfl
  app ready function arg _ := .app ready.1 ready.2.2 function.1 function.2 arg.1 arg.2
  lam _ domain under accepted := .lam domain.1 domain.2 (under.2 accepted)
  form _ _ _ _ _ := .const rfl
  ascribe ready _ accepted := by
    -- Here alone the type has to be looked at; nothing above has done so.
    obtain ⟨fuel', enough', level, accepted⟩ := accepted
    have room := ready.2.2.shallower (Nat.le_max_right _ _)
    have justified := infer_justified enough' ready.1 room
    exact (inferUniverse_regular enough' ready.1 room (justified.mono fun _ h => h.2)).of_eq_ok
      accepted
  settle ready made := (infer_justified enough ready.1 ready.2.2).and made

theorem infer_regular {fuel : Nat} (enough : fuel < sizeLimit) {Γ : Context} {t : Indexed}
    (context : WellTyped Γ.erase) (types : Γ.TypesJustified) (room : Γ.HasRoom t) :
    Outcome (fun _ => True)
      (fun type => (Γ.Infers t type ∧ t.Justified Γ.names Γ.erase) ∧
        (Γ.ResultAccepted t → Γ.Regular type))
      (Γ.infer fuel t) :=
  (regularity_holds enough).infer ⟨context, types, room⟩

theorem WellFormed.typesJustified {Γ : Context} (context : Γ.WellFormed)
    (size : Γ.length < sizeLimit) : Γ.TypesJustified := by
  induction Γ with
  | nil => trivial
  | cons binding Γ ih =>
    obtain ⟨outside, depth, fuel, enough, level, accepted⟩ := context
    rw [List.length_cons] at size
    have room := outside.hasRoom (by omega) depth
    have outsideTyped := outside.wellTyped (by omega)
    have justified := infer_justified enough outsideTyped room
    have regular := (inferUniverse_regular enough outsideTyped room
      (justified.mono fun _ h => h.2)).of_eq_ok accepted
    exact ⟨ih outside (by omega), regular.justified⟩

theorem Regular.level_or_outOfFuel {again : Nat} {Γ : Context} {type : Indexed}
    (regular : Γ.Regular type) (enough : again < sizeLimit) (context : WellTyped Γ.erase)
    (room : Γ.HasRoom type) :
    Γ.inferUniverse again type = .error (.halted .outOfFuel) ∨
      ∃ level, Γ.inferUniverse again type = .ok level := by
  have accepted := regular.accepted enough context room
  cases answer : Γ.inferUniverse again type with
  | error e => exact .inl (congrArg Except.error (accepted.of_eq_error answer))
  | ok level => exact .inr ⟨level, rfl⟩

/-- The type inferred for a term is accepted as a type, if the fuel suffices and each type ascribed
where it comes from has been accepted. Its normal form is accepted whatever has been ascribed. -/
theorem inferred_type_accepted {fuel : Nat} {Γ : Context} {t type : Indexed}
    (context : Γ.WellFormed) (size : Γ.length < sizeLimit) (depth : t.depth < sizeLimit)
    (typeDepth : type.depth < sizeLimit) (enough : fuel < sizeLimit)
    (inferred : Γ.infer fuel t = .ok type) :
    (Γ.ResultAccepted t → ∀ again < sizeLimit,
      Γ.inferUniverse again type = .error (.halted .outOfFuel) ∨
        ∃ level, Γ.inferUniverse again type = .ok level) ∧
    ∀ fuel' < sizeLimit, ∀ n, type.normalize fuel' Γ.names = .ok n → ∀ again < sizeLimit,
      Γ.inferUniverse again n = .error (.halted .outOfFuel) ∨
        ∃ level, Γ.inferUniverse again n = .ok level := by
  have wellTyped := context.wellTyped size
  have room := context.hasRoom size depth
  have types := context.typesJustified size
  obtain ⟨⟨infers, -⟩, regular⟩ := (infer_regular enough wellTyped types room).of_eq_ok inferred
  constructor
  · intro accepted again enough'
    exact (regular accepted).level_or_outOfFuel enough' wellTyped (context.hasRoom size typeDepth)
  · intro fuel' enough' n normalized again more
    have levels := room.levels enough'
    have bound := normalize_depth_lt normalized
    have reads := normalize_reads normalized (by omega)
    have normalRegular : Γ.Regular n :=
      .of_typed wellTyped (reads.normal.justified _ _) (infers.at_normal wellTyped reads)
    exact normalRegular.level_or_outOfFuel more wellTyped (context.hasRoom size (by omega))

/-- The identity on the type of the context; its result is ascribed that type by way of a redex. -/
def identityAscribed : Indexed :=
  .bind .lam "y" (.var ⟨"A", 1⟩)
    (.ascribe (.var ⟨"y", 0⟩)
      (.app (.bind .lam "B" (.const (.univ 0)) (.var ⟨"B", 0⟩)) (.var ⟨"A", 2⟩)))

def identityAscribedType : Indexed :=
  .bind .pi "y" (.var ⟨"A", 1⟩)
    (.app (.bind .lam "B" (.const (.univ 0)) (.var ⟨"B", 0⟩)) (.var ⟨"A", 2⟩))

theorem inferred_type_accepted_identity :
    ofSomeType.infer 10 identityAscribed = .ok identityAscribedType ∧
    ofSomeType.ResultAccepted identityAscribed ∧
    ∀ again < sizeLimit,
      ofSomeType.inferUniverse again identityAscribedType = .error (.halted .outOfFuel) ∨
        ∃ level, ofSomeType.inferUniverse again identityAscribedType = .ok level := by
  have inferred : ofSomeType.infer 10 identityAscribed = .ok identityAscribedType := by rfl
  have accepted : ofSomeType.ResultAccepted identityAscribed := ⟨10, by decide, 0, by rfl⟩
  exact ⟨inferred, accepted, (inferred_type_accepted ofSomeType_wellFormed (by decide) (by decide)
    (by decide) (by decide : 10 < sizeLimit) inferred).1 accepted⟩

/-- A type that becomes the type of integers, though a function in it takes the members of `5`. -/
def intByWayOfFive : Indexed :=
  .app (.bind .lam "x" (.const (.int 5)) (.const .intType)) (.const (.int 3))

/-- The type of an ascription is inferred as it stands, also where it is not accepted as a type. -/
theorem infer_ascribed_intByWayOfFive :
    Context.WellFormed [] ∧
    Context.infer 10 [] (.ascribe (.const (.int 1)) intByWayOfFive) = .ok intByWayOfFive ∧
    Context.inferUniverse 10 [] intByWayOfFive =
      .error (.illTyped (.notType [] (.const (.int 5)) (.const .intType))) :=
  ⟨trivial, by rfl, by rfl⟩

end Context
end DepCalc

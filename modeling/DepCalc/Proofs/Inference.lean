import DepCalc.Program
import DepCalc.Proofs.Accounts
import DepCalc.Proofs.Safety

/-!
Soundness of type inference. What is inferred for a term is a type of it up to conversion; it need
not be typed itself, since the type of an ascription is not checked, but it never leads to a fault
when it is normalised. Main result: in a well-formed context a term that has been accepted, and the
type inferred for it, have a normal form unless the fuel runs out.
-/
namespace DepCalc

open Bare (HasType WellTyped Lookup Joinable univ)

/-- What fits into memory: an address space of `2 ^ 64` bytes has `2 ^ 61` words, and a binder of a
term, a variable of a context or a call waiting for another takes up more than one of them. No index
wraps around below this limit. Far above it one does: the type of a variable with `2 ^ 63 - 1` others
inside of it would be shifted downwards. -/
def sizeLimit : Nat := 2 ^ 61

theorem Term.depth_le_of_mem_parts {s t : Indexed} (member : s ∈ t.parts) : s.depth ≤ t.depth := by
  cases t <;> simp only [parts, List.mem_cons, List.not_mem_nil, or_false] at member
  all_goals
    simp only [depth]
    grind

namespace Context

def erase (Γ : Context) : List Bare := Γ.map fun binding => binding.type.erase

@[simp] theorem length_erase (Γ : Context) : Γ.erase.length = Γ.length := List.length_map _

@[simp] theorem length_names (Γ : Context) : Γ.names.length = Γ.length := List.length_map _

/-- The types of the context and the term are shallow enough for the term to be typed. A binder of
the term that becomes one of the context counts once. -/
structure HasRoom (Γ : Context) (t : Indexed) : Prop where
  types : ∀ binding ∈ Γ, binding.type.depth < sizeLimit
  term : t.depth < sizeLimit
  total : Γ.length + t.depth < 2 * sizeLimit

namespace HasRoom

variable {Γ : Context} {t : Indexed}

theorem shallower {u : Indexed} (room : Γ.HasRoom t) (le : u.depth ≤ t.depth) : Γ.HasRoom u := by
  obtain ⟨types, term, total⟩ := room
  exact ⟨types, by omega, by omega⟩

theorem part {u : Indexed} (room : Γ.HasRoom t) (member : u ∈ t.parts) : Γ.HasRoom u :=
  room.shallower (Term.depth_le_of_mem_parts member)

theorem under {b : Binder} {x : Name} {dom body : Indexed}
    (room : Γ.HasRoom (.bind b x dom body)) : (Γ.extend x dom).HasRoom body := by
  obtain ⟨types, term, total⟩ := room
  simp only [Term.depth] at term total
  refine ⟨?_, by omega, ?_⟩
  · intro binding member
    rcases List.mem_cons.mp member with rfl | outside
    · exact Nat.lt_of_le_of_lt (Nat.le_max_left _ _) term
    · exact types binding outside
  · simp only [extend, List.length_cons]
    omega

theorem levels {fuel : Nat} (room : Γ.HasRoom t) (enough : fuel < sizeLimit) :
    Γ.names.length + fuel < 2 ^ 63 := by
  have total := room.total
  rw [length_names]
  unfold sizeLimit at *
  omega

end HasRoom

theorem get_erase {Γ : Context} {i : Nat} {binding : Binding} (got : Γ[i]? = some binding) :
    Γ.erase[i]? = some binding.type.erase := by
  rw [erase, List.getElem?_map, got]
  rfl

theorem lookup_inv {Γ : Context} {ix : Int64} {type : Indexed} (found : Γ.lookup? ix = some type) :
    ∃ (i : Nat) (binding : Binding), ix.toInt = i ∧ Γ[i]? = some binding ∧
      type = binding.type.shift (ix + 1) 0 := by
  unfold lookup? atIndex? at found
  by_cases negative : ix < 0
  · simp [negative] at found
  · rw [if_neg negative] at found
    obtain ⟨binding, got, rfl⟩ := Option.map_eq_some_iff.mp found
    have nonneg : ¬ ix.toInt < 0 := by rwa [Int64.lt_iff_toInt_lt] at negative
    refine ⟨ix.toNatClampNeg, binding, ?_, got, rfl⟩
    rw [← Int64.toNat_toInt]
    omega

/-- A position in the context is a word, and so is the next one. -/
theorem HasRoom.index {Γ : Context} {t : Indexed} {ix : Int64} {i : Nat} {binding : Binding}
    (room : Γ.HasRoom t) (word : ix.toInt = i) (got : Γ[i]? = some binding) :
    i < Γ.length ∧ (ix + 1).toInt = (i + 1 : Nat) := by
  have inside : i < Γ.length := (List.getElem?_eq_some_iff.mp got).1
  have total := room.total
  refine ⟨inside, ?_⟩
  rw [Term.toInt_succ_of_fits (by unfold sizeLimit at *; omega), word]
  rfl

/-- The type found for a variable is the one it has in the whole context. -/
theorem lookup_erase {Γ : Context} {v : Occurrence} {type : Indexed}
    (types : Bare.ScopedTypes Γ.erase) (room : Γ.HasRoom (.var v))
    (found : Γ.lookup? v.ix = some type) :
    ∃ i < Γ.length, (Term.var v).erase = .var i ∧ Lookup Γ.erase i type.erase := by
  obtain ⟨i, binding, word, got, rfl⟩ := lookup_inv found
  obtain ⟨inside, amount⟩ := room.index word got
  have shallow := room.types binding (List.mem_of_getElem? got)
  have total := room.total
  obtain ⟨looked, scope⟩ := types.get (get_erase got)
  have shifted := Term.erase_shift scope amount (by
    rw [length_erase]
    unfold sizeLimit at *
    omega)
  have index : (Term.var v).erase = .var i := by
    rw [Term.erase, Term.widen, Term.bare, word, Bare.ofIndex_natCast]
  rw [shifted]
  exact ⟨i, inside, index, looked⟩

theorem lookup_typed {Γ : Context} {v : Occurrence} {type : Indexed} (context : WellTyped Γ.erase)
    (room : Γ.HasRoom (.var v)) (found : Γ.lookup? v.ix = some type) :
    HasType Γ.erase (Term.var v).erase type.erase := by
  obtain ⟨i, -, index, looked⟩ := lookup_erase context.scopedTypes room found
  rw [index]
  exact .var looked

theorem normalize_sound {fuel : Nat} {Γ : Context} (levels : Γ.names.length + fuel < 2 ^ 63)
    (t : Indexed) :
    Outcome (fun _ => True) (fun n => Reads Γ.names.length t.erase n ∧ n.depth < fuel)
      (Γ.normalize fuel t) := by
  have reads : Outcome (fun _ => True) (fun n => Reads Γ.names.length t.erase n ∧ n.depth < fuel)
      (t.normalize fuel Γ.names) := by
    apply (Outcome.answered _).mono
    intro n normalized
    have bound := normalize_depth_lt normalized
    exact ⟨normalize_reads normalized (by omega), bound⟩
  exact reads.mapError fun _ _ => trivial

theorem universeLevel_sound {fuel : Nat} {Γ : Context} (levels : Γ.names.length + fuel < 2 ^ 63)
    (t type : Indexed) :
    Outcome (fun _ => True) (fun k => Reads Γ.names.length type.erase (.const (.univ k)))
      (Γ.universeLevel fuel t type) := by
  apply (normalize_sound levels type).bind
  intro n reads
  split
  · exact reads.1
  · trivial

theorem functionType_sound {fuel : Nat} {Γ : Context} (levels : Γ.names.length + fuel < 2 ^ 63)
    (f type : Indexed) :
    Outcome (fun _ => True)
      (fun p => ∃ x, Reads Γ.names.length type.erase (.bind .pi x p.1 p.2) ∧ p.2.depth + 1 < fuel)
      (Γ.functionType fuel f type) := by
  apply (normalize_sound levels type).bind
  rintro n ⟨reads, bound⟩
  split
  · rename_i x dom cod
    simp only [Term.depth] at bound
    have inside : cod.depth + 1 < fuel := by omega
    exact ⟨x, reads, inside⟩
  · trivial

/-- Terms found convertible have a common reduct, and both have been normalised. -/
theorem convertible_sound {fuel : Nat} {Γ : Context} (levels : Γ.names.length + fuel < 2 ^ 63)
    (s t : Indexed) :
    Outcome (fun _ => True)
      (fun answer => answer = true → Joinable s.erase t.erase ∧ t.Faultless Γ.names)
      (Γ.convertible fuel s t) := by
  have compared : Outcome (fun _ => True)
      (fun answer => answer = true → Joinable s.erase t.erase ∧ t.Faultless Γ.names)
      (s.convertible fuel Γ.names t) := by
    apply (Outcome.answered _).bind
    intro n left
    apply (Outcome.answered _).bind
    intro m right same
    have boundLeft := normalize_depth_lt left
    have boundRight := normalize_depth_lt right
    have readsLeft := normalize_reads left (by omega)
    have readsRight := normalize_reads right (by omega)
    exact ⟨(readsLeft.alphaEq_iff readsRight).mp (of_decide_eq_true same), .of_normalize right⟩
  exact compared.mapError fun _ _ => trivial

theorem equate_sound {fuel : Nat} {Γ : Context} (levels : Γ.names.length + fuel < 2 ^ 63)
    (s t : Indexed) (cause : TypeError) :
    Outcome (fun _ => True) (fun _ => Joinable s.erase t.erase ∧ t.Faultless Γ.names)
      (Γ.equate fuel s t cause) := by
  apply (convertible_sound levels s t).bind
  intro answer same
  cases answer with
  | true => exact same rfl
  | false => trivial

/-- What an inferred type says: up to conversion it is a type of the term, and normalising it leads to
no fault. -/
structure Infers (Γ : Context) (t type : Indexed) : Prop where
  typed : ∃ A, HasType Γ.erase t.erase A ∧ Joinable A type.erase
  faultless : type.Faultless Γ.names

/-- A type of the term that is a type itself. -/
theorem Infers.of_typed {Γ : Context} {t type : Indexed} (context : WellTyped Γ.erase)
    (typed : HasType Γ.erase t.erase type.erase) : Γ.Infers t type := by
  obtain ⟨k, isType⟩ := typed.type context
  exact ⟨⟨_, typed, .refl _⟩, .of_typed context (by simp) isType⟩

/-- The term has as its type whatever the inferred type is reduced to in the end. -/
theorem Infers.at_rigid {Γ : Context} {t type : Indexed} {B : Bare} (h : Γ.Infers t type)
    (context : WellTyped Γ.erase) (same : Joinable type.erase B) (rigid : B.Rigid) :
    HasType Γ.erase t.erase B := by
  obtain ⟨A, typed, toType⟩ := h.typed
  obtain ⟨k, isType⟩ := typed.type context
  have reduces := (toType.trans same).reduces rigid
  exact .conv typed reduces.joinable (isType.reduces context reduces)

theorem Infers.at_normal {Γ : Context} {t type n : Indexed} {level : Nat} (h : Γ.Infers t type)
    (context : WellTyped Γ.erase) (reads : Reads level type.erase n) :
    HasType Γ.erase t.erase n.erase :=
  h.at_rigid context reads.reduces.joinable reads.normal.rigid_erase

theorem Infers.at_const {Γ : Context} {t : Indexed} {c : Constant} (h : Γ.Infers t (.const c))
    (context : WellTyped Γ.erase) : HasType Γ.erase t.erase (.const c) :=
  h.at_rigid context (.refl _) (.const c)

theorem Infers.convert {Γ : Context} {t type expected : Indexed} (h : Γ.Infers t type)
    (same : Joinable type.erase expected.erase) (faultless : expected.Faultless Γ.names) :
    Γ.Infers t expected := by
  obtain ⟨A, typed, toType⟩ := h.typed
  exact ⟨⟨A, typed, toType.trans same⟩, faultless⟩

/-- The domain of the type of a function is normalised without a fault. -/
theorem Infers.domain {Γ : Context} {f fnType dom cod : Indexed} {x : Name}
    (context : WellTyped Γ.erase) (fn : Γ.Infers f fnType)
    (reads : Reads Γ.names.length fnType.erase (.bind .pi x dom cod)) : dom.Faultless Γ.names := by
  obtain ⟨k, domain⟩ := (fn.at_normal context reads).pi_domain context
  exact .of_typed context (by simp) domain

/-- The term is a function, and no index of the codomain wraps around when an argument is put in. -/
structure IsFunction (Γ : Context) (f dom cod : Indexed) : Prop where
  typed : HasType Γ.erase f.erase (.bind .pi dom.erase cod.erase)
  scope : cod.erase.Scoped (Γ.length + 1)
  shallow : cod.depth + 2 < sizeLimit

theorem Infers.isFunction {fuel : Nat} {Γ : Context} {f fnType dom cod : Indexed} {x : Name}
    (context : WellTyped Γ.erase) (enough : fuel < sizeLimit) (fn : Γ.Infers f fnType)
    (reads : Reads Γ.names.length fnType.erase (.bind .pi x dom cod)) (bound : cod.depth + 1 < fuel) :
    Γ.IsFunction f dom cod := by
  have scope := reads.scope.2
  rw [length_names] at scope
  exact ⟨fn.at_normal context reads, scope, by omega⟩

theorem IsFunction.app {Γ : Context} {f a dom cod : Indexed} (function : Γ.IsFunction f dom cod)
    (context : WellTyped Γ.erase) (room : Γ.HasRoom (.app f a)) (arg : Γ.Infers a dom) :
    HasType Γ.erase (Term.app f a).erase (Term.instantiate a cod).erase := by
  obtain ⟨k, domain⟩ := function.typed.pi_domain context
  obtain ⟨A, argTyped, toType⟩ := arg.typed
  have argument := HasType.conv argTyped toType domain
  have scope := argument.scoped
  rw [length_erase] at scope
  rw [Term.erase_instantiate scope function.scope]
  · exact .app function.typed argument
  · obtain ⟨-, -, total⟩ := room
    have shallow := function.shallow
    simp only [Term.depth] at total
    unfold sizeLimit at *
    omega

theorem Infers.lam {Γ : Context} {x : Name} {dom body bodyType : Indexed} {k : Int64}
    (context : WellTyped Γ.erase) (domain : HasType Γ.erase dom.erase (univ k))
    (under : (Γ.extend x dom).Infers body bodyType) :
    Γ.Infers (.bind .lam x dom body) (.bind .pi x dom bodyType) := by
  obtain ⟨B, bodyTyped, toType⟩ := under.typed
  have domainFaultless : dom.Faultless Γ.names := .of_typed context (by simp) domain
  exact ⟨⟨_, .lam domain bodyTyped, (Joinable.refl _).bind toType⟩,
    domainFaultless.bind under.faultless⟩

theorem Infers.cond {Γ : Context} {t y n yesType noType : Indexed} (context : WellTyped Γ.erase)
    (test : HasType Γ.erase t.erase (.const .boolType)) (yes : Γ.Infers y yesType)
    (no : Γ.Infers n noType) (same : Joinable yesType.erase noType.erase) :
    Γ.Infers (.cond t y n) yesType := by
  obtain ⟨A, yesTyped, toYes⟩ := yes.typed
  obtain ⟨B, noTyped, toNo⟩ := no.typed
  obtain ⟨k, isType⟩ := yesTyped.type context
  have agree := toNo.trans (same.symm.trans toYes.symm)
  exact ⟨⟨A, .cond test yesTyped (.conv noTyped agree isType), toYes⟩, yes.faultless⟩

theorem variableType_sound {Γ : Context} {v : Occurrence} (context : WellTyped Γ.erase)
    (room : Γ.HasRoom (.var v)) :
    Outcome (fun _ => True) (Γ.Infers (.var v)) (Γ.variableType v) := by
  unfold variableType
  cases found : Γ.lookup? v.ix with
  | none => trivial
  | some type => exact .of_typed context (lookup_typed context room found)

/-- In a typed context a term has what is inferred for it as a type, and so it has every type against
which it is checked. -/
abbrev soundness : Account where
  Before Γ t := WellTyped Γ.erase ∧ Γ.HasRoom t
  After := Infers
  Wanted _ _ _ := True
  Meets := Infers
  Level Γ t k := HasType Γ.erase t.erase (univ k)
  Function Γ f _ := Γ.IsFunction f

theorem soundness_holds {fuel : Nat} (enough : fuel < sizeLimit) :
    soundness.Holds (.outcome fuel fun _ => True) where
  part ready member := ⟨ready.1, ready.2.part member⟩
  body ready level := ⟨.cons ready.1 level, ready.2.under⟩
  operand _ _ := trivial
  argument _ _ := trivial
  ascribed _ := trivial
  expect ready infers _ :=
    (equate_sound (ready.2.levels enough) _ _ _).mono fun _ same => infers.convert same.1 same.2
  function ready infers := (functionType_sound (ready.2.levels enough) _ _).mono fun _ found =>
    found.elim fun _ known => infers.isFunction ready.1 enough known.1 known.2
  domain ready infers :=
    (universeLevel_sound (ready.2.levels enough) _ _).mono fun _ => infers.at_normal ready.1
  codomain _ _ ready infers :=
    (universeLevel_sound (ready.2.levels enough) _ _).mono fun _ => infers.at_normal ready.1
  branches ready test yes no := (equate_sound (ready.2.levels enough) _ _ _).mono fun _ same =>
    .cond ready.1 (test.at_const ready.1) yes no same.1
  var ready := variableType_sound ready.1 ready.2
  const ready := .of_typed ready.1 (.const _)
  binop ready left right :=
    .of_typed ready.1 (.binop (left.at_const ready.1) (right.at_const ready.1))
  not ready operand := .of_typed ready.1 (.not (operand.at_const ready.1))
  app ready function arg := .of_typed ready.1 (function.app ready.1 ready.2 arg)
  lam ready level under := .lam ready.1 level under
  form type ready level level' := .of_typed ready.1 (.form type level level')
  ascribe _ subject := ⟨subject.typed, subject.faultless⟩

theorem infer_sound {fuel : Nat} (enough : fuel < sizeLimit) {Γ : Context} {t : Indexed}
    (context : WellTyped Γ.erase) (room : Γ.HasRoom t) :
    Outcome (fun _ => True) (Γ.Infers t) (Γ.infer fuel t) :=
  (soundness_holds enough).infer ⟨context, room⟩

theorem inferUniverse_sound {fuel : Nat} (enough : fuel < sizeLimit) {Γ : Context} {t : Indexed}
    (context : WellTyped Γ.erase) (room : Γ.HasRoom t) :
    Outcome (fun _ => True) (fun k => HasType Γ.erase t.erase (univ k)) (Γ.inferUniverse fuel t) := by
  apply (infer_sound enough context room).bind
  intro type infers
  apply (universeLevel_sound (room.levels enough) t type).mono
  intro k reads
  exact infers.at_normal context reads

/-- Every type of the context has been accepted as a type in the context outside it. -/
def WellFormed : Context → Prop
  | [] => True
  | binding :: Γ =>
    WellFormed Γ ∧ binding.type.depth < sizeLimit ∧
      ∃ fuel < sizeLimit, ∃ level, inferUniverse fuel Γ binding.type = .ok level

namespace WellFormed

variable {Γ : Context}

theorem types (context : Γ.WellFormed) : ∀ binding ∈ Γ, binding.type.depth < sizeLimit := by
  induction Γ with
  | nil => simp
  | cons head Γ ih =>
    obtain ⟨outside, depth, -⟩ := context
    intro binding member
    rcases List.mem_cons.mp member with rfl | further
    · exact depth
    · exact ih outside binding further

theorem hasRoom {t : Indexed} (context : Γ.WellFormed) (size : Γ.length < sizeLimit)
    (depth : t.depth < sizeLimit) : Γ.HasRoom t :=
  ⟨context.types, depth, by omega⟩

theorem wellTyped (context : Γ.WellFormed) (size : Γ.length < sizeLimit) : WellTyped Γ.erase := by
  induction Γ with
  | nil => exact .nil
  | cons binding Γ ih =>
    obtain ⟨outside, depth, fuel, enough, level, accepted⟩ := context
    rw [List.length_cons] at size
    have outsideTyped := ih outside (by omega)
    have room := outside.hasRoom (by omega) depth
    exact .cons outsideTyped ((inferUniverse_sound enough outsideTyped room).of_eq_ok accepted)

end WellFormed

/-- What follows the inference of a program's type can only run out of fuel. -/
theorem run_outcome {fuel : Nat} {options : Program.Options} {text : List Char} {surface : Surface}
    {t type : Indexed} (parsed : Source.parse text = .ok surface)
    (resolved : surface.resolve options.matching [] = .ok t)
    (inferred : Context.infer fuel [] t = .ok type)
    (typeSafe : Outcome (· = .outOfFuel) (fun _ => True) (type.normalize fuel []))
    (termSafe : Outcome (· = .outOfFuel) (fun _ => True) (t.normalize fuel [])) :
    Outcome (· = .halted .outOfFuel) (fun _ => True) (Program.run fuel options text) := by
  have typeHalts : Outcome (· = Program.Error.halted .outOfFuel) (fun _ => True)
      ((type.normalize fuel []).mapError .halted) :=
    typeSafe.mapError fun _ out => congrArg _ out
  have termHalts : Outcome (· = Program.Error.halted .outOfFuel) (fun _ => True)
      ((t.normalize fuel []).mapError .halted) :=
    termSafe.mapError fun _ out => congrArg _ out
  unfold Program.run
  rw [parsed]
  change Outcome _ _ ((surface.resolve options.matching []).mapError _ >>= _)
  rw [resolved]
  change Outcome _ _ ((Context.infer fuel [] t).mapError _ >>= _)
  rw [inferred]
  apply typeHalts.bind
  intro _ _
  exact termHalts.bind fun _ _ => trivial

/-- A term whose type has been inferred, and the inferred type, are normalised without a fault: only
functions are applied, only truth values negated or branched on, only operands of the right type
combined, and every variable is found. So a program that has been accepted ends with its result, if
the fuel suffices. -/
theorem accepted_never_faults {fuel : Nat} {Γ : Context} {t type : Indexed} (context : Γ.WellFormed)
    (size : Γ.length < sizeLimit) (depth : t.depth < sizeLimit) (enough : fuel < sizeLimit)
    (inferred : Γ.infer fuel t = .ok type) :
    (∀ fuel' < sizeLimit, ∀ h,
      t.normalize fuel' Γ.names = .error h ∨ type.normalize fuel' Γ.names = .error h →
        h = .outOfFuel) ∧
    (Γ = [] → ∀ options text surface, Source.parse text = .ok surface →
      surface.resolve options.matching [] = .ok t →
        ∀ e, Program.run fuel options text = .error e → e = .halted .outOfFuel) := by
  have wellTyped := context.wellTyped size
  have room := context.hasRoom size depth
  obtain ⟨⟨A, typed, -⟩, typeFaultless⟩ := (infer_sound enough wellTyped room).of_eq_ok inferred
  have termFaultless : t.Faultless Γ.names := .of_typed wellTyped (by simp) typed
  constructor
  · intro fuel' enough' h failed
    have levels := room.levels enough'
    rcases failed with failed | failed
    · exact (termFaultless fuel' levels).of_eq_error failed
    · exact (typeFaultless fuel' levels).of_eq_error failed
  · rintro rfl options text surface parsed resolved e failed
    have levels := room.levels enough
    have typeSafe := (typeFaultless fuel levels).mono fun _ _ => trivial
    have termSafe := (termFaultless fuel levels).mono fun _ _ => trivial
    exact (run_outcome parsed resolved inferred typeSafe termSafe).of_eq_error failed

/-- A type, and something of that type. -/
def ofSomeType : Context := [⟨"x", .var ⟨"A", 0⟩⟩, ⟨"A", .const (.univ 0)⟩]

theorem ofSomeType_wellFormed : ofSomeType.WellFormed :=
  ⟨⟨trivial, by decide, 5, by decide, 1, by rfl⟩, by decide, 5, by decide, 0, by rfl⟩

/-- The identity of all types, at the type of the context and its element. -/
def identityApplied : Indexed :=
  .app
    (.app
      (.bind .lam "B" (.const (.univ 0))
        (.bind .lam "y" (.var ⟨"B", 0⟩) (.ascribe (.var ⟨"y", 0⟩) (.var ⟨"B", 1⟩))))
      (.var ⟨"A", 1⟩))
    (.var ⟨"x", 0⟩)

theorem accepted_never_faults_identity :
    ofSomeType.infer 10 identityApplied = .ok (.var ⟨"A", 1⟩) ∧
    (∀ fuel' < sizeLimit, ∀ h,
      identityApplied.normalize fuel' ofSomeType.names = .error h ∨
        Term.normalize fuel' ofSomeType.names (.var ⟨"A", 1⟩) = .error h → h = .outOfFuel) :=
  ⟨by rfl, (accepted_never_faults ofSomeType_wellFormed (by decide) (by decide)
    (by decide : 10 < sizeLimit) (by rfl)).1⟩

end Context
end DepCalc

import DepCalc.Proofs.Instantiation
import DepCalc.Proofs.NameIndependence
import DepCalc.Proofs.Scoping
import DepCalc.Proofs.Shifting

/-!
A variable brought into scope between others. Terms inside are shifted to make room for it, and so
are the types of the variables further in. Normalisation and inference then take the same course as
without it: their answers are shifted in the same way, and where one of the two fails the other fails
in the same manner. Nothing is asked of the type of the new variable, for nobody looks it up.
-/
namespace DepCalc

theorem ScopeShifted.inserted (inner more outer : List Name) :
    ScopeShifted Eq more.length inner.length (inner ++ outer) (inner ++ more ++ outer) := by
  constructor
  · simp only [List.length_append]
    omega
  · intro i x x' found found'
    rw [Term.raise] at found'
    split at found'
    · rename_i inside
      rw [List.getElem?_append_left inside] at found
      rw [List.append_assoc, List.getElem?_append_left inside, found] at found'
      exact Option.some.inj found'
    · rename_i outside
      have place : i + more.length - (inner ++ more).length = i - inner.length := by
        rw [List.length_append]
        omega
      rw [List.getElem?_append_right (by omega)] at found
      rw [List.getElem?_append_right (by rw [List.length_append]; omega), place, found] at found'
      exact Option.some.inj found'

/-- Normalisation commutes with bringing in any number of variables, names included. The normal form
in the smaller scope is in scope there, and nested less deeply than the fuel. -/
theorem normalize_inserted {fuel : Nat} {inner more outer : List Name} {t : Indexed}
    {amount cut : Int64} (word : amount.toInt = more.length) (cutWord : cut.toInt = inner.length)
    (room : (inner ++ outer).length + more.length + max t.depth fuel < 2 ^ 63) :
    Agree
      (fun n n' => n' = n.shift amount cut ∧ n.widen.InScope (inner ++ outer).length ∧
        n.depth < fuel)
      (t.normalize fuel (inner ++ outer))
      ((t.shift amount cut).normalize fuel (inner ++ more ++ outer)) := by
  have within : inner.length ≤ (inner ++ outer).length := by
    rw [List.length_append]
    omega
  have moved {u : Indexed} (fits : (inner ++ outer).length + more.length + u.depth < 2 ^ 63) :
      Term.Shifted Eq more.length inner.length (inner ++ outer).length u (u.shift amount cut) := by
    refine (Term.Shifted.refl (fun _ => rfl) _ _ u).shift (k := 0) ?_ ?_ ?_ (Nat.le_refl 0) within ?_
    all_goals omega
  have levels : (inner ++ outer).length + more.length + fuel < 2 ^ 63 := by omega
  have term : (inner ++ outer).length + more.length + t.depth < 2 ^ 63 := by omega
  apply (normalize_shifted within levels (.inserted inner more outer) (moved term)).mono
  intro n n' normalized shifted
  have bound := normalize_depth_lt normalized
  have inside := (normalize_reads normalized (by omega)).inScope
  exact ⟨shifted.unique (moved (by omega)) inside, inside, bound⟩

/-- Normal forms that have been moved are compared as before. -/
theorem convertible_inserted {fuel : Nat} {inner more outer : List Name} {s t : Indexed}
    {amount cut : Int64} (word : amount.toInt = more.length) (cutWord : cut.toInt = inner.length)
    (left : (inner ++ outer).length + more.length + max s.depth fuel < 2 ^ 63)
    (right : (inner ++ outer).length + more.length + max t.depth fuel < 2 ^ 63) :
    Agree Eq (s.convertible fuel (inner ++ outer) t)
      ((s.shift amount cut).convertible fuel (inner ++ more ++ outer) (t.shift amount cut)) := by
  have within : inner.length ≤ (inner ++ outer).length := by
    rw [List.length_append]
    omega
  apply (normalize_inserted word cutWord left).bind
  rintro n n' ⟨rfl, scope, depth⟩
  apply (normalize_inserted word cutWord right).bind
  rintro m m' ⟨rfl, scope', depth'⟩
  have same : Term.AlphaEq n m ↔ Term.AlphaEq (n.shift amount cut) (m.shift amount cut) := by
    unfold Term.AlphaEq
    rw [Term.forgetNames_shift, Term.forgetNames_shift]
    constructor
    · intro equal
      rw [equal]
    · apply Term.raise_injective (Term.inScope_forgetNames.mpr scope)
        (Term.inScope_forgetNames.mpr scope') word cutWord within
      · rw [Term.depth_forgetNames]
        omega
      · rw [Term.depth_forgetNames]
        omega
  exact decide_eq_decide.mpr same

/-- Normalisation commutes with bringing a variable into scope at any depth: both runs give a normal
form, and the second is the first, shifted, or both meet a fault, or both lack fuel. The bound says
that neither the indices of the term nor the levels of a normal form wrap around; what is read back is
nested less deeply than the fuel. -/
theorem normalize_commutes_with_insertion {fuel : Nat} {inner outer : List Name} {t : Indexed}
    (x : Name) (room : (inner ++ outer).length + 1 + max t.depth fuel < 2 ^ 63) :
    Agree (fun n n' => n' = n.shift 1 (.ofNat inner.length))
      (t.normalize fuel (inner ++ outer))
      ((t.shift 1 (.ofNat inner.length)).normalize fuel (inner ++ [x] ++ outer)) := by
  have fits : inner.length < 2 ^ 63 := by
    rw [List.length_append] at room
    omega
  have one : (1 : Int64).toInt = [x].length := rfl
  apply (normalize_inserted one (Int64.toInt_ofNat_of_lt fits) room).mono
  intro n n' _ holds
  exact holds.1

/-- The inner of two variables, handed to a function that applies it under a binder to the outer
one. -/
def applyAcross : Indexed :=
  .app
    (.bind .lam "f" (.const .intType)
      (.bind .lam "z" (.const .intType) (.app (.var ⟨"f", 1⟩) (.var ⟨"m", 3⟩))))
    (.var ⟨"n", 0⟩)

theorem normalize_commutes_with_insertion_across :
    applyAcross.normalize 9 (["n"] ++ ["m"]) =
      .ok (.bind .lam "z" (.const .intType) (.app (.var ⟨"n", 1⟩) (.var ⟨"m", 2⟩))) ∧
    Agree (fun n n' => n' = n.shift 1 (.ofNat ["n"].length))
      (applyAcross.normalize 9 (["n"] ++ ["m"]))
      ((applyAcross.shift 1 (.ofNat ["n"].length)).normalize 9 (["n"] ++ ["k"] ++ ["m"])) :=
  ⟨by rfl, normalize_commutes_with_insertion "k" (by decide)⟩

/-- Both lack fuel, or both are faults. -/
def Halt.SameClass (h h' : Halt) : Prop :=
  h = .outOfFuel ↔ h' = .outOfFuel

/-- Both are type errors, or both are faults of normalisation, or both lack fuel. -/
def Rejection.SameClass : Rejection → Rejection → Prop
  | halted h, halted h' => h.SameClass h'
  | illTyped _, illTyped _ => True
  | _, _ => False

theorem Agree.alike {α : Type} {related : α → α → Prop} {x y : Except Halt α}
    (agree : Agree related x y) : Alike Halt.SameClass related x y := by
  cases x with
  | error h =>
    cases y with
    | error h' => exact agree
    | ok b => exact agree.elim
  | ok a =>
    cases y with
    | error h' => exact agree.elim
    | ok b => exact agree

theorem Alike.halted {α : Type} {answers : α → α → Prop} {x y : Except Halt α}
    (alike : Alike Halt.SameClass answers x y) :
    Alike Rejection.SameClass answers (x.mapError .halted) (y.mapError .halted) := by
  cases x with
  | error h =>
    cases y with
    | error h' => exact alike
    | ok b => exact alike.elim
  | ok a =>
    cases y with
    | error h' => exact alike.elim
    | ok b => exact alike

namespace Context

/-- The context with its types shifted to make room for a variable outside of all of it. -/
def makeRoom : Context → Context
  | [] => []
  | binding :: inner => ⟨binding.name, binding.type.shift 1 (.ofNat inner.length)⟩ :: makeRoom inner

/-- The inner variables, then `x` of type `A`, then the outer ones. -/
def inserted (inner : Context) (x : Name) (A : Indexed) (outer : Context) : Context :=
  inner.makeRoom ++ ⟨x, A⟩ :: outer

theorem length_makeRoom (inner : Context) : inner.makeRoom.length = inner.length := by
  induction inner with
  | nil => rfl
  | cons binding inner ih => exact congrArg (· + 1) ih

theorem getElem?_makeRoom (inner : Context) (i : Nat) :
    inner.makeRoom[i]? = inner[i]?.map fun binding =>
      ⟨binding.name, binding.type.shift 1 (.ofNat (inner.length - (i + 1)))⟩ := by
  induction inner generalizing i with
  | nil => rfl
  | cons head inner ih =>
    cases i with
    | zero => rfl
    | succ i =>
      rw [makeRoom, List.getElem?_cons_succ, List.getElem?_cons_succ, ih, List.length_cons,
        Nat.add_sub_add_right]

section Inserted

variable {fuel limit : Nat} {inner outer : Context} {x : Name} {A : Indexed}

theorem names_inserted : (inner.inserted x A outer).names = inner.names ++ [x] ++ outer.names := by
  have kept : inner.makeRoom.names = inner.names := by
    induction inner with
    | nil => rfl
    | cons binding inner ih => exact congrArg (binding.name :: ·) ih
  rw [inserted, names, List.map_append, List.append_assoc]
  exact congrArg (· ++ x :: outer.names) kept

/-- The variable at `i` has been moved if it stands outside the new one. -/
theorem lookup?_inserted {v : Occurrence} (covers : (inner ++ outer).Covers limit (.var v))
    (room : limit + limit + 1 < 2 ^ 63) :
    ∃ type, (inner ++ outer).lookup? v.ix = some type ∧
      (inner.inserted x A outer).lookup?
        (if v.ix < .ofNat inner.length then v.ix else v.ix + 1) =
          some (type.shift 1 (.ofNat inner.length)) := by
  obtain ⟨binding, found⟩ := Term.exists_atIndex? covers.term
  obtain ⟨low, high⟩ : 0 ≤ v.ix.toInt ∧ v.ix.toInt < (inner ++ outer).length := covers.term
  obtain ⟨i, word⟩ := Int.eq_ofNat_of_zero_le low
  have size := covers.depth
  have total : inner.length + outer.length = (inner ++ outer).length := List.length_append.symm
  have cutWord : (Int64.ofNat inner.length).toInt = inner.length :=
    Int64.toInt_ofNat_of_lt (by omega)
  have nextWord : (v.ix + 1).toInt = (i + 1 : Nat) := by
    rw [Term.toInt_succ_of_fits (by omega), word, Int.natCast_succ]
  have one : (1 : Int64).toInt = (1 : Nat) := rfl
  have below : v.ix < .ofNat inner.length ↔ i < inner.length := by
    rw [Int64.lt_iff_toInt_lt, cutWord, word]
    exact Int.ofNat_lt
  have got := found
  rw [atIndex?_eq word] at got
  obtain ⟨closed, shallow⟩ := covers.types i binding got
  refine ⟨binding.type.shift (v.ix + 1) 0, by rw [lookup?, found]; rfl, ?_⟩
  by_cases inside : i < inner.length
  · -- The stored type is shifted where it is, and then brought out from under the variables inside.
    rw [List.getElem?_append_left inside] at got
    rw [if_pos (below.mpr inside), lookup?, atIndex?_eq word, inserted,
      List.getElem?_append_left (by rwa [length_makeRoom]), getElem?_makeRoom, got]
    have moved := Term.raise_raise_comm closed one nextWord
      (Int64.toInt_ofNat_of_lt (by omega : inner.length - (i + 1) < 2 ^ 63))
      (by rw [cutWord]; omega) (by omega) (by omega)
    exact congrArg some moved.symm
  · have place : i + 1 - inner.makeRoom.length = i - inner.length + 1 := by
      rw [length_makeRoom]
      omega
    rw [List.getElem?_append_right (by omega)] at got
    rw [if_neg (mt below.mp inside), lookup?, atIndex?_eq nextWord, inserted,
      List.getElem?_append_right (by rw [length_makeRoom]; omega), place, List.getElem?_cons_succ, got]
    have further : (v.ix + 1 + 1).toInt = (i + 1 + 1 : Nat) := by
      rw [Term.toInt_succ_of_fits (by omega), nextWord]
      rfl
    have moved := Term.raise_raise closed nextWord one further cutWord (by omega) (by omega)
    exact congrArg some moved.symm

theorem names_append (inner outer : Context) : (inner ++ outer).names = inner.names ++ outer.names :=
  List.map_append

theorem length_names_append (inner outer : Context) :
    (inner.names ++ outer.names).length = (inner ++ outer).length := by
  rw [← names_append, length_names]

/-- The place of the new variable is a word. -/
theorem cut_names (inner outer : Context) (room : (inner ++ outer).length < 2 ^ 63) :
    (Int64.ofNat inner.length).toInt = inner.names.length := by
  rw [List.length_append] at room
  rw [length_names]
  exact Int64.toInt_ofNat_of_lt (by omega)

theorem normalize_inserted {type : Indexed}
    (room : (inner ++ outer).length + 1 + max type.depth fuel < 2 ^ 63) :
    Alike Rejection.SameClass
      (fun n n' => n' = n.shift 1 (.ofNat inner.length) ∧
        n.widen.InScope (inner ++ outer).length ∧ n.depth < fuel)
      ((inner ++ outer).normalize fuel type)
      ((inner.inserted x A outer).normalize fuel (type.shift 1 (.ofNat inner.length))) := by
  have one : (1 : Int64).toInt = [x].length := rfl
  have cutWord := cut_names inner outer (by omega)
  rw [← length_names_append] at room ⊢
  rw [normalize, normalize, names_inserted, names_append]
  exact (DepCalc.normalize_inserted one cutWord room).alike.halted

theorem convertible_inserted {s t : Indexed}
    (left : (inner ++ outer).length + 1 + max s.depth fuel < 2 ^ 63)
    (right : (inner ++ outer).length + 1 + max t.depth fuel < 2 ^ 63) :
    Alike Rejection.SameClass Eq ((inner ++ outer).convertible fuel s t)
      ((inner.inserted x A outer).convertible fuel (s.shift 1 (.ofNat inner.length))
        (t.shift 1 (.ofNat inner.length))) := by
  have one : (1 : Int64).toInt = [x].length := rfl
  have cutWord := cut_names inner outer (by omega)
  rw [← length_names_append] at left right
  rw [convertible, convertible, names_inserted, names_append]
  exact (DepCalc.convertible_inserted one cutWord left right).alike.halted

theorem equate_inserted {s t : Indexed} {cause cause' : TypeError}
    (left : (inner ++ outer).length + 1 + max s.depth fuel < 2 ^ 63)
    (right : (inner ++ outer).length + 1 + max t.depth fuel < 2 ^ 63) :
    Alike Rejection.SameClass Eq ((inner ++ outer).equate fuel s t cause)
      ((inner.inserted x A outer).equate fuel (s.shift 1 (.ofNat inner.length))
        (t.shift 1 (.ofNat inner.length)) cause') := by
  apply (convertible_inserted left right).bind
  rintro same _ rfl
  cases same with
  | true => exact rfl
  | false => trivial

theorem universeLevel_inserted {t t' type : Indexed}
    (room : (inner ++ outer).length + 1 + max type.depth fuel < 2 ^ 63) :
    Alike Rejection.SameClass Eq ((inner ++ outer).universeLevel fuel t type)
      ((inner.inserted x A outer).universeLevel fuel t' (type.shift 1 (.ofNat inner.length))) := by
  apply (normalize_inserted room).bind
  rintro n _ ⟨rfl, -, -⟩
  cases n with
  | const c =>
    cases c with
    | univ level => exact rfl
    | _ => trivial
  | var v =>
    rw [Term.shift_var]
    trivial
  | _ => trivial

theorem functionType_inserted {f f' type : Indexed}
    (room : (inner ++ outer).length + 1 + max type.depth fuel < 2 ^ 63) :
    Alike Rejection.SameClass
      (fun p p' => p'.1 = p.1.shift 1 (.ofNat inner.length) ∧
        p'.2 = p.2.shift 1 (.ofNat inner.length + 1) ∧
        p.2.widen.InScope ((inner ++ outer).length + 1) ∧ p.1.depth < fuel ∧ p.2.depth < fuel)
      ((inner ++ outer).functionType fuel f type)
      ((inner.inserted x A outer).functionType fuel f' (type.shift 1 (.ofNat inner.length))) := by
  apply (normalize_inserted room).bind
  rintro n _ ⟨rfl, scope, depth⟩
  cases n with
  | var v =>
    rw [Term.shift_var]
    trivial
  | bind b y dom cod =>
    cases b with
    | pi =>
      simp only [Term.depth] at depth
      have domain : dom.depth < fuel := by omega
      have codomain : cod.depth < fuel := by omega
      exact ⟨rfl, rfl, scope.2, domain, codomain⟩
    | _ => trivial
  | _ => trivial

theorem variableType_inserted {v v' : Occurrence} (covers : (inner ++ outer).Covers limit (.var v))
    (room : limit + limit + 1 < 2 ^ 63)
    (moved : .var v' = (Term.var v).shift 1 (.ofNat inner.length)) :
    Alike Rejection.SameClass (fun type type' => type' = type.shift 1 (.ofNat inner.length))
      ((inner ++ outer).variableType v) ((inner.inserted x A outer).variableType v') := by
  obtain ⟨type, found, foundMoved⟩ := @lookup?_inserted limit inner outer x A v covers room
  rw [Term.shift_var] at moved
  cases moved
  simp only [variableType, found, foundMoved]
  exact rfl

end Inserted

end Context

theorem Term.parts_shift (amount cut : Int64) (t : Indexed) :
    (t.shift amount cut).parts = t.parts.map (shift amount cut) := by
  cases t with
  | var v =>
    rw [shift_var]
    rfl
  | _ => rfl

theorem SameForm.shift (amount cut : Int64) (t : Indexed) : SameForm t (t.shift amount cut) := by
  cases t with
  | var v =>
    rw [Term.shift_var]
    exact .var _ _
  | _ => constructor

namespace Context

/-- The number of variables inside the outer ones. -/
def place (outer Γ : Context) : Int64 := .ofNat (Γ.length - outer.length)

theorem place_append (inner outer : Context) :
    place outer (inner ++ outer) = .ofNat inner.length := by
  rw [place, List.length_append, Nat.add_sub_cancel_right]

/-- The variable `x` of type `A` has been brought in, and the term has been shifted to make room for
it. -/
structure MakesRoom (limit : Nat) (x : Name) (A : Indexed) (outer Γ Γ' : Context) (t t' : Indexed) :
    Prop where
  context : ∃ inner, Γ = inner ++ outer ∧ Γ' = inner.inserted x A outer
  covers : Γ.Covers limit t
  term : t' = t.shift 1 (place outer Γ)

namespace MakesRoom

variable {limit : Nat} {x : Name} {A : Indexed} {outer Γ Γ' : Context} {t t' : Indexed}

theorem parts (ready : MakesRoom limit x A outer Γ Γ' t t') :
    List.Forall₂ (MakesRoom limit x A outer Γ Γ') t.parts t'.parts := by
  obtain ⟨context, covers, rfl⟩ := ready
  rw [Term.parts_shift, List.forall₂_map_right_iff, List.forall₂_same]
  exact fun s within => ⟨context, covers.part within, rfl⟩

/-- A binder joins the inner variables, and the place of the new one moves outwards. -/
theorem place_extend (ready : MakesRoom limit x A outer Γ Γ' t t') (y : Name) (dom : Indexed) :
    place outer (Γ.extend y dom) = place outer Γ + 1 := by
  obtain ⟨⟨inner, rfl, -⟩, -, -⟩ := ready
  rw [place_append, ofNat_succ]
  exact place_append (⟨y, dom⟩ :: inner) outer

theorem body {b : Binder} {y y' : Name} {dom dom' body body' : Indexed}
    (ready : MakesRoom limit x A outer Γ Γ' (.bind b y dom body) (.bind b y' dom' body')) :
    MakesRoom limit x A outer (Γ.extend y dom) (Γ'.extend y' dom') body body' := by
  have further := ready.place_extend y dom
  obtain ⟨⟨inner, rfl, rfl⟩, covers, moved⟩ := ready
  obtain ⟨-, rfl, rfl, rfl⟩ := Term.bind.inj moved
  rw [place_append] at further ⊢
  exact ⟨⟨⟨_, dom⟩ :: inner, rfl, rfl⟩, covers.under, congrArg (body.shift 1) further.symm⟩

theorem variableType {v v' : Occurrence} (ready : MakesRoom limit x A outer Γ Γ' (.var v) (.var v'))
    (room : limit + limit + 1 < 2 ^ 63) :
    Alike Rejection.SameClass (fun type type' => type' = type.shift 1 (place outer Γ))
      (Γ.variableType v) (Γ'.variableType v') := by
  obtain ⟨⟨inner, rfl, rfl⟩, covers, moved⟩ := ready
  rw [place_append] at moved ⊢
  exact variableType_inserted covers room moved

theorem instantiate {f f' a a' cod : Indexed}
    (ready : MakesRoom limit x A outer Γ Γ' (.app f a) (.app f' a'))
    (scope : cod.widen.InScope (Γ.length + 1)) (room : limit + cod.depth + 2 < 2 ^ 63) :
    Term.instantiate a' (cod.shift 1 (place outer Γ + 1)) =
      (Term.instantiate a cod).shift 1 (place outer Γ) := by
  obtain ⟨⟨inner, rfl, rfl⟩, covers, moved⟩ := ready
  obtain ⟨-, rfl⟩ := Term.app.inj moved
  have depth := covers.depth
  simp only [Term.depth] at depth
  have one : (1 : Int64).toInt = (1 : Nat) := rfl
  have cutWord := cut_names inner outer (by omega)
  have within : inner.names.length ≤ (inner ++ outer).length := by
    rw [length_names, List.length_append]
    omega
  rw [place_append]
  exact (Term.raise_instantiate covers.term.2 scope one cutWord within (by omega)).symm

end MakesRoom

/-- With and without the new variable inference takes the same course. The type of the term in the
larger context is the one it has in the smaller, shifted. -/
abbrev insertion (limit fuel : Nat) (x : Name) (A : Indexed) (outer : Context) : Comparison where
  Before := MakesRoom limit x A outer
  After Γ _ type type' :=
    type' = type.shift 1 (place outer Γ) ∧ Γ.length + type.depth ≤ limit + max limit fuel
  Function Γ _ p p' :=
    p'.1 = p.1.shift 1 (place outer Γ) ∧ p'.2 = p.2.shift 1 (place outer Γ + 1) ∧
      p.2.widen.InScope (Γ.length + 1) ∧ p.1.depth < fuel ∧ p.2.depth < fuel
  Makes Γ _ type type' := type' = type.shift 1 (place outer Γ)

theorem insertion_holds {fuel limit : Nat} (room : limit + max limit fuel + 1 < 2 ^ 63) (x : Name)
    (A : Indexed) (outer : Context) :
    (insertion limit fuel x A outer).Holds (.alike Rejection.SameClass) fuel fuel where
  sameForm ready := ready.term ▸ .shift _ _ _
  parts ready := ready.parts
  body ready := ready.body
  constant _ ready := ⟨rfl, ready.covers.const.2⟩
  argument := by
    rintro Γ _ f _ a _ p _ ready ⟨domain, -, -, shallow, -⟩
    have depth := ready.covers.depth
    exact ⟨domain, by omega⟩
  ascribed ready := by
    have depth := ready.covers.depth
    simp only [Term.depth] at depth
    exact ⟨(Term.ascribe.inj ready.term).2, by omega⟩
  expect := by
    rintro _ _ t _ type _ expected _ ⟨⟨inner, rfl, rfl⟩, covers, rfl⟩ ⟨rfl, typeDepth⟩
      ⟨rfl, expectedDepth⟩
    have depth := covers.depth
    rw [place_append]
    exact equate_inserted (by omega) (by omega)
  function := by
    rintro _ _ f _ fnType _ ⟨⟨inner, rfl, rfl⟩, covers, rfl⟩ ⟨rfl, typeDepth⟩
    have depth := covers.depth
    simp only [place_append]
    exact functionType_inserted (by omega)
  universeLevel := by
    rintro _ _ t _ type _ ⟨⟨inner, rfl, rfl⟩, covers, rfl⟩ ⟨rfl, typeDepth⟩
    have depth := covers.depth
    rw [place_append]
    exact universeLevel_inserted (by omega)
  branches := by
    rintro _ _ t _ yesType _ noType _ ⟨⟨inner, rfl, rfl⟩, covers, rfl⟩ ⟨rfl, yesDepth⟩ ⟨rfl, noDepth⟩
    have depth := covers.depth
    rw [place_append]
    exact equate_inserted (by omega) (by omega)
  var ready := ready.variableType (by omega)
  app := by
    rintro _ _ f f' a a' p p' ready ⟨-, codomain, scope, -, shallow⟩
    rw [codomain]
    exact ready.instantiate scope (by omega)
  lam := by
    rintro Γ _ y y' dom dom' body body' bodyType _ ready ⟨rfl, -⟩
    obtain ⟨-, rfl, rfl, -⟩ := Term.bind.inj ready.term
    rw [ready.place_extend]
    rfl
  forget after := after.1
  settle ready made := made.and
    (((infer_finds (by omega) ready.covers).mono fun _ known => known.2).mono_error
      fun _ _ => trivial)

/-- Bringing a variable into the context, between inner and outer ones, changes the type inferred for
a term by the shift that makes room for it in the term, and nothing else: one inference answers if and
only if the other does, and fails with a type error, a fault or lack of fuel if and only if the other
does. `A` need not be a type. The bound says that no index wraps around; types are nested at most as
deeply as one of the context inside the whole term, or a normal form with the argument put into it. -/
theorem infer_commutes_with_insertion {fuel limit : Nat} {inner outer : Context} {t : Indexed}
    (x : Name) (A : Indexed) (covers : (inner ++ outer).Covers limit t)
    (room : limit + max limit fuel + 1 < 2 ^ 63) :
    Alike Rejection.SameClass (fun type type' => type' = type.shift 1 (.ofNat inner.length))
      ((inner ++ outer).infer fuel t)
      ((inner.inserted x A outer).infer fuel (t.shift 1 (.ofNat inner.length))) := by
  have inferred := (insertion_holds room x A outer).infer
    ⟨⟨inner, rfl, rfl⟩, covers, congrArg (t.shift 1) (place_append inner outer).symm⟩
  apply inferred.mono
  rintro type type' ⟨moved, -⟩
  rwa [place_append] at moved

theorem ofSomeType_covers : ofSomeType.Covers 9 identityApplied := by
  refine ⟨?_, ?_, by decide⟩
  · intro i binding got
    match i with
    | 0 =>
      cases got
      exact ⟨⟨by decide, by decide⟩, by decide⟩
    | 1 =>
      cases got
      exact ⟨trivial, by decide⟩
    | i + 2 => cases got
  · exact ⟨⟨⟨trivial, ⟨by decide, by decide⟩, ⟨by decide, by decide⟩, by decide, by decide⟩,
      by decide, by decide⟩, by decide, by decide⟩

-- The new variable stands between the type of the context and its element, and has no type for a type.
theorem infer_commutes_with_insertion_identity :
    ofSomeType.infer 9 identityApplied = .ok (.var ⟨"A", 1⟩) ∧ ofSomeType.Covers 9 identityApplied ∧
    Alike Rejection.SameClass (fun type type' => type' = type.shift 1 (.ofNat 1))
      (ofSomeType.infer 9 identityApplied)
      (Context.infer 9
        [⟨"x", .var ⟨"A", 1⟩⟩, ⟨"y", .const (.int 7)⟩, ⟨"A", .const (.univ 0)⟩]
        (identityApplied.shift 1 (.ofNat 1))) :=
  ⟨by rfl, ofSomeType_covers,
    @infer_commutes_with_insertion 9 9 [⟨"x", .var ⟨"A", 0⟩⟩] [⟨"A", .const (.univ 0)⟩] identityApplied
      "y" (.const (.int 7)) ofSomeType_covers (by decide)⟩

end Context

end DepCalc

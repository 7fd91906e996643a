import DepCalc.Proofs.Insertion

/-!
Contexts matter up to conversion. Where the types of two contexts have, pairwise, the same normal
form, inference takes the same course in both. It hands types on as they stand, so that those inferred
are not the same; what relates them is that normalising them ends alike, in a normal form, in a fault
or not at all. A type that has become another one may need more fuel to be normalised. Therefore the
second run gets an extra amount, which is the same everywhere.
-/
namespace DepCalc

theorem Halt.AlphaEq.sameClass {h h' : Halt} (same : h.AlphaEq h') : h.SameClass h' := by
  have blind (k : Halt) : k.forgetNames = .outOfFuel ↔ k = .outOfFuel := by
    cases k <;> simp [Halt.forgetNames]
  rw [Halt.SameClass, ← blind h, ← blind h', same]

theorem Alike.finished {α : Type} {answers : α → α → Prop} {x y : Except Halt α}
    (alike : Alike Halt.SameClass answers x y) (finished : x ≠ .error .outOfFuel) :
    y ≠ .error .outOfFuel := by
  rintro rfl
  cases x with
  | error h => exact finished (congrArg _ (alike.mpr rfl))
  | ok a => exact alike

namespace AlikeUnless

variable {α : Type} {answers : α → α → Prop} {x y : Except Halt α}

theorem halted (alike : AlikeUnless .outOfFuel Halt.SameClass answers x y) :
    AlikeUnless (.halted .outOfFuel) Rejection.SameClass answers (x.mapError .halted)
      (y.mapError .halted) := by
  rcases alike with rfl | alike
  · exact .inl rfl
  · exact .inr alike.halted

/-- Both runs may be replaced by others that agree with them. -/
theorem along {answers' moved moved' : α → α → Prop} {x' y' : Except Halt α}
    (alike : AlikeUnless .outOfFuel Halt.SameClass answers x y) (first : Agree moved x x')
    (second : Agree moved' y y')
    (composed : ∀ a b a' b', answers a b → moved a a' → moved' b b' → answers' a' b') :
    AlikeUnless .outOfFuel Halt.SameClass answers' x' y' := by
  rcases alike with rfl | alike
  · left
    cases x' with
    | error h => rw [first.mp rfl]
    | ok a => exact first.elim
  · right
    cases x with
    | error h =>
      cases y with
      | error k =>
        cases x' with
        | error h' =>
          cases y' with
          | error k' => exact first.symm.trans (alike.trans second)
          | ok b' => exact second.elim
        | ok a' => exact first.elim
      | ok b => exact alike.elim
    | ok a =>
      cases y with
      | error k => exact alike.elim
      | ok b =>
        cases x' with
        | error h' => exact first.elim
        | ok a' =>
          cases y' with
          | error k' => exact second.elim
          | ok b' => exact composed a b a' b' alike first second

end AlikeUnless

namespace Term

theorem AlphaEq.eq_const {c : Constant} {t : Indexed} (same : AlphaEq (.const c) t) :
    t = .const c := by
  cases t with
  | const d =>
    cases same
    rfl
  | _ => cases same

theorem AlphaEq.eq_bind {b : Binder} {x : Name} {dom body t : Indexed}
    (same : AlphaEq (.bind b x dom body) t) :
    ∃ x' dom' body', t = .bind b x' dom' body' ∧ AlphaEq dom dom' ∧ AlphaEq body body' := by
  cases t with
  | bind b' x' dom' body' =>
    injection same with binder _ domain under
    subst binder
    exact ⟨x', dom', body', rfl, domain, under⟩
  | _ => cases same

/-- With `extra` more fuel, normalising `t'` ends as normalising `t` does, as long as no level wraps
around. -/
def KeepsUp (extra : Nat) (scope scope' : List Name) (t t' : Indexed) : Prop :=
  ∀ fuel, scope.length + fuel + extra < 2 ^ 63 →
    AlikeUnless .outOfFuel Halt.SameClass AlphaEq (t.normalize fuel scope)
      (t'.normalize (fuel + extra) scope')

namespace KeepsUp

variable {extra : Nat} {scope scope' : List Name} {t t' : Indexed}

/-- It suffices to look at the amounts of fuel that do for `t`. -/
theorem of_finished
    (finished : ∀ fuel, t.normalize fuel scope ≠ .error .outOfFuel →
      Alike Halt.SameClass AlphaEq (t.normalize fuel scope) (t'.normalize (fuel + extra) scope')) :
    KeepsUp extra scope scope' t t' := by
  intro fuel _
  by_cases lacks : t.normalize fuel scope = .error .outOfFuel
  · exact .inl lacks
  · exact .inr (finished fuel lacks)

theorem of_alphaEq (sameLength : scope.length = scope'.length) (same : AlphaEq t t') :
    KeepsUp extra scope scope' t t' := by
  apply of_finished
  intro fuel finished
  have alike := (same.normalize_alike fuel sameLength).mono_error fun _ _ => Halt.AlphaEq.sameClass
  rw [normalize_mono (Nat.le_add_right fuel extra) (alike.finished finished)]
  exact alike

theorem of_normal {fuel fuel' : Nat} {n n' : Indexed} (first : t.normalize fuel scope = .ok n)
    (second : t'.normalize fuel' scope' = .ok n') (enough : fuel' ≤ extra) (same : AlphaEq n n') :
    KeepsUp extra scope scope' t t' := by
  apply of_finished
  intro more finished
  have left : t.normalize more scope = .ok n := by
    rw [outcome_unique (fun _ _ => normalize_mono) finished (by rw [first]; simp), first]
  have right : t'.normalize (more + extra) scope' = .ok n' := by
    rw [normalize_mono (by omega : fuel' ≤ more + extra) (by rw [second]; simp), second]
  rw [left, right]
  exact same

theorem bind {b : Binder} {x : Name} {body body' : Indexed} (domain : KeepsUp extra scope scope' t t')
    (under : KeepsUp extra (x :: scope) (x :: scope') body body') :
    KeepsUp extra scope scope' (.bind b x t body) (.bind b x t' body') := by
  intro fuel room
  cases fuel with
  | zero => exact .inl rfl
  | succ fuel =>
    rw [normalize_bind, Nat.add_right_comm, normalize_bind]
    apply (domain fuel (by omega)).bind
    intro d d' same
    apply (under fuel (by rw [List.length_cons]; omega)).bind
    intro u u' sameBody
    exact .inr (congrArg₂ (Term.bind b "") same sameBody)

/-- What keeps up in the scope without its `k` innermost variables, goes on doing so in all of it. -/
theorem shift {k : Nat} {amount : Int64}
    (keepsUp : KeepsUp extra (scope.drop k) (scope'.drop k) t t')
    (sameLength : scope.length = scope'.length) (inside : k ≤ scope.length) (word : amount.toInt = k)
    (room : scope.length + t.depth < 2 ^ 63) (room' : scope.length + t'.depth < 2 ^ 63) :
    KeepsUp extra scope scope' (t.shift amount 0) (t'.shift amount 0) := by
  intro fuel levels
  -- Insertion at the innermost place, into either scope, says how each of the runs is moved.
  have brought {names : List Name} (size : scope.length = names.length) :
      amount.toInt = (names.take k).length := by
    rw [word, List.length_take, Nat.min_eq_left (by omega)]
  have first := @normalize_inserted fuel [] (scope.take k) (scope.drop k) t amount 0 (brought rfl) rfl
    (by simp only [List.nil_append, List.length_drop, List.length_take]; omega)
  have second := @normalize_inserted (fuel + extra) [] (scope'.take k) (scope'.drop k) t' amount 0
    (brought sameLength) rfl
    (by simp only [List.nil_append, List.length_drop, List.length_take]; omega)
  rw [List.nil_append, List.nil_append, List.take_append_drop] at first second
  apply (keepsUp fuel (by rw [List.length_drop]; omega)).along first second
  rintro n n' _ _ same ⟨rfl, -, -⟩ ⟨rfl, -, -⟩
  rw [AlphaEq, forgetNames_shift, forgetNames_shift, same]

end KeepsUp

/-- Each of the two keeps up with the other. -/
structure Matches (extra : Nat) (scope scope' : List Name) (t t' : Indexed) : Prop where
  forth : KeepsUp extra scope scope' t t'
  back : KeepsUp extra scope' scope t' t

namespace Matches

variable {extra : Nat} {scope scope' : List Name} {t t' : Indexed}

theorem symm (like : Matches extra scope scope' t t') : Matches extra scope' scope t' t :=
  ⟨like.back, like.forth⟩

theorem of_alphaEq (sameLength : scope.length = scope'.length) (same : AlphaEq t t') :
    Matches extra scope scope' t t' :=
  ⟨.of_alphaEq sameLength same, .of_alphaEq sameLength.symm same.symm⟩

theorem bind {b : Binder} {x : Name} {body body' : Indexed} (domain : Matches extra scope scope' t t')
    (under : Matches extra (x :: scope) (x :: scope') body body') :
    Matches extra scope scope' (.bind b x t body) (.bind b x t' body') :=
  ⟨domain.forth.bind under.forth, domain.back.bind under.back⟩

theorem shift {k : Nat} {amount : Int64} (like : Matches extra (scope.drop k) (scope'.drop k) t t')
    (sameLength : scope.length = scope'.length) (inside : k ≤ scope.length) (word : amount.toInt = k)
    (room : scope.length + t.depth < 2 ^ 63) (room' : scope.length + t'.depth < 2 ^ 63) :
    Matches extra scope scope' (t.shift amount 0) (t'.shift amount 0) :=
  ⟨like.forth.shift sameLength inside word room room',
    like.back.shift sameLength.symm (by omega) word (by omega) (by omega)⟩

/-- Two comparisons of matching types come to the same result. -/
theorem convertible {fuel : Nat} {s s' : Indexed} (left : Matches extra scope scope' s s')
    (right : Matches extra scope scope' t t') (levels : scope.length + fuel + extra < 2 ^ 63) :
    AlikeUnless .outOfFuel Halt.SameClass Eq (s.convertible fuel scope t)
      (s'.convertible (fuel + extra) scope' t') := by
  apply (left.forth fuel levels).bind
  intro n n' same
  apply (right.forth fuel levels).bind
  intro m m' same'
  right
  exact decide_eq_decide.mpr (by rw [AlphaEq, AlphaEq, same, same'])

end Matches

end Term

namespace Context

/-- Contexts of one length with matching types, each in the scope outside of it. -/
inductive Matches (extra : Nat) : Context → Context → Prop
  | nil : Matches extra [] []
  | cons {Γ Γ' : Context} {x x' : Name} {type type' : Indexed} (outside : Matches extra Γ Γ')
      (types : Term.Matches extra Γ.names Γ'.names type type') :
      Matches extra (⟨x, type⟩ :: Γ) (⟨x', type'⟩ :: Γ')

variable {fuel extra : Nat} {Γ Γ' : Context} {t : Indexed}

namespace Matches

theorem symm (like : Γ.Matches extra Γ') : Γ'.Matches extra Γ := by
  induction like with
  | nil => exact .nil
  | cons _ types ih => exact .cons ih types.symm

theorem length_eq (like : Γ.Matches extra Γ') : Γ.length = Γ'.length := by
  induction like with
  | nil => rfl
  | cons _ _ ih => exact congrArg (· + 1) ih

theorem names_length (like : Γ.Matches extra Γ') : Γ.names.length = Γ'.names.length := by
  rw [length_names, length_names, like.length_eq]

theorem get {i : Nat} {binding : Binding} (like : Γ.Matches extra Γ') (got : Γ[i]? = some binding) :
    ∃ binding', Γ'[i]? = some binding' ∧
      Term.Matches extra (Γ.names.drop (i + 1)) (Γ'.names.drop (i + 1)) binding.type
        binding'.type := by
  induction like generalizing i with
  | nil => cases got
  | cons _ types ih =>
    cases i with
    | zero =>
      cases got
      exact ⟨_, rfl, types⟩
    | succ i => exact ih got

/-- A variable that has a type in one context has a matching one in the other. -/
theorem lookup {ix : Int64} {type : Indexed} (like : Γ.Matches extra Γ') (room : Γ.HasRoom t)
    (room' : Γ'.HasRoom t) (found : Γ.lookup? ix = some type) :
    ∃ type', Γ'.lookup? ix = some type' ∧ Term.Matches extra Γ.names Γ'.names type type' := by
  obtain ⟨i, binding, word, got, rfl⟩ := lookup_inv found
  obtain ⟨inside, amount⟩ := room.index word got
  obtain ⟨binding', got', types⟩ := like.get got
  have shallow := room.types binding (List.mem_of_getElem? got)
  have shallow' := room'.types binding' (List.mem_of_getElem? got')
  have total := room.total
  have sameLength := like.names_length
  refine ⟨binding'.type.shift (ix + 1) 0, ?_, ?_⟩
  · rw [lookup?, atIndex?_eq word, got']
    rfl
  · apply types.shift like.names_length _ amount
    all_goals
      rw [length_names]
      unfold sizeLimit at *
      omega

theorem lookup_none {ix : Int64} (like : Γ.Matches extra Γ') (room : Γ.HasRoom t)
    (room' : Γ'.HasRoom t) (missing : Γ.lookup? ix = none) : Γ'.lookup? ix = none := by
  cases found : Γ'.lookup? ix with
  | none => rfl
  | some type' =>
    obtain ⟨type, present, -⟩ := like.symm.lookup room' room found
    rw [missing] at present
    cases present

end Matches

theorem HasRoom.levels_extra (room : Γ.HasRoom t) (fits : fuel + extra ≤ 2 * sizeLimit) :
    Γ.names.length + fuel + extra < 2 ^ 63 := by
  have total := room.total
  rw [length_names]
  unfold sizeLimit at *
  omega

section Inference

variable {type type' : Indexed}

theorem normalize_matching (like : Term.Matches extra Γ.names Γ'.names type type')
    (levels : Γ.names.length + fuel + extra < 2 ^ 63) :
    AlikeUnless (.halted .outOfFuel) Rejection.SameClass Term.AlphaEq (Γ.normalize fuel type)
      (Γ'.normalize (fuel + extra) type') :=
  (like.forth fuel levels).halted

theorem equate_matching {other other' : Indexed} {cause cause' : TypeError}
    (left : Term.Matches extra Γ.names Γ'.names type type')
    (right : Term.Matches extra Γ.names Γ'.names other other')
    (levels : Γ.names.length + fuel + extra < 2 ^ 63) :
    AlikeUnless (.halted .outOfFuel) Rejection.SameClass Eq
      (Γ.equate fuel type other cause) (Γ'.equate (fuel + extra) type' other' cause') := by
  apply (left.convertible right levels).halted.bind
  rintro same _ rfl
  right
  cases same with
  | true => exact rfl
  | false => trivial

theorem universeLevel_matching {u u' : Indexed}
    (like : Term.Matches extra Γ.names Γ'.names type type')
    (levels : Γ.names.length + fuel + extra < 2 ^ 63) :
    AlikeUnless (.halted .outOfFuel) Rejection.SameClass Eq (Γ.universeLevel fuel u type)
      (Γ'.universeLevel (fuel + extra) u' type') := by
  apply (normalize_matching like levels).bind
  intro n n' same
  right
  split
  · obtain rfl := same.eq_const
    exact rfl
  · rename_i other
    split
    · rename_i level
      exact (other level (Term.AlphaEq.eq_const same.symm)).elim
    · trivial

theorem functionType_matching {f f' : Indexed}
    (like : Term.Matches extra Γ.names Γ'.names type type')
    (levels : Γ.names.length + fuel + extra < 2 ^ 63) :
    AlikeUnless (.halted .outOfFuel) Rejection.SameClass
      (fun p p' => Term.AlphaEq p.1 p'.1 ∧ Term.AlphaEq p.2 p'.2)
      (Γ.functionType fuel f type) (Γ'.functionType (fuel + extra) f' type') := by
  apply (normalize_matching like levels).bind
  intro n n' same
  right
  split
  · obtain ⟨y, dom', cod', rfl, domains, codomains⟩ := same.eq_bind
    exact ⟨domains, codomains⟩
  · rename_i other
    split
    · obtain ⟨y, dom, cod, rfl, -, -⟩ := Term.AlphaEq.eq_bind same.symm
      exact (other y dom cod rfl).elim
    · trivial

theorem variableType_matching {v : Occurrence} (contexts : Γ.Matches extra Γ')
    (room : Γ.HasRoom (.var v)) (room' : Γ'.HasRoom (.var v)) :
    AlikeUnless (.halted .outOfFuel) Rejection.SameClass (Term.Matches extra Γ.names Γ'.names)
      (Γ.variableType v) (Γ'.variableType v) := by
  right
  cases found : Γ.lookup? v.ix with
  | none =>
    rw [variableType, variableType, found, contexts.lookup_none room room' found]
    trivial
  | some type =>
    obtain ⟨type', found', types⟩ := contexts.lookup room room' found
    rw [variableType, variableType, found, found']
    exact types

/-- There is room for one and the same term in two contexts with matching types. -/
structure Shared (extra : Nat) (Γ Γ' : Context) (t t' : Indexed) : Prop where
  contexts : Γ.Matches extra Γ'
  room : Γ.HasRoom t
  room' : Γ'.HasRoom t
  term : t' = t

namespace Shared

variable {t' : Indexed}

theorem matches_self (shared : Shared extra Γ Γ' t t') (u : Indexed) :
    Term.Matches extra Γ.names Γ'.names u u :=
  .of_alphaEq shared.contexts.names_length rfl

theorem parts (shared : Shared extra Γ Γ' t t') :
    List.Forall₂ (Shared extra Γ Γ') t.parts t'.parts := by
  obtain ⟨contexts, room, room', rfl⟩ := shared
  rw [List.forall₂_same]
  exact fun s within => ⟨contexts, room.part within, room'.part within, rfl⟩

/-- Both contexts are extended by the domain itself, which is the same term. -/
theorem body {b : Binder} {x x' : Name} {dom dom' body body' : Indexed}
    (shared : Shared extra Γ Γ' (.bind b x dom body) (.bind b x' dom' body')) :
    Shared extra (Γ.extend x dom) (Γ'.extend x' dom') body body' := by
  have domains := shared.matches_self dom
  obtain ⟨contexts, room, room', same⟩ := shared
  obtain ⟨-, rfl, rfl, rfl⟩ := Term.bind.inj same
  exact ⟨contexts.cons domains, room.under, room'.under, rfl⟩

end Shared

/-- Inference takes the same course in contexts with matching types, and gives matching types. -/
abbrev matching (extra : Nat) : Comparison where
  Before := Shared extra
  After Γ Γ' := Term.Matches extra Γ.names Γ'.names
  -- The parts of two normal forms: their names apart, they are the same.
  Function _ _ p p' := Term.AlphaEq p.1 p'.1 ∧ Term.AlphaEq p.2 p'.2

theorem matching_holds (fits : fuel + extra ≤ 2 * sizeLimit) :
    (matching extra).Holds (.alikeUnless (.halted .outOfFuel) Rejection.SameClass) fuel
      (fuel + extra) where
  sameForm shared := shared.term ▸ .refl _
  parts shared := shared.parts
  body shared := shared.body
  constant _ shared := shared.matches_self _
  argument shared domains := .of_alphaEq shared.contexts.names_length domains.1
  ascribed shared := (Term.ascribe.inj shared.term).2 ▸ shared.matches_self _
  expect shared found wanted := equate_matching found wanted (shared.room.levels_extra fits)
  function shared types := functionType_matching types (shared.room.levels_extra fits)
  universeLevel shared types := universeLevel_matching types (shared.room.levels_extra fits)
  branches shared yes no := equate_matching yes no (shared.room.levels_extra fits)
  var := by
    rintro Γ Γ' v v' ⟨contexts, room, room', same⟩
    cases same
    exact variableType_matching contexts room room'
  app := by
    rintro Γ Γ' f f' a a' p p' ⟨contexts, -, -, same⟩ ⟨-, codomains⟩
    obtain ⟨-, rfl⟩ := Term.app.inj same
    apply Term.Matches.of_alphaEq contexts.names_length
    rw [Term.AlphaEq, Term.forgetNames_instantiate, Term.forgetNames_instantiate, codomains]
  lam := by
    intro Γ Γ' x x' dom dom' body body' bodyType bodyType' shared bodyTypes
    have domains := shared.matches_self dom
    obtain ⟨-, rfl, rfl, -⟩ := Term.bind.inj shared.term
    exact domains.bind bodyTypes

theorem infer_matching (contexts : Γ.Matches extra Γ') (room : Γ.HasRoom t) (room' : Γ'.HasRoom t)
    (fits : fuel + extra ≤ 2 * sizeLimit) :
    AlikeUnless (.halted .outOfFuel) Rejection.SameClass (Term.Matches extra Γ.names Γ'.names)
      (Γ.infer fuel t) (Γ'.infer (fuel + extra) t) :=
  (matching_holds fits).infer ⟨contexts, room, room', rfl⟩

end Inference

end Context

/-- Two computations that take fuel come to the same end: what one of them comes to with some amount
of fuel, lack of it apart, the other comes to with some amount as well. -/
def SameEnd {ε α : Type} (out : ε) (failures : ε → ε → Prop) (answers : α → α → Prop)
    (run run' : Nat → Except ε α) : Prop :=
  ∀ fuel < sizeLimit,
    (run fuel ≠ .error out → ∃ fuel', Alike failures answers (run fuel) (run' fuel')) ∧
    (run' fuel ≠ .error out → ∃ fuel', Alike failures answers (run fuel') (run' fuel))

theorem Rejection.SameClass.symm {e e' : Rejection} (same : e.SameClass e') : e'.SameClass e := by
  cases e with
  | halted h =>
    cases e' with
    | halted h' => exact Iff.symm same
    | illTyped cause => exact same
  | illTyped cause =>
    cases e' with
    | halted h' => exact same
    | illTyped cause' => trivial

section SameEnd

variable {ε α : Type} {out : ε} {failures : ε → ε → Prop} {answers answers' : α → α → Prop}
  {run run' : Nat → Except ε α}

theorem Alike.flip {x y : Except ε α} (alike : Alike failures answers x y)
    (failuresBack : ∀ e e', failures e e' → failures e' e)
    (answersBack : ∀ a b, answers a b → answers' b a) : Alike failures answers' y x := by
  cases x with
  | error e =>
    cases y with
    | error e' => exact failuresBack e e' alike
    | ok b => exact alike.elim
  | ok a =>
    cases y with
    | error e' => exact alike.elim
    | ok b => exact answersBack a b alike

/-- Each computation gets more fuel than the other. -/
theorem SameEnd.of_extra {extra : Nat}
    (forth : ∀ fuel < sizeLimit, AlikeUnless out failures answers (run fuel) (run' (fuel + extra)))
    (back : ∀ fuel < sizeLimit, AlikeUnless out failures answers' (run' fuel) (run (fuel + extra)))
    (failuresBack : ∀ e e', failures e e' → failures e' e)
    (answersBack : ∀ a b, answers' a b → answers b a) : SameEnd out failures answers run run' := by
  intro fuel enough
  constructor
  · intro finished
    exact ⟨fuel + extra, (forth fuel enough).resolve_left finished⟩
  · intro finished
    exact ⟨fuel + extra, ((back fuel enough).resolve_left finished).flip failuresBack answersBack⟩

theorem SameEnd.mono (same : SameEnd out failures answers run run')
    (weaker : ∀ a b, answers a b → answers' a b) : SameEnd out failures answers' run run' := by
  intro fuel enough
  obtain ⟨forth, back⟩ := same fuel enough
  constructor
  · intro finished
    obtain ⟨fuel', alike⟩ := forth finished
    exact ⟨fuel', alike.mono weaker⟩
  · intro finished
    obtain ⟨fuel', alike⟩ := back finished
    exact ⟨fuel', alike.mono weaker⟩

end SameEnd

theorem Term.Matches.sameEnd {scope scope' : List Name} {t t' : Indexed}
    (like : Matches sizeLimit scope scope' t t') (sameLength : scope.length = scope'.length)
    (room : scope.length < 2 * sizeLimit) :
    SameEnd .outOfFuel Halt.SameClass AlphaEq (fun fuel => t.normalize fuel scope)
      fun fuel => t'.normalize fuel scope' := by
  apply SameEnd.of_extra
  · intro fuel enough
    apply like.forth
    unfold sizeLimit at *
    omega
  · intro fuel enough
    apply like.back
    unfold sizeLimit at *
    omega
  · intro h h' same
    exact Iff.symm same
  · intro n n' same
    exact Eq.symm same

namespace Context

/-- Contexts of one length whose types have, pairwise and each in the scope outside of it, the same
normal form up to names. -/
inductive Conv : Context → Context → Prop
  | nil : Conv [] []
  | cons {Γ Γ' : Context} {x x' : Name} {type type' n n' : Indexed} {fuel : Nat}
      (outside : Conv Γ Γ') (enough : fuel < sizeLimit)
      (normal : type.normalize fuel Γ.names = .ok n)
      (normal' : type'.normalize fuel Γ'.names = .ok n') (same : Term.AlphaEq n n') :
      Conv (⟨x, type⟩ :: Γ) (⟨x', type'⟩ :: Γ')

theorem Conv.matches {Γ Γ' : Context} (contexts : Γ.Conv Γ') : Γ.Matches sizeLimit Γ' := by
  induction contexts with
  | nil => exact .nil
  | cons _ enough normal normal' same ih =>
    exact .cons ih ⟨.of_normal normal normal' (Nat.le_of_lt enough) same,
      .of_normal normal' normal (Nat.le_of_lt enough) same.symm⟩

/-- Inference depends on the context up to conversion only. In two contexts whose types have the same
normal forms it comes to the same end: a type error in both, a fault in both, or two types whose
normalisation comes to the same end. Neither the types of the contexts nor the term need be in
scope. -/
theorem inference_respects_conversion {Γ Γ' : Context} {t : Indexed} (contexts : Γ.Conv Γ')
    (room : Γ.HasRoom t) (room' : Γ'.HasRoom t) :
    SameEnd (.halted .outOfFuel) Rejection.SameClass
      (fun type type' => SameEnd .outOfFuel Halt.SameClass Term.AlphaEq
        (fun fuel => type.normalize fuel Γ.names) fun fuel => type'.normalize fuel Γ'.names)
      (fun fuel => Γ.infer fuel t) fun fuel => Γ'.infer fuel t := by
  have types := contexts.matches
  have inferred : SameEnd (.halted .outOfFuel) Rejection.SameClass
      (Term.Matches sizeLimit Γ.names Γ'.names) (fun fuel => Γ.infer fuel t)
      fun fuel => Γ'.infer fuel t := by
    apply SameEnd.of_extra
    · intro fuel enough
      exact infer_matching types room room' (by omega)
    · intro fuel enough
      exact infer_matching types.symm room' room (by omega)
    · intro e e' same
      exact same.symm
    · intro type type' like
      exact like.symm
  have size : Γ.names.length < 2 * sizeLimit := by
    have total := room.total
    rw [length_names]
    omega
  apply inferred.mono
  intro type type' like
  exact like.sameEnd types.names_length size

/-- The type of integers, as the result of a computation. -/
def computedInt : Indexed :=
  .app (.bind .lam "B" (.const (.univ 0)) (.var ⟨"B", 0⟩)) (.const .intType)

-- The types inferred for the variable are the two types as they stand.
theorem inference_respects_conversion_computedInt :
    infer 9 [⟨"x", computedInt⟩] (.var ⟨"x", 0⟩) = .ok computedInt ∧
    infer 9 [⟨"n", .const .intType⟩] (.var ⟨"x", 0⟩) = .ok (.const .intType) ∧
    Conv [⟨"x", computedInt⟩] [⟨"n", .const .intType⟩] ∧
    SameEnd (.halted .outOfFuel) Rejection.SameClass
      (fun type type' => SameEnd .outOfFuel Halt.SameClass Term.AlphaEq
        (fun fuel => type.normalize fuel ["x"]) fun fuel => type'.normalize fuel ["n"])
      (fun fuel => infer fuel [⟨"x", computedInt⟩] (.var ⟨"x", 0⟩))
      fun fuel => infer fuel [⟨"n", .const .intType⟩] (.var ⟨"x", 0⟩) := by
  have contexts : Conv [⟨"x", computedInt⟩] [⟨"n", .const .intType⟩] :=
    @Conv.cons [] [] "x" "n" computedInt (.const .intType) (.const .intType) (.const .intType) 9
      .nil (by decide) (by rfl) (by rfl) rfl
  exact ⟨by rfl, by rfl, contexts,
    inference_respects_conversion contexts ⟨by decide, by decide, by decide⟩
      ⟨by decide, by decide, by decide⟩⟩

end Context

end DepCalc

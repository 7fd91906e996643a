import DepCalc.Proofs.Acceptance

/-!
Normalisation keeps types. A typed term without ascriptions is accepted by inference, which has no
other reason to reject it than that the fuel runs out; the normal form of an accepted term is such a
term, and the types inferred for the two are convertible.
-/
namespace DepCalc

open Bare (HasType WellTyped Joinable univ)

namespace Context

/-- A typed term in normal form is accepted. -/
theorem infer_accepts {fuel : Nat} (enough : fuel < sizeLimit) {Γ : Context} {t : Indexed} {A : Bare}
    (context : WellTyped Γ.erase) (room : Γ.HasRoom t) (normal : t.IsNormal)
    (typed : HasType Γ.erase t.erase A) :
    Outcome (· = .halted .outOfFuel) (Γ.Infers t) (Γ.infer fuel t) :=
  infer_accepts_justified enough context room (normal.justified _ _) typed

/-- The normal form of an accepted term is accepted, and its type is found convertible to the type of
the term; both can only be kept from an answer by the fuel. -/
theorem normal_form_keeps_type {fuel fuel' : Nat} {Γ : Context} {t type n : Indexed}
    (context : Γ.WellFormed) (size : Γ.length < sizeLimit) (depth : t.depth < sizeLimit)
    (enough : fuel < sizeLimit) (enough' : fuel' < sizeLimit)
    (inferred : Γ.infer fuel t = .ok type) (normalized : t.normalize fuel' Γ.names = .ok n) :
    ∀ again < sizeLimit, Γ.infer again n = .error (.halted .outOfFuel) ∨
      ∃ type', Γ.infer again n = .ok type' ∧ ∀ more < sizeLimit,
        type.convertible more Γ.names type' = .error .outOfFuel ∨
          type.convertible more Γ.names type' = .ok true := by
  have wellTyped := context.wellTyped size
  have room := context.hasRoom size depth
  have infers := (infer_sound enough wellTyped room).of_eq_ok inferred
  obtain ⟨A, typed, toType⟩ := infers.typed
  have bound := normalize_depth_lt normalized
  have levels := room.levels enough'
  have reads := normalize_reads normalized (by omega)
  have normalTyped := typed.reduces wellTyped reads.reduces
  have normalRoom : Γ.HasRoom n := context.hasRoom size (Nat.lt_trans bound enough')
  intro again enoughAgain
  have accepted := infer_accepts enoughAgain wellTyped normalRoom reads.normal normalTyped
  cases result : Γ.infer again n with
  | error e => exact .inl (congrArg Except.error (accepted.of_eq_error result))
  | ok type' =>
    refine .inr ⟨type', rfl, fun more enoughMore => ?_⟩
    have infers' := accepted.of_eq_ok result
    have same := toType.symm.trans (infers'.same normalTyped).symm
    have compared := infers.faultless.convertible infers'.faultless same (room.levels enoughMore)
    cases answer : type.convertible more Γ.names type' with
    | error h => exact .inl (congrArg Except.error (compared.of_eq_error answer))
    | ok b => exact .inr (congrArg Except.ok (compared.of_eq_ok answer))

theorem normal_form_keeps_type_identity :
    (ofSomeType.infer 10 identityApplied = .ok (.var ⟨"A", 1⟩) ∧
      identityApplied.normalize 10 ofSomeType.names = .ok (.var ⟨"x", 0⟩)) ∧
    ∀ again < sizeLimit,
      ofSomeType.infer again (.var ⟨"x", 0⟩) = .error (.halted .outOfFuel) ∨
      ∃ type', ofSomeType.infer again (.var ⟨"x", 0⟩) = .ok type' ∧ ∀ more < sizeLimit,
        Term.convertible more ofSomeType.names (.var ⟨"A", 1⟩) type' = .error .outOfFuel ∨
          Term.convertible more ofSomeType.names (.var ⟨"A", 1⟩) type' = .ok true :=
  ⟨⟨by rfl, by rfl⟩,
    normal_form_keeps_type (t := identityApplied) ofSomeType_wellFormed (by decide) (by decide)
      (by decide : 10 < sizeLimit) (by decide : 10 < sizeLimit) (by rfl) (by rfl)⟩

end Context
end DepCalc

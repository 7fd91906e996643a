import DepCalc.Name
import Mathlib.Data.List.Nodup
import Mathlib.Data.List.Perm.Basic

/-!
Fresh names. There is always a free candidate, since one more candidate is tried than names are
taken, and the one with the fewest primes is chosen.
-/
namespace DepCalc

@[simp] theorem toList_primed (x : Name) (count : Nat) :
    (primed x count).toList = x.toList ++ List.replicate count '\'' := by
  simp [primed]

@[simp] theorem primed_zero (x : Name) : primed x 0 = x := by
  simp [primed]

theorem primed_injective (x : Name) : Function.Injective (primed x) := by
  intro count count' same
  have lengths := congrArg (fun y : Name => y.toList.length) same
  simp only [toList_primed, List.length_append, List.length_replicate] at lengths
  omega

@[simp] theorem freshen_wildcard (taken : List Name) : freshen taken wildcard = wildcard := by
  simp [freshen]

theorem exists_primed_not_mem (taken : List Name) (x : Name) :
    ∃ count < taken.length + 1, primed x count ∉ taken := by
  by_contra all
  push Not at all
  have within : (List.range (taken.length + 1)).map (primed x) ⊆ taken := by
    intro y candidate
    obtain ⟨count, below, rfl⟩ := List.mem_map.mp candidate
    exact all count (List.mem_range.mp below)
  have distinct : ((List.range (taken.length + 1)).map (primed x)).Nodup :=
    List.nodup_range.map (primed_injective x)
  have fits := (List.subperm_of_subset distinct within).length_le
  rw [List.length_map, List.length_range] at fits
  omega

/-- A name other than the wildcard gets the fewest primes that keep it apart from `taken`. -/
theorem freshen_spec (taken : List Name) {x : Name} (named : x ≠ wildcard) :
    ∃ count, freshen taken x = primed x count ∧ primed x count ∉ taken ∧
      ∀ fewer < count, primed x fewer ∈ taken := by
  unfold freshen
  rw [if_neg named]
  split
  · rename_i count found
    simp only [List.find?_range_eq_some, Bool.not_eq_true', List.contains_eq_mem,
      decide_eq_false_iff_not, Bool.not_not, decide_eq_true_eq] at found
    exact ⟨count, rfl, found.1, found.2.2⟩
  · rename_i none
    obtain ⟨count, below, free⟩ := exists_primed_not_mem taken x
    simp only [List.find?_range_eq_none, Bool.not_not, List.contains_eq_mem,
      decide_eq_true_eq] at none
    exact absurd (none count below) free

theorem freshen_not_mem {taken : List Name} {x : Name} (named : x ≠ wildcard) :
    freshen taken x ∉ taken := by
  obtain ⟨count, chosen, free, -⟩ := freshen_spec taken named
  rwa [chosen]

theorem freshen_of_not_mem {taken : List Name} {x : Name} (free : x ∉ taken) :
    freshen taken x = x := by
  by_cases named : x = wildcard
  · rw [named, freshen_wildcard]
  · obtain ⟨count, chosen, -, fewest⟩ := freshen_spec taken named
    cases count with
    | zero => rw [chosen, primed_zero]
    | succ count =>
      have taken0 := fewest 0 (Nat.succ_pos count)
      rw [primed_zero] at taken0
      exact absurd taken0 free

theorem freshen_ne_wildcard {taken : List Name} {x : Name} (named : x ≠ wildcard) :
    freshen taken x ≠ wildcard := by
  obtain ⟨count, chosen, -, -⟩ := freshen_spec taken named
  rw [chosen]
  intro same
  cases count with
  | zero => exact named (by rw [← same, primed_zero])
  | succ count =>
    have characters := congrArg String.toList same
    rw [toList_primed] at characters
    have prime : '\'' ∈ wildcard.toList := by
      rw [← characters]
      simp
    revert prime
    decide

end DepCalc

import HashingBenchmark.Fixture.Cache
import HashingBenchmark.Lib.SuffixCode

/-! What a signature says about a call: everything but the success probability.

    The parts of a signature can be read off from its end. No dataset name is a suffix of another
    one, and neither is the name of a distribution, so the underscores in these names do no harm;
    the two numbers have no underscore at all. What is left is the name of the table type. -/

namespace HashingBenchmark
namespace Fixture
open SuffixCode

theorem suffixFree_distribution : SuffixFree fun d : ProbingDistribution => d.name.toList := by
  intro i j hsuffix
  cases i <;> cases j <;> first | rfl | exact absurd hsuffix (by decide +kernel)

theorem suffixFree_id : SuffixFree fun d : ID => d.name.toList := by
  intro i j hsuffix
  cases i <;> cases j <;> first | rfl | exact absurd hsuffix (by decide +kernel)

theorem toDigits_injective {n n' : ℕ} (h : Nat.toDigits 10 n = Nat.toDigits 10 n') : n = n' := by
  rw [← Nat.ofDigitChars_ten_toDigits (n := n), h, Nat.ofDigitChars_ten_toDigits]

variable {Ty : Type} {typeidName : Ty → String}

/-- Equal signatures have equal parts. -/
theorem signature_inj (htypeid : Function.Injective typeidName) {n n' : ℕ} {a a' : Arguments Ty} :
    signature typeidName n a = signature typeidName n' a' ↔ n = n' ∧ a = a' := by
  constructor
  · intro h
    have hlist := congrArg String.toList h
    have hbar : "_".toList = ['_'] := rfl
    simp only [signature, String.toList_append, hbar, Nat.toString_eq_repr, Nat.toList_repr]
      at hlist
    obtain ⟨hlist, hdist⟩ := append_inj_of_suffixFree suffixFree_distribution hlist
    obtain ⟨hlist, hid⟩ := append_inj_of_suffixFree suffixFree_id (List.append_cancel_right hlist)
    have hlist := List.append_cancel_right hlist
    obtain ⟨hlist, hsize⟩ := append_cons_inj Nat.underscore_not_in_toDigits
      Nat.underscore_not_in_toDigits hlist
    obtain ⟨hlist, hnumber⟩ := append_cons_inj Nat.underscore_not_in_toDigits
      Nat.underscore_not_in_toDigits hlist
    have htable : a.table = a'.table := htypeid (String.toList_inj.mp hlist)
    have hsize := toDigits_injective hsize
    refine ⟨toDigits_injective hnumber, ?_⟩
    cases a
    cases a'
    simp_all
  · rintro ⟨rfl, rfl⟩
    rfl

/-- No signature is the initial value of `previous_signature`. -/
theorem signature_ne_empty (n : ℕ) (a : Arguments Ty) : signature typeidName n a ≠ "" := by
  intro h
  have hlist := congrArg String.toList h
  have hbar : "_".toList = ['_'] := rfl
  simp [signature, String.toList_append, hbar] at hlist

end Fixture
end HashingBenchmark

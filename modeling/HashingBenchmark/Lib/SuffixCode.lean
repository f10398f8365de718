import Mathlib.Data.List.Infix

/-! Reading a concatenation of words from its end.

    The last word of a concatenation is determined if it comes from a set of words of which none is
    a suffix of another (`append_inj_of_suffixFree`), or if it is what follows the last occurrence of
    a separator (`append_cons_inj`). -/

namespace SuffixCode
variable {ι α : Type*}

/-- None of the words is a suffix of another one. -/
def SuffixFree (word : ι → List α) : Prop := ∀ i j, word i <:+ word j → i = j

/-- The last word of a suffix code, and what comes before it. -/
theorem append_inj_of_suffixFree {word : ι → List α} (h : SuffixFree word) {x y : List α} {i j : ι}
    (heq : x ++ word i = y ++ word j) : x = y ∧ i = j := by
  have hij : i = j := by
    have hi : word i <:+ y ++ word j := by rw [← heq]; exact List.suffix_append x _
    rcases List.suffix_or_suffix_of_suffix hi (List.suffix_append y _) with hsuf | hsuf
    · exact h i j hsuf
    · exact (h j i hsuf).symm
  subst hij
  exact ⟨List.append_cancel_right heq, rfl⟩

/-- What follows the last separator, and what comes before it. -/
theorem append_cons_inj {c : α} {x y a b : List α} (ha : c ∉ a) (hb : c ∉ b)
    (heq : x ++ [c] ++ a = y ++ [c] ++ b) : x = y ∧ a = b := by
  rw [List.append_assoc, List.append_assoc, List.singleton_append, List.singleton_append] at heq
  rcases List.append_eq_append_iff.mp heq with ⟨d, rfl, hd⟩ | ⟨d, rfl, hd⟩
  · cases d with
    | nil => simpa using hd
    | cons e d =>
      rw [List.cons_append, List.cons.injEq] at hd
      exact absurd (by rw [hd.2]; simp) ha
  · cases d with
    | nil => simpa [eq_comm] using hd
    | cons e d =>
      rw [List.cons_append, List.cons.injEq] at hd
      exact absurd (by rw [hd.2]; simp) hb

end SuffixCode

import Mathlib.Algebra.BigOperators.Fin
import Mathlib.Data.Multiset.Bind

/-! Interleavings of finitely many sequential threads.

    Thread `i` works through the list `slices i` in order. A schedule is the list of the threads
    whose turns come one after the other, and `merge` is the order in which the elements of all
    slices are taken. A schedule that gives every thread as many turns as it has elements takes every
    element once (`merge_perm`), whatever the order of the turns. -/

namespace Interleaving
variable {n : ℕ} {α : Type*}

/-- The elements taken, in order, by threads at the positions `pos` of their slices. -/
def merge (slices : Fin n → List α) : List (Fin n) → (Fin n → ℕ) → List α
  | [], _ => []
  | i :: rest, pos =>
    ((slices i)[pos i]?).toList ++ merge slices rest (Function.update pos i (pos i + 1))

theorem merge_snoc (slices : Fin n → List α) (schedule : List (Fin n)) (i : Fin n) (pos : Fin n → ℕ) :
    merge slices (schedule ++ [i]) pos
      = merge slices schedule pos ++ ((slices i)[pos i + schedule.count i]?).toList := by
  induction schedule generalizing pos with
  | nil => simp [merge]
  | cons j rest ih =>
    have hpos : Function.update pos j (pos j + 1) i + rest.count i
        = pos i + (j :: rest).count i := by
      rcases eq_or_ne i j with rfl | hij
      · rw [Function.update_self, List.count_cons_self]; omega
      · rw [Function.update_of_ne hij, List.count_cons_of_ne hij.symm]
    rw [List.cons_append, merge, ih, hpos, merge, List.append_assoc]

/-- What is left of the slices, as a multiset. -/
theorem coe_merge (slices : Fin n → List α) {schedule : List (Fin n)} {pos : Fin n → ℕ}
    (h : ∀ i, pos i + schedule.count i = (slices i).length) :
    (merge slices schedule pos : Multiset α) = ∑ i, ((slices i).drop (pos i) : Multiset α) := by
  induction schedule generalizing pos with
  | nil =>
    have hdone : ∀ i, (slices i).drop (pos i) = [] := fun i =>
      List.drop_of_length_le (by have := h i; simp at this; omega)
    simp [merge, hdone]
  | cons j rest ih =>
    have hlt : pos j < (slices j).length := by
      have := h j
      rw [List.count_cons_self] at this; omega
    have hnext : ∀ i, Function.update pos j (pos j + 1) i + rest.count i = (slices i).length := by
      intro i
      have := h i
      rw [List.count_cons] at this
      rcases eq_or_ne i j with rfl | hij
      · rw [Function.update_self]; simp at this; omega
      · rw [Function.update_of_ne hij]; simpa [hij.symm] using this
    have hrest : ∀ i ∈ Finset.univ.erase j,
        ((slices i).drop (Function.update pos j (pos j + 1) i) : Multiset α)
          = ((slices i).drop (pos i) : Multiset α) := by
      intro i hi
      rw [Function.update_of_ne (Finset.ne_of_mem_erase hi)]
    rw [merge, List.getElem?_eq_getElem hlt, Option.toList_some, List.singleton_append,
      ← Multiset.cons_coe, ih hnext, ← Finset.add_sum_erase _ _ (Finset.mem_univ j),
      ← Finset.add_sum_erase _ _ (Finset.mem_univ j), Finset.sum_congr rfl hrest,
      Function.update_self, List.drop_eq_getElem_cons hlt, ← Multiset.cons_coe,
      Multiset.cons_add]

/-- A complete schedule takes every element once. -/
theorem merge_perm (slices : Fin n → List α) {schedule : List (Fin n)}
    (h : ∀ i, schedule.count i = (slices i).length) :
    (merge slices schedule fun _ => 0).Perm ((List.finRange n).flatMap slices) := by
  have hcoe : (merge slices schedule fun _ => 0 : Multiset α)
      = ∑ i, ((slices i).drop 0 : Multiset α) :=
    coe_merge slices fun i => by rw [Nat.zero_add, h i]
  rw [← Multiset.coe_eq_coe, hcoe, ← Multiset.coe_bind]
  rfl

end Interleaving

import HashingBenchmark.Join.Runner
import Mathlib.Data.List.ProdSigma
import Mathlib.Algebra.BigOperators.Group.List.Basic

/-! The size of a join: the number of pairs with equal keys, counted tuple of S by tuple of S. -/

namespace HashingBenchmark
namespace Join

/-- The number of pairs of tuples with equal keys. -/
def joinSize (R S : List Tuple) : ℕ := ((R ×ˢ S).filter fun p => p.1.key = p.2.key).length

theorem countP_eq_sum {α : Type} (p : α → Bool) (l : List α) :
    l.countP p = (l.map fun a => if p a then 1 else 0).sum := by
  induction l with
  | nil => rfl
  | cons a l ih => rw [List.countP_cons, ih, List.map_cons, List.sum_cons, Nat.add_comm]

/-- The pairs of a product that satisfy `p`, counted by their second components. -/
theorem length_filter_product {α β : Type} (l : List α) (l' : List β) (p : α × β → Bool) :
    ((l ×ˢ l').filter p).length = (l'.map fun b => l.countP fun a => p (a, b)).sum := by
  induction l with
  | nil => simp
  | cons a l ih =>
    have hcons : (fun b => (a :: l).countP fun a => p (a, b))
        = fun b => (l.countP fun a => p (a, b)) + if p (a, b) then 1 else 0 := by
      funext b
      rw [List.countP_cons]
    rw [List.product_cons, List.filter_append, List.length_append, ih, List.filter_map,
      List.length_map, ← List.countP_eq_length_filter, hcons, List.sum_map_add, countP_eq_sum,
      Nat.add_comm]
    rfl

theorem joinSize_eq_sum (R S : List Tuple) :
    joinSize R S = (S.map fun s => R.countP fun r => r.key = s.key).sum :=
  length_filter_product R S _

/-- With distinct keys in R each tuple of S joins with at most one tuple. -/
theorem joinSize_eq {R : List Tuple} (hkeys : (R.map Tuple.key).Nodup) (S : List Tuple) :
    joinSize R S = S.countP fun s => s.key ∈ R.map Tuple.key := by
  rw [joinSize_eq_sum, countP_eq_sum]
  congr 1
  refine List.map_congr_left fun s _ => ?_
  have hcount : (R.countP fun r => r.key = s.key) = (R.map Tuple.key).count s.key := by
    rw [List.count, List.countP_map]; rfl
  rw [hcount]
  by_cases hmem : s.key ∈ R.map Tuple.key
  · rw [List.count_eq_one_of_mem hkeys hmem, if_pos (decide_eq_true hmem)]
  · rw [List.count_eq_zero_of_not_mem hmem, if_neg (by simpa using hmem)]

end Join
end HashingBenchmark

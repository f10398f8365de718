import Mathlib.Algebra.Group.Nat.Defs
import Mathlib.Data.Nat.Basic
import Mathlib.Tactic.Ring

/-! Complete trees without pointers, in breadth-first order.

    In a tree where every node has `f` children, the nodes of a level come one after the other, the
    children of node `n` are the nodes from `f * n + 1` on, and level `i` starts at node
    `firstNode f i`. A walk from the root that takes child `child n` at node `n` is at position
    `reached f child i` of level `i` (`number_succ`); it is at position 0 as long as it takes the
    first child (`reached_eq_zero_iff`). -/

namespace FanoutTree
variable {f : ℕ} {child : ℕ → ℕ}

/-- The number of nodes above level `i`. -/
def firstNode (f i : ℕ) : ℕ := (f ^ i - 1) / (f - 1)

@[simp] theorem firstNode_zero (f : ℕ) : firstNode f 0 = 0 := by simp [firstNode]

theorem firstNode_eq_of {i s : ℕ} (hf : 2 ≤ f) (hs : f ^ i = (f - 1) * s + 1) : firstNode f i = s := by
  rw [firstNode, hs, Nat.add_sub_cancel, Nat.mul_div_cancel_left s (by omega)]

/-- The nodes above level `i`, with `f - 1` keys each, hold all keys above it. -/
theorem pow_eq (hf : 2 ≤ f) (i : ℕ) : f ^ i = (f - 1) * firstNode f i + 1 := by
  induction i with
  | zero => simp
  | succ i ih =>
    obtain ⟨g, rfl⟩ : ∃ g, f = g + 1 := ⟨f - 1, by omega⟩
    have hs : (g + 1) ^ (i + 1) = (g + 1 - 1) * ((g + 1) * firstNode (g + 1) i + 1) + 1 := by
      rw [Nat.pow_succ, ih, Nat.add_sub_cancel]
      ring
    rw [firstNode_eq_of hf hs]
    exact hs

theorem firstNode_succ (hf : 2 ≤ f) (i : ℕ) : firstNode f (i + 1) = firstNode f i + f ^ i := by
  refine firstNode_eq_of hf ?_
  obtain ⟨g, rfl⟩ : ∃ g, f = g + 1 := ⟨f - 1, by omega⟩
  have hpow := pow_eq hf i
  rw [Nat.add_sub_cancel] at hpow ⊢
  rw [Nat.pow_succ, Nat.mul_add, Nat.mul_add, Nat.mul_one, Nat.mul_comm g ((g + 1) ^ i)]
  omega

/-- The children of node `n` come from `f * n + 1` on. -/
theorem firstNode_succ_eq_mul (hf : 2 ≤ f) (i : ℕ) : firstNode f (i + 1) = f * firstNode f i + 1 := by
  obtain ⟨g, rfl⟩ : ∃ g, f = g + 1 := ⟨f - 1, by omega⟩
  have hpow := pow_eq hf i
  rw [Nat.add_sub_cancel] at hpow
  rw [firstNode_succ hf, hpow, Nat.add_mul, Nat.one_mul]
  omega

theorem firstNode_le (hf : 2 ≤ f) {i j : ℕ} (h : i ≤ j) : firstNode f i ≤ firstNode f j := by
  induction j, h using Nat.le_induction with
  | base => exact Nat.le_refl _
  | succ j _ ih => exact Nat.le_trans ih (by rw [firstNode_succ hf]; omega)

/-- Level `i` and its children divide the leaves into parts. -/
theorem part_mul {level i : ℕ} (hi : i < level) : f ^ (level - i - 1) * (f * f ^ i) = f ^ level := by
  rw [← Nat.pow_succ', ← Nat.pow_add]
  congr 1
  omega

/-- The places of the slots of level `i`, of which a node has one less than children. -/
theorem place_lt {i p k : ℕ} (hp : p < f ^ i) (hk : k + 1 < f) : f * p + k + 1 < f * f ^ i := by
  have hmul : f * (p + 1) ≤ f * f ^ i := Nat.mul_le_mul_left f hp
  rw [Nat.mul_add] at hmul
  omega

/-- The position in level `i` of the node that the walk reaches. -/
def reached (f : ℕ) (child : ℕ → ℕ) : ℕ → ℕ
  | 0 => 0
  | i + 1 => f * reached f child i + child (firstNode f i + reached f child i)

theorem reached_lt (hchild : ∀ n, child n < f) (i : ℕ) : reached f child i < f ^ i := by
  induction i with
  | zero => simp [reached]
  | succ i ih =>
    have hlt := hchild (firstNode f i + reached f child i)
    have hmul : f * (reached f child i + 1) ≤ f * f ^ i := Nat.mul_le_mul_left f ih
    rw [Nat.mul_add] at hmul
    rw [reached, Nat.pow_succ, Nat.mul_comm (f ^ i)]
    omega

/-- The number of the node that the walk takes next. -/
theorem number_succ (hf : 2 ≤ f) (child : ℕ → ℕ) (i : ℕ) :
    firstNode f (i + 1) + reached f child (i + 1) =
      f * (firstNode f i + reached f child i) + child (firstNode f i + reached f child i) + 1 := by
  rw [firstNode_succ_eq_mul hf, reached, Nat.mul_add]
  omega

theorem reached_eq_zero_iff (hf : 0 < f) (i : ℕ) :
    reached f child i = 0 ↔ ∀ l < i, child (firstNode f l) = 0 := by
  induction i with
  | zero => simp [reached]
  | succ i ih =>
    rw [reached, Nat.add_eq_zero_iff, Nat.mul_eq_zero, or_iff_right (Nat.ne_of_gt hf)]
    constructor
    · rintro ⟨hzero, hchild⟩ l hl
      rcases Nat.lt_succ_iff_lt_or_eq.mp hl with hlt | rfl
      · exact ih.mp hzero l hlt
      · rwa [hzero, Nat.add_zero] at hchild
    · intro h
      have hzero := ih.mpr fun l hl => h l (Nat.lt_succ_of_lt hl)
      refine ⟨hzero, ?_⟩
      rw [hzero, Nat.add_zero]
      exact h i (Nat.lt_succ_self i)

end FanoutTree

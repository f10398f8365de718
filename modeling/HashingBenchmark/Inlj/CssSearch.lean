import HashingBenchmark.Inlj.CssBuild

/-! Where the search of the CSS-tree ends.

    The search is the walk of a complete tree that takes, at each node, the child after the keys below
    the key looked for (`child`), and it returns the start of the block that the walk comes to
    (`search_eq`). The walk comes to the block at index 0 exactly if the key is not above the last one
    of this block (`block_eq_zero_iff`): along the first slots of the levels the keys descend. -/

namespace HashingBenchmark
namespace Inlj
open Join FanoutTree
open scoped UIntOrder

namespace CssTree

/-- The number of keys of a node in front of the first that is not below `key`. -/
def child (tree : CssTree) (key : UInt32) (node : ℕ) : ℕ :=
  ((List.range' (node * tree.blockSize) tree.blockSize).takeWhile
    fun slot => tree.ntree slot < key).length

/-- The block of the sorted keys that the tree leads to. -/
def block (tree : CssTree) (key : UInt32) : ℕ := reached tree.fanout (tree.child key) tree.level

/-- The node that the search is at on level `i`. -/
def node (tree : CssTree) (key : UInt32) (i : ℕ) : ℕ :=
  firstNode tree.fanout i + reached tree.fanout (tree.child key) i

end CssTree

theorem not_max_lt (key : UInt32) : ¬ (0xFFFFFFFF : UInt32) < key := by
  have hlt := key.toNat_lt
  rw [UInt32.lt_iff_toNat_lt]
  exact Nat.not_lt.mpr (Nat.le_of_lt_succ hlt)

variable {r : KeyArray} {fanout : ℕ} {malloc : ℕ → UInt32} {tree : CssTree} {key : UInt32}

/-- The test for -1 stops at no other slot than the comparison does. -/
theorem scanNode_eq {curIndex slots j : ℕ} (hslots : curIndex + j + slots ≤ tree.numKey) :
    tree.scanNode key curIndex slots j = .ok (j + ((List.range' (curIndex + j) slots).takeWhile
      fun slot => tree.ntree slot < key).length) := by
  induction slots generalizing j with
  | zero => rfl
  | succ slots ih =>
    rw [CssTree.scanNode, if_pos (by omega), List.range'_succ, List.takeWhile_cons]
    by_cases hlt : tree.ntree (curIndex + j) < key
    · have hne : tree.ntree (curIndex + j) ≠ 0xFFFFFFFF := fun heq => not_max_lt key (heq ▸ hlt)
      rw [if_neg hne, if_neg (not_le.mpr hlt), ih (by omega), if_pos (decide_eq_true hlt),
        List.length_cons, ← Nat.add_assoc curIndex, Nat.add_assoc j 1, Nat.add_comm 1]
    · rw [if_pos (not_lt.mp hlt), ite_self, if_neg (by simpa using hlt)]
      rfl

namespace Built

theorem child_lt (h : Built r fanout malloc tree) (hfanout : 2 ≤ fanout) (node : ℕ) :
    tree.child key node < tree.fanout := by
  have hle : tree.child key node ≤ (List.range' (node * tree.blockSize) tree.blockSize).length :=
    (List.takeWhile_sublist _).length_le
  rw [List.length_range'] at hle
  rw [h.fanout_eq]
  have hblock := h.blockSize
  omega

theorem node_succ (h : Built r fanout malloc tree) (hfanout : 2 ≤ fanout) (i : ℕ) :
    tree.node key (i + 1) = tree.fanout * tree.node key i + tree.child key (tree.node key i) + 1 :=
  number_succ (h.fanout_eq ▸ hfanout) _ i

theorem node_le (h : Built r fanout malloc tree) (hfanout : 2 ≤ fanout) {i j : ℕ} (hij : i ≤ j) :
    tree.node key i ≤ tree.node key j := by
  induction j, hij using Nat.le_induction with
  | base => exact Nat.le_refl _
  | succ j _ ih =>
    have hmul : 1 * tree.node key j ≤ tree.fanout * tree.node key j :=
      Nat.mul_le_mul_right _ (by rw [h.fanout_eq]; omega)
    rw [h.node_succ hfanout]
    omega

theorem node_lt (h : Built r fanout malloc tree) (hfanout : 2 ≤ fanout) {i : ℕ}
    (hi : i < tree.level) : tree.node key i < tree.numNode := by
  have hfanout' : 2 ≤ tree.fanout := h.fanout_eq ▸ hfanout
  have hreached : reached tree.fanout (tree.child key) i < tree.fanout ^ i :=
    reached_lt (h.child_lt hfanout) i
  have hle := firstNode_le hfanout' hi
  rw [firstNode_succ hfanout'] at hle
  rw [h.numNode, ← h.fanout_eq, CssTree.node]
  omega

theorem blockSize_pos (h : Built r fanout malloc tree) (hfanout : 2 ≤ fanout) :
    0 < tree.blockSize := by
  have hblock := h.blockSize
  omega

/-- The loop over the levels follows the walk, as long as the indices fit in an `int`. -/
theorem descend_eq (h : Built r fanout malloc tree) (hfanout : 2 ≤ fanout) {i levels : ℕ}
    (hlevel : i + levels = tree.level) (hnode : tree.node key i * tree.blockSize ≤ intMax) :
    tree.descend key levels (tree.node key i) (tree.node key i * tree.blockSize) =
      if tree.node key tree.level * tree.blockSize ≤ intMax then .ok (tree.node key tree.level)
      else .error .overflow := by
  induction levels generalizing i with
  | zero =>
    obtain rfl : i = tree.level := by omega
    rw [CssTree.descend, if_pos hnode]
  | succ levels ih =>
    have hslots : tree.node key i * tree.blockSize + 0 + tree.blockSize ≤ tree.numKey := by
      have hmul : (tree.node key i + 1) * tree.blockSize ≤ tree.numNode * tree.blockSize :=
        Nat.mul_le_mul_right _ (h.node_lt hfanout (by omega))
      rw [Nat.add_mul, Nat.one_mul] at hmul
      rw [h.numKey, ← h.numNode, ← h.blockSize]
      omega
    rw [CssTree.descend, scanNode_eq hslots]
    simp only [Nat.zero_add, Nat.add_zero]
    rw [← CssTree.child, ← h.node_succ hfanout]
    by_cases hnext : tree.node key (i + 1) * tree.blockSize ≤ intMax
    · have hnext' : tree.node key (i + 1) ≤ intMax :=
        (Nat.le_mul_of_pos_right _ (h.blockSize_pos hfanout)).trans hnext
      rw [int_eq_ok.mpr ⟨hnext', rfl⟩]
      simp only
      rw [int_eq_ok.mpr ⟨hnext, rfl⟩]
      exact ih (by omega) hnext
    · -- a later index is not smaller
      have hlast : ¬ tree.node key tree.level * tree.blockSize ≤ intMax := fun hle =>
        hnext ((Nat.mul_le_mul_right _ (h.node_le hfanout (by omega))).trans hle)
      rw [if_neg hlast]
      by_cases hnode' : tree.node key (i + 1) ≤ intMax
      · rw [int_eq_ok.mpr ⟨hnode', rfl⟩]
        simp only
        rw [int, if_neg hnext]
      · rw [int, if_neg hnode']

/-- The start of the block, or the last entry for a block behind the array. -/
theorem search_eq (h : Built r fanout malloc tree) (hfanout : 2 ≤ fanout) (key : UInt32) :
    tree.search key = if tree.numKey + tree.block key * tree.blockSize ≤ intMax then
      .ok (if tree.block key * tree.blockSize > r.keys.length then r.keys.length - 1
        else tree.block key * tree.blockSize)
      else .error .overflow := by
  have hzero : tree.node key 0 = 0 := by simp [CssTree.node, reached]
  have hlast : tree.node key tree.level = tree.numNode + tree.block key := by
    rw [CssTree.node, CssTree.block, h.numNode, h.fanout_eq]
  have hmul : tree.node key tree.level * tree.blockSize
      = tree.numKey + tree.block key * tree.blockSize := by
    rw [hlast, Nat.add_mul, h.numKey, ← h.numNode, ← h.blockSize]
  have hdescend : tree.descend key tree.level _ _ = _ :=
    h.descend_eq hfanout (Nat.zero_add tree.level) (by simp [hzero])
  rw [hzero, Nat.zero_mul] at hdescend
  rw [CssTree.search, hdescend, hmul]
  by_cases hfits : tree.numKey + tree.block key * tree.blockSize ≤ intMax
  · rw [if_pos hfits, if_pos hfits]
    simp only
    rw [hlast, Nat.add_sub_cancel_left, int_eq_ok.mpr ⟨by omega, rfl⟩, h.numRecord]
  · rw [if_neg hfits, if_neg hfits]

end Built

/-! ### The first block -/

theorem keyAt_le (r : KeyArray) {i j : ℕ} (hij : i ≤ j) : r.keyAt i ≤ r.keyAt j := by
  rcases Nat.eq_or_lt_of_le (show (if i ≥ r.keys.length then r.keys.length - 1 else i) ≤
    (if j ≥ r.keys.length then r.keys.length - 1 else j) by split_ifs <;> omega) with heq | hlt
  · rw [KeyArray.keyAt, KeyArray.keyAt]
    simp only [heq, le_refl]
  · exact List.pairwise_iff_get.mp r.sorted _ _ hlt

namespace Built

/-- The keys in the first slots of the levels descend to the last one of the first block. -/
theorem first_slots_iff (h : Built r fanout malloc tree) (hfanout : 2 ≤ fanout) :
    (∀ i < tree.level, key ≤ tree.ntree (firstNode fanout i * (fanout - 1))) ↔
      key ≤ r.keyAt (fanout - 2) := by
  constructor
  · intro hall
    have hpos : 0 < tree.level := h.level ▸ countLevels_pos _ _ _
    have hleaf := hall (tree.level - 1) (by omega)
    have hindex : firstIndex fanout tree.level (tree.level - 1) = fanout - 2 := by
      rw [firstIndex, Nat.sub_sub, Nat.sub_add_cancel hpos, Nat.sub_self, Nat.pow_zero,
        Nat.mul_one]
      rfl
    rw [h.ntree_first hfanout (by omega), hindex, if_pos (by omega)] at hleaf
    exact hleaf
  · intro hle i hi
    rw [h.ntree_first hfanout hi]
    split_ifs with hlt
    · refine hle.trans (keyAt_le r ?_)
      have hmul : (fanout - 1) * 1 ≤ (fanout - 1) * fanout ^ (tree.level - i - 1) :=
        Nat.mul_le_mul_left _ (Nat.pow_pos (by omega))
      rw [firstIndex]
      omega
    · exact not_lt.mp (not_max_lt key)

theorem block_eq_zero_iff (h : Built r fanout malloc tree) (hfanout : 2 ≤ fanout) :
    tree.block key = 0 ↔ key ≤ r.keyAt (fanout - 2) := by
  rw [CssTree.block, reached_eq_zero_iff (by rw [h.fanout_eq]; omega), ← h.first_slots_iff hfanout]
  refine forall₂_congr fun i _ => ?_
  obtain ⟨slots, hslots⟩ : ∃ n, fanout - 1 = n + 1 := ⟨fanout - 2, by omega⟩
  rw [CssTree.child, h.blockSize, h.fanout_eq, hslots, List.range'_succ, List.takeWhile_cons]
  split_ifs with hlt
  · simpa using hlt
  · simpa using hlt

/-- One record makes a tree of one node. -/
theorem level_of_length_one (h : Built r fanout malloc tree) (hfanout : 2 ≤ fanout)
    (hone : r.keys.length = 1) : tree.level = 1 := by
  have hleaf : divRoundUp r.keys.length (fanout - 1) = 1 := by
    rw [hone, divRoundUp]
    rcases Nat.eq_or_lt_of_le (show 1 ≤ fanout - 1 by omega) with heq | hlt
    · rw [← heq]
      rfl
    · rw [Nat.div_eq_of_lt hlt, Nat.mod_eq_of_lt hlt]
      rfl
  have hnum : numLeaf r fanout = 1 := by
    rw [numLeaf, hleaf]
    decide
  rw [h.level, hnum]
  rfl

/-- The search returns the start of the first block, where the scan down begins before the array. -/
theorem position_eq_zero_iff (h : Built r fanout malloc tree) (hfanout : 2 ≤ fanout)
    (key : UInt32) :
    (if tree.block key * tree.blockSize > r.keys.length then r.keys.length - 1
      else tree.block key * tree.blockSize) = 0 ↔
      ¬ (r.keyAt (fanout - 2) < key ∧ (r.keys.length = 1 → fanout = 2)) := by
  rw [← not_le, ← h.block_eq_zero_iff hfanout]
  have hpos := r.length_pos
  have hsize := h.blockSize
  rcases Nat.eq_zero_or_pos (tree.block key) with hzero | hblock
  · simp [hzero]
  · have hmul := Nat.le_mul_of_pos_right (tree.block key) (h.blockSize_pos hfanout)
    have hmul' := Nat.le_mul_of_pos_left tree.blockSize hblock
    by_cases hone : r.keys.length = 1
    · have hlt : tree.block key < tree.fanout ^ tree.level :=
        reached_lt (h.child_lt hfanout) tree.level
      rw [h.level_of_length_one hfanout hone, h.fanout_eq, Nat.pow_one] at hlt
      by_cases htwo : fanout = 2
      · have hblock' : tree.block key = 1 := by omega
        have hsize' : tree.blockSize = 1 := by omega
        simp [hone, htwo, hblock', hsize']
      · rw [hone, if_pos (by omega)]
        simp [htwo]
    · rw [and_iff_left fun hone' => absurd hone' hone]
      split_ifs
      · omega
      · omega

end Built

end Inlj
end HashingBenchmark

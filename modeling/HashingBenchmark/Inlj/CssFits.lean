import HashingBenchmark.Inlj.CssSearch

/-! When the constructor of the CSS-tree stays in `int`, and arrays small enough for it.

    The constructor builds a tree if and only if the slots, and the record indices that it computes
    before it leaves a node, fit in an `int` (`cssTree_ok_iff`).

    The loop over the levels ends with a level wide enough for the leaves (`le_pow_countLevels`) and
    the one above it not (`pow_countLevels_lt`). So the tree has less than `fanout ^ 2` slots a leaf,
    and the largest index of the constructor and of the search is less than `fanout` times that. -/

namespace HashingBenchmark
namespace Inlj
open Join FanoutTree
open scoped UIntOrder

variable {r : KeyArray} {fanout : ℕ} {malloc : ℕ → UInt32} {tree : CssTree}

/-! ### The number of levels -/

theorem le_mul_divRoundUp {s : ℕ} (hs : 0 < s) (n : ℕ) : n ≤ s * divRoundUp n s := by
  have hdiv := Nat.div_add_mod n s
  have hmod := Nat.mod_lt n hs
  rw [divRoundUp, Nat.mul_add]
  split_ifs with hrest
  · rw [Nat.mul_one]; omega
  · omega

theorem divRoundUp_le {s : ℕ} (hs : 0 < s) (n : ℕ) : divRoundUp n s ≤ n := by
  have hdiv := Nat.div_add_mod n s
  have hmul := Nat.le_mul_of_pos_left (n / s) hs
  rw [divRoundUp]
  split_ifs with hrest
  · omega
  · omega

theorem divRoundUp_bounds {n s : ℕ} (hs : 2 ≤ s) (hn : 1 < n) :
    n ≤ s * divRoundUp n s ∧ s * (divRoundUp n s - 1) < n ∧ divRoundUp n s < n ∧
      0 < divRoundUp n s := by
  have hdiv := Nat.div_add_mod n s
  have hmod := Nat.mod_lt n (show 0 < s by omega)
  have hmul : 2 * (n / s) ≤ s * (n / s) := Nat.mul_le_mul_right _ hs
  rw [divRoundUp]
  split_ifs with hrest
  · rw [Nat.mul_add, Nat.mul_one, Nat.add_sub_cancel]
    omega
  · have hpos : 0 < n / s := Nat.pos_of_ne_zero fun hzero => by
      rw [hzero, Nat.mul_zero] at hdiv
      omega
    have hless : s * (n / s - 1) < s * (n / s) :=
      Nat.mul_lt_mul_of_pos_left (by omega) (by omega)
    rw [Nat.add_zero]
    omega

theorem countLevels_of_le_one {fuel temp : ℕ} (hone : temp ≤ 1) :
    countLevels fanout fuel temp = 1 := by
  cases fuel with
  | zero => rfl
  | succ fuel => rw [countLevels, if_neg (by omega)]

theorem two_le_countLevels {fuel temp : ℕ} (hfuel : temp ≤ fuel) (hone : 1 < temp) :
    2 ≤ countLevels fanout fuel temp := by
  cases fuel with
  | zero => omega
  | succ fuel =>
    rw [countLevels, if_pos hone]
    exact Nat.succ_le_succ (countLevels_pos fanout fuel (divRoundUp temp fanout))

/-- The last level has room for the leaves. -/
theorem le_pow_countLevels (hfanout : 2 ≤ fanout) {fuel temp : ℕ} (hfuel : temp ≤ fuel) :
    temp ≤ fanout ^ (countLevels fanout fuel temp - 1) := by
  induction fuel generalizing temp with
  | zero =>
    rw [Nat.le_zero.mp hfuel]
    exact Nat.zero_le _
  | succ fuel ih =>
    rw [countLevels]
    split_ifs with hone
    · obtain ⟨hle, -, hless, -⟩ := divRoundUp_bounds hfanout hone
      have hpos := countLevels_pos fanout fuel (divRoundUp temp fanout)
      calc temp ≤ fanout * divRoundUp temp fanout := hle
        _ ≤ fanout * fanout ^ (countLevels fanout fuel (divRoundUp temp fanout) - 1) :=
          Nat.mul_le_mul_left _ (ih (by omega))
        _ = fanout ^ (countLevels fanout fuel (divRoundUp temp fanout) + 1 - 1) := by
          rw [← Nat.pow_succ', Nat.succ_eq_add_one, Nat.sub_add_cancel hpos, Nat.add_sub_cancel]
    · rw [Nat.sub_self, Nat.pow_zero]
      omega

/-- The level above the last has not. -/
theorem pow_countLevels_lt (hfanout : 2 ≤ fanout) {fuel temp : ℕ} (hfuel : temp ≤ fuel)
    (hone : 1 < temp) : fanout ^ (countLevels fanout fuel temp - 2) < temp := by
  induction fuel generalizing temp with
  | zero => omega
  | succ fuel ih =>
    obtain ⟨-, hlt, hless, hpos⟩ := divRoundUp_bounds hfanout hone
    rw [countLevels, if_pos hone]
    rcases Nat.lt_or_ge 1 (divRoundUp temp fanout) with hnext | hlast
    · have hrest := ih (by omega) hnext
      have htwo : 2 ≤ countLevels fanout fuel (divRoundUp temp fanout) :=
        two_le_countLevels (by omega) hnext
      calc fanout ^ (countLevels fanout fuel (divRoundUp temp fanout) + 1 - 2)
          = fanout * fanout ^ (countLevels fanout fuel (divRoundUp temp fanout) - 2) := by
            rw [← Nat.pow_succ', Nat.succ_eq_add_one, Nat.sub_add_comm htwo]
        _ ≤ fanout * (divRoundUp temp fanout - 1) := Nat.mul_le_mul_left _ (by omega)
        _ < temp := hlt
    · rw [countLevels_of_le_one hlast]
      exact hone

/-- The levels and one more of `leaves` leaves. -/
theorem pow_countLevels_le (hfanout : 2 ≤ fanout) {leaves : ℕ} (hpos : 0 < leaves) :
    fanout ^ (countLevels fanout leaves leaves + 1) ≤ fanout ^ 3 * leaves := by
  rcases Nat.lt_or_ge 1 leaves with hone | hone
  · have hlt := pow_countLevels_lt hfanout (Nat.le_refl leaves) hone
    have htwo : 2 ≤ countLevels fanout leaves leaves := two_le_countLevels (Nat.le_refl _) hone
    calc fanout ^ (countLevels fanout leaves leaves + 1)
        = fanout ^ 3 * fanout ^ (countLevels fanout leaves leaves - 2) := by
          rw [← Nat.pow_add]
          congr 1
          omega
      _ ≤ fanout ^ 3 * leaves := Nat.mul_le_mul_left _ hlt.le
  · rw [countLevels_of_le_one hone]
    calc fanout ^ (1 + 1) ≤ fanout ^ 3 := Nat.pow_le_pow_right (by omega) (by omega)
      _ ≤ fanout ^ 3 * leaves := Nat.le_mul_of_pos_right _ hpos

/-! ### The indices -/

theorem pow_sub_one_eq (hfanout : 2 ≤ fanout) (i : ℕ) :
    firstNode fanout i * (fanout - 1) = fanout ^ i - 1 := by
  rw [pow_eq hfanout i, Nat.add_sub_cancel, Nat.mul_comm]

/-- The indices of a node are computed up to the first one that is too far behind the array. -/
def NodeFits (r : KeyArray) (fanout level i p : ℕ) : Prop :=
  ∀ kk < fanout - 1, (∀ kk' < kk, recordIndex fanout level i p kk' < r.keys.length + (fanout - 1)) →
    recordIndex fanout level i p kk ≤ intMax

/-- The loop over a node fails if and only if an index that it computes does not fit. -/
theorem fillNode_ok_iff {level i startNode j start slots : ℕ} (ntree : ℕ → UInt32) :
    (∃ ntree', fillNode r fanout level i startNode j (List.range' start slots) ntree = .ok ntree') ↔
      ∀ kk < slots, (∀ kk' < kk,
        slotIndex fanout level i startNode j (start + kk') < r.keys.length + (fanout - 1)) →
        slotIndex fanout level i startNode j (start + kk) ≤ intMax := by
  induction slots generalizing start ntree with
  | zero => exact iff_of_true ⟨ntree, rfl⟩ fun kk hkk => absurd hkk (Nat.not_lt_zero kk)
  | succ slots ih =>
    rw [List.range'_succ, fillNode]
    by_cases hfits : slotIndex fanout level i startNode j start ≤ intMax
    swap
    · rw [int, if_neg hfits]
      refine iff_of_false ?_ fun hall => hfits (hall 0 (Nat.succ_pos _) ?_)
      · rintro ⟨_, h⟩; cases h
      · exact fun kk' hkk' => absurd hkk' (Nat.not_lt_zero kk')
    rw [int_eq_ok.mpr ⟨hfits, rfl⟩]
    simp only
    by_cases hin : slotIndex fanout level i startNode j start < r.keys.length + (fanout - 1)
    · rw [if_pos hin, ih]
      constructor
      · rintro hall (_ | kk) hkk hbefore
        · exact hfits
        · rw [← Nat.add_assoc, Nat.add_right_comm]
          refine hall kk (by omega) fun kk' hkk' => ?_
          rw [Nat.add_right_comm]
          exact hbefore (kk' + 1) (by omega)
      · intro hall kk hkk hbefore
        have hnext := hall (kk + 1) (by omega)
        rw [← Nat.add_assoc, Nat.add_right_comm] at hnext
        refine hnext ?_
        rintro (_ | kk') hkk'
        · exact hin
        · rw [← Nat.add_assoc, Nat.add_right_comm]
          exact hbefore kk' (by omega)
    · -- the loop ends at the first slot
      rw [if_neg hin]
      refine iff_of_true ⟨ntree, rfl⟩ ?_
      rintro (_ | kk) hkk hbefore
      · exact hfits
      · exact absurd (hbefore 0 (Nat.succ_pos kk)) hin

theorem fillLevel_ok_iff (hfanout : 2 ≤ fanout) {level i : ℕ} (ntree : ℕ → UInt32) :
    (∃ ntree', fillLevel r fanout level ntree i = .ok ntree') ↔
      ∀ p < fanout ^ i, NodeFits r fanout level i p := by
  have hnodes : ∀ j ∈ List.range' (firstNode fanout i) (fanout ^ i), ∀ ntree,
      (∃ ntree', fillNode r fanout level i (firstNode fanout i) j
        (List.range' (j * (fanout - 1)) (fanout - 1)) ntree = .ok ntree') ↔
        NodeFits r fanout level i (j - firstNode fanout i) := by
    intro j hj ntree
    obtain ⟨p, rfl⟩ := Nat.exists_eq_add_of_le (List.mem_range'_1.mp hj).1
    rw [fillNode_ok_iff, Nat.add_sub_cancel_left, NodeFits]
    simp only [slotIndex_eq hfanout]
  rw [fillLevel, firstNode_succ hfanout, Nat.add_sub_cancel_left]
  refine (TableFill.foldlM_ok_iff hnodes ntree).trans ⟨fun hall p hp => ?_, fun hall j hj => ?_⟩
  · have hnode := hall (firstNode fanout i + p) (List.mem_range'_1.mpr (by omega))
    rwa [Nat.add_sub_cancel_left] at hnode
  · exact hall _ (by have := List.mem_range'_1.mp hj; omega)

/-- The constructor builds a tree if and only if the slots and the indices that it computes stay in
    `int`. -/
theorem cssTree_ok_iff (hfanout : 2 ≤ fanout) (malloc : ℕ → UInt32) {level : ℕ}
    (hlevel : countLevels fanout (numLeaf r fanout) (numLeaf r fanout) = level) :
    (∃ tree, cssTree r fanout malloc = .ok tree) ↔ fanout ^ level ≤ intMax + 1 ∧
      ∀ i < level, ∀ p < fanout ^ i, NodeFits r fanout level i p := by
  have hkeys := pow_sub_one_eq hfanout level
  have hnode := Nat.le_mul_of_pos_right (firstNode fanout level) (show 0 < fanout - 1 by omega)
  have hlevels : ∀ i ∈ List.range level, ∀ ntree,
      (∃ ntree', fillLevel r fanout level ntree i = .ok ntree') ↔
        ∀ p < fanout ^ i, NodeFits r fanout level i p :=
    fun i _ ntree => fillLevel_ok_iff hfanout ntree
  have hfill := TableFill.foldlM_ok_iff hlevels
    fun slot => if slot < firstNode fanout level then 0xFFFFFFFF else malloc slot
  simp only [List.mem_range] at hfill
  rw [cssTree, hlevel, ← hfill]
  by_cases hfits : fanout ^ level ≤ intMax + 1
  · rw [int_eq_ok.mpr ⟨by omega, rfl⟩]
    simp only
    rw [int_eq_ok.mpr ⟨by omega, rfl⟩, and_iff_right hfits]
    simp only
    constructor
    · rintro ⟨tree, htree⟩
      split at htree
      · cases htree
      next ntree hntree => exact ⟨ntree, hntree⟩
    · rintro ⟨ntree, hntree⟩
      rw [hntree]
      exact ⟨_, rfl⟩
  · refine iff_of_false ?_ fun h => hfits h.1
    rintro ⟨tree, htree⟩
    split at htree
    · cases htree
    next numNode hnum =>
    obtain ⟨-, rfl⟩ := int_eq_ok.mp hnum
    rw [int, if_neg (by omega)] at htree
    cases htree

/-- The constructor computes no index from `(fanout - 1) * fanout ^ level` on. -/
theorem recordIndex_lt (hfanout : 2 ≤ fanout) {level i p kk : ℕ} (hi : i < level)
    (hp : p < fanout ^ i) (hkk : kk < fanout - 1) :
    recordIndex fanout level i p kk < (fanout - 1) * fanout ^ level := by
  have hplace : fanout * p + kk + 1 < fanout * fanout ^ i := place_lt hp (by omega)
  have hpart : fanout ^ (level - i - 1) * (fanout * fanout ^ i) = fanout ^ level := part_mul hi
  rw [recordIndex]
  calc (fanout - 1) * fanout ^ (level - i - 1) * (fanout * p + kk + 1) - 1
      ≤ (fanout - 1) * fanout ^ (level - i - 1) * (fanout * p + kk + 1) := Nat.sub_le _ _
    _ < (fanout - 1) * fanout ^ (level - i - 1) * (fanout * fanout ^ i) :=
        Nat.mul_lt_mul_of_pos_left hplace (Nat.mul_pos (by omega) (Nat.pow_pos (by omega)))
    _ = (fanout - 1) * fanout ^ level := by rw [Nat.mul_assoc, hpart]

/-- The tree can be built if its levels and one more stay in `int`. -/
theorem cssTree_ok (hfanout : 2 ≤ fanout) (malloc : ℕ → UInt32)
    (hfits : fanout ^ (countLevels fanout (numLeaf r fanout) (numLeaf r fanout) + 1) ≤ intMax + 1) :
    ∃ tree, cssTree r fanout malloc = .ok tree := by
  generalize hlevel : countLevels fanout (numLeaf r fanout) (numLeaf r fanout) = level at hfits
  have hpow : fanout ^ level ≤ fanout ^ (level + 1) := Nat.pow_le_pow_right (by omega) (by omega)
  have hmul : (fanout - 1) * fanout ^ level ≤ fanout * fanout ^ level :=
    Nat.mul_le_mul_right _ (Nat.sub_le _ _)
  rw [Nat.pow_succ'] at hfits hpow
  refine (cssTree_ok_iff hfanout malloc hlevel).mpr ⟨by omega, fun i hi p hp kk hkk _ => ?_⟩
  have hlt := recordIndex_lt hfanout hi hp hkk
  omega

/-- And then the search stays in `int`. -/
theorem Built.search_fits (h : Built r fanout malloc tree) (hfanout : 2 ≤ fanout)
    (hfits : fanout ^ (tree.level + 1) ≤ intMax + 1) (key : UInt32) :
    tree.numKey + tree.block key * tree.blockSize ≤ intMax := by
  have hblock : tree.block key < tree.fanout ^ tree.level := reached_lt (h.child_lt hfanout) _
  have hmul : (tree.block key + 1) * (fanout - 1) ≤ fanout ^ tree.level * (fanout - 1) :=
    Nat.mul_le_mul_right _ (by rw [← h.fanout_eq]; exact hblock)
  have hsplit : fanout ^ (tree.level + 1)
      = fanout ^ tree.level * (fanout - 1) + fanout ^ tree.level := by
    rw [← Nat.mul_succ, Nat.succ_eq_add_one, Nat.sub_add_cancel (by omega), Nat.pow_succ]
  rw [h.numKey, h.blockSize, pow_sub_one_eq hfanout]
  rw [Nat.add_mul] at hmul
  omega

/-! ### Small arrays -/

theorem numLeaf_eq (hfits : divRoundUp r.keys.length (fanout - 1) ≤ intMax) :
    numLeaf r fanout = divRoundUp r.keys.length (fanout - 1) := by
  have hnat : (UInt64.ofNat (divRoundUp r.keys.length (fanout - 1))).toNat
      = divRoundUp r.keys.length (fanout - 1) :=
    UInt64.toNat_ofNat_of_lt' (Nat.lt_of_le_of_lt hfits (by decide))
  rw [numLeaf, toInt_eq (by rw [hnat]; exact hfits), hnat]
  rfl

/-- An array of up to about `2 ^ 31 / fanout ^ 2` keys has a tree, and the search in it stays in
    `int`. -/
theorem small_fits (hfanout : 2 ≤ fanout) (malloc : ℕ → UInt32)
    (hsmall : fanout ^ 3 * divRoundUp r.keys.length (fanout - 1) ≤ intMax + 1) :
    ∃ tree, cssTree r fanout malloc = .ok tree ∧
      ∀ key, tree.numKey + tree.block key * tree.blockSize ≤ intMax := by
  have hpos : 0 < divRoundUp r.keys.length (fanout - 1) := by
    have hlength := r.length_pos
    have hle := le_mul_divRoundUp (show 0 < fanout - 1 by omega) r.keys.length
    exact Nat.pos_of_mul_pos_left (hlength.trans_le hle)
  have hleaf : numLeaf r fanout = divRoundUp r.keys.length (fanout - 1) := by
    refine numLeaf_eq ?_
    have hmul : 2 ^ 3 * divRoundUp r.keys.length (fanout - 1)
        ≤ fanout ^ 3 * divRoundUp r.keys.length (fanout - 1) :=
      Nat.mul_le_mul_right _ (Nat.pow_le_pow_left hfanout 3)
    omega
  have hlevel : fanout ^ (countLevels fanout (numLeaf r fanout) (numLeaf r fanout) + 1)
      ≤ intMax + 1 := by
    rw [hleaf]
    exact (pow_countLevels_le hfanout hpos).trans hsmall
  obtain ⟨tree, htree⟩ := cssTree_ok hfanout malloc hlevel
  have hbuilt := built_of_cssTree htree
  exact ⟨tree, htree, hbuilt.search_fits hfanout (by rw [hbuilt.level]; exact hlevel)⟩

end Inlj
end HashingBenchmark

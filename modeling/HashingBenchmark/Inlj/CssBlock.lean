import HashingBenchmark.Inlj.CssWalk

/-! When the search of the CSS-tree finds the block of the lower bound.

    The walk is right for every key (`Built.block_eq`), also over the slots that the constructor has
    left, so only the `int` arithmetic can go wrong: the slots and the record indices of the
    constructor, and the slots that the search computes. The constructor goes one slot a node behind
    the array, so in a tree of several levels its largest index is that of the first slot of the last
    leaf node, for any number of records (`nodeFits_iff_of_levels`). -/

namespace HashingBenchmark
namespace Inlj
open Join FanoutTree PrefixCount
open scoped UIntOrder

variable {r : KeyArray} {fanout : ℕ} {malloc : ℕ → UInt32} {tree : CssTree} {key : UInt32}

/-! ### The search -/

/-- The records in front of position `s` are smaller than `key`, and the first one that is not, if there
    is one, is among the `blockSize` records from `s` on. -/
def FindsBlock (keys : List UInt32) (key : UInt32) (blockSize s : ℕ) : Prop :=
  s ≤ keys.length ∧ (∀ i < s, ∀ x, keys[i]? = some x → x < key) ∧
  ∀ i x, keys[i]? = some x → key ≤ x → (∀ j < i, ∀ y, keys[j]? = some y → y < key) →
    s ≤ i ∧ i < s + blockSize

theorem findsBlock_iff (r : KeyArray) (key : UInt32) (blockSize s : ℕ) :
    FindsBlock r.keys key blockSize s ↔ s ≤ below r.keys key ∧
      (below r.keys key < r.keys.length → below r.keys key < s + blockSize) := by
  have hle := below_le_length r key
  constructor
  · rintro ⟨hs, hbefore, hfirst⟩
    have hsb : s ≤ below r.keys key := by
      by_contra hgt
      have hread := List.getElem?_eq_getElem (show below r.keys key < r.keys.length by omega)
      exact Nat.lt_irrefl _ ((lt_iff_lt_below r.sorted hread).mp (hbefore _ (by omega) _ hread))
    refine ⟨hsb, fun hlt => ?_⟩
    have hread := List.getElem?_eq_getElem hlt
    refine (hfirst _ _ hread ?_ fun j hj y hy => (lt_iff_lt_below r.sorted hy).mpr hj).2
    rw [← not_lt, lt_iff_lt_below r.sorted hread]
    exact Nat.lt_irrefl _
  · rintro ⟨hs, hblock⟩
    refine ⟨by omega, fun i hi x hx => (lt_iff_lt_below r.sorted hx).mpr (by omega), ?_⟩
    intro i x hx hkey hbefore
    have hge := Nat.not_lt.mp (mt (lt_iff_lt_below r.sorted hx).mpr (not_lt.mpr hkey))
    have hi := (List.getElem?_eq_some_iff.mp hx).1
    -- no record in front of `i` is the first that is not smaller
    have hfirst : i = below r.keys key := by
      by_contra hne
      have hread := List.getElem?_eq_getElem (show below r.keys key < r.keys.length by omega)
      exact Nat.lt_irrefl _ ((lt_iff_lt_below r.sorted hread).mp (hbefore _ (by omega) _ hread))
    subst hfirst
    exact ⟨hs, hblock hi⟩

/-- The number of levels of the tree. -/
def levels (r : KeyArray) (fanout : ℕ) : ℕ :=
  countLevels fanout (numLeaf r fanout) (numLeaf r fanout)

/-- What the search needs: the tree has room for the records up to the block, and the slot of the block
    fits an `int`. A key above all records is looked for in `pastBlock`. -/
def SearchFits (r : KeyArray) (fanout : ℕ) (malloc : ℕ → UInt32) (key : UInt32) : Prop :=
  let keysAbove := fanout ^ levels r fanout - 1
  if below r.keys key < r.keys.length then
    below r.keys key < (fanout - 1) * fanout ^ levels r fanout ∧
    keysAbove + below r.keys key / (fanout - 1) * (fanout - 1) ≤ intMax
  else keysAbove + pastBlock r.keys.length fanout (levels r fanout) malloc key * (fanout - 1) ≤ intMax

theorem Built.search_finds_iff (h : Built r fanout malloc tree) (hfanout : 2 ≤ fanout)
    (key : UInt32) :
    (∃ s, tree.search key = .ok s ∧ FindsBlock r.keys key tree.blockSize s) ↔
      SearchFits r fanout malloc key := by
  have hle := below_le_length r key
  have hlength := r.length_pos
  have hlevel : levels r fanout = tree.level := h.level.symm
  have hblock : tree.block key < fanout ^ tree.level := by
    rw [← h.fanout_eq]
    exact reached_lt (h.child_lt hfanout) tree.level
  simp only [findsBlock_iff]
  rw [h.search_eq hfanout, SearchFits, hlevel, h.numKey, h.blockSize, pow_sub_one_eq hfanout]
  by_cases hlt : below r.keys key < r.keys.length
  · rw [if_pos hlt]
    by_cases hroom : below r.keys key < (fanout - 1) * fanout ^ tree.level
    · rw [and_iff_right hroom, h.block_eq hfanout hlt hroom]
      have hdiv := Nat.div_add_mod (below r.keys key) (fanout - 1)
      have hmod := Nat.mod_lt (below r.keys key) (show 0 < fanout - 1 by omega)
      rw [Nat.mul_comm] at hdiv
      split_ifs with hfits hgt
      · omega
      · refine iff_of_true ⟨_, rfl, by omega, fun _ => by omega⟩ hfits
      · refine iff_of_false ?_ hfits
        rintro ⟨s, hs, -⟩; cases hs
    · -- all blocks of the tree end in front of the first record that is not smaller
      refine iff_of_false ?_ fun hfits => hroom hfits.1
      rintro ⟨s, hs, hsb, hend⟩
      have hmul : (tree.block key + 1) * (fanout - 1) ≤ fanout ^ tree.level * (fanout - 1) :=
        Nat.mul_le_mul_right _ hblock
      have hless := hend hlt
      rw [Nat.mul_comm] at hroom
      rw [Nat.add_mul, Nat.one_mul] at hmul
      split_ifs at hs with hfits hgt
      · omega
      · rw [Except.ok.injEq] at hs
        omega
  · rw [if_neg hlt, ← h.block_eq_pastBlock hfanout (by omega)]
    split_ifs with hfits hgt
    · exact iff_of_true ⟨_, rfl, by omega, fun hlt' => absurd hlt' hlt⟩ hfits
    · exact iff_of_true ⟨_, rfl, by omega, fun hlt' => absurd hlt' hlt⟩ hfits
    · refine iff_of_false ?_ hfits
      rintro ⟨s, hs, -⟩; cases hs

/-! ### The constructor -/

/-- The largest record index that the constructor computes is less than `fanout - 1` times this. For
    more leaves than an `int` counts it goes to the last slot; in a tree of one node it looks at two
    slots, or at three if the first block is full; otherwise the first slot of the last node is the
    largest. -/
def lastPlace (r : KeyArray) (fanout : ℕ) : ℕ :=
  if intMax < divRoundUp r.keys.length (fanout - 1) then fanout ^ levels r fanout - 1
  else if levels r fanout = 1 then if r.keys.length = fanout - 1 then 3 else 2
  else fanout ^ levels r fanout - fanout + 1

/-- What the constructor needs: the slots and the record indices fit an `int`. -/
def ConstructorFits (r : KeyArray) (fanout : ℕ) : Prop :=
  fanout ^ levels r fanout ≤ intMax + 1 ∧ (fanout - 1) * lastPlace r fanout ≤ intMax + 1

theorem recordIndex_add_one (hfanout : 2 ≤ fanout) (level i p kk : ℕ) :
    recordIndex fanout level i p kk + 1
      = (fanout - 1) * fanout ^ (level - i - 1) * (fanout * p + kk + 1) :=
  Nat.sub_add_cancel (Nat.mul_pos (Nat.mul_pos (by omega) (Nat.pow_pos (by omega))) (Nat.succ_pos _))

/-- The last level has parts of one block. -/
theorem recordIndex_leaf (hfanout : 2 ≤ fanout) (i p kk : ℕ) :
    recordIndex fanout (i + 1) i p kk + 1 = (fanout - 1) * (fanout * p + kk + 1) := by
  rw [recordIndex_add_one hfanout, Nat.add_sub_cancel_left, Nat.sub_self, Nat.pow_zero, Nat.mul_one]

/-- The first slot of a node has at most the place of the first slot of the last leaf. -/
theorem first_place_le (hfanout : 2 ≤ fanout) {level i p : ℕ} (hi : i < level)
    (hp : p < fanout ^ i) :
    fanout ^ (level - i - 1) * (fanout * p + 1) ≤ fanout ^ level - fanout + 1 := by
  have hpart : fanout ^ (level - i - 1) * (fanout * fanout ^ i) = fanout ^ level := part_mul hi
  have hplace : fanout * p + (fanout - 2) + 1 < fanout * fanout ^ i := place_lt hp (by omega)
  have hmul : fanout ^ (level - i - 1) * (fanout * p + 1 + (fanout - 1))
      ≤ fanout ^ (level - i - 1) * (fanout * fanout ^ i) := Nat.mul_le_mul_left _ (by omega)
  have hpos := Nat.pow_pos (n := level - i - 1) (show 0 < fanout by omega)
  have hless := Nat.le_mul_of_pos_left (fanout - 1) hpos
  rw [Nat.mul_add] at hmul
  omega

/-- So has a slot behind one that is at most a block behind the records. -/
theorem next_place_le (hfanout : 3 ≤ fanout) {level i place : ℕ} (hlevel : 2 ≤ level)
    (hplace : fanout ^ (level - i - 1) * place ≤ fanout ^ (level - 1) + 1) :
    fanout ^ (level - i - 1) * (place + 1) ≤ fanout ^ level - fanout + 1 := by
  obtain ⟨last, rfl⟩ : ∃ n, level = n + 1 := ⟨level - 1, by omega⟩
  have hwide : fanout ^ 1 ≤ fanout ^ last := Nat.pow_le_pow_right (by omega) (by omega)
  have hpart : fanout ^ (last + 1 - i - 1) ≤ fanout ^ last :=
    Nat.pow_le_pow_right (by omega) (by omega)
  have hthree : 3 * fanout ^ last ≤ fanout * fanout ^ last := Nat.mul_le_mul_right _ hfanout
  rw [Nat.add_sub_cancel] at hplace
  rw [Nat.pow_one] at hwide
  rw [Nat.mul_add, Nat.mul_one, Nat.pow_succ' (n := last)]
  omega

/-- A tree of several levels, wide enough for the records. -/
theorem nodeFits_iff_of_levels (hfanout : 2 ≤ fanout) {level : ℕ} (hlevel : 2 ≤ level)
    (hroom : r.keys.length ≤ (fanout - 1) * fanout ^ (level - 1)) :
    (∀ i < level, ∀ p < fanout ^ i, NodeFits r fanout level i p) ↔
      (fanout - 1) * (fanout ^ level - fanout + 1) ≤ intMax + 1 := by
  constructor
  · intro hall
    obtain ⟨last, rfl⟩ : ∃ n, level = n + 1 := ⟨level - 1, by omega⟩
    have hpos := Nat.pow_pos (n := last) (show 0 < fanout by omega)
    have hlast := hall last (by omega) (fanout ^ last - 1) (by omega) 0 (by omega)
      fun kk' hkk' => absurd hkk' (Nat.not_lt_zero kk')
    have hindex := recordIndex_leaf hfanout last (fanout ^ last - 1) 0
    have hfirst : fanout * (fanout ^ last - 1) + 1 = fanout ^ (last + 1) - fanout + 1 := by
      rw [Nat.mul_sub, Nat.mul_one, ← Nat.pow_succ']
    rw [Nat.add_zero, hfirst] at hindex
    omega
  · intro hfits i hi p hp kk hkk hbefore
    have hindex := recordIndex_add_one hfanout level i p kk
    rw [Nat.mul_assoc] at hindex
    suffices hle : fanout ^ (level - i - 1) * (fanout * p + kk + 1)
        ≤ fanout ^ level - fanout + 1 by
      have hmul := Nat.mul_le_mul_left (fanout - 1) hle
      omega
    rcases Nat.eq_zero_or_pos kk with rfl | hkk'
    · exact first_place_le hfanout hi hp
    · -- the slot in front of it is at most one block behind the records
      have hprev := hbefore (kk - 1) (by omega)
      have hindex' := recordIndex_add_one hfanout level i p (kk - 1)
      rw [Nat.mul_assoc, Nat.add_assoc, Nat.sub_add_cancel hkk'] at hindex'
      refine next_place_le (by omega) hlevel ?_
      refine Nat.le_of_mul_le_mul_left ?_ (show 0 < fanout - 1 by omega)
      rw [Nat.mul_add (fanout - 1) (fanout ^ (level - 1)), Nat.mul_one]
      omega

/-- A single node, with records for at most one block. -/
theorem nodeFits_iff_of_one_level (hfanout : 2 ≤ fanout) (hroom : r.keys.length ≤ fanout - 1) :
    (∀ i < 1, ∀ p < fanout ^ i, NodeFits r fanout 1 i p) ↔
      (fanout - 1) * (if r.keys.length = fanout - 1 then 3 else 2) ≤ intMax + 1 := by
  have hindex : ∀ kk, recordIndex fanout 1 0 0 kk + 1 = (fanout - 1) * (kk + 1) := by
    intro kk
    rw [recordIndex_leaf hfanout 0, Nat.mul_zero, Nat.zero_add]
  have hzero := hindex 0
  have hone := hindex 1
  have htwo := hindex 2
  constructor
  · intro hall
    have hnode := hall 0 Nat.zero_lt_one 0 (Nat.pow_pos (by omega))
    have hsmall : 6 ≤ intMax + 1 := by decide
    split_ifs with hfull
    · rcases Nat.lt_or_ge 2 (fanout - 1) with hslots | hfew
      · have hlast := hnode 2 hslots fun kk' hkk' => by
          have hmul : (fanout - 1) * (kk' + 1) ≤ (fanout - 1) * 2 := Nat.mul_le_mul_left _ hkk'
          have := hindex kk'
          omega
        omega
      · omega
    · rcases Nat.lt_or_ge 1 (fanout - 1) with hslots | hfew
      · have hlast := hnode 1 hslots fun kk' hkk' => by
          have := hindex kk'
          obtain rfl : kk' = 0 := by omega
          omega
        omega
      · omega
  · intro hfits i hi p hp kk hkk hbefore
    obtain rfl : i = 0 := by omega
    obtain rfl : p = 0 := by rw [Nat.pow_zero] at hp; omega
    have hle : kk + 1 ≤ if r.keys.length = fanout - 1 then 3 else 2 := by
      by_contra hmore
      have hprev := hbefore (kk - 1) (by split_ifs at hmore <;> omega)
      have hprev' := hindex (kk - 1)
      split_ifs at hmore with hfull
      · have hmul : (fanout - 1) * 3 ≤ (fanout - 1) * (kk - 1 + 1) :=
          Nat.mul_le_mul_left _ (by omega)
        omega
      · have hmul : (fanout - 1) * 2 ≤ (fanout - 1) * (kk - 1 + 1) :=
          Nat.mul_le_mul_left _ (by omega)
        omega
    have hmul := Nat.mul_le_mul_left (fanout - 1) hle
    have := hindex kk
    omega

/-- More records than an `int` counts. -/
theorem nodeFits_iff_of_many (hfanout : 2 ≤ fanout) {level : ℕ} (hlevel : 0 < level)
    (hmany : intMax < r.keys.length) :
    (∀ i < level, ∀ p < fanout ^ i, NodeFits r fanout level i p) ↔
      (fanout - 1) * (fanout ^ level - 1) ≤ intMax + 1 := by
  obtain ⟨last, rfl⟩ : ∃ n, level = n + 1 := ⟨level - 1, by omega⟩
  constructor
  · intro hall
    have hnode := hall last (by omega) (fanout ^ last - 1)
      (Nat.sub_lt (Nat.pow_pos (by omega)) Nat.one_pos)
    -- an index that fits is in the array, so the next one is computed
    have hfits : ∀ kk < fanout - 1,
        recordIndex fanout (last + 1) last (fanout ^ last - 1) kk ≤ intMax := by
      intro kk
      induction kk using Nat.strong_induction_on with
      | _ kk ih =>
        intro hkk
        refine hnode kk hkk fun kk' hkk' => ?_
        have hle := ih kk' hkk' (by omega)
        omega
    have hlast := hfits (fanout - 2) (by omega)
    have hindex := recordIndex_leaf hfanout last (fanout ^ last - 1) (fanout - 2)
    have hplace : fanout * (fanout ^ last - 1) + (fanout - 2) + 1 = fanout ^ (last + 1) - 1 := by
      have hpos := Nat.le_mul_of_pos_right fanout (Nat.pow_pos (n := last) (show 0 < fanout by omega))
      rw [Nat.pow_succ', Nat.mul_sub, Nat.mul_one]
      omega
    rw [hplace] at hindex
    omega
  · intro hfits i hi p hp kk hkk _
    have hindex := recordIndex_add_one hfanout (last + 1) i p kk
    have hpart : fanout ^ (last + 1 - i - 1) * (fanout * fanout ^ i) = fanout ^ (last + 1) :=
      part_mul hi
    have hplace : fanout * p + kk + 1 < fanout * fanout ^ i := place_lt hp (by omega)
    have hpos := Nat.pow_pos (n := last + 1 - i - 1) (show 0 < fanout by omega)
    have hless : fanout ^ (last + 1 - i - 1) * (fanout * p + kk + 1) ≤ fanout ^ (last + 1) - 1 := by
      have hmul := Nat.mul_le_mul_left (fanout ^ (last + 1 - i - 1)) hplace
      rw [Nat.mul_succ] at hmul
      omega
    have hle := Nat.mul_le_mul_left (fanout - 1) hless
    rw [Nat.mul_assoc] at hindex
    omega

/-- The constructor builds a tree exactly if its largest slot and its largest index fit an `int`. -/
theorem constructorFits_iff (r : KeyArray) (hfanout : 2 ≤ fanout) (malloc : ℕ → UInt32) :
    (∃ tree, cssTree r fanout malloc = .ok tree) ↔ ConstructorFits r fanout := by
  have hblock : 0 < fanout - 1 := by omega
  have hle := le_mul_divRoundUp hblock r.keys.length
  have hlevel : countLevels fanout (numLeaf r fanout) (numLeaf r fanout) = levels r fanout := rfl
  rw [cssTree_ok_iff hfanout malloc hlevel, ConstructorFits, lastPlace]
  refine and_congr_right fun _ => ?_
  by_cases hmany : intMax < divRoundUp r.keys.length (fanout - 1)
  · rw [if_pos hmany]
    exact nodeFits_iff_of_many hfanout (countLevels_pos _ _ _)
      (hmany.trans_le (divRoundUp_le hblock _))
  · rw [if_neg hmany]
    have hleaf := numLeaf_eq (Nat.not_lt.mp hmany)
    by_cases hone : levels r fanout = 1
    · have hsingle : divRoundUp r.keys.length (fanout - 1) ≤ 1 := by
        by_contra hmore
        have htwo : 2 ≤ levels r fanout :=
          two_le_countLevels (Nat.le_refl (numLeaf r fanout)) (by rw [hleaf]; omega)
        omega
      rw [if_pos hone, hone]
      exact nodeFits_iff_of_one_level hfanout
        (hle.trans ((Nat.mul_le_mul_left _ hsingle).trans (Nat.mul_one _).le))
    · rw [if_neg hone]
      have hpos : 0 < levels r fanout := countLevels_pos _ _ _
      have hwide := le_pow_countLevels hfanout (Nat.le_refl (numLeaf r fanout))
      refine nodeFits_iff_of_levels hfanout (by omega) (hle.trans (Nat.mul_le_mul_left _ ?_))
      rw [← hleaf]
      exact hwide

/-- CORRECT: for every array, fanout, content of fresh memory and key, the tree can be built and the
    search in it finds the block of the first record that is not smaller than the key, if and only if
    the constructor and the search stay in `int`. -/
theorem css_search_finds_block_iff (r : KeyArray) (fanout : ℕ) (hfanout : 2 ≤ fanout)
    (malloc : ℕ → UInt32) (key : UInt32) :
    (∃ tree, cssTree r fanout malloc = .ok tree ∧
      ∃ s, tree.search key = .ok s ∧ FindsBlock r.keys key tree.blockSize s) ↔
    ConstructorFits r fanout ∧ SearchFits r fanout malloc key := by
  constructor
  · rintro ⟨tree, htree, hfinds⟩
    exact ⟨(constructorFits_iff r hfanout malloc).mp ⟨tree, htree⟩,
      ((built_of_cssTree htree).search_finds_iff hfanout key).mp hfinds⟩
  · rintro ⟨hconstructor, hsearch⟩
    obtain ⟨tree, htree⟩ := (constructorFits_iff r hfanout malloc).mpr hconstructor
    exact ⟨tree, htree, ((built_of_cssTree htree).search_finds_iff hfanout key).mpr hsearch⟩

/-- A key that is twice in an array of three, and a key above all of them, in a tree of two levels. -/
theorem css_search_finds_block_iff_three_keys :
    (∃ tree, cssTree ⟨[5, 9, 9], by decide, by decide, by decide⟩ 3 (fun _ => 0) = .ok tree ∧
      ∃ s, tree.search 9 = .ok s ∧ FindsBlock [5, 9, 9] 9 tree.blockSize s) ∧
    ∃ tree, cssTree ⟨[5, 9, 9], by decide, by decide, by decide⟩ 3 (fun _ => 0) = .ok tree ∧
      ∃ s, tree.search 12 = .ok s ∧ FindsBlock [5, 9, 9] 12 tree.blockSize s := by
  have hiff := css_search_finds_block_iff ⟨[5, 9, 9], by decide, by decide, by decide⟩ 3 (by decide)
    (fun _ => 0)
  have hconstructor : ConstructorFits ⟨[5, 9, 9], by decide, by decide, by decide⟩ 3 :=
    ⟨by decide, by decide⟩
  exact ⟨(hiff 9).mpr ⟨hconstructor, by unfold SearchFits; decide⟩,
    (hiff 12).mpr ⟨hconstructor, by unfold SearchFits; decide⟩⟩

/-- In an array of up to about `2 ^ 31 / fanout ^ 2` keys every key is found. -/
theorem css_search_of_small (r : KeyArray) {fanout : ℕ} (hfanout : 2 ≤ fanout)
    (malloc : ℕ → UInt32) (hsmall : fanout ^ 3 * divRoundUp r.keys.length (fanout - 1) ≤ intMax + 1) :
    ∃ tree, cssTree r fanout malloc = .ok tree ∧
      ∀ key, ∃ s, tree.search key = .ok s ∧ FindsBlock r.keys key tree.blockSize s := by
  obtain ⟨tree, htree, hfits⟩ := small_fits hfanout malloc hsmall
  have hbuilt := built_of_cssTree htree
  have hlevel : levels r fanout = tree.level := hbuilt.level.symm
  have hpos := countLevels_pos fanout (numLeaf r fanout) (numLeaf r fanout)
  have hfew : divRoundUp r.keys.length (fanout - 1) ≤ intMax := by
    have hmul := Nat.mul_le_mul_right (divRoundUp r.keys.length (fanout - 1))
      (Nat.pow_le_pow_left hfanout 3)
    omega
  -- the last level is wide enough for all records
  have hwide : divRoundUp r.keys.length (fanout - 1) ≤ fanout ^ levels r fanout := by
    rw [← numLeaf_eq hfew]
    exact (le_pow_countLevels hfanout (Nat.le_refl _)).trans
      (Nat.pow_le_pow_right (by omega) (Nat.sub_le _ _))
  have hroom : r.keys.length ≤ (fanout - 1) * fanout ^ tree.level := by
    rw [← hlevel]
    exact (le_mul_divRoundUp (by omega) _).trans (Nat.mul_le_mul_left _ hwide)
  refine ⟨tree, htree, fun key => (hbuilt.search_finds_iff hfanout key).mpr ?_⟩
  have hle := below_le_length r key
  have hkey := hfits key
  rw [hbuilt.numKey, hbuilt.blockSize, pow_sub_one_eq hfanout] at hkey
  rw [SearchFits, hlevel]
  by_cases hlt : below r.keys key < r.keys.length
  · rw [if_pos hlt, ← hbuilt.block_eq hfanout hlt (by omega)]
    exact ⟨by omega, hkey⟩
  · rw [if_neg hlt, ← hbuilt.block_eq_pastBlock hfanout (by omega)]
    exact hkey

/-- One key more than 2 ^ 30 makes 32 levels, and more nodes than an `int` counts. -/
theorem numNode_overflows_of_length (hlength : r.keys.length = 2 ^ 30 + 1) :
    intMax < firstNode 2 (levels r 2) := by
  have hdiv : divRoundUp r.keys.length (2 - 1) = 2 ^ 30 + 1 := by
    rw [hlength, divRoundUp, Nat.add_one_sub_one, Nat.div_one, Nat.mod_one]
    rfl
  have hmax : intMax = 2147483647 := rfl
  have hleaf : numLeaf r 2 = 2 ^ 30 + 1 := by
    rw [numLeaf_eq (by omega), hdiv]
  have hwide : numLeaf r 2 ≤ 2 ^ (levels r 2 - 1) :=
    le_pow_countLevels (by decide) (Nat.le_refl _)
  have hlevels : 32 ≤ levels r 2 := by
    by_contra hfew
    have hpow : 2 ^ (levels r 2 - 1) ≤ 2 ^ 30 := Nat.pow_le_pow_right (by decide) (by omega)
    omega
  have hpow : 2 ^ 32 ≤ 2 ^ levels r 2 := Nat.pow_le_pow_right (by decide) hlevels
  have hnodes := pow_sub_one_eq (show 2 ≤ 2 by decide) (levels r 2)
  omega

/-- No key is found in an array of so many zeros: the constructor has no number of nodes. -/
theorem css_search_of_many_keys :
    ∃ r : KeyArray, r.keys = List.replicate (2 ^ 30 + 1) 0 ∧
      int (firstNode 2 (levels r 2)) = .error .overflow ∧ ∀ malloc key,
        ¬ ∃ tree, cssTree r 2 malloc = .ok tree ∧
          ∃ s, tree.search key = .ok s ∧ FindsBlock r.keys key tree.blockSize s := by
  have hzeros : (List.replicate (2 ^ 30 + 1) (0 : UInt32)).length = 2 ^ 30 + 1 :=
    List.length_replicate
  obtain ⟨r, hr⟩ : ∃ r : KeyArray, r.keys = List.replicate (2 ^ 30 + 1) 0 :=
    ⟨⟨List.replicate (2 ^ 30 + 1) 0, List.pairwise_replicate.mpr (Or.inr (le_refl 0)),
      List.ne_nil_of_length_pos (by omega), by omega⟩, rfl⟩
  have hoverflow : intMax < firstNode 2 (levels r 2) :=
    numNode_overflows_of_length (by rw [hr, hzeros])
  refine ⟨r, hr, by rw [int, if_neg (not_le.mpr hoverflow)], ?_⟩
  rintro malloc key ⟨tree, htree, -⟩
  obtain ⟨hslots, -⟩ := (constructorFits_iff r (by decide) malloc).mp ⟨tree, htree⟩
  have hnodes := pow_sub_one_eq (show 2 ≤ 2 by decide) (levels r 2)
  omega

end Inlj
end HashingBenchmark

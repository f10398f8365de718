import HashingBenchmark.Inlj.CssFits

/-! Which block of the array the search of the CSS-tree comes to.

    Below a slot of level `i` lie `(fanout - 1) * fanout ^ (level - i - 1)` records for each place up
    to it. So the walk for a key with `b` smaller records is, on level `i`, at the node whose part of
    the array has record `b` (`position_eq`), and it ends at the block of that record (`block_eq`).
    It stops in front of the slots that the constructor has not filled.

    Only a key above all records comes to such slots, in the last node (`block_eq_pastBlock`). -/

namespace HashingBenchmark
namespace Inlj
open Join FanoutTree PrefixCount
open scoped UIntOrder

variable {r : KeyArray} {fanout : ℕ} {malloc : ℕ → UInt32} {tree : CssTree} {key : UInt32}

/-! ### The scan of a node -/

/-- A scan over consecutive slots that passes the first `c` goes on behind them. -/
theorem length_takeWhile_range' {P : ℕ → Bool} {start n c : ℕ} (hc : c ≤ n)
    (hpass : ∀ k < c, P (start + k) = true) :
    ((List.range' start n).takeWhile P).length =
      c + ((List.range' (start + c) (n - c)).takeWhile P).length := by
  have hsplit : List.range' start n = List.range' start c ++ List.range' (start + c) (n - c) := by
    rw [List.range'_append_1, Nat.add_sub_cancel' hc]
  have hall : ∀ slot ∈ List.range' start c, P slot = true := by
    intro slot hslot
    obtain ⟨hge, hlt⟩ := List.mem_range'_1.mp hslot
    obtain ⟨k, rfl⟩ := Nat.exists_eq_add_of_le hge
    exact hpass k (by omega)
  rw [hsplit, List.takeWhile_append_of_pos hall, List.length_append, List.length_range']

theorem takeWhile_congr {P Q : ℕ → Bool} {l : List ℕ} (h : ∀ slot ∈ l, P slot = Q slot) :
    l.takeWhile P = l.takeWhile Q := by
  induction l with
  | nil => rfl
  | cons slot l ih =>
    rw [List.takeWhile_cons, List.takeWhile_cons, h slot List.mem_cons_self,
      ih fun s hs => h s (List.mem_cons_of_mem slot hs)]

/-- The key for a slot, behind the array the last one, is smaller than `key` if it is one of the
    smaller records. -/
theorem keyAt_lt_iff (r : KeyArray) (key : UInt32) (i : ℕ) :
    r.keyAt i < key ↔ min i (r.keys.length - 1) < below r.keys key := by
  have hpos := r.length_pos
  have hclamp : (if i ≥ r.keys.length then r.keys.length - 1 else i)
      = min i (r.keys.length - 1) := by split_ifs <;> omega
  rw [← hclamp, ← lt_iff_lt_below r.sorted (List.getElem?_eq_getElem (r.clamp_lt i))]
  rfl

theorem below_le_length (r : KeyArray) (key : UInt32) : below r.keys key ≤ r.keys.length :=
  List.countP_le_length

namespace Built

/-- A filled slot whose record is one of the smaller ones is passed. -/
theorem slot_lt (h : Built r fanout malloc tree) (hfanout : 2 ≤ fanout) {i p kk : ℕ}
    (hi : i < tree.level) (hp : p < fanout ^ i) (hkk : kk < fanout - 1)
    (hfilled : recordIndex fanout tree.level i p kk < r.keys.length + (fanout - 1))
    (hbelow : min (recordIndex fanout tree.level i p kk) (r.keys.length - 1) < below r.keys key) :
    tree.ntree ((firstNode fanout i + p) * (fanout - 1) + kk) < key := by
  rw [h.ntree_slot hfanout hi hp hkk, if_pos hfilled]
  exact (keyAt_lt_iff r key _).mpr hbelow

/-- Above the leaves every slot is one that the constructor has set to -1. -/
theorem slot_lt_numNode (h : Built r fanout malloc tree) (hfanout : 2 ≤ fanout) {i p kk : ℕ}
    (hi : i + 1 < tree.level) (hp : p < fanout ^ i) (hkk : kk < fanout - 1) :
    (firstNode fanout i + p) * (fanout - 1) + kk < tree.numNode := by
  have hmul : (firstNode fanout i + p + 1) * (fanout - 1) ≤
      firstNode fanout (i + 1) * (fanout - 1) := by
    refine Nat.mul_le_mul_right _ ?_
    rw [firstNode_succ hfanout]
    omega
  have hpow := pow_sub_one_eq hfanout (i + 1)
  have hle := firstNode_le hfanout (show i + 1 + 1 ≤ tree.level by omega)
  rw [firstNode_succ hfanout (i + 1)] at hle
  rw [Nat.add_mul _ 1] at hmul
  rw [h.numNode]
  omega

/-- The scan stops at a slot whose record is not one of the smaller ones, and above the leaves at one
    without a record. -/
theorem slot_not_lt (h : Built r fanout malloc tree) (hfanout : 2 ≤ fanout) {i p kk : ℕ}
    (hi : i < tree.level) (hp : p < fanout ^ i) (hkk : kk < fanout - 1)
    (hfilled : recordIndex fanout tree.level i p kk < r.keys.length + (fanout - 1) →
      below r.keys key ≤ min (recordIndex fanout tree.level i p kk) (r.keys.length - 1))
    (hempty : r.keys.length + (fanout - 1) ≤ recordIndex fanout tree.level i p kk →
      i + 1 < tree.level) :
    ¬ tree.ntree ((firstNode fanout i + p) * (fanout - 1) + kk) < key := by
  rw [h.ntree_slot hfanout hi hp hkk]
  split_ifs with hlt
  · rw [keyAt_lt_iff]
    exact Nat.not_lt.mpr (hfilled hlt)
  · rw [initialSlot, if_pos (h.slot_lt_numNode hfanout (hempty (by omega)) hp hkk)]
    exact not_max_lt key

/-- The child that the scan chooses, from the slots it passes and the one it stops at. -/
theorem child_eq (h : Built r fanout malloc tree) {i p c : ℕ} (hc : c ≤ fanout - 1)
    (hpass : ∀ kk < c, tree.ntree ((firstNode fanout i + p) * (fanout - 1) + kk) < key)
    (hstop : c < fanout - 1 → ¬ tree.ntree ((firstNode fanout i + p) * (fanout - 1) + c) < key) :
    tree.child key (firstNode fanout i + p) = c := by
  rw [CssTree.child, h.blockSize, length_takeWhile_range' hc fun kk hkk => decide_eq_true (hpass kk hkk)]
  rcases Nat.eq_or_lt_of_le hc with rfl | hlt
  · rw [Nat.sub_self]; rfl
  · obtain ⟨n, hn⟩ : ∃ n, fanout - 1 - c = n + 1 := ⟨fanout - 1 - c - 1, by omega⟩
    rw [hn, List.range'_succ, List.takeWhile_cons, if_neg (by simpa using hstop hlt)]
    rfl

/-! ### A key with a record that is not smaller -/

/-- At the node whose part has record `b` the scan chooses the child whose part has it. -/
theorem child_eq_of_position (h : Built r fanout malloc tree) (hfanout : 2 ≤ fanout)
    (hlt : below r.keys key < r.keys.length) {i p w : ℕ} (hi : i < tree.level)
    (hw : (fanout - 1) * fanout ^ (tree.level - i - 1) = w) (hp : p < fanout ^ i)
    (hposition : below r.keys key / w / fanout = p) :
    fanout * p + tree.child key (firstNode fanout i + p) = below r.keys key / w := by
  have hwpos : 0 < w := hw ▸ Nat.mul_pos (by omega) (Nat.pow_pos (by omega))
  have hindex : ∀ kk, recordIndex fanout tree.level i p kk = w * (fanout * p + kk + 1) - 1 := by
    intro kk
    rw [recordIndex, hw]
  have hplace := Nat.div_add_mod (below r.keys key / w) fanout
  have hmod := Nat.mod_lt (below r.keys key / w) (show 0 < fanout by omega)
  have hle : w * (below r.keys key / w) ≤ below r.keys key := Nat.mul_div_le _ _
  have hless : below r.keys key < w * (below r.keys key / w + 1) := Nat.lt_mul_div_succ _ hwpos
  rw [hposition] at hplace
  rw [h.child_eq (c := below r.keys key / w % fanout) (by omega), hplace]
  · intro kk hkk
    have hmul : w * (fanout * p + kk + 1) ≤ w * (below r.keys key / w) :=
      Nat.mul_le_mul_left _ (by omega)
    have hpos : 0 < w * (fanout * p + kk + 1) := Nat.mul_pos hwpos (by omega)
    refine h.slot_lt hfanout hi hp (by omega) ?_ ?_
    · rw [hindex]; omega
    · rw [hindex]; omega
  · intro hstop
    have hsucc : fanout * p + below r.keys key / w % fanout + 1 = below r.keys key / w + 1 := by
      omega
    refine h.slot_not_lt hfanout hi hp hstop ?_ ?_
    · rw [hindex, hsucc]; omega
    · rw [hindex, hsucc]
      intro hempty
      -- on the last level the record of this slot is less than a block behind record `b`
      by_contra hleaf
      have hone : w = fanout - 1 := by
        rw [← hw, show tree.level - i - 1 = 0 by omega, Nat.pow_zero, Nat.mul_one]
      rw [Nat.mul_add, Nat.mul_one] at hempty
      omega

/-- The position on level `i` of the walk for a key with `b` smaller records. -/
theorem position_eq (h : Built r fanout malloc tree) (hfanout : 2 ≤ fanout)
    (hlt : below r.keys key < r.keys.length)
    (hroom : below r.keys key < (fanout - 1) * fanout ^ tree.level) {i : ℕ} (hi : i ≤ tree.level) :
    reached fanout (tree.child key) i =
      below r.keys key / ((fanout - 1) * fanout ^ (tree.level - i)) := by
  induction i with
  | zero =>
    rw [reached, Nat.sub_zero, Nat.div_eq_of_lt hroom]
  | succ i ih =>
    have hlevel : tree.level - i = tree.level - i - 1 + 1 := by omega
    have hroom' : below r.keys key < (fanout - 1) * fanout ^ (tree.level - i) * fanout ^ i := by
      rw [Nat.mul_assoc, ← Nat.pow_add, Nat.sub_add_cancel (by omega)]
      exact hroom
    have hp : reached fanout (tree.child key) i < fanout ^ i := by
      rw [ih (by omega)]
      exact Nat.div_lt_of_lt_mul hroom'
    have hposition := ih (by omega)
    rw [hlevel, Nat.pow_succ, ← Nat.mul_assoc, ← Nat.div_div_eq_div_mul] at hposition
    rw [reached, Nat.sub_add_eq]
    exact h.child_eq_of_position hfanout hlt hi rfl hp hposition.symm

/-- The block with the first record that is not smaller than the key. -/
theorem block_eq (h : Built r fanout malloc tree) (hfanout : 2 ≤ fanout)
    (hlt : below r.keys key < r.keys.length)
    (hroom : below r.keys key < (fanout - 1) * fanout ^ tree.level) :
    tree.block key = below r.keys key / (fanout - 1) := by
  rw [CssTree.block, h.fanout_eq, h.position_eq hfanout hlt hroom (Nat.le_refl _), Nat.sub_self,
    Nat.pow_zero, Nat.mul_one]

end Built

/-! ### A key above all records -/

/-- The position on level `i` of the walk past all records. -/
def pastPosition (numRecord fanout level i : ℕ) : ℕ :=
  min ((numRecord + (fanout - 1)) / ((fanout - 1) * fanout ^ (level - i))) (fanout ^ i - 1)

/-- The number of filled slots of the node at position `p` of level `i`. -/
def filledSlots (numRecord fanout level i p : ℕ) : ℕ :=
  min (fanout - 1)
    ((numRecord + (fanout - 1)) / ((fanout - 1) * fanout ^ (level - i - 1)) - fanout * p)

/-- The block that the walk past all records ends at. In the last node it goes on over the slots that
    the constructor has left, as long as their content is smaller than the key. -/
def pastBlock (numRecord fanout level : ℕ) (malloc : ℕ → UInt32) (key : UInt32) : ℕ :=
  let p := pastPosition numRecord fanout level (level - 1)
  let filled := filledSlots numRecord fanout level (level - 1) p
  fanout * p + filled +
    ((List.range' ((firstNode fanout (level - 1) + p) * (fanout - 1) + filled)
      (fanout - 1 - filled)).takeWhile
        fun slot => initialSlot malloc (firstNode fanout level) slot < key).length

theorem pastPosition_lt (hfanout : 2 ≤ fanout) (numRecord level i : ℕ) :
    pastPosition numRecord fanout level i < fanout ^ i := by
  have hpos := Nat.pow_pos (n := i) (show 0 < fanout by omega)
  rw [pastPosition]
  omega

/-- One level further down the walk has passed the filled slots of one more node. -/
theorem pastPosition_succ (hfanout : 2 ≤ fanout) (numRecord : ℕ) {level i : ℕ} (hi : i < level) :
    fanout * pastPosition numRecord fanout level i +
        filledSlots numRecord fanout level i (pastPosition numRecord fanout level i) =
      pastPosition numRecord fanout level (i + 1) := by
  have hlevel : level - i = level - i - 1 + 1 := by omega
  have hpow : fanout ^ (i + 1) = fanout * fanout ^ i := Nat.pow_succ'
  have hpos := Nat.pow_pos (n := i) (show 0 < fanout by omega)
  rw [filledSlots, pastPosition, pastPosition, Nat.sub_add_eq, hlevel, Nat.pow_succ,
    ← Nat.mul_assoc, ← Nat.div_div_eq_div_mul, Nat.add_sub_cancel, hpow]
  generalize (numRecord + (fanout - 1)) / ((fanout - 1) * fanout ^ (level - i - 1)) = places
  have hsplit := Nat.div_add_mod places fanout
  have hmod := Nat.mod_lt places (show 0 < fanout by omega)
  rcases Nat.lt_or_ge (fanout ^ i - 1) (places / fanout) with hgt | hle
  · have hmul : fanout * (fanout ^ i - 1 + 1) ≤ fanout * (places / fanout) :=
      Nat.mul_le_mul_left _ (by omega)
    rw [Nat.min_eq_right hgt.le]
    rw [Nat.mul_add, Nat.mul_one] at hmul
    have hsame : fanout * (fanout ^ i - 1) + fanout = fanout * fanout ^ i := by
      rw [← Nat.mul_succ, Nat.succ_eq_add_one, Nat.sub_add_cancel hpos]
    omega
  · have hmul : fanout * (places / fanout + 1) ≤ fanout * fanout ^ i :=
      Nat.mul_le_mul_left _ (by omega)
    rw [Nat.min_eq_left hle]
    rw [Nat.mul_add, Nat.mul_one] at hmul
    omega

/-- A slot is filled if it is one of the first `filledSlots`. -/
theorem recordIndex_lt_iff (hfanout : 2 ≤ fanout) {numRecord level i p kk : ℕ}
    (hkk : kk < fanout - 1) :
    recordIndex fanout level i p kk < numRecord + (fanout - 1) ↔
      kk < filledSlots numRecord fanout level i p := by
  have hwpos : 0 < (fanout - 1) * fanout ^ (level - i - 1) :=
    Nat.mul_pos (by omega) (Nat.pow_pos (by omega))
  rw [recordIndex, filledSlots]
  generalize (fanout - 1) * fanout ^ (level - i - 1) = w at hwpos
  have hplace : fanout * p + kk + 1 ≤ (numRecord + (fanout - 1)) / w ↔
      w * (fanout * p + kk + 1) ≤ numRecord + (fanout - 1) := by
    rw [Nat.le_div_iff_mul_le hwpos, Nat.mul_comm]
  have hpos : 0 < w * (fanout * p + kk + 1) := Nat.mul_pos hwpos (by omega)
  omega

namespace Built

/-- The walk for a key above all records. -/
theorem pastPosition_eq (h : Built r fanout malloc tree) (hfanout : 2 ≤ fanout)
    (hall : below r.keys key = r.keys.length) {i : ℕ} (hi : i < tree.level) :
    reached fanout (tree.child key) i = pastPosition r.keys.length fanout tree.level i := by
  have hlength := r.length_pos
  induction i with
  | zero => rw [reached, pastPosition, Nat.pow_zero, Nat.sub_self, Nat.min_zero]
  | succ i ih =>
    have hp := pastPosition_lt hfanout r.keys.length tree.level i
    rw [reached, ih (by omega), ← pastPosition_succ hfanout _ (show i < tree.level by omega)]
    generalize pastPosition r.keys.length fanout tree.level i = p at hp
    congr 1
    refine h.child_eq (Nat.min_le_left _ _) (fun kk hkk => ?_) fun hstop => ?_
    · have hlt : kk < fanout - 1 := hkk.trans_le (Nat.min_le_left _ _)
      refine h.slot_lt hfanout (by omega) hp hlt ((recordIndex_lt_iff hfanout hlt).mpr hkk) ?_
      omega
    · have hempty := mt (recordIndex_lt_iff hfanout hstop).mp (Nat.lt_irrefl _)
      exact h.slot_not_lt hfanout (by omega) hp hstop (fun hlt => absurd hlt hempty) fun _ => hi

/-- The block that a key above all records is looked for in. -/
theorem block_eq_pastBlock (h : Built r fanout malloc tree) (hfanout : 2 ≤ fanout)
    (hall : below r.keys key = r.keys.length) :
    tree.block key = pastBlock r.keys.length fanout tree.level malloc key := by
  have hlength := r.length_pos
  have hpos : 0 < tree.level := h.level ▸ countLevels_pos _ _ _
  obtain ⟨i, hi⟩ : ∃ i, tree.level = i + 1 := ⟨tree.level - 1, by omega⟩
  have hp := pastPosition_lt hfanout r.keys.length tree.level i
  have hlast : reached fanout (tree.child key) tree.level = fanout * reached fanout (tree.child key) i
      + tree.child key (firstNode fanout i + reached fanout (tree.child key) i) := by rw [hi, reached]
  rw [CssTree.block, h.fanout_eq, hlast, h.pastPosition_eq hfanout hall (show i < tree.level by omega),
    pastBlock, show tree.level - 1 = i by omega, Nat.add_assoc]
  generalize pastPosition r.keys.length fanout tree.level i = p at hp
  have hle : filledSlots r.keys.length fanout tree.level i p ≤ fanout - 1 := Nat.min_le_left _ _
  congr 1
  rw [CssTree.child, h.blockSize, length_takeWhile_range' hle]
  · refine congrArg (_ + List.length ·) (takeWhile_congr fun slot hslot => ?_)
    obtain ⟨hge, hlt⟩ := List.mem_range'_1.mp hslot
    obtain ⟨k, rfl⟩ := Nat.exists_eq_add_of_le hge
    have hkk : filledSlots r.keys.length fanout tree.level i p + k < fanout - 1 := by omega
    have hempty := mt (recordIndex_lt_iff hfanout hkk).mp (Nat.not_lt.mpr (Nat.le_add_right _ k))
    rw [Nat.add_assoc, h.ntree_slot hfanout (by omega) hp hkk, if_neg hempty, h.numNode]
  · intro kk hkk
    have hlt : kk < fanout - 1 := hkk.trans_le hle
    have hfilled := (recordIndex_lt_iff hfanout hlt).mpr hkk
    exact decide_eq_true (h.slot_lt hfanout (by omega) hp hlt hfilled (by omega))

end Built

end Inlj
end HashingBenchmark

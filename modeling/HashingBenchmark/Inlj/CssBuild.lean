import HashingBenchmark.Inlj.CssTree
import HashingBenchmark.Lib.TableFill
import Mathlib.Data.List.Range

/-! What the constructor of the CSS-tree leaves in the slots of each level.

    The levels, the nodes of a level and the slots of a node come one after the other in the array, so
    the loops write a slot at most once. A slot of level `i` is written with the key that ends its part
    of the array, or, if this part reaches too far behind the array, keeps what it had
    (`Built.ntree_slot`): -1, the largest key, in the levels above the leaves. -/

namespace HashingBenchmark
namespace Inlj
open Join FanoutTree
open scoped UIntOrder

variable {r : KeyArray} {fanout : ℕ} {malloc : ℕ → UInt32} {tree : CssTree}

theorem int_eq_ok {x y : ℕ} : int x = .ok y ↔ x ≤ intMax ∧ y = x := by
  rw [int]
  split_ifs with h
  · simp [h, eq_comm]
  · simp [h]

/-! ### The loops -/

theorem mem_slots {bs j k : ℕ} : k ∈ List.range' (j * bs) bs ↔ j * bs ≤ k ∧ k < (j + 1) * bs := by
  rw [List.mem_range'_1, Nat.add_mul, Nat.one_mul]

theorem fillNode_keeps {level i startNode j : ℕ} {slots : List ℕ} {ntree ntree' : ℕ → UInt32}
    (hrun : fillNode r fanout level i startNode j slots ntree = .ok ntree') {slot : ℕ}
    (hslot : slot ∉ slots) : ntree' slot = ntree slot := by
  induction slots generalizing ntree with
  | nil =>
    rw [fillNode] at hrun
    rw [Except.ok.inj hrun]
  | cons k slots ih =>
    rw [List.mem_cons, not_or] at hslot
    rw [fillNode] at hrun
    cases hint : int (slotIndex fanout level i startNode j k) with
    | error fault => rw [hint] at hrun; cases hrun
    | ok curIndex =>
      rw [hint] at hrun
      simp only at hrun
      split_ifs at hrun with hlt
      · rw [ih hrun hslot.2, if_neg hslot.1]
      · rw [Except.ok.inj hrun]

/-- The first slot that the loop over a node comes to. -/
theorem fillNode_head {level i startNode j k : ℕ} {slots : List ℕ} {ntree ntree' : ℕ → UInt32}
    (hrun : fillNode r fanout level i startNode j (k :: slots) ntree = .ok ntree')
    (hk : k ∉ slots) :
    ntree' k = if slotIndex fanout level i startNode j k < r.keys.length + (fanout - 1)
      then r.keyAt (slotIndex fanout level i startNode j k) else ntree k := by
  rw [fillNode] at hrun
  cases hint : int (slotIndex fanout level i startNode j k) with
  | error fault => rw [hint] at hrun; cases hrun
  | ok curIndex =>
    obtain ⟨-, rfl⟩ := int_eq_ok.mp hint
    rw [hint] at hrun
    simp only at hrun
    split_ifs at hrun ⊢ with hlt
    · rw [fillNode_keeps hrun hk, if_pos rfl]
    · rw [Except.ok.inj hrun]

theorem slotIndex_le {level i startNode j k k' : ℕ} (hk : k ≤ k') :
    slotIndex fanout level i startNode j k ≤ slotIndex fanout level i startNode j k' :=
  Nat.sub_le_sub_right (Nat.mul_le_mul_left _ (by omega)) 1

/-- The loop over a node fills its slots up to the first index behind the array; the indices grow, so
    no later one is in the array. -/
theorem fillNode_slot {level i startNode j start slots k : ℕ} {ntree ntree' : ℕ → UInt32}
    (hrun : fillNode r fanout level i startNode j (List.range' start slots) ntree = .ok ntree')
    (hk : start ≤ k ∧ k < start + slots) :
    ntree' k = if slotIndex fanout level i startNode j k < r.keys.length + (fanout - 1)
      then r.keyAt (slotIndex fanout level i startNode j k) else ntree k := by
  induction slots generalizing start ntree with
  | zero => omega
  | succ slots ih =>
    rw [List.range'_succ] at hrun
    rcases Nat.eq_or_lt_of_le hk.1 with rfl | hlt
    · exact fillNode_head hrun (by rw [List.mem_range'_1]; omega)
    · rw [fillNode] at hrun
      cases hint : int (slotIndex fanout level i startNode j start) with
      | error fault => rw [hint] at hrun; cases hrun
      | ok curIndex =>
        obtain ⟨-, rfl⟩ := int_eq_ok.mp hint
        rw [hint] at hrun
        simp only at hrun
        split_ifs at hrun with hin
        · rw [ih hrun ⟨hlt, by omega⟩, if_neg (Nat.ne_of_gt hlt)]
        · -- the loop ended here
          have hle : slotIndex fanout level i startNode j start ≤ _ := slotIndex_le hk.1
          rw [if_neg (by omega), Except.ok.inj hrun]

/-- The loop over a level stays in its nodes. -/
theorem fillLevel_keeps (hfanout : 2 ≤ fanout) {level i slot : ℕ}
    (hslot : slot < firstNode fanout i * (fanout - 1) ∨
      firstNode fanout (i + 1) * (fanout - 1) ≤ slot) :
    TableFill.Keeps (fillLevel r fanout level) slot i := by
  intro ntree ntree' hrun
  refine TableFill.keeps ?_ hrun
  intro j hj s s' hnode
  refine fillNode_keeps hnode ?_
  have hle := firstNode_le hfanout (Nat.le_succ i)
  rw [List.mem_range'_1] at hj
  rw [mem_slots]
  rintro ⟨hge, hlt⟩
  have hlow : firstNode fanout i * (fanout - 1) ≤ j * (fanout - 1) :=
    Nat.mul_le_mul_right _ hj.1
  have hhigh : (j + 1) * (fanout - 1) ≤ firstNode fanout (i + 1) * (fanout - 1) :=
    Nat.mul_le_mul_right _ (by omega)
  omega

/-- `curIndex` for slot `kk` of the node at position `p` of level `i`. -/
def recordIndex (fanout level i p kk : ℕ) : ℕ :=
  (fanout - 1) * fanout ^ (level - i - 1) * (fanout * p + kk + 1) - 1

theorem slotIndex_eq (hfanout : 2 ≤ fanout) (level i p kk : ℕ) :
    slotIndex fanout level i (firstNode fanout i) (firstNode fanout i + p)
      ((firstNode fanout i + p) * (fanout - 1) + kk) = recordIndex fanout level i p kk := by
  have hplace : (firstNode fanout i + p) * (fanout - 1) + kk + 1 - firstNode fanout i * (fanout - 1)
      + (firstNode fanout i + p - firstNode fanout i) = fanout * p + kk + 1 := by
    obtain ⟨g, rfl⟩ : ∃ g, fanout = g + 1 := ⟨fanout - 1, by omega⟩
    rw [Nat.add_sub_cancel, Nat.add_mul, Nat.add_mul g, Nat.one_mul, Nat.mul_comm p g]
    omega
  rw [slotIndex, hplace, recordIndex]

theorem fillLevel_slot (hfanout : 2 ≤ fanout) {level i p kk : ℕ} (hp : p < fanout ^ i)
    (hkk : kk < fanout - 1) {ntree ntree' : ℕ → UInt32}
    (hrun : fillLevel r fanout level ntree i = .ok ntree') :
    ntree' ((firstNode fanout i + p) * (fanout - 1) + kk) =
      if recordIndex fanout level i p kk < r.keys.length + (fanout - 1)
        then r.keyAt (recordIndex fanout level i p kk)
        else ntree ((firstNode fanout i + p) * (fanout - 1) + kk) := by
  obtain ⟨rest, hrest⟩ : ∃ n, fanout ^ i = p + (n + 1) := ⟨fanout ^ i - p - 1, by omega⟩
  have hnodes : List.range' (firstNode fanout i) (firstNode fanout (i + 1) - firstNode fanout i) =
      List.range' (firstNode fanout i) p ++
        (firstNode fanout i + p) :: List.range' (firstNode fanout i + p + 1) rest := by
    rw [firstNode_succ hfanout, Nat.add_sub_cancel_left, hrest, ← List.range'_append_1,
      List.range'_succ]
  -- the slots of another node are other slots
  have hkeep : ∀ j, j ≠ firstNode fanout i + p →
      TableFill.Keeps (fun ntree j => fillNode r fanout level i (firstNode fanout i) j
        (List.range' (j * (fanout - 1)) (fanout - 1)) ntree)
        ((firstNode fanout i + p) * (fanout - 1) + kk) j := by
    intro j hj t t' hnode
    refine fillNode_keeps hnode ?_
    rw [mem_slots]
    rintro ⟨hge, hlt⟩
    rcases Nat.lt_or_gt_of_ne hj with hless | hmore
    · have hmul : (j + 1) * (fanout - 1) ≤ (firstNode fanout i + p) * (fanout - 1) :=
        Nat.mul_le_mul_right _ hless
      omega
    · have hmul : (firstNode fanout i + p + 1) * (fanout - 1) ≤ j * (fanout - 1) :=
        Nat.mul_le_mul_right _ hmore
      rw [Nat.add_mul _ 1] at hmul
      omega
  rw [fillLevel] at hrun
  simp only [hnodes] at hrun
  obtain ⟨s, s', hnode, hbefore, hafter⟩ := TableFill.entry
    (fun j hj => hkeep j (by rw [List.mem_range'_1] at hj; omega))
    (fun j hj => hkeep j (by rw [List.mem_range'_1] at hj; omega)) hrun
  rw [hafter, fillNode_slot hnode ⟨by omega, by omega⟩, hbefore, slotIndex_eq hfanout]

/-- `curIndex` for the first slot of a level. -/
def firstIndex (fanout level i : ℕ) : ℕ := (fanout - 1) * fanout ^ (level - i - 1) - 1

theorem recordIndex_first (fanout level i : ℕ) :
    recordIndex fanout level i 0 0 = firstIndex fanout level i := by
  rw [recordIndex, firstIndex, Nat.mul_zero, Nat.mul_one]

/-! ### The tree -/

/-- What the constructor returns. -/
structure Built (r : KeyArray) (fanout : ℕ) (malloc : ℕ → UInt32) (tree : CssTree) : Prop where
  numRecord : tree.numRecord = r.keys.length
  level : tree.level = countLevels fanout (numLeaf r fanout) (numLeaf r fanout)
  fanout_eq : tree.fanout = fanout
  blockSize : tree.blockSize = fanout - 1
  numNode : tree.numNode = firstNode fanout tree.level
  numKey : tree.numKey = firstNode fanout tree.level * (fanout - 1)
  ntree : (List.range tree.level).foldlM (fillLevel r fanout tree.level)
    (fun slot => if slot < tree.numNode then 0xFFFFFFFF else malloc slot) = .ok tree.ntree

theorem built_of_cssTree (h : cssTree r fanout malloc = .ok tree) : Built r fanout malloc tree := by
  rw [cssTree] at h
  split at h
  · cases h
  next numNode hnode =>
  split at h
  · cases h
  next numKey hkey =>
  split at h
  · cases h
  next ntree hfill =>
  obtain ⟨-, rfl⟩ := int_eq_ok.mp hnode
  obtain ⟨-, rfl⟩ := int_eq_ok.mp hkey
  obtain rfl := Except.ok.inj h
  exact ⟨rfl, rfl, rfl, rfl, rfl, rfl, hfill⟩

theorem countLevels_pos (fanout fuel temp : ℕ) : 0 < countLevels fanout fuel temp := by
  cases fuel with
  | zero => exact Nat.zero_lt_one
  | succ fuel =>
    rw [countLevels]
    split_ifs
    · omega
    · omega

/-- The content of a slot before the constructor fills the tree. -/
def initialSlot (malloc : ℕ → UInt32) (numNode slot : ℕ) : UInt32 :=
  if slot < numNode then 0xFFFFFFFF else malloc slot

namespace Built

/-- A slot has the key of its record, if that is not too far behind the array, and otherwise what it
    had before. -/
theorem ntree_slot (h : Built r fanout malloc tree) (hfanout : 2 ≤ fanout) {i p kk : ℕ}
    (hi : i < tree.level) (hp : p < fanout ^ i) (hkk : kk < fanout - 1) :
    tree.ntree ((firstNode fanout i + p) * (fanout - 1) + kk) =
      if recordIndex fanout tree.level i p kk < r.keys.length + (fanout - 1)
        then r.keyAt (recordIndex fanout tree.level i p kk)
        else initialSlot malloc tree.numNode ((firstNode fanout i + p) * (fanout - 1) + kk) := by
  have hrun := h.ntree
  obtain ⟨rest, hrest⟩ : ∃ n, tree.level = i + (n + 1) := ⟨tree.level - i - 1, by omega⟩
  have hsplit : List.range tree.level = List.range i ++ i :: List.range' (i + 1) rest := by
    rw [hrest, List.range_eq_range', List.range_eq_range', ← List.range'_append_1,
      List.range'_succ, Nat.zero_add]
  have hlow : firstNode fanout i * (fanout - 1) ≤ (firstNode fanout i + p) * (fanout - 1) :=
    Nat.mul_le_mul_right _ (Nat.le_add_right _ _)
  have hhigh : (firstNode fanout i + p + 1) * (fanout - 1) ≤
      firstNode fanout (i + 1) * (fanout - 1) := by
    refine Nat.mul_le_mul_right _ ?_
    rw [firstNode_succ hfanout]
    omega
  rw [Nat.add_mul _ 1] at hhigh
  have hbelow : ∀ l ∈ List.range i, TableFill.Keeps (fillLevel r fanout tree.level)
      ((firstNode fanout i + p) * (fanout - 1) + kk) l := by
    intro l hl
    have hle := Nat.mul_le_mul_right (fanout - 1) 
      (firstNode_le hfanout (show l + 1 ≤ i from List.mem_range.mp hl))
    exact fillLevel_keeps hfanout (.inr (by omega))
  have habove : ∀ l ∈ List.range' (i + 1) rest, TableFill.Keeps (fillLevel r fanout tree.level)
      ((firstNode fanout i + p) * (fanout - 1) + kk) l := by
    intro l hl
    rw [List.mem_range'_1] at hl
    have hle := Nat.mul_le_mul_right (fanout - 1) (firstNode_le hfanout hl.1)
    exact fillLevel_keeps hfanout (.inl (by omega))
  rw [hsplit] at hrun
  obtain ⟨s, s', hlevel, hbefore, hafter⟩ := TableFill.entry hbelow habove hrun
  rw [hafter, fillLevel_slot hfanout hp hkk hlevel, hbefore, initialSlot]

/-- The first slot of each level. -/
theorem ntree_first (h : Built r fanout malloc tree) (hfanout : 2 ≤ fanout) {i : ℕ}
    (hi : i < tree.level) :
    tree.ntree (firstNode fanout i * (fanout - 1)) =
      if firstIndex fanout tree.level i < r.keys.length + (fanout - 1)
        then r.keyAt (firstIndex fanout tree.level i) else 0xFFFFFFFF := by
  have hslot : firstNode fanout i * (fanout - 1) + 1 = fanout ^ i := by
    rw [Nat.mul_comm, ← pow_eq hfanout]
  have hinit : firstNode fanout i * (fanout - 1) < tree.numNode := by
    have hle := firstNode_le hfanout (show i + 1 ≤ tree.level by omega)
    rw [firstNode_succ hfanout] at hle
    rw [h.numNode]
    omega
  have hread := h.ntree_slot hfanout hi (Nat.pow_pos (by omega)) (show 0 < fanout - 1 by omega)
  rwa [recordIndex_first, initialSlot, Nat.add_zero, Nat.add_zero, if_pos hinit] at hread

end Built

end Inlj
end HashingBenchmark

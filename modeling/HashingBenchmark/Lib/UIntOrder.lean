import Mathlib.Algebra.Group.Nat.Defs
import Mathlib.Data.List.Nodup
import Mathlib.Order.Defs.LinearOrder

/-! The 32-bit and 64-bit unsigned integers as linear orders, with the comparisons they have already.
    The instances are scoped, so that opening this namespace is what makes order lemmas apply to
    them. The numbers from 0 on serve as any number of different keys. -/

namespace UIntOrder

scoped instance instLinearOrder : LinearOrder UInt64 where
  le_refl := UInt64.le_refl
  le_trans _ _ _ := UInt64.le_trans
  lt_iff_le_not_ge a b := by
    rw [UInt64.lt_iff_toNat_lt, UInt64.le_iff_toNat_le, UInt64.le_iff_toNat_le]; omega
  le_antisymm _ _ := UInt64.le_antisymm
  le_total := UInt64.le_total
  toDecidableLE := inferInstance
  toDecidableEq := inferInstance
  toDecidableLT := inferInstance

scoped instance instLinearOrder32 : LinearOrder UInt32 where
  le_refl := UInt32.le_refl
  le_trans _ _ _ := UInt32.le_trans
  lt_iff_le_not_ge a b := by
    rw [UInt32.lt_iff_toNat_lt, UInt32.le_iff_toNat_le, UInt32.le_iff_toNat_le]; omega
  le_antisymm _ _ := UInt32.le_antisymm
  le_total := UInt32.le_total
  toDecidableLE := inferInstance
  toDecidableEq := inferInstance
  toDecidableLT := inferInstance

/-- The numbers below `n`, which are different as long as they do not wrap around. -/
def firstKeys (n : ℕ) : List UInt64 := (List.range n).map UInt64.ofNat

@[simp] theorem length_firstKeys (n : ℕ) : (firstKeys n).length = n := by simp [firstKeys]

theorem toNat_lt_of_mem_firstKeys {n : ℕ} (hn : n ≤ 2 ^ 64) {k : UInt64} (hk : k ∈ firstKeys n) :
    k.toNat < n := by
  obtain ⟨i, hi, rfl⟩ := List.mem_map.mp hk
  rw [List.mem_range] at hi
  rwa [UInt64.toNat_ofNat_of_lt' (Nat.lt_of_lt_of_le hi hn)]

theorem nodup_firstKeys {n : ℕ} (hn : n ≤ 2 ^ 64) : (firstKeys n).Nodup := by
  refine List.nodup_range.map_on fun a ha b hb hab => ?_
  rw [List.mem_range] at ha hb
  have := congrArg UInt64.toNat hab
  rwa [UInt64.toNat_ofNat_of_lt' (Nat.lt_of_lt_of_le ha hn),
    UInt64.toNat_ofNat_of_lt' (Nat.lt_of_lt_of_le hb hn)] at this

end UIntOrder

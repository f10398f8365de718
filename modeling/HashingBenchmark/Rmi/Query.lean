import HashingBenchmark.Lib.Binary64
import HashingBenchmark.Lib.UIntOrder
import HashingBenchmark.Support.Table
import Mathlib.Data.Fin.Basic
import Mathlib.Order.Interval.Finset.Fin
import Mathlib.Order.Fin.Basic

/-! The learned-index queries of `chained_model.hpp`: `rmi_range_query` and `rmi_point_query`.

    `key_vec` holds the sorted keys at even indices and 1 after each key. Both queries start at the
    slot the model predicts and correct it: to the right while the key there is smaller than the one
    sought, else to the left while the key before it is larger. The range query then adds up the ones
    to the right until it meets a larger key.

    Indices are 64-bit unsigned integers, so a step to the left from slot 0 wraps around, and reading
    outside the vector is `outOfBounds`. The lemmas give what each loop does from slot `i` on: where
    it stops, or why it leaves the vector. -/

namespace HashingBenchmark
open scoped UIntOrder

namespace Rmi

/-- The vector the constructor fills: `key_vec[2*i] = keys[i]` and `key_vec[2*i+1] = 1`. -/
def keyVec {N : ℕ} (keys : Fin N → UInt64) : List UInt64 :=
  List.ofFn fun i : Fin (2 * N) =>
    if i.val % 2 = 0 then keys ⟨i.val / 2, by omega⟩ else 1

/-- `while (key_vec[index] < low_key) index += 2`. -/
def seekRight (key_vec : List UInt64) (low_key : UInt64) : ℕ → UInt64 → Except Fault UInt64
  | 0, _ => .error .diverges
  | fuel + 1, index =>
    match key_vec[index.toNat]? with
    | none => .error .outOfBounds
    | some key =>
      if key < low_key then seekRight key_vec low_key fuel (index + 2) else .ok index

/-- `while (key_vec[index-2] > low_key) index -= 2`. -/
def seekLeft (key_vec : List UInt64) (low_key : UInt64) : ℕ → UInt64 → Except Fault UInt64
  | 0, _ => .error .diverges
  | fuel + 1, index =>
    match key_vec[(index - 2).toNat]? with
    | none => .error .outOfBounds
    | some key =>
      if key > low_key then seekLeft key_vec low_key fuel (index - 2) else .ok index

/-- The correction of the predicted index, which both queries start with. -/
def seek (key_vec : List UInt64) (low_key index : UInt64) : Except Fault UInt64 :=
  match key_vec[index.toNat]? with
  | none => .error .outOfBounds
  | some key =>
    if key < low_key then seekRight key_vec low_key (key_vec.length + 1) index
    else seekLeft key_vec low_key (key_vec.length + 1) index

/-- `while (true)` of the range query: add `key_vec[index+1]` until a key exceeds `high_key`. -/
def scan (key_vec : List UInt64) (high_key : UInt64) : ℕ → UInt64 → UInt64 → Except Fault UInt64
  | 0, _, _ => .error .diverges
  | fuel + 1, index, ans =>
    match key_vec[index.toNat]? with
    | none => .error .outOfBounds
    | some key =>
      if key > high_key then .ok ans
      else
        match key_vec[(index + 1).toNat]? with
        | none => .error .outOfBounds
        | some one => scan key_vec high_key fuel (index + 2) (ans + one)

/-- `rmi_range_query`, with the predicted slot for the value of `index` before it is doubled. -/
def rmiRangeQuery (key_vec : List UInt64) (slot low_key high_key : UInt64) :
    Except Fault UInt64 :=
  match seek key_vec low_key (2 * slot) with
  | .error fault => .error fault
  | .ok index => scan key_vec high_key (key_vec.length + 1) index 0

/-- `rmi_point_query`, with the predicted slot for the value of `index` before it is doubled. -/
def rmiPointQuery (key_vec : List UInt64) (slot low_key : UInt64) : Except Fault UInt64 :=
  match seek key_vec low_key (2 * slot) with
  | .error fault => .error fault
  | .ok index =>
    match key_vec[index.toNat]? with
    | none => .error .outOfBounds
    | some key => .ok (if key = low_key then 1 else 0)

/-- The slot of the range query: `(model(low_key)*1.00/buckets.size())*(key_vec.size()/2)`. -/
def rangeSlot (model : Model UInt64) (buckets_size key_vec_size : ℕ) (low_key : UInt64) : UInt64 :=
  UInt64.ofNat (Binary64.toNat (Binary64.mul
    (Binary64.div (Binary64.mul (Binary64.ofNat (model low_key).toNat) 1)
      (Binary64.ofNat buckets_size))
    (Binary64.ofNat (key_vec_size / 2))))

/-- The slot of the point query: `model(low_key)*(key_vec.size()/2.00)/buckets.size()`. -/
def pointSlot (model : Model UInt64) (buckets_size key_vec_size : ℕ) (low_key : UInt64) : UInt64 :=
  UInt64.ofNat (Binary64.toNat (Binary64.div
    (Binary64.mul (Binary64.ofNat (model low_key).toNat)
      (Binary64.div (Binary64.ofNat key_vec_size) 2))
    (Binary64.ofNat buckets_size)))

/-! ### The predicted slot -/

section Slot
variable {model : Model UInt64} {buckets_size N : ℕ} {low_key : UInt64}

/-- A prediction below the number of buckets is scaled to a slot of the vector: in numbers of this
    size the two roundings do not bring the product up to the number of keys. -/
theorem rangeSlot_lt (hmodel : (model low_key).toNat < buckets_size) (hbuckets : buckets_size ≤ 2 ^ 51)
    (hpos : 0 < N) (hkeys : N < 2 ^ 53) :
    (rangeSlot model buckets_size (2 * N) low_key).toNat < N := by
  have hhalf : 2 * N / 2 = N := by omega
  have hone : Binary64.mul (model low_key).toNat 1 = ((model low_key).toNat : ℚ) := by
    rw [Binary64.mul, mul_one]
    exact Binary64.ofNat_eq (by omega)
  rw [rangeSlot, hhalf, Binary64.ofNat_eq (show (model low_key).toNat < 2 ^ 53 by omega), hone,
    Binary64.ofNat_eq (show buckets_size < 2 ^ 53 by omega), Binary64.ofNat_eq hkeys]
  generalize hp : (model low_key).toNat = p at hmodel ⊢
  have hquotient : Binary64.div p buckets_size ≤ (p / buckets_size : ℚ) * (1 + 1 / 2 ^ 53) :=
    Binary64.round_le_mul (by positivity)
  have hslot : Binary64.mul (Binary64.div p buckets_size) N < N :=
    calc Binary64.mul (Binary64.div p buckets_size) N
        ≤ Binary64.div p buckets_size * N * (1 + 1 / 2 ^ 53) :=
          Binary64.round_le_mul (mul_nonneg (Binary64.round_nonneg _) N.cast_nonneg)
      _ ≤ (p / buckets_size : ℚ) * (1 + 1 / 2 ^ 53) * N * (1 + 1 / 2 ^ 53) := by gcongr
      _ = (p * N / buckets_size : ℚ) * (1 + 1 / 2 ^ 53) * (1 + 1 / 2 ^ 53) := by ring
      _ < N := Binary64.part_lt hmodel hbuckets hpos
  have hfloor : Binary64.toNat (Binary64.mul (Binary64.div p buckets_size) N) < N :=
    (Nat.floor_lt (Binary64.round_nonneg _)).mpr hslot
  rwa [UInt64.toNat_ofNat_of_lt' (hfloor.trans (hkeys.trans (by decide)))]

/-- The same for the point query, which multiplies first. -/
theorem pointSlot_lt (hmodel : (model low_key).toNat < buckets_size) (hbuckets : buckets_size ≤ 2 ^ 51)
    (hpos : 0 < N) (hkeys : 2 * N < 2 ^ 53) :
    (pointSlot model buckets_size (2 * N) low_key).toNat < N := by
  have hhalf : Binary64.div (2 * N : ℕ) 2 = (N : ℚ) := by
    have hquotient : ((2 * N : ℕ) : ℚ) / 2 = N := by push_cast; ring
    rw [Binary64.div, hquotient]
    exact Binary64.ofNat_eq (by omega)
  rw [pointSlot, Binary64.ofNat_eq hkeys, hhalf,
    Binary64.ofNat_eq (show (model low_key).toNat < 2 ^ 53 by omega),
    Binary64.ofNat_eq (show buckets_size < 2 ^ 53 by omega)]
  generalize hp : (model low_key).toNat = p at hmodel ⊢
  have hproduct : Binary64.mul p N ≤ (p * N : ℚ) * (1 + 1 / 2 ^ 53) :=
    Binary64.round_le_mul (by positivity)
  have hslot : Binary64.div (Binary64.mul p N) buckets_size < N :=
    calc Binary64.div (Binary64.mul p N) buckets_size
        ≤ Binary64.mul p N / buckets_size * (1 + 1 / 2 ^ 53) :=
          Binary64.round_le_mul (div_nonneg (Binary64.round_nonneg _) buckets_size.cast_nonneg)
      _ ≤ (p * N : ℚ) * (1 + 1 / 2 ^ 53) / buckets_size * (1 + 1 / 2 ^ 53) := by gcongr
      _ = (p * N / buckets_size : ℚ) * (1 + 1 / 2 ^ 53) * (1 + 1 / 2 ^ 53) := by ring
      _ < N := Binary64.part_lt hmodel hbuckets hpos
  have hfloor : Binary64.toNat (Binary64.div (Binary64.mul p N) buckets_size) < N :=
    (Nat.floor_lt (Binary64.round_nonneg _)).mpr hslot
  have hsize : N < 2 ^ 53 := by omega
  rwa [UInt64.toNat_ofNat_of_lt' (hfloor.trans (hsize.trans (by decide)))]

end Slot

end Rmi

namespace KapilChainedModelHashTable

/-- `KapilChainedModelHashTable::rmi_range_query`, with `buckets.size()` and `key_vec`. -/
def rmiRangeQuery (model : Model UInt64) (buckets_size : ℕ) (key_vec : List UInt64)
    (low_key high_key : UInt64) : Except Fault UInt64 :=
  Rmi.rmiRangeQuery key_vec (Rmi.rangeSlot model buckets_size key_vec.length low_key)
    low_key high_key

/-- `KapilChainedModelHashTable::rmi_point_query`, with `buckets.size()` and `key_vec`. -/
def rmiPointQuery (model : Model UInt64) (buckets_size : ℕ) (key_vec : List UInt64)
    (low_key : UInt64) : Except Fault UInt64 :=
  Rmi.rmiPointQuery key_vec (Rmi.pointSlot model buckets_size key_vec.length low_key) low_key

end KapilChainedModelHashTable

/-- A sorted key array, as small as a vector of its doubled size can be. -/
structure SortedKeys (n : ℕ) where
  keys : Fin (n + 1) → UInt64
  ascending : StrictMono keys
  fits : 2 * (n + 1) < 2 ^ 64

namespace Rmi
variable {n : ℕ} {S : SortedKeys n} {low_key high_key : UInt64}

/-- The index of slot `i`. -/
def slotIndex (i : ℕ) : UInt64 := UInt64.ofNat (2 * i)

theorem slotIndex_add_two (i : ℕ) : slotIndex i + 2 = slotIndex (i + 1) := by
  rw [slotIndex, slotIndex, Nat.mul_succ, UInt64.ofNat_add]; rfl

theorem slotIndex_succ_sub_two (i : ℕ) : slotIndex (i + 1) - 2 = slotIndex i := by
  rw [← slotIndex_add_two, UInt64.add_sub_cancel]

theorem toNat_slotIndex {i : ℕ} (h : 2 * i < 2 ^ 64) : (slotIndex i).toNat = 2 * i :=
  UInt64.toNat_ofNat_of_lt' h

/-- What a read at slot `i` gives. -/
theorem keyVec_slotIndex (S : SortedKeys n) {i : ℕ} (hi : i ≤ n + 1) :
    (keyVec S.keys)[(slotIndex i).toNat]?
      = if h : i < n + 1 then some (S.keys ⟨i, h⟩) else none := by
  have hfits := S.fits
  rw [toNat_slotIndex (by omega), keyVec, List.getElem?_ofFn]
  rcases hi.lt_or_eq with hlt | rfl
  · have heven : 2 * i % 2 = 0 := by omega
    have hhalf : 2 * i / 2 = i := by omega
    rw [dif_pos (by omega), dif_pos hlt]
    simp only [heven, if_true, hhalf]
  · rw [dif_neg (lt_irrefl _), dif_neg (lt_irrefl _)]

/-- Next to each key there is a 1. -/
theorem keyVec_slotIndex_add_one (S : SortedKeys n) {i : ℕ} (hi : i < n + 1) :
    (keyVec S.keys)[(slotIndex i + 1).toNat]? = some 1 := by
  have hfits := S.fits
  have hindex : (slotIndex i + 1).toNat = 2 * i + 1 := by
    rw [UInt64.toNat_add, toNat_slotIndex (by omega)]; simp; omega
  rw [hindex, keyVec, List.getElem?_ofFn, dif_pos (by omega)]
  simp

/-- A step to the left from slot 0 leaves the vector. -/
theorem keyVec_slotIndex_zero_sub_two (S : SortedKeys n) :
    (keyVec S.keys)[(slotIndex 0 - 2).toNat]? = none := by
  have hfits := S.fits
  have hindex : (slotIndex 0 - 2).toNat = 2 ^ 64 - 2 := rfl
  rw [hindex, keyVec]
  exact List.getElem?_eq_none (by rw [List.length_ofFn]; omega)

theorem length_keyVec (S : SortedKeys n) : (keyVec S.keys).length = 2 * (n + 1) :=
  List.length_ofFn

end Rmi
end HashingBenchmark

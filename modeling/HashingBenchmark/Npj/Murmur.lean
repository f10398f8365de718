import HashingBenchmark.Lib.LaneMask
import HashingBenchmark.Lib.XorShift
import HashingBenchmark.Npj.Table

/-! The finalizer of the Murmur hash in 64-bit lanes, against the one in 32-bit arithmetic.

    The products have up to 64 bits in a lane. What is above bit 32 of the first one comes down with
    the shift by 13, and what is above bit 32 of the second one with the shift by 16. -/

namespace HashingBenchmark
namespace Npj
open LaneMask XorShift

/-- `_mm512_srli_epi64`. -/
def srli_epi64 (a : Lanes 8 64) (imm : ℕ) : Lanes 8 64 := fun i => a i >>> imm

/-- `_mm512_xor_epi64`. -/
def xor_epi64 (a b : Lanes 8 64) : Lanes 8 64 := fun i => a i ^^^ b i

/-- `_mm512_mullo_epi64`. -/
def mullo_epi64 (a b : Lanes 8 64) : Lanes 8 64 := fun i => a i * b i

/-- `avx_murmur_hash_32`. -/
def avxMurmurHash32 (items : Fin 8 → UInt64) : Fin 8 → UInt64 :=
  let c1 := set1 0x85ebca6b
  let c2 := set1 0xc2b2ae35
  let k : Lanes 8 64 := fun i => (items i).toBitVec
  let s1 := srli_epi64 k 16
  let x1 := xor_epi64 k s1
  let m1 := mullo_epi64 x1 c1
  let s2 := srli_epi64 m1 13
  let x2 := xor_epi64 m1 s2
  let m2 := mullo_epi64 x2 c2
  let s3 := srli_epi64 m2 16
  let x3 := xor_epi64 m2 s3
  fun i => ⟨x3 i⟩

/-- The key with its upper half mixed into the lower one, times the first constant. -/
def firstProduct (key : ℕ) : ℕ := xorShift 16 key * 0x85ebca6b

/-- That mixed with itself, times the second constant. -/
def secondProduct (key : ℕ) : ℕ := xorShift 13 (firstProduct key) * 0xc2b2ae35

/-- Bits 32 to 44 of the first product and bits 32 to 47 of the second are zero. -/
def NoCarry (key : ℕ) : Prop :=
  firstProduct key / 2 ^ 32 % 2 ^ 13 = 0 ∧ secondProduct key / 2 ^ 32 % 2 ^ 16 = 0

instance (key : ℕ) : Decidable (NoCarry key) := inferInstanceAs (Decidable (_ ∧ _))

theorem toNat_murmurHash32 (key : UInt32) : (murmurHash32 key).toNat
    = xorShift 16 (xorShift 13 (firstProduct key.toNat % 2 ^ 32) * 0xc2b2ae35 % 2 ^ 32) := by
  rw [murmurHash32]
  simp only [UInt32.toNat_xor, UInt32.toNat_shiftRight, UInt32.toNat_mul, firstProduct, xorShift]
  rfl

/-- A lane does not lose bits of the first product. -/
theorem firstProduct_lt (key : UInt32) : firstProduct key.toNat < 2 ^ 64 := by
  have hkey : xorShift 16 key.toNat < 2 ^ 32 := xorShift_lt 16 key.toNat_lt
  rw [firstProduct]
  omega

theorem toNat_xor_srli (a : Lanes 8 64) (imm : ℕ) (i : Fin 8) :
    (xor_epi64 a (srli_epi64 a imm) i).toNat = xorShift imm (a i).toNat := by
  rw [xor_epi64, srli_epi64, BitVec.toNat_xor, BitVec.toNat_ushiftRight, xorShift]

theorem toNat_mullo_set1 (a : Lanes 8 64) (c : BitVec 64) (i : Fin 8) :
    (mullo_epi64 a (set1 c) i).toNat = (a i).toNat * c.toNat % 2 ^ 64 := by
  rw [mullo_epi64, set1, BitVec.toNat_mul]

/-- One lane. -/
theorem toNat_avxMurmurHash32 (keys : Fin 8 → UInt32) (i : Fin 8) :
    (avxMurmurHash32 (fun i => (keys i).toUInt64) i).toNat
      = xorShift 16 (secondProduct (keys i).toNat % 2 ^ 64) := by
  have hfirst : xorShift 16 (keys i).toNat * 0x85ebca6b % 2 ^ 64 = firstProduct (keys i).toNat :=
    Nat.mod_eq_of_lt (firstProduct_lt (keys i))
  have hkey : (keys i).toUInt64.toBitVec.toNat = (keys i).toNat := rfl
  have hc1 : (0x85ebca6b#64).toNat = 0x85ebca6b := rfl
  have hc2 : (0xc2b2ae35#64).toNat = 0xc2b2ae35 := rfl
  rw [avxMurmurHash32, UInt64.toNat]
  simp only [toNat_xor_srli, toNat_mullo_set1, BitVec.ofNat_eq_ofNat, hkey, hc1, hc2, hfirst]
  rfl

/-- A key's two hashes are the same modulo 2^32 exactly if nothing is carried. -/
theorem avxMurmurHash32_eq_iff (keys : Fin 8 → UInt32) (i : Fin 8) :
    (avxMurmurHash32 (fun i => (keys i).toUInt64) i).toUInt32 = murmurHash32 (keys i) ↔
      NoCarry (keys i).toNat := by
  have hiff := xorShift_mul_xorShift_iff (w := 32) (s := 13) (c := 0xc2b2ae35) (by decide)
    (by decide : 16 ≤ 32) (by decide) (by decide) (by decide) (firstProduct (keys i).toNat)
  have hlow : xorShift 16 (secondProduct (keys i).toNat % 2 ^ 64) % 2 ^ 32
      = xorShift 16 (secondProduct (keys i).toNat) % 2 ^ 32 := by
    have hmod : secondProduct (keys i).toNat % 2 ^ 64 % 2 ^ 32
        = secondProduct (keys i).toNat % 2 ^ 32 := by omega
    have hcarried : carried 32 16 (secondProduct (keys i).toNat % 2 ^ 64)
        = carried 32 16 (secondProduct (keys i).toNat) := by
      have hdiv : secondProduct (keys i).toNat % 2 ^ 64 / 2 ^ 32 % 2 ^ 16
          = secondProduct (keys i).toNat / 2 ^ 32 % 2 ^ 16 := by omega
      rw [carried, hdiv, carried]
    rw [xorShift_mod (by decide), xorShift_mod (by decide), hmod, hcarried]
  rw [← UInt32.toNat_inj, UInt64.toNat_toUInt32, toNat_avxMurmurHash32, hlow, toNat_murmurHash32]
  exact hiff

/-- Key 1 has another hash in its lane, key 0 the same. -/
theorem avx_murmur_hash_32_differs_for_one :
    (avxMurmurHash32 (fun i => (i.val.toUInt32).toUInt64) 0).toUInt32 = murmurHash32 0 ∧
      (avxMurmurHash32 (fun i => (i.val.toUInt32).toUInt64) 1).toUInt32 ≠ murmurHash32 1 := by
  decide +kernel

/-- CORRECT: eight zero-extended keys have the hashes of the scalar function, modulo 2^32, exactly if
    for each of them no carry of a product comes down with the shift behind it. -/
theorem avx_murmur_hash_32_eq_iff (keys : Fin 8 → UInt32) :
    (∀ i, (avxMurmurHash32 (fun i => (keys i).toUInt64) i).toUInt32 = murmurHash32 (keys i)) ↔
      ∀ i, NoCarry (keys i).toNat :=
  forall_congr' fun i => avxMurmurHash32_eq_iff keys i

/-- Besides 0 there are keys for which nothing is carried. -/
example : NoCarry 0 ∧ NoCarry 0x109c5b4f ∧ ¬ NoCarry 1 := by decide

end Npj
end HashingBenchmark

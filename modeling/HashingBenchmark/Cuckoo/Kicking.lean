import HashingBenchmark.Cuckoo.Correct
import Mathlib.Algebra.Group.Nat.Defs

/-! Which entries balanced kicking can evict.

    One random word decides twice: its lowest bit is the bucket, its remainder modulo `BucketSize`
    the slot. With an even `BucketSize` the two are not independent, and half of the entries of a
    bucket can never be the victim. With an odd one every pair of a bucket and a slot is the choice
    of two words below `2 * BucketSize`, as long as these fit in 32 bits. -/

namespace HashingBenchmark
open SlotArray

/-- Words of both parities have the remainder `i`. -/
theorem exists_word_iff {n : ℕ} (hn : 0 < n) :
    (∀ i < n, ∀ parity < 2, ∃ r < 2 ^ 32, r % 2 = parity ∧ r % n = i) ↔
      n % 2 = 1 ∧ n < 2 ^ 31 := by
  constructor
  · intro h
    have hodd : n % 2 = 1 := by
      by_contra hne
      -- an even modulus keeps the parity
      obtain ⟨r, -, hparity, hmod⟩ := h 0 hn 1 (by norm_num)
      have hdvd : 2 ∣ n := Nat.dvd_of_mod_eq_zero (by omega)
      have hmm := Nat.mod_mod_of_dvd r hdvd
      rw [hmod, hparity] at hmm
      omega
    refine ⟨hodd, ?_⟩
    -- the largest remainder has only one word below `2 * n - 1`
    obtain ⟨r, hr, hparity, hmod⟩ := h (n - 1) (by omega) 1 (by norm_num)
    have hdiv := Nat.div_add_mod r n
    have hq : r / n ≠ 0 := by
      intro hzero
      rw [hzero, hmod] at hdiv
      omega
    have hle : n * 1 ≤ n * (r / n) := Nat.mul_le_mul_left n (Nat.one_le_iff_ne_zero.mpr hq)
    omega
  · rintro ⟨hodd, hlt⟩ i hi parity hparity
    by_cases hsame : i % 2 = parity
    · exact ⟨i, by omega, hsame, Nat.mod_eq_of_lt hi⟩
    · exact ⟨i + n, by omega, by omega, by rw [Nat.add_mod_right, Nat.mod_eq_of_lt hi]⟩

namespace CuckooTable
variable {Key Payload : Type} {BucketSize m : ℕ} [DecidableEq Key] [NeZero BucketSize]
  {Sentinel : Key} {t : CuckooTable Key Payload BucketSize m} {b1 b2 : Fin m}

/-- With the random number `rng` the victim is the entry in slot `i` of bucket `b`, whatever pair is
    put in its place. -/
def Kicks (Sentinel : Key) (t : CuckooTable Key Payload BucketSize m) (b1 b2 : Fin m) (rng : UInt32)
    (b : Fin m) (i : Fin BucketSize) : Prop :=
  ∀ key payload, kapilBalancedKicking Sentinel b1 b2 key payload
    { t with rand_ := Stream'.cons rng t.rand_ } = (some (t.slots (b, i)), t.write b i key payload)

/-- Between two full buckets the strategy kicks. -/
theorem kapilBalancedKicking_full (h1 : Full Sentinel (t.keys b1)) (h2 : Full Sentinel (t.keys b2))
    (rng : UInt32) (key : Key) (payload : Payload) :
    let b := if rng.toNat % 2 = 1 then b1 else b2
    let i := Fin.ofNat BucketSize rng.toNat
    kapilBalancedKicking Sentinel b1 b2 key payload { t with rand_ := Stream'.cons rng t.rand_ }
      = (some (t.slots (b, i)), t.write b i key payload) := by
  intro b i
  have hc1 : count Sentinel { t with rand_ := Stream'.cons rng t.rand_ } b1 = BucketSize :=
    full_iff_occupied_eq.mp h1
  have hc2 : count Sentinel { t with rand_ := Stream'.cons rng t.rand_ } b2 = BucketSize :=
    full_iff_occupied_eq.mp h2
  have hbit : (rng &&& 0x1 ≠ 0) ↔ rng.toNat % 2 = 1 := by
    rw [ne_eq, ← UInt32.toNat_inj, UInt32.toNat_and]
    simp only [UInt32.toNat_one, UInt32.toNat_zero, Nat.and_one_is_mod]
    omega
  rw [kapilBalancedKicking, dif_neg (by omega), dif_neg (by omega)]
  have hhead : (Stream'.cons rng t.rand_).head = rng := rfl
  simp only [kickRandom, hhead, decide_eq_true_eq, hbit]
  rfl

/-- The random number determines the victim. -/
theorem kicks_iff (h1 : Full Sentinel (t.keys b1)) (h2 : Full Sentinel (t.keys b2)) {rng : UInt32}
    {b : Fin m} (hb : b = b1 ∨ b = b2) {i : Fin BucketSize} :
    Kicks Sentinel t b1 b2 rng b i ↔
      (if rng.toNat % 2 = 1 then b1 else b2) = b ∧ rng.toNat % BucketSize = i := by
  constructor
  · intro h
    by_contra hne
    -- a Sentinel in the place of the victim is the only Sentinel in the bucket
    have hcall := h Sentinel (t.slots (b, i)).2
    rw [kapilBalancedKicking_full h1 h2] at hcall
    have hslots := congrArg slots (congrArg Prod.snd hcall)
    simp only [slots_write] at hslots
    have hat := congrFun hslots (b, i)
    have hother : (b, i) ≠ (if rng.toNat % 2 = 1 then b1 else b2, Fin.ofNat BucketSize rng.toNat) := by
      intro heq
      obtain ⟨hbucket, hslot⟩ := Prod.mk.inj heq
      exact hne ⟨hbucket.symm, by rw [hslot]; rfl⟩
    rw [Function.update_of_ne hother, Function.update_self] at hat
    have hkey : t.keys b i = Sentinel := congrArg Prod.fst hat
    rcases hb with rfl | rfl
    · exact h1 i hkey
    · exact h2 i hkey
  · rintro ⟨hbucket, hslot⟩ key payload
    have hi : Fin.ofNat BucketSize rng.toNat = i := Fin.ext hslot
    rw [kapilBalancedKicking_full h1 h2, hbucket, hi]

/-- Every entry of the two buckets is the victim for some random number. -/
def EvictsAny (Sentinel : Key) (t : CuckooTable Key Payload BucketSize m) (b1 b2 : Fin m) : Prop :=
  ∀ b, b = b1 ∨ b = b2 → ∀ i, ∃ rng, Kicks Sentinel t b1 b2 rng b i

theorem evictsAny_iff (hne : b1 ≠ b2) (h1 : Full Sentinel (t.keys b1))
    (h2 : Full Sentinel (t.keys b2)) :
    EvictsAny Sentinel t b1 b2 ↔ BucketSize % 2 = 1 ∧ BucketSize < 2 ^ 31 := by
  rw [← exists_word_iff (NeZero.pos BucketSize)]
  constructor
  · intro h i hi parity hparity
    have hb : (if parity = 1 then b1 else b2) = b1 ∨ (if parity = 1 then b1 else b2) = b2 := by
      split_ifs
      · exact Or.inl rfl
      · exact Or.inr rfl
    obtain ⟨rng, hrng⟩ := h _ hb ⟨i, hi⟩
    obtain ⟨hbucket, hslot⟩ := (kicks_iff h1 h2 hb).mp hrng
    refine ⟨rng.toNat, rng.toNat_lt, ?_, hslot⟩
    split_ifs at hbucket with hword hone hone
    · omega
    · exact absurd hbucket hne
    · exact absurd hbucket hne.symm
    · omega
  · intro h b hb i
    obtain ⟨r, hr, hparity, hmod⟩ := h i i.isLt (if b = b1 then 1 else 0) (by split_ifs <;> omega)
    have hword : (UInt32.ofNat r).toNat = r := UInt32.toNat_ofNat_of_lt' hr
    refine ⟨UInt32.ofNat r, (kicks_iff h1 h2 hb).mpr ⟨?_, by rw [hword]; exact hmod⟩⟩
    rw [hword, hparity]
    rcases hb with rfl | rfl
    · simp
    · rw [if_neg hne.symm]; simp

end CuckooTable

open CuckooTable

/-- Two full buckets of four slots: no random number evicts an entry in an even slot of `b1`. -/
theorem balanced_kicking_spares_slot :
    let t : KapilCuckooHashTable UInt64 UInt64 4 2 :=
      ⟨fun b => ⟨fun i => ⟨UInt64.ofNat (10 * b + i + 1), 0⟩⟩, Stream'.const 0⟩
    Full 0 (t.keys 0) ∧ Full 0 (t.keys 1) ∧ ¬ EvictsAny 0 t 0 1 := by
  intro t
  have h0 : ∀ i, t.keys 0 i ≠ 0 := by decide
  have h1 : ∀ i, t.keys 1 i ≠ 0 := by decide
  refine ⟨h0, h1, fun h => ?_⟩
  have hodd := ((evictsAny_iff (by decide) h0 h1).mp h).1
  exact absurd hodd (by decide)

/-- CORRECT: between two full buckets balanced kicking can evict every entry, exactly if
    `BucketSize` is odd and below `2 ^ 31`. -/
theorem balanced_kicking_evicts_any_iff {Key Payload : Type} [DecidableEq Key] {BucketSize m : ℕ}
    [NeZero BucketSize] (Sentinel : Key) (t : KapilCuckooHashTable Key Payload BucketSize m)
    (b1 b2 : Fin m) (hne : b1 ≠ b2) (h1 : Full Sentinel (t.keys b1))
    (h2 : Full Sentinel (t.keys b2)) :
    (∀ b, b = b1 ∨ b = b2 → ∀ i, ∃ rng : UInt32, ∀ key payload,
      kapilBalancedKicking Sentinel b1 b2 key payload { t with rand_ := Stream'.cons rng t.rand_ }
        = (some (t.slots (b, i)), t.write b i key payload)) ↔
      BucketSize % 2 = 1 ∧ BucketSize < 2 ^ 31 :=
  evictsAny_iff hne h1 h2

/-- Two full buckets of three slots. -/
theorem balanced_kicking_evicts_any_iff_three :
    let t : KapilCuckooHashTable UInt64 UInt64 3 2 :=
      ⟨fun b => ⟨fun i => ⟨UInt64.ofNat (10 * b + i + 1), 0⟩⟩, Stream'.const 0⟩
    ∀ b, b = 0 ∨ b = 1 → ∀ i, ∃ rng : UInt32, ∀ key payload,
      kapilBalancedKicking 0 0 1 key payload { t with rand_ := Stream'.cons rng t.rand_ }
        = (some (t.slots (b, i)), t.write b i key payload) :=
  (balanced_kicking_evicts_any_iff 0 _ 0 1 (by decide) (by unfold Full; decide)
    (by unfold Full; decide)).mpr (by decide)

end HashingBenchmark

import HashingBenchmark.Rmi.Seek
import Mathlib.Data.Fin.VecNotation
import Mathlib.Order.Interval.Finset.Nat

/-! When the learned-index queries are right.

    With the three outcomes of the seek at hand, a query is right exactly if the seek finds its slot
    and, for the range query, the scan meets a key above the range before the end of the vector. A
    seek that stops one slot too late makes the range query count one key less and the point query
    deny a key that is there. -/

namespace HashingBenchmark
open scoped UIntOrder

namespace Rmi
variable {n : ℕ}

/-- The number of stored keys from `low_key` to `high_key`. -/
def countBetween (S : SortedKeys n) (low_key high_key : UInt64) : ℕ :=
  (Finset.univ.filter fun i => low_key ≤ S.keys i ∧ S.keys i ≤ high_key).card

/-- The keys of a range are those between two slots. -/
theorem countBetween_eq {S : SortedKeys n} {low_key high_key : UInt64} {i j : Fin (n + 1)}
    (hlow : ∀ a, a < i ↔ S.keys a < low_key) (hhigh : ∀ a, a < j ↔ S.keys a ≤ high_key) :
    countBetween S low_key high_key = j - i := by
  have hslots : (Finset.univ.filter fun a => low_key ≤ S.keys a ∧ S.keys a ≤ high_key)
      = Finset.Ico i j := by
    ext a
    rw [Finset.mem_filter, Finset.mem_Ico, ← hhigh a, ← not_lt, ← hlow a, not_lt]
    exact and_iff_right (Finset.mem_univ a)
  rw [countBetween, hslots, Fin.card_Ico]

/-- The slot the scan stops at separates the keys by `high_key`. -/
theorem lt_iff_le_of_scan {S : SortedKeys n} {low_key high_key : UInt64} {i j : Fin (n + 1)}
    (hle : low_key ≤ high_key) (hbefore : ∀ a < i, S.keys a ≤ low_key)
    (hbetween : ∀ a, i ≤ a → a < j → S.keys a ≤ high_key) (hj : high_key < S.keys j)
    (a : Fin (n + 1)) : a < j ↔ S.keys a ≤ high_key := by
  constructor
  · intro haj
    rcases lt_or_ge a i with hai | hai
    · exact (hbefore a hai).trans hle
    · exact hbetween a hai haj
  · intro ha
    by_contra hge
    exact absurd (ha.trans_lt hj) (not_lt.mpr (S.ascending.monotone (not_lt.mp hge)))

theorem two_mul_ofNat (i : ℕ) : 2 * UInt64.ofNat i = slotIndex i := by
  rw [slotIndex, UInt64.ofNat_mul]; rfl

theorem ofNat_ne_of_lt {a b : ℕ} (hlt : a < b) (hb : b < 2 ^ 64) :
    UInt64.ofNat a ≠ UInt64.ofNat b := by
  intro heq
  have hnat := congrArg UInt64.toNat heq
  rw [UInt64.toNat_ofNat_of_lt' (hlt.trans hb), UInt64.toNat_ofNat_of_lt' hb] at hnat
  omega

/-! ### The range query -/

/-- With the largest key in the range the scan runs off the vector; and from a slot behind it the
    seek misses the lower bound itself. -/
theorem rmi_range_query_leaves_vector :
    let S : SortedKeys 3 := ⟨![10, 20, 30, 40], by decide, by decide⟩
    (rmiRangeQuery (keyVec S.keys) 0 20 40 = .error .outOfBounds ∧
      rmiRangeQuery (keyVec S.keys) 0 20 40 ≠ .ok (UInt64.ofNat (countBetween S 20 40))) ∧
    (rmiRangeQuery (keyVec S.keys) 2 20 30 = .ok 1 ∧ countBetween S 20 30 = 2) := by
  intro S
  have hret : rmiRangeQuery (keyVec S.keys) 0 20 40 = .error .outOfBounds := rfl
  refine ⟨⟨hret, ?_⟩, rfl, by decide⟩
  rw [hret]
  exact fun h => by cases h

/-- The range query from a slot, by the three outcomes of the seek. -/
theorem rangeQuery_iff (S : SortedKeys n) (s : Fin (n + 1)) {low_key high_key : UInt64}
    (hle : low_key ≤ high_key) :
    rmiRangeQuery (keyVec S.keys) (UInt64.ofNat s) low_key high_key
        = .ok (UInt64.ofNat (countBetween S low_key high_key)) ↔
      S.keys 0 < low_key ∧ high_key < S.keys (Fin.last n) ∧ ∀ j < s, S.keys j ≠ low_key := by
  have hfits := S.fits
  have hfuel : ∀ i, n + 1 - i < (keyVec S.keys).length + 1 := fun i => by
    rw [length_keyVec]; omega
  rw [rmiRangeQuery, two_mul_ofNat]
  rcases seek_cases S s low_key with
    ⟨⟨hmin, hmax, hne⟩, i, hi, hbefore, hseek⟩ | ⟨i, his, hi, hseek⟩ | ⟨hout, hseek⟩
  · rw [hseek]
    rcases scan_cases S high_key 0 i.isLt.le (hfuel i) with
      ⟨j, hij, hj, hbetween, hscan⟩ | ⟨hall, hscan⟩
    · simp only [hscan]
      have hlow : ∀ a, a < i ↔ S.keys a < low_key := fun a => ⟨hbefore a, fun ha => by
        by_contra hge
        exact absurd (hi.trans (S.ascending.monotone (not_lt.mp hge))) (not_le.mpr ha)⟩
      have hhigh := lt_iff_le_of_scan hle (fun a ha => (hbefore a ha).le) hbetween hj
      rw [countBetween_eq hlow hhigh, UInt64.zero_add]
      exact iff_of_true rfl ⟨hmin, hj.trans_le (S.ascending.monotone (Fin.le_last j)), hne⟩
    · simp only [hscan]
      refine iff_of_false (fun h => by cases h) fun h => ?_
      exact absurd (hall _ (Fin.le_last i)) (not_le.mpr h.2.1)
  · -- the seek has skipped the slot of `low_key`
    rw [hseek]
    refine iff_of_false ?_ fun h => h.2.2 i his hi
    have hnext : i.val + 1 ≤ n + 1 := i.isLt
    rcases scan_cases S high_key 0 hnext (hfuel (i + 1)) with
      ⟨j, hij, hj, hbetween, hscan⟩ | ⟨-, hscan⟩
    · simp only [hscan]
      have hlow : ∀ a, a < i ↔ S.keys a < low_key := fun a => by rw [← hi, S.ascending.lt_iff_lt]
      have hbetween' : ∀ a, i ≤ a → a < j → S.keys a ≤ high_key := fun a ha haj => by
        rcases ha.eq_or_lt with rfl | hlt
        · rw [hi]; exact hle
        · exact hbetween a hlt haj
      have hhigh := lt_iff_le_of_scan hle (fun a ha => ((hlow a).mp ha).le) hbetween' hj
      rw [countBetween_eq hlow hhigh, UInt64.zero_add]
      intro h
      exact ofNat_ne_of_lt (a := j - (i + 1)) (b := j - i) (by omega) (by omega)
        (Except.ok.inj h)
    · simp only [hscan]
      exact fun h => by cases h
  · rw [hseek]
    refine iff_of_false (fun h => by cases h) ?_
    rintro ⟨hmin, hmax, -⟩
    rcases hout with hout | hout
    · exact absurd hmin (not_lt.mpr hout)
    · exact absurd (hout.trans_le hle) (not_lt.mpr hmax.le)

/-- CORRECT: the range query counts the range exactly if the range lies strictly between the smallest
    and the largest key, and its lower bound is not a key to the left of the predicted slot. -/
theorem rmi_range_query_counts_iff (S : SortedKeys n) (s : Fin (n + 1)) (low_key high_key : UInt64)
    (hle : low_key ≤ high_key) :
    rmiRangeQuery (keyVec S.keys) (UInt64.ofNat s) low_key high_key
        = .ok (UInt64.ofNat (countBetween S low_key high_key)) ↔
      S.keys 0 < low_key ∧ high_key < S.keys (Fin.last n) ∧ ∀ j < s, S.keys j ≠ low_key :=
  rangeQuery_iff S s hle

/-- A range inside the keys, from a slot to its left. -/
theorem rmi_range_query_counts_iff_inner :
    let S : SortedKeys 3 := ⟨![10, 20, 30, 40], by decide, by decide⟩
    rmiRangeQuery (keyVec S.keys) (UInt64.ofNat (1 : Fin 4)) 15 30
      = .ok (UInt64.ofNat (countBetween S 15 30)) := by
  intro S
  exact (rmi_range_query_counts_iff S 1 15 30 (by decide)).mpr ⟨by decide, by decide, by decide⟩

/-! ### The point query -/

/-- From a slot behind it the seek misses the key; from slot 0 it cannot find the smallest key. -/
theorem rmi_point_query_misses_key :
    let S : SortedKeys 2 := ⟨![10, 20, 30], by decide, by decide⟩
    (rmiPointQuery (keyVec S.keys) 2 20 = .ok 0 ∧ S.keys 1 = 20) ∧
    rmiPointQuery (keyVec S.keys) 2 20 ≠ .ok (if ∃ i, S.keys i = 20 then 1 else 0) ∧
    rmiPointQuery (keyVec S.keys) 0 10 = .error .outOfBounds := by
  intro S
  have hret : rmiPointQuery (keyVec S.keys) 2 20 = .ok 0 := rfl
  refine ⟨⟨hret, rfl⟩, ?_, rfl⟩
  rw [hret, if_pos ⟨1, rfl⟩]
  intro h
  exact absurd (Except.ok.inj h) (by decide)

/-- The point query from a slot, by the three outcomes of the seek. -/
theorem pointQuery_iff (S : SortedKeys n) (s : Fin (n + 1)) (low_key : UInt64) :
    rmiPointQuery (keyVec S.keys) (UInt64.ofNat s) low_key
        = .ok (if ∃ i, S.keys i = low_key then 1 else 0) ↔
      S.keys 0 < low_key ∧ low_key ≤ S.keys (Fin.last n) ∧ ∀ j < s, S.keys j ≠ low_key := by
  rw [rmiPointQuery, two_mul_ofNat]
  rcases seek_cases S s low_key with
    ⟨hfinds, i, hi, hbefore, hseek⟩ | ⟨i, his, hi, hseek⟩ | ⟨hout, hseek⟩
  · refine iff_of_true ?_ hfinds
    rw [hseek]
    simp only [keyVec_slotIndex S i.isLt.le, dif_pos i.isLt]
    have hmem : (∃ a, S.keys a = low_key) ↔ S.keys i = low_key := by
      refine ⟨?_, fun h => ⟨i, h⟩⟩
      rintro ⟨a, ha⟩
      rcases lt_trichotomy a i with hlt | rfl | hgt
      · exact absurd ha (hbefore a hlt).ne
      · exact ha
      · exact absurd ha (hi.trans_lt (S.ascending hgt)).ne'
    simp only [hmem]
  · refine iff_of_false ?_ fun h => h.2.2 i his hi
    have hnext : i.val + 1 < n + 1 := by omega
    have hne : S.keys ⟨i.val + 1, hnext⟩ ≠ low_key := by
      rw [← hi]; exact (S.ascending (Nat.lt_succ_self i.val)).ne'
    rw [hseek, if_pos ⟨i, hi⟩]
    simp only [keyVec_slotIndex S hnext.le, dif_pos hnext, if_neg hne]
    intro h
    exact absurd (Except.ok.inj h) (by decide)
  · rw [hseek]
    refine iff_of_false (fun h => by cases h) ?_
    rintro ⟨hmin, hmax, -⟩
    rcases hout with hout | hout
    · exact absurd hmin (not_lt.mpr hout)
    · exact absurd hout (not_lt.mpr hmax)

/-- CORRECT: the point query decides membership exactly if the key is larger than the smallest key,
    not larger than the largest, and not a key to the left of the predicted slot. -/
theorem rmi_point_query_decides_iff (S : SortedKeys n) (s : Fin (n + 1)) (low_key : UInt64) :
    rmiPointQuery (keyVec S.keys) (UInt64.ofNat s) low_key
        = .ok (if ∃ i, S.keys i = low_key then 1 else 0) ↔
      S.keys 0 < low_key ∧ low_key ≤ S.keys (Fin.last n) ∧ ∀ j < s, S.keys j ≠ low_key :=
  pointQuery_iff S s low_key

/-! ### The queries of the class -/

/-- CORRECT: in tables and key vectors of up to about `2 ^ 51` entries, a prediction below the number
    of buckets becomes a slot of the vector, and from there the two queries of the class are right
    exactly if no key to its left is the key sought and, as before, the range lies inside the keys. -/
theorem rmi_queries_of_prediction (S : SortedKeys n) (model : Model UInt64) {buckets_size : ℕ}
    (hbuckets : buckets_size ≤ 2 ^ 51) (hkeys : n + 1 ≤ 2 ^ 51) (low_key : UInt64)
    (hmodel : (model low_key).toNat < buckets_size) :
    (∃ s : Fin (n + 1), rangeSlot model buckets_size (keyVec S.keys).length low_key
        = UInt64.ofNat s ∧ ∀ high_key, low_key ≤ high_key →
      (KapilChainedModelHashTable.rmiRangeQuery model buckets_size (keyVec S.keys) low_key high_key
          = .ok (UInt64.ofNat (countBetween S low_key high_key)) ↔
        S.keys 0 < low_key ∧ high_key < S.keys (Fin.last n) ∧ ∀ j < s, S.keys j ≠ low_key)) ∧
    ∃ s : Fin (n + 1), pointSlot model buckets_size (keyVec S.keys).length low_key
        = UInt64.ofNat s ∧
      (KapilChainedModelHashTable.rmiPointQuery model buckets_size (keyVec S.keys) low_key
          = .ok (if ∃ i, S.keys i = low_key then 1 else 0) ↔
        S.keys 0 < low_key ∧ low_key ≤ S.keys (Fin.last n) ∧ ∀ j < s, S.keys j ≠ low_key) := by
  have hrange := rangeSlot_lt hmodel hbuckets n.succ_pos (show n + 1 < 2 ^ 53 by omega)
  have hpoint := pointSlot_lt hmodel hbuckets n.succ_pos (show 2 * (n + 1) < 2 ^ 53 by omega)
  rw [length_keyVec]
  constructor
  · refine ⟨⟨_, hrange⟩, UInt64.ofNat_toNat.symm, fun high_key hle => ?_⟩
    rw [← rangeQuery_iff S ⟨_, hrange⟩ hle, KapilChainedModelHashTable.rmiRangeQuery, length_keyVec,
      UInt64.ofNat_toNat]
  · refine ⟨⟨_, hpoint⟩, UInt64.ofNat_toNat.symm, ?_⟩
    rw [← pointQuery_iff S ⟨_, hpoint⟩ low_key, KapilChainedModelHashTable.rmiPointQuery,
      length_keyVec, UInt64.ofNat_toNat]

/-- Two of four keys are in the range, and its lower bound is none of them. -/
theorem rmi_queries_of_prediction_four :
    let S : SortedKeys 3 := ⟨![10, 20, 30, 40], by decide, by decide⟩
    let model : Model UInt64 := ⟨fun _ => 1, "one"⟩
    KapilChainedModelHashTable.rmiRangeQuery model 4 (keyVec S.keys) 15 30 = .ok 2 ∧
    KapilChainedModelHashTable.rmiPointQuery model 4 (keyVec S.keys) 15 = .ok 0 := by
  intro S model
  obtain ⟨⟨s, -, hrange⟩, s', -, hpoint⟩ := rmi_queries_of_prediction S model
    (show 4 ≤ 2 ^ 51 by decide) (by decide) 15 (by decide)
  have hne : ∀ j, S.keys j ≠ 15 := by decide
  exact ⟨(hrange 30 (by decide)).mpr ⟨by decide, by decide, fun j _ => hne j⟩,
    hpoint.mpr ⟨by decide, by decide, fun j _ => hne j⟩⟩

end Rmi
end HashingBenchmark

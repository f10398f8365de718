import HashingBenchmark.Rmi.Query

/-! What the loops of the learned-index queries do.

    Each loop is described from slot `i` on, by induction over the fuel: it stops at the first key
    that meets its condition, or it walks off its end of the vector. The seek is then one of three
    things (`seek_cases`). It finds the first key that is not smaller than the one sought; or it
    starts to the right of the key sought and stops one slot too late, because the loop to the left
    goes on while the key before is larger and so stops behind an equal one; or it leaves the vector,
    to the right if all keys are smaller, to the left if none is. -/

namespace HashingBenchmark
open scoped UIntOrder

namespace Rmi
variable {n : ℕ}

/-- What holds at slot `i` and from slot `i + 1` on holds from slot `i` on. -/
theorem forall_of_succ {i : ℕ} (hin : i < n + 1) {P : Fin (n + 1) → Prop} (hi : P ⟨i, hin⟩)
    (hsucc : ∀ a : Fin (n + 1), i + 1 ≤ a → P a) (a : Fin (n + 1)) (ha : i ≤ a) : P a := by
  rcases ha.eq_or_lt with heq | hlt
  · obtain rfl : (⟨i, hin⟩ : Fin (n + 1)) = a := Fin.ext heq
    exact hi
  · exact hsucc a hlt

theorem seekRight_cases (S : SortedKeys n) (low_key : UInt64) {fuel i : ℕ} (hi : i ≤ n + 1)
    (hfuel : n + 1 - i < fuel) :
    (∃ j : Fin (n + 1), i ≤ j ∧ low_key ≤ S.keys j ∧
      (∀ a : Fin (n + 1), i ≤ a → a < j → S.keys a < low_key) ∧
      seekRight (keyVec S.keys) low_key fuel (slotIndex i) = .ok (slotIndex j)) ∨
    ((∀ a : Fin (n + 1), i ≤ a → S.keys a < low_key) ∧
      seekRight (keyVec S.keys) low_key fuel (slotIndex i) = .error .outOfBounds) := by
  induction fuel generalizing i with
  | zero => omega
  | succ fuel ih =>
    rw [seekRight, keyVec_slotIndex S hi]
    by_cases hin : i < n + 1
    · rw [dif_pos hin]
      by_cases hlt : S.keys ⟨i, hin⟩ < low_key
      · simp only [if_pos hlt, slotIndex_add_two]
        rcases ih (i := i + 1) (by omega) (by omega) with ⟨j, hij, hj, hbefore, hret⟩ | ⟨hall, hret⟩
        · exact Or.inl ⟨j, by omega, hj, forall_of_succ hin (fun _ => hlt) hbefore, hret⟩
        · exact Or.inr ⟨forall_of_succ hin hlt hall, hret⟩
      · simp only [if_neg hlt]
        refine Or.inl ⟨⟨i, hin⟩, le_refl i, not_lt.mp hlt, fun a ha haj => ?_, rfl⟩
        rw [Fin.lt_def] at haj; simp only at haj; omega
    · rw [dif_neg hin]
      exact Or.inr ⟨fun a ha => by omega, rfl⟩

theorem seekLeft_cases (S : SortedKeys n) (low_key : UInt64) {fuel i : ℕ} (hi : i ≤ n + 1)
    (hfuel : i < fuel) :
    (∃ j : Fin (n + 1), j < i ∧ S.keys j ≤ low_key ∧
      (∀ a : Fin (n + 1), j < a → a < i → low_key < S.keys a) ∧
      seekLeft (keyVec S.keys) low_key fuel (slotIndex i) = .ok (slotIndex (j + 1))) ∨
    ((∀ a : Fin (n + 1), a < i → low_key < S.keys a) ∧
      seekLeft (keyVec S.keys) low_key fuel (slotIndex i) = .error .outOfBounds) := by
  induction fuel generalizing i with
  | zero => omega
  | succ fuel ih =>
    cases i with
    | zero =>
      right
      refine ⟨fun a ha => by omega, ?_⟩
      rw [seekLeft, keyVec_slotIndex_zero_sub_two]
    | succ i =>
      have hin : i < n + 1 := by omega
      rw [seekLeft, slotIndex_succ_sub_two, keyVec_slotIndex S hin.le, dif_pos hin]
      by_cases hgt : S.keys ⟨i, hin⟩ > low_key
      · simp only [if_pos hgt]
        have hupto : ∀ a : Fin (n + 1), a < i + 1 → a = ⟨i, hin⟩ ∨ a < i := fun a ha => by
          rw [Fin.ext_iff]; simp only; omega
        rcases ih hin.le (by omega) with ⟨j, hij, hj, hbefore, hret⟩ | ⟨hall, hret⟩
        · refine Or.inl ⟨j, by omega, hj, fun a hja ha => ?_, hret⟩
          rcases hupto a ha with rfl | ha'
          · exact hgt
          · exact hbefore a hja ha'
        · refine Or.inr ⟨fun a ha => ?_, hret⟩
          rcases hupto a ha with rfl | ha'
          · exact hgt
          · exact hall a ha'
      · simp only [if_neg hgt]
        refine Or.inl ⟨⟨i, hin⟩, Nat.lt_succ_self i, not_lt.mp hgt, fun a hja ha => ?_, rfl⟩
        rw [Fin.lt_def] at hja; simp only at hja; omega

theorem scan_cases (S : SortedKeys n) (high_key ans : UInt64) {fuel i : ℕ} (hi : i ≤ n + 1)
    (hfuel : n + 1 - i < fuel) :
    (∃ j : Fin (n + 1), i ≤ j ∧ high_key < S.keys j ∧
      (∀ a : Fin (n + 1), i ≤ a → a < j → S.keys a ≤ high_key) ∧
      scan (keyVec S.keys) high_key fuel (slotIndex i) ans
        = .ok (ans + UInt64.ofNat (j - i))) ∨
    ((∀ a : Fin (n + 1), i ≤ a → S.keys a ≤ high_key) ∧
      scan (keyVec S.keys) high_key fuel (slotIndex i) ans = .error .outOfBounds) := by
  induction fuel generalizing ans i with
  | zero => omega
  | succ fuel ih =>
    rw [scan, keyVec_slotIndex S hi]
    by_cases hin : i < n + 1
    · rw [dif_pos hin]
      by_cases hgt : S.keys ⟨i, hin⟩ > high_key
      · simp only [if_pos hgt]
        refine Or.inl ⟨⟨i, hin⟩, le_refl i, hgt, fun a ha haj => ?_, ?_⟩
        · rw [Fin.lt_def] at haj; simp only at haj; omega
        · simp
      · simp only [if_neg hgt, keyVec_slotIndex_add_one S hin, slotIndex_add_two]
        have hle : S.keys ⟨i, hin⟩ ≤ high_key := not_lt.mp hgt
        rcases ih (ans + 1) (i := i + 1) (by omega) (by omega) with
          ⟨j, hij, hj, hbefore, hret⟩ | ⟨hall, hret⟩
        · refine Or.inl ⟨j, by omega, hj, forall_of_succ hin (fun _ => hle) hbefore, ?_⟩
          have hsucc : j - i = 1 + (j - (i + 1)) := by omega
          rw [hret, hsucc, UInt64.ofNat_add, ← UInt64.add_assoc]; rfl
        · exact Or.inr ⟨forall_of_succ hin hle hall, hret⟩
    · rw [dif_neg hin]
      exact Or.inr ⟨fun a ha => by omega, rfl⟩

/-- The keys sought that the seek from slot `s` finds: larger than the smallest key, not larger than
    the largest, and not a key to the left of `s`. -/
def SeekFinds (S : SortedKeys n) (s : Fin (n + 1)) (low_key : UInt64) : Prop :=
  S.keys 0 < low_key ∧ low_key ≤ S.keys (Fin.last n) ∧ ∀ j < s, S.keys j ≠ low_key

theorem seek_cases (S : SortedKeys n) (s : Fin (n + 1)) (low_key : UInt64) :
    (SeekFinds S s low_key ∧ ∃ j : Fin (n + 1), low_key ≤ S.keys j ∧
      (∀ a < j, S.keys a < low_key) ∧
      seek (keyVec S.keys) low_key (slotIndex s) = .ok (slotIndex j)) ∨
    (∃ j < s, S.keys j = low_key ∧
      seek (keyVec S.keys) low_key (slotIndex s) = .ok (slotIndex (j + 1))) ∨
    ((low_key ≤ S.keys 0 ∨ S.keys (Fin.last n) < low_key) ∧
      seek (keyVec S.keys) low_key (slotIndex s) = .error .outOfBounds) := by
  have hs : s.val ≤ n + 1 := s.isLt.le
  have hright : n + 1 - s.val < (keyVec S.keys).length + 1 := by rw [length_keyVec]; omega
  have hleft : s.val < (keyVec S.keys).length + 1 := by rw [length_keyVec]; omega
  have hasc := S.ascending
  rw [seek, keyVec_slotIndex S hs, dif_pos s.isLt]
  by_cases hlt : S.keys s < low_key
  · simp only [Fin.eta, if_pos hlt]
    have hupto : ∀ a ≤ s, S.keys a < low_key := fun a ha => (hasc.monotone ha).trans_lt hlt
    rcases seekRight_cases S low_key hs hright with ⟨j, hij, hj, hbefore, hret⟩ | ⟨hall, hret⟩
    · left
      refine ⟨⟨hupto 0 (Fin.zero_le s), hj.trans (hasc.monotone (Fin.le_last j)),
        fun a ha => (hupto a ha.le).ne⟩, j, hj, fun a haj => ?_, hret⟩
      rcases le_or_gt a s with has | has
      · exact hupto a has
      · exact hbefore a has.le haj
    · exact Or.inr (Or.inr ⟨Or.inr (hall _ (Fin.le_last s)), hret⟩)
  · simp only [Fin.eta, if_neg hlt]
    have hge : low_key ≤ S.keys s := not_lt.mp hlt
    rcases seekLeft_cases S low_key hs hleft with ⟨j, hij, hj, hbetween, hret⟩ | ⟨hall, hret⟩
    · rcases hj.eq_or_lt with heq | hjlt
      · exact Or.inr (Or.inl ⟨j, hij, heq, hret⟩)
      · left
        have hnext : j.val + 1 < n + 1 := by omega
        have hupto : ∀ a ≤ j, S.keys a < low_key := fun a ha => (hasc.monotone ha).trans_lt hjlt
        refine ⟨⟨hupto 0 (Fin.zero_le j), hge.trans (hasc.monotone (Fin.le_last s)),
          fun a has => ?_⟩, ⟨j.val + 1, hnext⟩, ?_, fun a ha => ?_, hret⟩
        · rcases le_or_gt a j with haj | haj
          · exact (hupto a haj).ne
          · exact (hbetween a haj has).ne'
        · rcases Nat.lt_or_eq_of_le (Nat.succ_le_of_lt hij) with hlt' | heq
          · exact (hbetween ⟨j.val + 1, hnext⟩ (Nat.lt_succ_self j.val) hlt').le
          · have hs' : (⟨j.val + 1, hnext⟩ : Fin (n + 1)) = s := Fin.ext heq
            rw [hs']; exact hge
        · exact hupto a (Nat.le_of_lt_succ ha)
    · refine Or.inr (Or.inr ⟨Or.inl ?_, hret⟩)
      rcases (Fin.zero_le s).eq_or_lt with heq | hpos
      · rw [heq]; exact hge
      · exact (hall 0 hpos).le

end Rmi
end HashingBenchmark

import Mathlib.Algebra.Group.Nat.Defs
import Mathlib.Data.Nat.Basic

/-! Exponential and binary search for an arbitrary predicate.

    A binary search ends at a position exactly if the comparisons at the midpoints on the way to that
    position say which side it is on (`bisect_eq_iff`); the predicate need not be monotone. The
    midpoints on the way to a position are a matter of arithmetic alone. The doubling of a bound
    before the search ends with one power of two times the first bound (`Doubled.unique`). -/

namespace Bisect

/-- The binary search in `[l, r)` for the first position where `p` holds. -/
def bisect (p : ℕ → Bool) : ℕ → ℕ → ℕ → ℕ
  | 0, l, _ => l
  | fuel + 1, l, r =>
    if l < r then
      let mid := l + (r - l) / 2
      if p mid then bisect p fuel l mid else bisect p fuel (mid + 1) r
    else l

/-- The midpoints of a search in `[l, r)` on the way to position `x`. -/
def midpoints (x l r : ℕ) : List ℕ :=
  if l < r then
    let mid := l + (r - l) / 2
    mid :: if x ≤ mid then midpoints x l mid else midpoints x (mid + 1) r
  else []
termination_by r - l

theorem midpoints_of_lt {l r : ℕ} (h : l < r) (x : ℕ) : midpoints x l r = (l + (r - l) / 2) ::
    if x ≤ l + (r - l) / 2 then midpoints x l (l + (r - l) / 2)
    else midpoints x (l + (r - l) / 2 + 1) r := by
  rw [midpoints, if_pos h]

theorem midpoints_of_le {l r : ℕ} (h : r ≤ l) (x : ℕ) : midpoints x l r = [] := by
  rw [midpoints, if_neg (Nat.not_lt.mpr h)]

/-- The midpoints lie in the window. -/
theorem mem_midpoints {x l r m : ℕ} (h : m ∈ midpoints x l r) : l ≤ m ∧ m < r := by
  fun_induction midpoints x l r with
  | case1 l r hlt mid ih_left ih_right =>
    rcases List.mem_cons.mp h with rfl | h
    · omega
    · split_ifs at h with hle
      · have hm := ih_left h
        omega
      · have hm := ih_right h
        omega
  | case2 l r hge => cases h

/-- Where the search ends. -/
theorem bisect_eq_iff {p : ℕ → Bool} {fuel l r : ℕ} (hfuel : r - l ≤ fuel) (hlr : l ≤ r) (x : ℕ) :
    bisect p fuel l r = x ↔ l ≤ x ∧ x ≤ r ∧ ∀ m ∈ midpoints x l r, p m = true ↔ x ≤ m := by
  induction fuel generalizing l r with
  | zero =>
    rw [bisect, midpoints_of_le (by omega)]
    simp
    omega
  | succ fuel ih =>
    by_cases hlt : l < r
    · rw [bisect, if_pos hlt, midpoints_of_lt hlt]
      simp only [List.forall_mem_cons]
      by_cases hp : p (l + (r - l) / 2) = true
      · rw [if_pos hp, ih (by omega) (by omega)]
        constructor
        · rintro ⟨hl, hr, hall⟩
          rw [if_pos hr]
          exact ⟨hl, by omega, by simp [hp, hr], hall⟩
        · rintro ⟨hl, -, hmid, hall⟩
          have hx := hmid.mp hp
          rw [if_pos hx] at hall
          exact ⟨hl, hx, hall⟩
      · rw [if_neg hp, ih (by omega) (by omega)]
        constructor
        · rintro ⟨hl, hr, hall⟩
          have hx : ¬ x ≤ l + (r - l) / 2 := by omega
          rw [if_neg hx]
          exact ⟨by omega, hr, by simp [hp, hx], hall⟩
        · rintro ⟨-, hr, hmid, hall⟩
          have hx : ¬ x ≤ l + (r - l) / 2 := fun hx => hp (hmid.mpr hx)
          rw [if_neg hx] at hall
          exact ⟨by omega, hr, hall⟩
    · rw [bisect, if_neg hlt, midpoints_of_le (Nat.not_lt.mp hlt)]
      simp
      omega

/-- The search ends in its window. -/
theorem bisect_mem {p : ℕ → Bool} {fuel l r : ℕ} (hfuel : r - l ≤ fuel) (hlr : l ≤ r) :
    l ≤ bisect p fuel l r ∧ bisect p fuel l r ≤ r := by
  have hend := (bisect_eq_iff hfuel hlr _).mp (rfl : bisect p fuel l r = _)
  exact ⟨hend.1, hend.2.1⟩

/-- `B` is `b`, doubled as long as it is below `size` and `q` holds of it. -/
def Doubled (size : ℕ) (q : ℕ → Prop) (b B : ℕ) : Prop :=
  ∃ j, B = b * 2 ^ j ∧ (∀ i < j, b * 2 ^ i < size ∧ q (b * 2 ^ i)) ∧ ¬ (B < size ∧ q B)

theorem Doubled.unique {size : ℕ} {q : ℕ → Prop} {b B B' : ℕ} (h : Doubled size q b B)
    (h' : Doubled size q b B') : B = B' := by
  obtain ⟨j, rfl, hall, hstop⟩ := h
  obtain ⟨j', rfl, hall', hstop'⟩ := h'
  rcases Nat.lt_trichotomy j j' with hlt | rfl | hlt
  · exact absurd (hall' j hlt) hstop
  · rfl
  · exact absurd (hall j' hlt) hstop'

theorem doubled_self {size : ℕ} {q : ℕ → Prop} {b : ℕ} (h : ¬ (b < size ∧ q b)) :
    Doubled size q b b := ⟨0, by simp, by simp, h⟩

theorem Doubled.double {size : ℕ} {q : ℕ → Prop} {b B : ℕ} (hb : b < size ∧ q b)
    (h : Doubled size q (b * 2) B) : Doubled size q b B := by
  obtain ⟨j, hB, hall, hstop⟩ := h
  have hpow : ∀ i, b * 2 * 2 ^ i = b * 2 ^ (i + 1) := by
    intro i
    rw [Nat.pow_succ, Nat.mul_assoc, Nat.mul_comm 2]
  refine ⟨j + 1, hB.trans (hpow j), ?_, hstop⟩
  intro i hi
  cases i with
  | zero => simpa using hb
  | succ i =>
    rw [← hpow]
    exact hall i (Nat.lt_of_succ_lt_succ hi)

theorem Doubled.pos {size b B : ℕ} {q : ℕ → Prop} (h : Doubled size q b B) (hb : 0 < b) : 0 < B := by
  obtain ⟨j, rfl, -⟩ := h
  exact Nat.mul_pos hb (Nat.two_pow_pos j)

end Bisect

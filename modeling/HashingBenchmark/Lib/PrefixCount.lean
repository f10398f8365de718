import Mathlib.Data.List.Basic
import Mathlib.Order.Lattice

/-! Positions in an ascending list as counts of smaller entries.

    The entries below a key form a prefix of an ascending list, and so do those at most the key. So a
    comparison with the entry at a position compares the position with the length of that prefix
    (`lt_iff_lt_below`, `le_iff_lt_upTo`), and the entries equal to the key are those between the two
    lengths. -/

namespace PrefixCount

/-- What holds of an entry holds of all entries before it: it holds at the positions below the number
    of entries of which it holds. -/
theorem lt_countP_iff {α : Type*} {p : α → Bool} {l : List α}
    (hl : l.Pairwise fun a b => p b = true → p a = true) {i : ℕ} {x : α} (hx : l[i]? = some x) :
    p x = true ↔ i < l.countP p := by
  induction l generalizing i with
  | nil => simp at hx
  | cons a l ih =>
    obtain ⟨hhead, htail⟩ := List.pairwise_cons.mp hl
    by_cases ha : p a = true
    · rw [List.countP_cons_of_pos ha]
      cases i with
      | zero =>
        obtain rfl : a = x := by simpa using hx
        simp [ha]
      | succ i => rw [ih htail (by simpa using hx), Nat.add_lt_add_iff_right]
    · have hzero : l.countP p = 0 := List.countP_eq_zero.mpr fun b hb hpb => ha (hhead b hb hpb)
      rw [List.countP_cons_of_neg ha, hzero]
      have hnot : ¬ p x = true := by
        cases i with
        | zero =>
          obtain rfl : a = x := by simpa using hx
          exact ha
        | succ i =>
          intro hpx
          exact ha (hhead x (List.mem_of_getElem? (by simpa using hx)) hpx)
      simp [hnot]

section Order
variable {α : Type*} [LinearOrder α]

/-- The number of entries smaller than `key`. -/
def below (l : List α) (key : α) : ℕ := l.countP (· < key)

/-- The number of entries at most `key`. -/
def upTo (l : List α) (key : α) : ℕ := l.countP (· ≤ key)

variable {l : List α} {key x : α} {i : ℕ}

theorem lt_iff_lt_below (hl : l.Pairwise (· ≤ ·)) (hx : l[i]? = some x) :
    x < key ↔ i < below l key := by
  rw [below, ← lt_countP_iff (hl.imp ?_) hx, decide_eq_true_eq]
  intro a b hab hb
  exact decide_eq_true (hab.trans_lt (of_decide_eq_true hb))

theorem le_iff_lt_upTo (hl : l.Pairwise (· ≤ ·)) (hx : l[i]? = some x) :
    x ≤ key ↔ i < upTo l key := by
  rw [upTo, ← lt_countP_iff (hl.imp ?_) hx, decide_eq_true_eq]
  intro a b hab hb
  exact decide_eq_true (hab.trans (of_decide_eq_true hb))

theorem eq_iff (hl : l.Pairwise (· ≤ ·)) (hx : l[i]? = some x) :
    x = key ↔ below l key ≤ i ∧ i < upTo l key := by
  rw [← Nat.not_lt, ← lt_iff_lt_below hl hx, ← le_iff_lt_upTo hl hx, not_lt]
  exact ⟨fun h => ⟨h.ge, h.le⟩, fun h => le_antisymm h.2 h.1⟩

theorem upTo_le_length (l : List α) (key : α) : upTo l key ≤ l.length := List.countP_le_length

/-- The entries equal to `key` come between the smaller ones and the larger ones. -/
theorem below_add_countP (l : List α) (key : α) : below l key + l.countP (· = key) = upTo l key := by
  induction l with
  | nil => rfl
  | cons a l ih =>
    rw [below, upTo, List.countP_cons, List.countP_cons, List.countP_cons, ← below, ← upTo, ← ih]
    rcases lt_trichotomy a key with h | h | h
    · simp [h, h.le, h.ne]
      omega
    · simp [h]
      omega
    · simp [h.not_gt, h.not_ge, h.ne']

theorem below_lt_upTo_iff (l : List α) (key : α) : below l key < upTo l key ↔ key ∈ l := by
  rw [← below_add_countP, Nat.lt_add_right_iff_pos, List.countP_pos_iff]
  simp

end Order
end PrefixCount

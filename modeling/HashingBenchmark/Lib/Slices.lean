import Mathlib.Data.List.Flatten
import Mathlib.Data.List.Nodup
import Mathlib.Data.List.Range

/-! A list cut into slices of `k` elements, by position: slice `i` starts at `i * k`.

    The first `t` slices make up the first `t * k` elements. So if these are all and no element occurs
    twice, each is in exactly one slice, however many empty slices there are at the end. -/

namespace Slices
variable {α : Type*}

/-- Slice number `i`. -/
def slice (k : ℕ) (l : List α) (i : ℕ) : List α := (l.drop (i * k)).take k

theorem slice_ne_nil_iff {k : ℕ} (hk : 0 < k) (l : List α) (i : ℕ) :
    slice k l i ≠ [] ↔ i * k < l.length := by
  rw [slice, Ne, List.take_eq_nil_iff, List.drop_eq_nil_iff]
  omega

/-- The first `t` slices, one after the other. -/
theorem flatten_map_slice (k : ℕ) (l : List α) (t : ℕ) :
    ((List.range t).map (slice k l)).flatten = l.take (t * k) := by
  induction t with
  | zero => simp
  | succ t ih =>
    rw [List.range_succ, List.map_append, List.flatten_append, ih, Nat.succ_mul, List.take_add]
    simp [slice]

variable [DecidableEq α]

/-- An element of lists with no element twice among them is in one of the lists. -/
theorem countP_mem_of_nodup_flatten {L : List (List α)} {a : α} (hL : L.flatten.Nodup)
    (ha : a ∈ L.flatten) : L.countP (fun s => a ∈ s) = 1 := by
  induction L with
  | nil => simp at ha
  | cons s L ih =>
    rw [List.flatten_cons, List.nodup_append] at hL
    obtain ⟨-, hrest, hdisjoint⟩ := hL
    by_cases hs : a ∈ s
    · have hnone : L.countP (fun s => a ∈ s) = 0 := by
        rw [List.countP_eq_zero]
        intro s' hs' hmem
        exact hdisjoint a hs a (List.mem_flatten.mpr ⟨s', hs', of_decide_eq_true hmem⟩) rfl
      rw [List.countP_cons_of_pos (by simpa using hs), hnone]
    · have hin : a ∈ L.flatten := by
        rw [List.flatten_cons, List.mem_append] at ha
        exact ha.resolve_left hs
      rw [List.countP_cons_of_neg (by simpa using hs)]
      exact ih hrest hin

/-- CORRECT: slices that cover a list without repetitions have each of its elements once. -/
theorem countP_mem_slices {k t : ℕ} {l : List α} (hl : l.Nodup) (hcover : l.length ≤ t * k) {a : α}
    (ha : a ∈ l) : ((List.range t).map (slice k l)).countP (fun s => a ∈ s) = 1 := by
  have hflatten : ((List.range t).map (slice k l)).flatten = l := by
    rw [flatten_map_slice, List.take_of_length_le hcover]
  refine countP_mem_of_nodup_flatten ?_ ?_
  · rw [hflatten]
    exact hl
  · rw [hflatten]
    exact ha

/-- Slices of a rounded-up quotient cover the list. -/
theorem length_le_mul_ceil (n : ℕ) {t : ℕ} (ht : 0 < t) : n ≤ t * ((n + t - 1) / t) := by
  have hdiv := Nat.div_add_mod (n + t - 1) t
  have hmod := Nat.mod_lt (n + t - 1) ht
  omega

end Slices

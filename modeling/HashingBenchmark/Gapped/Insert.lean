import HashingBenchmark.Gapped.Build

/-! One insert of the model-based build.

    A key whose slot is taken moves the run of its slot: to the right if the next gap there is at most
    as far as the one on the left (`placeRight_eq`), and otherwise to the left (`placeLeft_eq`), but
    then by `down_count`, the length of the run on the right. So the entry that a shift to the left
    overwrites is the one at that distance, and it is lost unless it is a gap (`insertKey_cases`). -/

namespace HashingBenchmark
namespace Gapped
open Join Outcome

/-- The keys of a gapped array. -/
def entries (vec : List UInt32) : List UInt32 := vec.filter (· ≠ 0)

@[simp] theorem entries_append (l l' : List UInt32) : entries (l ++ l') = entries l ++ entries l' :=
  List.filter_append l l'

@[simp] theorem entries_zero (l : List UInt32) : entries (0 :: l) = entries l := rfl

@[simp] theorem entries_nil : entries [] = [] := rfl

theorem entries_cons {x : UInt32} (hx : x ≠ 0) (l : List UInt32) :
    entries (x :: l) = x :: entries l := by simp [entries, hx]

theorem entries_replicate (n : ℕ) : entries (List.replicate n 0) = [] := by
  simp [entries]

/-- The number of keys between slot `i` and the next gap on the right, or the end. -/
def downCount (vec : List UInt32) (i : ℕ) : ℕ := ((vec.drop (i + 1)).takeWhile (· ≠ 0)).length

/-- The number of keys between slot `i` and the next gap on the left, or the start. -/
def upCount (vec : List UInt32) (i : ℕ) : ℕ := ((vec.take i).reverse.takeWhile (· ≠ 0)).length

/-- Slot `i` is a gap; or there are gaps on both sides, the one on the right at most as far as the
    one on the left; or there is a gap as far on the left as the next gap or the end on the right. -/
def Fits (vec : List UInt32) (i : ℕ) : Prop :=
  vec[i]? = some 0 ∨ (i < vec.length ∧
    ((0 ∈ vec.take i ∧ 0 ∈ vec.drop (i + 1) ∧ downCount vec i ≤ upCount vec i) ∨
      (downCount vec i < i ∧ vec[i - downCount vec i - 1]? = some 0)))

/-! ### The two searches -/

theorem toNat_add_one_of_lt {x : UInt64} (h : x.toNat < maxSize) : (x + 1).toNat = x.toNat + 1 := by
  rw [UInt64.toNat_add]
  simp [maxSize] at h ⊢
  omega

theorem searchDown_eq (before after : List UInt32) {fuel : ℕ} {down_ptr : UInt64}
    (hlen : (before ++ after).length ≤ maxSize) (hptr : down_ptr.toNat + 1 = before.length)
    (hfuel : after.length < fuel) (down_count : UInt64) :
    searchDown (before ++ after) fuel down_ptr down_count
      = .ok (down_count + UInt64.ofNat (after.takeWhile (· ≠ 0)).length, decide (0 ∉ after)) := by
  have hnext : (down_ptr + 1).toNat = before.length := by
    rw [toNat_add_one_of_lt, hptr]
    rw [List.length_append] at hlen
    omega
  induction after generalizing before fuel down_ptr down_count with
  | nil =>
    cases fuel with
    | zero => cases hfuel
    | succ fuel => simp [searchDown, hnext]
  | cons y after ih =>
    cases fuel with
    | zero => cases hfuel
    | succ fuel =>
      have hlt : ¬ (before ++ y :: after).length ≤ (down_ptr + 1).toNat := by
        rw [hnext, List.length_append, List.length_cons]; omega
      have hread : (before ++ y :: after)[(down_ptr + 1).toNat]? = some y := by
        rw [hnext]; simp
      rw [searchDown]
      simp only [if_neg hlt, hread]
      by_cases hy : y = 0
      · simp [hy]
      · have hsplit : before ++ y :: after = before ++ [y] ++ after := by simp
        rw [List.length_append, List.length_cons] at hlen
        rw [if_neg hy, hsplit, ih]
        · simp [hy, Ne.symm hy, UInt64.ofNat_add, UInt64.add_assoc, UInt64.add_comm]
        · rw [List.length_append, List.length_append, List.length_singleton]; omega
        · rw [hnext, List.length_append, List.length_singleton]
        · exact Nat.lt_of_succ_lt_succ hfuel
        · rw [toNat_add_one_of_lt, hnext, List.length_append, List.length_singleton]
          rw [hnext]
          omega

theorem searchUp_eq (before after : List UInt32) {fuel : ℕ} {up_ptr : UInt64}
    (hlen : (before ++ after).length ≤ maxSize) (hptr : up_ptr.toNat = before.length)
    (hfuel : before.length < fuel) (up_count : UInt64) :
    searchUp (before ++ after) fuel up_ptr up_count
      = if 0 ∈ before then
          .ok (up_count + UInt64.ofNat (before.reverse.takeWhile (· ≠ 0)).length, false)
        else .error .out_of_range := by
  have hnot : ∀ x : UInt64, ¬ x < 0 := fun x hx => absurd (UInt64.lt_iff_toNat_lt.mp hx) (by simp)
  induction before using List.reverseRecOn generalizing after fuel up_ptr up_count with
  | nil =>
    -- the pointer wraps past 0, the test for the start fails, and `at` throws
    obtain rfl : up_ptr = 0 := UInt64.toNat_inj.mp (by simpa using hptr)
    cases fuel with
    | zero => cases hfuel
    | succ fuel =>
      have hread : (([] : List UInt32) ++ after)[((0 : UInt64) - 1).toNat]? = none := by
        rw [List.getElem?_eq_none_iff]
        exact hlen.trans (by decide)
      rw [searchUp]
      simp only [if_neg (hnot _), hread]
      simp
  | append_singleton before y ih =>
    cases fuel with
    | zero => cases hfuel
    | succ fuel =>
      rw [List.length_append, List.length_singleton] at hptr hfuel
      have hprev : (up_ptr - 1).toNat = before.length := by
        rw [UInt64.toNat_sub_of_le _ _ (by rw [UInt64.le_iff_toNat_le, hptr]; simp), hptr]
        simp
      have hread : (before ++ [y] ++ after)[(up_ptr - 1).toNat]? = some y := by
        rw [hprev]; simp
      rw [searchUp]
      simp only [if_neg (hnot _), hread]
      by_cases hy : y = 0
      · simp [hy]
      · have hsplit : before ++ [y] ++ after = before ++ (y :: after) := by simp
        rw [if_neg hy, hsplit, ih]
        · simp [hy, Ne.symm hy, UInt64.ofNat_add, UInt64.add_assoc, UInt64.add_comm]
        · rw [← hsplit]; exact hlen
        · exact hprev
        · exact Nat.lt_of_succ_lt_succ hfuel

/-! ### The two shifts -/

theorem toNat_add_ofNat {x : UInt64} {n : ℕ} (h : x.toNat + n ≤ maxSize) :
    (x + UInt64.ofNat n).toNat = x.toNat + n := by
  rw [UInt64.toNat_add, UInt64.toNat_ofNat']
  simp [maxSize] at h ⊢
  omega

theorem toNat_sub_ofNat {x : UInt64} {n : ℕ} (h : n ≤ x.toNat) :
    (x - UInt64.ofNat n).toNat = x.toNat - n := by
  have hlt := x.toNat_lt
  have hn : (UInt64.ofNat n).toNat = n := UInt64.toNat_ofNat_of_lt' (Nat.lt_of_le_of_lt h hlt)
  rw [UInt64.toNat_sub_of_le _ _ (by rw [UInt64.le_iff_toNat_le, hn]; exact h), hn]

/-- The entries from `curr_index` on move one slot to the right, over the entry `y`. -/
theorem shiftRight_eq {before : List UInt32} (mid : List UInt32) {rest : List UInt32} {y : UInt32}
    {curr_index : UInt64}
    (hcurr : curr_index.toNat = before.length)
    (hlen : (before ++ mid ++ y :: rest).length ≤ maxSize) :
    shiftRight curr_index mid.length (before ++ mid ++ y :: rest)
      = .returned (before ++ (mid ++ [y]).take 1 ++ mid ++ rest) := by
  induction mid using List.reverseRecOn generalizing y rest with
  | nil => simp [shiftRight]
  | append_singleton mid z ih =>
    simp only [List.length_append, List.length_cons, List.length_nil, zero_add] at hlen
    have hsrc : (curr_index + UInt64.ofNat mid.length).toNat = before.length + mid.length := by
      rw [toNat_add_ofNat, hcurr]
      omega
    have hdst : (curr_index + UInt64.ofNat mid.length + 1).toNat
        = before.length + mid.length + 1 := by
      rw [toNat_add_one_of_lt, hsrc]
      omega
    have hread : (before ++ (mid ++ [z]) ++ y :: rest)[before.length + mid.length]? = some z := by
      simp
    have hset : (before ++ (mid ++ [z]) ++ y :: rest).set (before.length + mid.length + 1) z
        = before ++ mid ++ z :: z :: rest := by
      simp [Nat.add_assoc]
    have hmove : move (curr_index + UInt64.ofNat mid.length)
        (curr_index + UInt64.ofNat mid.length + 1) (before ++ (mid ++ [z]) ++ y :: rest)
        = .returned (before ++ mid ++ z :: z :: rest) := by
      rw [move, hsrc, hread, hdst]
      simp only [hset]
      exact if_pos (by simp; omega)
    rw [List.length_append, List.length_singleton, shiftRight, hmove, andThen_returned, ih]
    · cases mid <;> simp
    · simp; omega

/-- The entries up to `curr_index` move one slot to the left, over the entry `y`. -/
theorem shiftLeft_eq (before mid rest : List UInt32) (y : UInt32) {curr_index : UInt64}
    (hcurr : curr_index.toNat = before.length + mid.length)
    (hlen : (before ++ y :: mid ++ rest).length ≤ maxSize) :
    shiftLeft curr_index mid.length (before ++ y :: mid ++ rest)
      = .returned (before ++ mid ++ (y :: mid).drop mid.length ++ rest) := by
  induction mid generalizing before y with
  | nil => simp [shiftLeft]
  | cons z mid ih =>
    rw [List.length_cons] at hcurr
    have hsrc : (curr_index - UInt64.ofNat mid.length).toNat = before.length + 1 := by
      rw [toNat_sub_ofNat, hcurr] <;> omega
    have hdst : (curr_index - UInt64.ofNat mid.length - 1).toNat = before.length := by
      rw [UInt64.toNat_sub_of_le _ _ (by rw [UInt64.le_iff_toNat_le, hsrc]; simp), hsrc]
      simp
    have hread : (before ++ y :: z :: mid ++ rest)[before.length + 1]? = some z := by
      simp
    have hset : (before ++ y :: z :: mid ++ rest).set before.length z
        = (before ++ [z]) ++ z :: mid ++ rest := by
      simp
    have hmove : move (curr_index - UInt64.ofNat mid.length)
        (curr_index - UInt64.ofNat mid.length - 1) (before ++ y :: z :: mid ++ rest)
        = .returned ((before ++ [z]) ++ z :: mid ++ rest) := by
      rw [move, hsrc, hread, hdst]
      simp only [hset]
      exact if_pos (by simp)
    rw [List.length_cons, shiftLeft, hmove, andThen_returned, ih]
    · simp
    · simp [hcurr]; omega
    · simpa using hlen

/-- A shift to the left by more slots than there are is out of bounds at once. -/
theorem shiftLeft_threw {vec : List UInt32} {curr_index : UInt64} {n : ℕ}
    (hlen : vec.length ≤ maxSize) (hn : n < maxSize) (hcurr : curr_index.toNat ≤ n) :
    shiftLeft curr_index (n + 1) vec = .threw .outOfBounds vec := by
  have hwrap : ∀ x : UInt64, maxSize ≤ x.toNat → ¬ x.toNat < vec.length := by
    intro x hx; omega
  have hof : (UInt64.ofNat n).toNat = n :=
    UInt64.toNat_ofNat_of_lt' (hn.trans (by decide))
  have hmove : move (curr_index - UInt64.ofNat n) (curr_index - UInt64.ofNat n - 1) vec
      = .threw .outOfBounds vec := by
    rw [move]
    cases hread : vec[(curr_index - UInt64.ofNat n).toNat]? with
    | none => rfl
    | some key =>
      refine if_neg (hwrap _ ?_)
      -- the source is read, so it did not wrap, and the target does
      have hsrc := (List.getElem?_eq_some_iff.mp hread).1
      rw [UInt64.toNat_sub, hof] at hsrc
      rw [UInt64.toNat_sub, UInt64.toNat_sub, hof]
      simp [maxSize] at hlen hn hsrc ⊢
      omega
  rw [shiftLeft, hmove, andThen_threw]

/-! ### One insert -/

section Occupied
variable {before after : List UInt32} {x key : UInt32} {curr_index : UInt64}

theorem put_eq (hcurr : curr_index.toNat = before.length) (x key : UInt32) (after : List UInt32) :
    put curr_index key (before ++ x :: after) = .returned (before ++ key :: after) := by
  rw [put, if_pos (by rw [hcurr]; simp), hcurr]
  simp

variable (key) in
/-- A taken slot with a gap on the left: the direction depends on the nearest gaps. -/
theorem insertKey_occupied (hx : x ≠ 0) (hcurr : curr_index.toNat = before.length)
    (hlen : (before ++ x :: after).length ≤ maxSize) :
    insertKey curr_index key (before ++ x :: after) =
      if 0 ∉ before then .threw .out_of_range (before ++ x :: after)
      else if (after.takeWhile (· ≠ 0)).length ≤ (before.reverse.takeWhile (· ≠ 0)).length
          ∧ 0 ∈ after then
        (shiftRight curr_index ((after.takeWhile (· ≠ 0)).length + 1)
          (before ++ x :: after)).andThen (put curr_index key)
      else (shiftLeft curr_index ((after.takeWhile (· ≠ 0)).length + 1)
          (before ++ x :: after)).andThen (put curr_index key) := by
  have hread : (before ++ x :: after)[curr_index.toNat]? = some x := by rw [hcurr]; simp
  have hsplit : before ++ x :: after = (before ++ [x]) ++ after := by simp
  have hfuel_down : after.length < (before ++ x :: after).length + 1 := by
    rw [List.length_append, List.length_cons]; omega
  have hfuel_up : before.length < (before ++ x :: after).length + 1 := by
    rw [List.length_append, List.length_cons]; omega
  have hdown := searchDown_eq (before ++ [x]) after (by rw [← hsplit]; exact hlen)
    (by rw [hcurr]; simp) hfuel_down 0
  have hup := searchUp_eq before (x :: after) hlen hcurr hfuel_up 0
  rw [← hsplit] at hdown
  have hd : (after.takeWhile (· ≠ 0)).length ≤ after.length := (List.takeWhile_sublist _).length_le
  have hu : (before.reverse.takeWhile (· ≠ 0)).length ≤ before.length := by
    simpa using (List.takeWhile_sublist (l := before.reverse) (· ≠ (0 : UInt32))).length_le
  rw [List.length_append, List.length_cons] at hlen
  have hdown_nat : (UInt64.ofNat (after.takeWhile (· ≠ 0)).length).toNat
      = (after.takeWhile (· ≠ 0)).length :=
    UInt64.toNat_ofNat_of_lt' (Nat.lt_of_le_of_lt (by omega : _ ≤ maxSize) (by decide))
  have hup_nat : (UInt64.ofNat (before.reverse.takeWhile (· ≠ 0)).length).toNat
      = (before.reverse.takeWhile (· ≠ 0)).length :=
    UInt64.toNat_ofNat_of_lt' (Nat.lt_of_le_of_lt (by omega : _ ≤ maxSize) (by decide))
  rw [insertKey, hread]
  simp only [if_neg hx, hdown, hup, UInt64.zero_add]
  by_cases hbefore : 0 ∈ before
  · rw [if_neg (not_not.mpr hbefore)]
    simp only [if_pos hbefore, UInt64.le_iff_toNat_le, hdown_nat, hup_nat]
    generalize (after.takeWhile (· ≠ 0)).length = down
    generalize (before.reverse.takeWhile (· ≠ 0)).length = up
    by_cases hle : down ≤ up
    · by_cases hafter : 0 ∈ after
      · simp [hle, hafter]
      · simp [hle, hafter]
    · simp [hle]
  · simp [hbefore]

/-- The run of the slot moves up to the next gap on the right. -/
theorem placeRight_eq {keys rest : List UInt32} (hcurr : curr_index.toNat = before.length)
    (hlen : (before ++ x :: keys ++ 0 :: rest).length ≤ maxSize) :
    (shiftRight curr_index (keys.length + 1) (before ++ x :: keys ++ 0 :: rest)).andThen
      (put curr_index key) = .returned (before ++ key :: x :: keys ++ rest) := by
  have hshift := shiftRight_eq (x :: keys) hcurr hlen
  rw [List.length_cons] at hshift
  rw [hshift, andThen_returned]
  simpa using put_eq hcurr x key (x :: keys ++ rest)

variable (key) in
/-- The `keys` before the slot and its entry move to the left, over the entry `y`. -/
theorem placeLeft_eq {keys : List UInt32} {y : UInt32}
    (hcurr : curr_index.toNat = (before ++ y :: keys).length)
    (hlen : (before ++ y :: keys ++ x :: after).length ≤ maxSize) :
    (shiftLeft curr_index (keys.length + 1) (before ++ y :: keys ++ x :: after)).andThen
      (put curr_index key) = .returned (before ++ keys ++ x :: key :: after) := by
  have hsplit : before ++ y :: keys ++ x :: after = before ++ y :: (keys ++ [x]) ++ after := by simp
  have hshift := shiftLeft_eq before (keys ++ [x]) after y (by simpa using hcurr)
    (by rw [← hsplit]; exact hlen)
  have hdrop : (y :: (keys ++ [x])).drop (keys ++ [x]).length = [x] := by
    rw [List.length_append, List.length_singleton, List.drop_succ_cons, List.drop_left]
  rw [hdrop, ← hsplit, List.length_append, List.length_singleton] at hshift
  rw [hshift, andThen_returned]
  have hlast : curr_index.toNat = (before ++ keys ++ [x]).length := by simpa using hcurr
  simpa using put_eq hlast x key after

theorem exists_gap_after (h : 0 ∈ after) :
    ∃ rest, after = after.takeWhile (· ≠ 0) ++ 0 :: rest := by
  induction after with
  | nil => simp at h
  | cons y after ih =>
    by_cases hy : y = 0
    · exact ⟨after, by simp [hy]⟩
    · obtain ⟨rest, hrest⟩ := ih (by simpa [Ne.symm hy] using h)
      refine ⟨rest, ?_⟩
      rw [List.takeWhile_cons_of_pos (by simpa using hy), List.cons_append, ← hrest]

theorem fits_iff : Fits (before ++ x :: after) before.length ↔ x = 0 ∨
    (0 ∈ before ∧ 0 ∈ after ∧
      (after.takeWhile (· ≠ 0)).length ≤ (before.reverse.takeWhile (· ≠ 0)).length) ∨
    ((after.takeWhile (· ≠ 0)).length < before.length ∧
      before[before.length - (after.takeWhile (· ≠ 0)).length - 1]? = some 0) := by
  have hdrop : (before ++ x :: after).drop (before.length + 1) = after := by
    rw [List.drop_append, List.drop_of_length_le (Nat.le_succ _)]; simp
  have hread : (before ++ x :: after)[before.length]? = some 0 ↔ x = 0 := by simp
  have hlt : before.length < (before ++ x :: after).length := by simp
  rw [Fits, downCount, upCount, List.take_left, hdrop, hread]
  refine or_congr_right ?_
  rw [and_iff_right hlt]
  refine or_congr_right (and_congr_right ?_)
  intro hpos
  rw [List.getElem?_append_left (by omega)]

/-- The insert of `key` adds it where `good` holds, and otherwise, if it returns, the number of keys
    does not grow. -/
def AddsKey (run : Outcome BuildFault (List UInt32)) (key : UInt32) (vec : List UInt32)
    (good : Prop) : Prop :=
  (good ∧ ∃ vec', run = .returned vec' ∧ vec'.length = vec.length ∧
    (entries vec').Perm (key :: entries vec)) ∨
  (¬ good ∧ ∀ vec', run = .returned vec' → vec'.length = vec.length ∧
    (entries vec').length ≤ (entries vec).length)

theorem AddsKey.threw {run : Outcome BuildFault (List UInt32)} {vec u : List UInt32} {good : Prop}
    {e : BuildFault} (hbad : ¬ good) (hrun : run = .threw e u) : AddsKey run key vec good := by
  refine .inr ⟨hbad, fun vec' hreturned => ?_⟩
  rw [hrun] at hreturned
  cases hreturned

/-- A shift to the right goes over a gap. -/
theorem addsKey_right (hx : x ≠ 0) (hkey : key ≠ 0) (hcurr : curr_index.toNat = before.length)
    (hlen : (before ++ x :: after).length ≤ maxSize) {good : Prop} (hgood : good)
    (hafter : 0 ∈ after) :
    AddsKey ((shiftRight curr_index ((after.takeWhile (· ≠ 0)).length + 1)
      (before ++ x :: after)).andThen (put curr_index key)) key (before ++ x :: after) good := by
  obtain ⟨rest, hrest⟩ := exists_gap_after hafter
  have hsplit : before ++ x :: after = before ++ x :: after.takeWhile (· ≠ 0) ++ 0 :: rest := by
    rw [List.append_assoc, List.cons_append, ← hrest]
  rw [hsplit] at hlen ⊢
  refine .inl ⟨hgood, before ++ key :: x :: after.takeWhile (· ≠ 0) ++ rest,
    placeRight_eq hcurr hlen, ?_, ?_⟩
  · simp; omega
  · simp only [entries_append, entries_zero, entries_cons hkey, entries_cons hx]
    simp

/-- A shift to the left over the entry `y` keeps all keys if `y` is a gap. -/
theorem addsKey_left {front keys : List UInt32} {y : UInt32} (hx : x ≠ 0) (hkey : key ≠ 0)
    (hcurr : curr_index.toNat = (front ++ y :: keys).length)
    (hlen : (front ++ y :: keys ++ x :: after).length ≤ maxSize) {good : Prop}
    (hgood : good ↔ y = 0) :
    AddsKey ((shiftLeft curr_index (keys.length + 1) (front ++ y :: keys ++ x :: after)).andThen
      (put curr_index key)) key (front ++ y :: keys ++ x :: after) good := by
  rw [placeLeft_eq key hcurr hlen]
  by_cases hy : y = 0
  · subst hy
    refine .inl ⟨hgood.mpr rfl, front ++ keys ++ x :: key :: after, rfl, ?_, ?_⟩
    · simp; omega
    have hmiddle : ((entries front ++ entries keys ++ [x]) ++ key :: entries after).Perm
        (key :: ((entries front ++ entries keys ++ [x]) ++ entries after)) := List.perm_middle
    simp only [entries_append, entries_zero, entries_cons hkey, entries_cons hx]
    simpa using hmiddle
  · refine .inr ⟨mt hgood.mp hy, fun vec' hrun => ?_⟩
    obtain rfl := Outcome.returned.inj hrun
    refine ⟨by simp; omega, ?_⟩
    simp only [entries_append, entries_cons hkey, entries_cons hx, entries_cons hy]
    simp
    omega

/-- The entry `n` places before the end of a list. -/
theorem exists_entry_before {n : ℕ} (hn : n < before.length) :
    ∃ front y keys, before = front ++ y :: keys ∧ keys.length = n := by
  have hlt : before.length - n - 1 < before.length := by omega
  refine ⟨before.take (before.length - n - 1), before[before.length - n - 1],
    before.drop (before.length - n - 1 + 1), ?_, ?_⟩
  · rw [← List.drop_eq_getElem_cons hlt, List.take_append_drop]
  · rw [List.length_drop]; omega

/-- The result of one insert into a taken slot. -/
theorem insertKey_cases (hx : x ≠ 0) (hkey : key ≠ 0) (hcurr : curr_index.toNat = before.length)
    (hlen : (before ++ x :: after).length ≤ maxSize) :
    AddsKey (insertKey curr_index key (before ++ x :: after)) key (before ++ x :: after)
      (Fits (before ++ x :: after) before.length) := by
  rw [fits_iff, or_iff_right hx, insertKey_occupied key hx hcurr hlen]
  by_cases hbefore : 0 ∈ before
  swap
  · -- no gap on the left
    rw [if_pos hbefore]
    refine .threw ?_ rfl
    rintro (⟨hmem, -⟩ | ⟨-, hread⟩)
    · exact hbefore hmem
    · exact hbefore (List.mem_of_getElem? hread)
  rw [if_neg (not_not.mpr hbefore)]
  by_cases hright : (after.takeWhile (· ≠ 0)).length ≤ (before.reverse.takeWhile (· ≠ 0)).length
      ∧ 0 ∈ after
  · rw [if_pos hright]
    exact addsKey_right hx hkey hcurr hlen (.inl ⟨hbefore, hright.2, hright.1⟩) hright.2
  rw [if_neg hright]
  by_cases hroom : (after.takeWhile (· ≠ 0)).length < before.length
  · obtain ⟨front, y, keys, rfl, hkeys⟩ := exists_entry_before hroom
    have hindex : (front ++ y :: keys).length - keys.length - 1 = front.length := by simp; omega
    rw [← hkeys] at hroom hright ⊢
    refine addsKey_left hx hkey hcurr hlen ?_
    rw [hindex, and_iff_right hroom]
    constructor
    · rintro (⟨-, hmem, hle⟩ | hread)
      · exact absurd ⟨hle, hmem⟩ hright
      · simpa using hread
    · rintro rfl
      exact .inr (by simp)
  · -- the run on the right is longer than all that is before the slot
    have hle : (after.takeWhile (· ≠ 0)).length ≤ after.length :=
      (List.takeWhile_sublist _).length_le
    have hlen' := hlen
    rw [List.length_append, List.length_cons] at hlen'
    rw [shiftLeft_threw hlen (by omega) (by omega), andThen_threw]
    refine .threw ?_ rfl
    rintro (⟨-, hmem, hle⟩ | ⟨hlt, -⟩)
    · exact hright ⟨hle, hmem⟩
    · exact hroom hlt

end Occupied

/-- An insert adds the key exactly if it fits, and otherwise the number of keys does not grow. -/
theorem insertKey_spec {vec : List UInt32} {key : UInt32} (hlen : vec.length ≤ maxSize)
    (hkey : key ≠ 0) (curr_index : UInt64) :
    AddsKey (insertKey curr_index key vec) key vec (Fits vec curr_index.toNat) := by
  cases hread : vec[curr_index.toNat]? with
  | none =>
    have hge := List.getElem?_eq_none_iff.mp hread
    refine .threw ?_ (by rw [insertKey, hread])
    rintro (hzero | ⟨hlt, -⟩)
    · rw [hread] at hzero; cases hzero
    · omega
  | some x =>
    obtain ⟨before, after, rfl, hcurr⟩ : ∃ before after, vec = before ++ x :: after ∧
        curr_index.toNat = before.length := by
      obtain ⟨hlt, hx⟩ := List.getElem?_eq_some_iff.mp hread
      refine ⟨vec.take curr_index.toNat, vec.drop (curr_index.toNat + 1), ?_, ?_⟩
      · rw [← hx, ← List.drop_eq_getElem_cons hlt, List.take_append_drop]
      · rw [List.length_take, Nat.min_eq_left hlt.le]
    by_cases hx : x = 0
    · left
      subst hx
      refine ⟨.inl hread, before ++ key :: after, ?_, by simp, ?_⟩
      · rw [insertKey, hread]
        simp only [if_true]
        exact put_eq hcurr 0 key after
      · simp only [entries_append, entries_zero, entries_cons hkey]
        exact List.perm_middle
    · rw [hcurr]
      exact insertKey_cases hx hkey hcurr hlen

end Gapped
end HashingBenchmark

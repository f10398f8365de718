import HashingBenchmark.Support.Table
import Mathlib.Order.Nat

/-! The construction loops that the constructors of all nine `Kapil` tables share.

    The constructor shuffles its vector and inserts it in two loops: all but the last 1000000 pairs,
    and then these, with a clock around them. The bound between the loops is `data.size() -
    insert_count` in 64-bit unsigned arithmetic. For a vector of at least 1000000 pairs the loops
    insert it from front to back; for a smaller one the bound wraps around, and the first loop reads
    past the end of the vector. -/

namespace HashingBenchmark
namespace Construction
variable {Key Payload T : Type}

/-- A loop counter below its bound does not wrap around. -/
theorem toNat_succ_of_lt {i hi : UInt64} (h : i < hi) : (i + 1).toNat = i.toNat + 1 := by
  have hlt : i.toNat < hi.toNat := UInt64.lt_iff_toNat_lt.mp h
  have hmax := hi.toNat_lt
  rw [UInt64.toNat_add]; simp; omega

/-- `for (; i < hi; i++) insert(data[i].first, data[i].second)`. -/
def insertRange (insert : Key → Payload → T → Outcome Fault T) (data : List (Key × Payload))
    (i hi : UInt64) (t : T) : Outcome Fault T :=
  if i < hi then
    match data[i.toNat]? with
    | none => .threw .outOfBounds t
    | some d => (insert d.1 d.2 t).andThen (insertRange insert data (i + 1) hi)
  else .returned t
termination_by hi.toNat - i.toNat
decreasing_by
  have hlt := UInt64.lt_iff_toNat_lt.mp ‹i < hi›
  rw [toNat_succ_of_lt ‹i < hi›]; omega

def insertCount : UInt64 := 1000000

/-- The two loops of a constructor on the shuffled vector, from the empty table `t`. -/
def insertShuffled (insert : Key → Payload → T → Outcome Fault T) (data : List (Key × Payload))
    (t : T) : Outcome Fault T :=
  let size := UInt64.ofNat data.length
  (insertRange insert data 0 (size - insertCount) t).andThen
    (insertRange insert data (size - insertCount) size)

/-- An `insert` that keeps a log of its calls next to the table. -/
def logged (insert : Key → Payload → T → Outcome Fault T) (key : Key) (payload : Payload)
    (s : T × List (Key × Payload)) : Outcome Fault (T × List (Key × Payload)) :=
  match insert key payload s.1 with
  | .returned t => .returned (t, s.2 ++ [(key, payload)])
  | .threw e t => .threw e (t, s.2 ++ [(key, payload)])

variable {insert : Key → Payload → T → Outcome Fault T} {data : List (Key × Payload)}

/-- A loop within the vector inserts that part of it. -/
theorem insertRange_eq_insertAll {i hi : UInt64} (hhi : hi.toNat ≤ data.length) (t : T) :
    insertRange insert data i hi t = insertAll insert ((data.take hi.toNat).drop i.toNat) t := by
  induction hn : hi.toNat - i.toNat generalizing i t with
  | zero =>
    have hge : ¬ i < hi := fun h => by have := UInt64.lt_iff_toNat_lt.mp h; omega
    have hnil : (data.take hi.toNat).drop i.toNat = [] :=
      List.drop_eq_nil_of_le (by rw [List.length_take]; omega)
    rw [insertRange, if_neg hge, hnil]; rfl
  | succ n ih =>
    have hlt : i.toNat < hi.toNat := by omega
    have hi' : i < hi := UInt64.lt_iff_toNat_lt.mpr hlt
    have hin : i.toNat < data.length := Nat.lt_of_lt_of_le hlt hhi
    have hdrop : (data.take hi.toNat).drop i.toNat
        = data[i.toNat] :: (data.take hi.toNat).drop (i.toNat + 1) := by
      rw [List.drop_eq_getElem_cons (by rw [List.length_take]; omega), List.getElem_take]
    have hrest : insertRange insert data (i + 1) hi
        = insertAll insert ((data.take hi.toNat).drop (i.toNat + 1)) := by
      funext u
      rw [ih u (by rw [toNat_succ_of_lt hi']; omega), toNat_succ_of_lt hi']
    rw [insertRange, if_pos hi', List.getElem?_eq_getElem hin, hdrop]
    simp only [hrest]
    rfl

/-- A loop that is to go on past the end of the vector does not return. -/
theorem insertRange_ne_returned {i hi : UInt64} (hhi : data.length < hi.toNat)
    (hi' : i.toNat ≤ data.length) (t v : T) : insertRange insert data i hi t ≠ .returned v := by
  induction hn : data.length - i.toNat generalizing i t with
  | zero =>
    have hlt : i < hi := UInt64.lt_iff_toNat_lt.mpr (by omega)
    have hnone : data[i.toNat]? = none := List.getElem?_eq_none (by omega)
    rw [insertRange, if_pos hlt, hnone]
    exact fun h => by cases h
  | succ n ih =>
    have hlt : i < hi := UInt64.lt_iff_toNat_lt.mpr (by omega)
    have hin : i.toNat < data.length := by omega
    have hsucc := toNat_succ_of_lt hlt
    rw [insertRange, if_pos hlt, List.getElem?_eq_getElem hin]
    cases hcall : insert data[i.toNat].1 data[i.toNat].2 t with
    | returned u =>
      simp only [hcall, Outcome.andThen_returned]
      exact ih (by omega) u (by omega)
    | threw e u =>
      simp only [hcall, Outcome.andThen_threw]
      exact fun h => by cases h

/-- The bound between the loops, for a vector of at least `insert_count` pairs. -/
theorem toNat_split_of_le {n : ℕ} (hn : n < UInt64.size) (hle : 1000000 ≤ n) :
    (UInt64.ofNat n - insertCount).toNat = n - 1000000 := by
  have hsize : (UInt64.ofNat n).toNat = n := UInt64.toNat_ofNat_of_lt' hn
  have hcount : insertCount ≤ UInt64.ofNat n := by
    rw [UInt64.le_iff_toNat_le, hsize]; exact hle
  rw [UInt64.toNat_sub_of_le _ _ hcount, hsize]; rfl

/-- For a smaller one it wraps around. -/
theorem toNat_split_of_lt {n : ℕ} (hlt : n < 1000000) :
    n < (UInt64.ofNat n - insertCount).toNat := by
  have hsize : (UInt64.ofNat n).toNat = n :=
    UInt64.toNat_ofNat_of_lt' (Nat.lt_trans hlt (by decide))
  have hcount : insertCount.toNat = 1000000 := rfl
  rw [UInt64.toNat_sub, hsize, hcount]; omega

/-- For a vector of at least `insert_count` pairs the two loops insert it from front to back. -/
theorem insertShuffled_eq_insertAll (hsize : data.length < UInt64.size) (hle : 1000000 ≤ data.length)
    (t : T) : insertShuffled insert data t = insertAll insert data t := by
  obtain ⟨k, hsplit, hk⟩ : ∃ k, (UInt64.ofNat data.length - insertCount).toNat = k ∧
      k ≤ data.length := ⟨_, toNat_split_of_le hsize hle, Nat.sub_le _ _⟩
  have hlength : (UInt64.ofNat data.length).toNat = data.length := UInt64.toNat_ofNat_of_lt' hsize
  have hsecond : insertRange insert data (UInt64.ofNat data.length - insertCount)
      (UInt64.ofNat data.length) = insertAll insert (data.drop k) := by
    funext u
    rw [insertRange_eq_insertAll hlength.le, hsplit, hlength, List.take_length]
  have happend := Outcome.runAll_append (fun d : Key × Payload => insert d.1 d.2)
    (data.take k) (data.drop k) t
  rw [List.take_append_drop] at happend
  rw [insertShuffled, insertRange_eq_insertAll (by rw [hsplit]; exact hk), hsplit, hsecond,
    UInt64.toNat_zero, List.drop_zero]
  exact happend.symm

/-- For a smaller vector the first loop does not return. -/
theorem insertShuffled_ne_returned (hlt : data.length < 1000000) (t v : T) :
    insertShuffled insert data t ≠ .returned v := by
  intro hret
  obtain ⟨u, hu, -⟩ := Outcome.andThen_eq_returned.mp hret
  exact insertRange_ne_returned (toNat_split_of_lt hlt) (Nat.zero_le _) t u hu

/-- The log of a run that returns is the list of its calls. -/
theorem insertAll_logged {t u : T} {calls calls' : List (Key × Payload)} :
    insertAll (logged insert) data (t, calls) = .returned (u, calls') ↔
      insertAll insert data t = .returned u ∧ calls' = calls ++ data := by
  induction data generalizing t calls with
  | nil => simp [insertAll, eq_comm]
  | cons d data ih =>
    simp only [insertAll, Outcome.runAll_cons] at ih ⊢
    cases hcall : insert d.1 d.2 t with
    | returned t' =>
      have hlog : logged insert d.1 d.2 (t, calls) = .returned (t', calls ++ [d]) := by
        simp [logged, hcall]
      rw [hlog, Outcome.andThen_returned, Outcome.andThen_returned, ih, List.append_assoc]
      rfl
    | threw e t' => simp [logged, hcall]

/-- A vector of one pair: the loop inserts it and reads the next index. -/
theorem construction_reads_past_end :
    let insert : UInt64 → UInt64 → Unit → Outcome Fault Unit := fun _ _ t => .returned t
    insertShuffled (logged insert) [(1, 10)] ((), []) = .threw .outOfBounds ((), [(1, 10)]) ∧
    ¬ ∃ u, insertShuffled (logged insert) [(1, 10)] ((), []) = .returned (u, [(1, 10)]) := by
  intro insert
  have hthrew : insertShuffled (logged insert) [(1, 10)] ((), [])
      = .threw .outOfBounds ((), [(1, 10)]) := by
    rw [insertShuffled, insertRange, if_pos (by decide)]
    simp only [UInt64.toNat_zero, List.getElem?_cons_zero]
    rw [logged, Outcome.andThen_returned, insertRange, if_pos (by decide)]
    rfl
  refine ⟨hthrew, ?_⟩
  rintro ⟨u, hu⟩
  cases hu.symm.trans hthrew

/-- CORRECT: after any shuffle the construction loops return with one insert for each pair exactly
    if there are at least 1000000 pairs and no insert throws. -/
theorem construction_stores_input_iff (insert : Key → Payload → T → Outcome Fault T)
    (data shuffled : List (Key × Payload)) (hshuffle : shuffled.Perm data)
    (hsize : data.length < UInt64.size) (t : T) :
    (∃ u, insertShuffled (logged insert) shuffled (t, []) = .returned (u, shuffled)) ↔
      1000000 ≤ data.length ∧ ∃ u, insertAll insert shuffled t = .returned u := by
  rw [← hshuffle.length_eq] at hsize ⊢
  rcases lt_or_ge shuffled.length 1000000 with hlt | hle
  · refine iff_of_false ?_ (fun h => by omega)
    rintro ⟨u, hu⟩
    exact insertShuffled_ne_returned hlt _ _ hu
  · rw [insertShuffled_eq_insertAll hsize hle, and_iff_right hle]
    simp only [insertAll_logged, List.nil_append, and_true]

/-- One pair a million times. -/
theorem construction_stores_input_iff_million :
    let insert : UInt64 → UInt64 → Unit → Outcome Fault Unit := fun _ _ t => .returned t
    let data : List (UInt64 × UInt64) := List.replicate 1000000 (1, 10)
    ∃ u, insertShuffled (logged insert) data ((), []) = .returned (u, data) := by
  intro insert data
  have hlength : data.length = 1000000 := List.length_replicate
  refine (construction_stores_input_iff insert data data (List.Perm.refl _)
    (by rw [hlength]; decide) ()).mpr ⟨hlength.ge, ?_⟩
  obtain ⟨u, hu, -⟩ := Outcome.runAll_returns (I := fun _ _ => True) (l := data) (s := ())
    trivial fun _ d u _ _ => ⟨(), (rfl : insert d.1 d.2 u = _), trivial⟩
  exact ⟨u, hu⟩

end Construction
end HashingBenchmark

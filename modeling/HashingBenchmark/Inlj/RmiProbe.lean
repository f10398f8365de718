import HashingBenchmark.Inlj.Count

/-! The probe of the sorted keys with a learned index, `inlj_with_rmi_probe_rel_s_partition`.

    For the key of a tuple of S the generated index returns a guess and an error. A branch-free binary
    search runs on the window around the guess, and two scans extend its result to all keys that are
    equal. The start of the window is an unsigned difference that wraps when the error is larger than
    the guess, its width goes through an `int`, and the second scan counts with an `unsigned int` and
    reads the entry before it tests the index. The prefetches of the search are left out. -/

namespace HashingBenchmark
namespace Inlj
open Join PrefixCount
open scoped UIntOrder

/-- The conversion of a `uint64_t` to `int`. -/
def toInt (x : UInt64) : ℤ := x.toUInt32.toInt32.toInt

/-- `bound_start`. -/
def boundStart (rmi_guess err : UInt64) : UInt64 :=
  let bound_start := rmi_guess - err
  if bound_start < 0 then 0 else bound_start

/-- `bound_end`, for an array of `n` keys. -/
def boundEnd (n : ℕ) (rmi_guess err : UInt64) : UInt64 :=
  let bound_end := rmi_guess + err
  if UInt64.ofNat n - 1 < bound_end then UInt64.ofNat n - 1 else bound_end

/-- The initial `n` of the search. -/
def windowSize (n : ℕ) (rmi_guess err : UInt64) : ℤ :=
  toInt (boundEnd n rmi_guess err - boundStart rmi_guess err + 1)

/-- The branch-free binary search; division truncates. -/
def branchFree (keys : List UInt32) (key : UInt32) : ℕ → ℤ → UInt64 → Except Fault UInt64
  | 0, _, _ => .error .diverges
  | fuel + 1, n, lower =>
    let half := n.tdiv 2
    if half = 0 then .ok lower
    else
      let middle := lower + UInt64.ofInt half
      match keys[middle.toNat]? with
      | none => .error .outOfBounds
      | some x => branchFree keys key fuel (n - half) (if x ≤ key then middle else lower)

/-- The scan back to the first occurrence. -/
def scrollBack (keys : List UInt32) (key : UInt32) : ℕ → Except Fault ℕ
  | 0 => .ok 0
  | lower + 1 =>
    match keys[lower]? with
    | none => .error .outOfBounds
    | some x => if x = key then scrollBack keys key lower else .ok (lower + 1)

/-- The scan over all values with the key. -/
def countRun (keys : List UInt32) (key : UInt32) :
    ℕ → UInt32 → UInt64 → Except Fault UInt64
  | 0, _, _ => .error .diverges
  | fuel + 1, k, matches' =>
    match keys[k.toNat]? with
    | none => .error .outOfBounds
    | some x =>
      if x = key ∧ k.toNat < keys.length then countRun keys key fuel (k + 1) (matches' + 1)
      else .ok matches'

/-- The scans from where the search ended. -/
def extend (keys : List UInt32) (key : UInt32) (lower : ℕ) (matches' : UInt64) :
    Except Fault UInt64 :=
  match scrollBack keys key lower with
  | .error fault => .error fault
  | .ok lower' =>
    match keys[lower']? with
    | none => .error .outOfBounds
    | some x =>
      if x = key then countRun keys key (keys.length + 1) (UInt32.ofNat lower') matches'
      else .ok matches'

/-- The body of the loop over S. A search on an `int` makes at most 32 steps. -/
def rmiProbe (lookup : UInt32 → UInt64 × UInt64) (keys : List UInt32) (key : UInt32)
    (matches' : UInt64) : Except Fault UInt64 :=
  let (rmi_guess, err) := lookup key
  match branchFree keys key 33 (windowSize keys.length rmi_guess err)
      (boundStart rmi_guess err) with
  | .error fault => .error fault
  | .ok lower => extend keys key lower.toNat matches'

/-- `inlj_with_rmi_probe_rel_s_partition`. -/
def inljWithRmiProbeRelSPartition (lookup : UInt32 → UInt64 × UInt64) (r : KeyArray)
    (rel_s_partition : List Tuple) : Except Fault UInt64 :=
  probeRelS (rmiProbe lookup r.keys) rel_s_partition 0

/-! ### The scans -/

theorem toInt_eq {x : UInt64} (h : x.toNat ≤ intMax) : toInt x = (x.toNat : ℤ) := by
  rw [intMax] at h
  have hnat : x.toUInt32.toBitVec.toNat = x.toNat := by
    rw [UInt32.toNat_toBitVec, UInt64.toNat_toUInt32]
    exact Nat.mod_eq_of_lt (by omega)
  rw [toInt, Int32.toInt, UInt32.toBitVec_toInt32, BitVec.toInt_eq_toNat_of_lt, hnat]
  rw [hnat]
  omega

section Scans
variable {keys : List UInt32} {key : UInt32}

/-- The scan back from a position next to an equal key ends at the first equal key, and from any
    other position where it starts. -/
theorem scrollBack_eq (hsorted : keys.Pairwise (· ≤ ·)) {lower : ℕ} (hlower : lower ≤ keys.length) :
    scrollBack keys key lower
      = .ok (if below keys key < lower ∧ lower ≤ upTo keys key then below keys key else lower) := by
  induction lower with
  | zero => simp [scrollBack]
  | succ lower ih =>
    obtain ⟨x, hx⟩ : ∃ x, keys[lower]? = some x := ⟨_, List.getElem?_eq_getElem hlower⟩
    have heq : x = key ↔ _ := eq_iff hsorted hx
    rw [scrollBack, hx]
    simp only
    by_cases hxkey : x = key
    · obtain ⟨hge, hlt⟩ := heq.mp hxkey
      have hcond : below keys key < lower + 1 ∧ lower + 1 ≤ upTo keys key := ⟨by omega, hlt⟩
      rw [if_pos hxkey, ih (Nat.le_of_succ_le hlower), if_pos hcond]
      split_ifs with hbetween
      · rfl
      · exact congrArg _ (by omega)
    · rw [if_neg hxkey, if_neg fun hand => hxkey (heq.mpr ⟨Nat.le_of_lt_succ hand.1, hand.2⟩)]

/-- The scan stops well: the equal keys end before the array does, and `unsigned int` does not wrap
    before; or it wraps right after the last of them, and the first key is another one. -/
def RunEnds (keys : List UInt32) (key : UInt32) : Prop :=
  (upTo keys key < keys.length ∧ upTo keys key < UInt32.size) ∨
    (upTo keys key = UInt32.size ∧ 0 < below keys key)

instance (keys : List UInt32) (key : UInt32) : Decidable (RunEnds keys key) :=
  inferInstanceAs (Decidable (_ ∨ _))

theorem countRun_of_ne {k : UInt32} {x : UInt32} (hx : keys[k.toNat]? = some x) (hne : x ≠ key)
    (fuel : ℕ) (matches' : UInt64) : countRun keys key (fuel + 1) k matches' = .ok matches' := by
  rw [countRun, hx]
  exact if_neg fun hand => hne hand.1

theorem countRun_of_eq {k : UInt32} (hx : keys[k.toNat]? = some key)
    (fuel : ℕ) (matches' : UInt64) :
    countRun keys key (fuel + 1) k matches' = countRun keys key fuel (k + 1) (matches' + 1) := by
  rw [countRun, hx]
  exact if_pos ⟨rfl, (List.getElem?_eq_some_iff.mp hx).1⟩

theorem getElem?_eq_key (hsorted : keys.Pairwise (· ≤ ·)) {i : ℕ} (hge : below keys key ≤ i)
    (hlt : i < upTo keys key) : keys[i]? = some key := by
  have hread := List.getElem?_eq_getElem (hlt.trans_le (upTo_le_length keys key))
  rw [hread, (eq_iff hsorted hread).mpr ⟨hge, hlt⟩]

theorem toNat_ofNat_lt {n : ℕ} (h : n < UInt32.size) : (UInt32.ofNat n).toNat = n :=
  UInt32.toNat_ofNat_of_lt' h

/-- The scan over `c` of the equal keys. -/
theorem countRun_add (hsorted : keys.Pairwise (· ≤ ·)) (i c : ℕ) (hge : below keys key ≤ i)
    (hle : i + c ≤ upTo keys key) (hwrap : i + c ≤ UInt32.size) (fuel : ℕ) (matches' : UInt64) :
    countRun keys key (fuel + c) (UInt32.ofNat i) matches'
      = countRun keys key fuel (UInt32.ofNat (i + c)) (matches' + UInt64.ofNat c) := by
  induction c generalizing i matches' with
  | zero => simp
  | succ c ih =>
    have hread : keys[(UInt32.ofNat i).toNat]? = some key := by
      rw [toNat_ofNat_lt (by omega)]
      exact getElem?_eq_key hsorted hge (by omega)
    have hnext : UInt32.ofNat i + 1 = UInt32.ofNat (i + 1) := by rw [UInt32.ofNat_add]; rfl
    rw [← Nat.add_assoc, countRun_of_eq hread, hnext, ih (i + 1) (by omega) (by omega) (by omega),
      add_ofNat_succ, Nat.add_right_comm, Nat.add_assoc]

/-- Where all indices of an `unsigned int` hold the key, the scan does not end. -/
theorem countRun_diverges (hsorted : keys.Pairwise (· ≤ ·)) (hzero : below keys key = 0)
    (hsize : UInt32.size ≤ upTo keys key) (fuel : ℕ) (k : UInt32) (matches' : UInt64) :
    countRun keys key fuel k matches' = .error .diverges := by
  induction fuel generalizing k matches' with
  | zero => rfl
  | succ fuel ih =>
    have hread : keys[k.toNat]? = some key :=
      getElem?_eq_key hsorted (by omega) (k.toNat_lt.trans_le hsize)
    rw [countRun_of_eq hread, ih]

/-- The scan from the first of the equal keys to index `e`. -/
theorem countRun_to (hsorted : keys.Pairwise (· ≤ ·)) {e : ℕ} (hlt : below keys key < e)
    (hle : e ≤ upTo keys key) (hwrap : e ≤ UInt32.size) :
    ∃ fuel, ∀ matches', countRun keys key (keys.length + 1) (UInt32.ofNat (below keys key)) matches'
      = countRun keys key (fuel + 1) (UInt32.ofNat e)
        (matches' + UInt64.ofNat (e - below keys key)) := by
  have hlen := upTo_le_length keys key
  refine ⟨keys.length - (e - below keys key), fun matches' => ?_⟩
  have hfuel : keys.length + 1
      = keys.length - (e - below keys key) + 1 + (e - below keys key) := by omega
  rw [hfuel, countRun_add hsorted (below keys key) (e - below keys key) (Nat.le_refl _) (by omega)
    (by omega), Nat.add_sub_cancel' hlt.le]

/-- An `unsigned int` counts all equal keys. -/
theorem countRun_small (hsorted : keys.Pairwise (· ≤ ·)) (hlt : below keys key < upTo keys key)
    (hsmall : upTo keys key < UInt32.size) (matches' : UInt64) :
    Adds (countRun keys key (keys.length + 1) (UInt32.ofNat (below keys key)) matches') matches'
      (upTo keys key - below keys key) (RunEnds keys key) := by
  obtain ⟨fuel, hscan⟩ := countRun_to hsorted hlt (Nat.le_refl _) hsmall.le
  rw [hscan]
  rcases Nat.lt_or_ge (upTo keys key) keys.length with hinside | hend
  · have hread : keys[(UInt32.ofNat (upTo keys key)).toNat]? = some keys[upTo keys key] := by
      rw [toNat_ofNat_lt hsmall]; exact List.getElem?_eq_getElem hinside
    have hne : keys[upTo keys key] ≠ key := fun heq => Nat.lt_irrefl _
      ((eq_iff hsorted (List.getElem?_eq_getElem hinside)).mp heq).2
    exact .all (.inl ⟨hinside, hsmall⟩) (countRun_of_ne hread hne fuel _)
  · have hread : keys[(UInt32.ofNat (upTo keys key)).toNat]? = none := by
      rw [toNat_ofNat_lt hsmall]; exact List.getElem?_eq_none hend
    have hbad : ¬ RunEnds keys key := by
      rintro (⟨hinside, -⟩ | ⟨hsize, -⟩)
      · omega
      · omega
    exact .fails hbad (by rw [countRun, hread])

/-- The equal keys go beyond what an `unsigned int` counts: the index wraps to the first entry. -/
theorem countRun_wraps (hsorted : keys.Pairwise (· ≤ ·)) (hfirst : below keys key < UInt32.size)
    (hlarge : UInt32.size ≤ upTo keys key) (matches' : UInt64) :
    Adds (countRun keys key (keys.length + 1) (UInt32.ofNat (below keys key)) matches') matches'
      (upTo keys key - below keys key) (RunEnds keys key) := by
  have hlen := upTo_le_length keys key
  rcases Nat.eq_zero_or_pos (below keys key) with hzero | hpos
  · have hbad : ¬ RunEnds keys key := by
      rintro (⟨-, hsmall⟩ | ⟨-, hpos⟩)
      · omega
      · omega
    exact .fails hbad (countRun_diverges hsorted hzero hlarge _ _ _)
  · obtain ⟨fuel, hscan⟩ := countRun_to hsorted hfirst hlarge (Nat.le_refl _)
    have hread : keys[(UInt32.ofNat UInt32.size).toNat]? = some keys[0] := by
      have hwrap : (UInt32.ofNat UInt32.size).toNat = 0 := by decide
      rw [hwrap]
      exact List.getElem?_eq_getElem (by omega)
    have hne : keys[0] ≠ key := fun heq => Nat.not_le.mpr hpos
      ((eq_iff hsorted (List.getElem?_eq_getElem (by omega))).mp heq).1
    have hrun := (hscan matches').trans (countRun_of_ne hread hne fuel _)
    by_cases hsize : upTo keys key = UInt32.size
    · exact .all (.inr ⟨hsize, hpos⟩) (by rw [hrun, hsize])
    · have hbad : ¬ RunEnds keys key := by
        rintro (⟨-, hsmall⟩ | ⟨heq, -⟩)
        · omega
        · exact hsize heq
      exact .less hbad (by omega) hrun

/-- The first of the equal keys is out of reach of an `unsigned int`. -/
theorem countRun_far (hsorted : keys.Pairwise (· ≤ ·)) (hlt : below keys key < upTo keys key)
    (hfirst : UInt32.size ≤ below keys key) (matches' : UInt64) :
    Adds (countRun keys key (keys.length + 1) (UInt32.ofNat (below keys key)) matches') matches'
      (upTo keys key - below keys key) (RunEnds keys key) := by
  have hlen := upTo_le_length keys key
  have hbad : ¬ RunEnds keys key := by
    rintro (⟨-, hsmall⟩ | ⟨heq, -⟩)
    · omega
    · omega
  have hk : (UInt32.ofNat (below keys key)).toNat < below keys key :=
    (UInt32.toNat_lt _).trans_le hfirst
  have hread := List.getElem?_eq_getElem (l := keys)
    (i := (UInt32.ofNat (below keys key)).toNat) (by omega)
  have hne : keys[(UInt32.ofNat (below keys key)).toNat] ≠ key := fun heq =>
    Nat.not_le.mpr hk ((eq_iff hsorted hread).mp heq).1
  have hrun : countRun keys key (keys.length + 1) (UInt32.ofNat (below keys key)) matches'
      = .ok (matches' + UInt64.ofNat 0) := by
    rw [countRun_of_ne hread hne]
    simp
  exact .less hbad (by omega) hrun

/-- The scan from the first of the equal keys. -/
theorem countRun_cases (hsorted : keys.Pairwise (· ≤ ·)) (hlt : below keys key < upTo keys key)
    (matches' : UInt64) :
    Adds (countRun keys key (keys.length + 1) (UInt32.ofNat (below keys key)) matches') matches'
      (keys.countP (· = key)) (RunEnds keys key) := by
  have hcount : keys.countP (· = key) = upTo keys key - below keys key := by
    have hsum := below_add_countP keys key
    omega
  rw [hcount]
  rcases Nat.lt_or_ge (upTo keys key) UInt32.size with hsmall | hlarge
  · exact countRun_small hsorted hlt hsmall matches'
  · rcases Nat.lt_or_ge (below keys key) UInt32.size with hfirst | hfirst
    · exact countRun_wraps hsorted hfirst hlarge matches'
    · exact countRun_far hsorted hlt hfirst matches'

end Scans

end Inlj
end HashingBenchmark

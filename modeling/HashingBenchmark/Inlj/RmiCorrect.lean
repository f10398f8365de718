import HashingBenchmark.Inlj.RmiSearch

/-! When the learned-index probe counts the join.

    With an error of at most the guess, and a window that an `int` can count, the search ends next to
    the key if the index keeps its promise. A larger error makes the start of the window wrap to a
    position far behind the array, and then the search depends on where the first positions of its
    halving fall. Of a wider window the `int` keeps the low 32 bits with their sign, and the search
    runs in what these say: for such windows nothing is promised. And a key that is equal to the last
    one of the array is never counted in bounds: the scan over the equal keys reads the entry after
    the last before it tests the index (`RunEnds`). -/

namespace HashingBenchmark
namespace Inlj
open Join PrefixCount
open scoped UIntOrder

/-- The number of entries from `rmi_guess - err` to `rmi_guess + err`, or the last one of `n`. -/
def windowWidth (n : ℕ) (rmi_guess err : UInt64) : ℕ :=
  min (rmi_guess.toNat + err.toNat) (n - 1) + 1 + err.toNat - rmi_guess.toNat

/-- The window has at most `INT_MAX` entries, and starts in the array or is reached by the halving. -/
def Finds (keys : List UInt32) (key : UInt32) (rmi_guess err : UInt64) : Prop :=
  windowWidth keys.length rmi_guess err ≤ intMax ∧
    (err ≤ rmi_guess ∨ ∃ half ∈ halves (windowWidth keys.length rmi_guess err),
      err.toNat - rmi_guess.toNat ≤ half ∧
        half - (err.toNat - rmi_guess.toNat) < upTo keys key)

/-! ### The window -/

theorem boundStart_eq (rmi_guess err : UInt64) : boundStart rmi_guess err = rmi_guess - err := by
  have hnot : ¬ rmi_guess - err < 0 := fun h => absurd (UInt64.lt_iff_toNat_lt.mp h) (by simp)
  rw [boundStart]
  exact if_neg hnot

theorem toNat_boundEnd {n : ℕ} {rmi_guess err : UInt64} (hpos : 0 < n) (hn : n < 2 ^ 63)
    (hsum : rmi_guess.toNat + err.toNat < 2 ^ 64) :
    (boundEnd n rmi_guess err).toNat = min (rmi_guess.toNat + err.toNat) (n - 1) := by
  have hsize : (UInt64.ofNat n).toNat = n := UInt64.toNat_ofNat_of_lt' (hn.trans (by decide))
  have hlast : (UInt64.ofNat n - 1).toNat = n - 1 := by
    rw [UInt64.toNat_sub_of_le _ _ (by rw [UInt64.le_iff_toNat_le, hsize]; exact hpos), hsize]
    rfl
  have hadd : (rmi_guess + err).toNat = rmi_guess.toNat + err.toNat := by
    rw [UInt64.toNat_add, Nat.mod_eq_of_lt hsum]
  rw [boundEnd]
  simp only [UInt64.lt_iff_toNat_lt, hlast, hadd]
  split_ifs with h
  · rw [hlast]; omega
  · rw [hadd]; omega

theorem natAbs_toInt_le (x : UInt64) : (toInt x).natAbs ≤ 2 ^ 31 := by
  have hlow := Int32.le_toInt x.toUInt32.toInt32
  have hhigh := Int32.toInt_lt x.toUInt32.toInt32
  rw [toInt]
  omega

/-- The width of a window that an `int` can count. -/
theorem windowSize_eq {n : ℕ} {rmi_guess err : UInt64} (hn : n < 2 ^ 63) (hguess : rmi_guess.toNat < n)
    (hwidth : windowWidth n rmi_guess err ≤ intMax) :
    windowSize n rmi_guess err = (windowWidth n rmi_guess err : ℤ) := by
  rw [windowWidth, intMax] at hwidth
  have hsum : rmi_guess.toNat + err.toNat < 2 ^ 64 := by omega
  have hend := toNat_boundEnd (by omega) hn hsum
  have herr := err.toNat_lt
  have hnat : (boundEnd n rmi_guess err - boundStart rmi_guess err + 1).toNat
      = windowWidth n rmi_guess err := by
    rw [windowWidth, boundStart_eq, UInt64.toNat_add, UInt64.toNat_sub, UInt64.toNat_sub, hend]
    simp only [UInt64.toNat_one]
    omega
  rw [windowSize, toInt_eq (by rw [hnat, windowWidth, intMax]; exact hwidth), hnat]

section Probe
variable {keys : List UInt32} {key : UInt32} {rmi_guess err : UInt64}

/-- The search of a window that an `int` counts ends next to the key exactly if the window finds it. -/
theorem finds_iff (hfits : keys.length < 2 ^ 63) (hguess : rmi_guess.toNat < keys.length)
    (herr : key ∈ keys → ∃ p : ℕ, keys[p]? = some key ∧ rmi_guess.toNat ≤ p + err.toNat ∧
      p ≤ rmi_guess.toNat + err.toNat) (hsorted : keys.Pairwise (· ≤ ·))
    (hwidth : windowWidth keys.length rmi_guess err ≤ intMax) :
    Finds keys key rmi_guess err ↔ ∃ l, Ends keys.length (upTo keys key)
      (windowSize keys.length rmi_guess err) (boundStart rmi_guess err) l ∧
        Lands keys key l.toNat := by
  rw [Finds, and_iff_right hwidth, windowSize_eq hfits hguess hwidth, boundStart_eq]
  have hpos : ∃ p, key ∈ keys → below keys key ≤ p ∧ p < upTo keys key ∧ p < keys.length ∧
      rmi_guess.toNat ≤ p + err.toNat ∧ p ≤ rmi_guess.toNat + err.toNat := by
    by_cases hmem : key ∈ keys
    · obtain ⟨p, hp, hlow, hhigh⟩ := herr hmem
      obtain ⟨hge, hlt⟩ := (eq_iff hsorted hp).mp rfl
      exact ⟨p, fun _ => ⟨hge, hlt, (List.getElem?_eq_some_iff.mp hp).1, hlow, hhigh⟩⟩
    · exact ⟨0, fun h => absurd h hmem⟩
  obtain ⟨p, hp⟩ := hpos
  have hcount : windowWidth keys.length rmi_guess err = min (rmi_guess.toNat + err.toNat)
    (keys.length - 1) + 1 + err.toNat - rmi_guess.toNat := rfl
  by_cases hle : err ≤ rmi_guess
  · refine iff_of_true (.inl hle) ?_
    have hle' := UInt64.le_iff_toNat_le.mp hle
    have hstart := UInt64.toNat_sub_of_le _ _ hle
    have hwindow : (rmi_guess - err).toNat + windowWidth keys.length rmi_guess err
        ≤ keys.length := by omega
    have htarget : below keys key < upTo keys key → (rmi_guess - err).toNat ≤ upTo keys key ∧
        below keys key < (rmi_guess - err).toNat + windowWidth keys.length rmi_guess err := by
      intro hlt
      have hbounds := hp ((below_lt_upTo_iff keys key).mp hlt)
      omega
    obtain ⟨l, hends, hl, hbetween⟩ := ends_of_window _ (by omega) hfits.le hwindow htarget
    exact ⟨l, hends, lands_of_le hl fun hmem => hbetween ((below_lt_upTo_iff keys key).mpr hmem)⟩
  · rw [or_iff_right hle]
    have hgt : rmi_guess.toNat < err.toNat := by
      rw [← Nat.not_le, ← UInt64.le_iff_toNat_le]; exact hle
    refine (ends_wrapped_iff hfits.le ?_ (by omega) (by omega) (by omega) ?_).symm
    · have herr_lt := err.toNat_lt
      rw [UInt64.toNat_sub]
      omega
    · intro hmem
      have hbounds := hp hmem
      omega

/-- The body of the loop over S counts all pairs exactly if the search ends next to the key and the
    scan over the equal keys stops well. -/
theorem rmiProbe_countsWhen (r : KeyArray) (lookup : UInt32 → UInt64 × UInt64) :
    CountsWhen (rmiProbe lookup r.keys) r.keys fun key =>
      (∃ l, Ends r.keys.length (upTo r.keys key)
        (windowSize r.keys.length (lookup key).1 (lookup key).2)
        (boundStart (lookup key).1 (lookup key).2) l ∧ Lands r.keys key l.toNat) ∧
      (key ∈ r.keys → RunEnds r.keys key) := by
  intro key matches'
  beta_reduce
  rw [rmiProbe]
  have hiff := branchFree_iff r.sorted key (by decide : 31 < 33)
    (natAbs_toInt_le (boundEnd r.keys.length (lookup key).1 (lookup key).2
      - boundStart (lookup key).1 (lookup key).2 + 1)) (boundStart (lookup key).1 (lookup key).2)
  cases hsearch : branchFree r.keys key 33 (windowSize r.keys.length (lookup key).1 (lookup key).2)
      (boundStart (lookup key).1 (lookup key).2) with
  | error fault =>
    refine Adds.fails (e := fault) ?_ ?_
    · rintro ⟨⟨l, hends, -⟩, -⟩
      have hok := (hiff l).mpr hends
      rw [windowSize] at hsearch
      rw [hsearch] at hok
      cases hok
    · simp only [hsearch]
  | ok lower =>
    rw [windowSize] at hsearch
    have hends : ∀ l, Ends r.keys.length (upTo r.keys key)
        (windowSize r.keys.length (lookup key).1 (lookup key).2)
        (boundStart (lookup key).1 (lookup key).2) l ↔ lower = l := by
      intro l
      rw [windowSize, ← hiff l, hsearch, Except.ok.injEq]
    simp only [windowSize, hsearch]
    simp only [windowSize] at hends
    simp only [hends, exists_eq_left']
    exact extend_cases r.sorted lower.toNat matches'

end Probe

/-- A key equal to the last one is looked for behind the array, and so is a key below all others when
    the error is larger than the guess. -/
theorem rmi_probe_reads_outside :
    inljWithRmiProbeRelSPartition (fun _ => (0, 0)) ⟨[5], by decide, by decide, by decide⟩ [⟨5, 0⟩]
      = .error .outOfBounds ∧
    inljWithRmiProbeRelSPartition (fun _ => (0, 1)) ⟨[5, 9], by decide, by decide, by decide⟩
      [⟨3, 0⟩] = .error .outOfBounds := by
  decide

/-- CORRECT: with an index that keeps its error bound, the probe stays in the array and counts the
    join if, for each key of S, the window finds it and the scan over the equal keys stops well, and
    the number of pairs fits in 64 bits; where an `int` counts the windows, it does so only then. -/
theorem rmi_probe_counts_join_iff (r : KeyArray) (lookup : UInt32 → UInt64 × UInt64)
    (S : List Tuple) (hguess : ∀ key, (lookup key).1.toNat < r.keys.length)
    (herr : ∀ key ∈ r.keys, ∃ p : ℕ, r.keys[p]? = some key ∧
      (lookup key).1.toNat ≤ p + (lookup key).2.toNat ∧
      p ≤ (lookup key).1.toNat + (lookup key).2.toNat) :
    ((pairs r.keys S < UInt64.size ∧ ∀ t ∈ S, Finds r.keys t.key (lookup t.key).1 (lookup t.key).2 ∧
        (t.key ∈ r.keys → RunEnds r.keys t.key)) →
      ∃ matches', inljWithRmiProbeRelSPartition lookup r S = .ok matches' ∧
        matches'.toNat = pairs r.keys S) ∧
    ((∀ t ∈ S, windowWidth r.keys.length (lookup t.key).1 (lookup t.key).2 ≤ intMax) →
      ((∃ matches', inljWithRmiProbeRelSPartition lookup r S = .ok matches' ∧
        matches'.toNat = pairs r.keys S) →
      pairs r.keys S < UInt64.size ∧ ∀ t ∈ S, Finds r.keys t.key (lookup t.key).1 (lookup t.key).2 ∧
        (t.key ∈ r.keys → RunEnds r.keys t.key))) := by
  have hcounts := (rmiProbe_countsWhen r lookup).probeRelS_iff S
  have hfinds : ∀ key, windowWidth r.keys.length (lookup key).1 (lookup key).2 ≤ intMax → _ :=
    fun key => finds_iff r.fits (hguess key) (herr key) r.sorted
  constructor
  · rintro ⟨hfit, hcond⟩
    refine hcounts.mpr ⟨hfit, fun t ht => ?_⟩
    obtain ⟨hfind, hrun⟩ := hcond t ht
    exact ⟨(hfinds t.key hfind.1).mp hfind, hrun⟩
  · intro hwidth hcount
    obtain ⟨hfit, hcond⟩ := hcounts.mp hcount
    refine ⟨hfit, fun t ht => ?_⟩
    obtain ⟨hlands, hrun⟩ := hcond t ht
    exact ⟨(hfinds t.key (hwidth t ht)).mpr hlands, hrun⟩

/-- Two equal keys and a larger one, all guessed one slot off: the equal keys are counted and the last
    one is not. -/
theorem rmi_probe_counts_join_iff_three_keys :
    (∃ matches', inljWithRmiProbeRelSPartition (fun _ => (1, 1))
        ⟨[5, 5, 9], by decide, by decide, by decide⟩ [⟨5, 0⟩, ⟨7, 0⟩] = .ok matches' ∧
      matches'.toNat = 2) ∧
    ¬ ∃ matches', inljWithRmiProbeRelSPartition (fun _ => (1, 1))
        ⟨[5, 5, 9], by decide, by decide, by decide⟩ [⟨9, 0⟩] = .ok matches' ∧
      matches'.toNat = 1 := by
  have herr : ∀ key ∈ ([5, 5, 9] : List UInt32), ∃ p : ℕ, ([5, 5, 9] : List UInt32)[p]? = some key ∧
      1 ≤ p + 1 ∧ p ≤ 1 + 1 := by
    intro key hkey
    simp only [List.mem_cons, List.not_mem_nil, or_false] at hkey
    rcases hkey with rfl | rfl | rfl
    · exact ⟨0, rfl, by decide, by decide⟩
    · exact ⟨0, rfl, by decide, by decide⟩
    · exact ⟨2, rfl, by decide, by decide⟩
  constructor
  · refine (rmi_probe_counts_join_iff ⟨[5, 5, 9], by decide, by decide, by decide⟩ (fun _ => (1, 1))
      [⟨5, 0⟩, ⟨7, 0⟩] (fun _ => by decide) herr).1 ⟨by decide, ?_⟩
    intro t ht
    simp only [List.mem_cons, List.not_mem_nil, or_false] at ht
    rcases ht with rfl | rfl
    · exact ⟨⟨by decide, .inl (by decide)⟩, fun _ => (by decide : RunEnds [5, 5, 9] 5)⟩
    · exact ⟨⟨by decide, .inl (by decide)⟩, fun h => absurd h (by decide)⟩
  · intro hcount
    obtain ⟨-, hcond⟩ := (rmi_probe_counts_join_iff ⟨[5, 5, 9], by decide, by decide, by decide⟩
      (fun _ => (1, 1)) [⟨9, 0⟩] (fun _ => by decide) herr).2 (by decide) hcount
    have hrun : RunEnds [5, 5, 9] 9 := (hcond ⟨9, 0⟩ List.mem_cons_self).2 (by decide)
    exact absurd hrun (by decide)

end Inlj
end HashingBenchmark

import HashingBenchmark.Inlj.CssFits

/-! When the CSS-tree probe counts the join.

    From any position but 0 the two scans count all equal keys behind the first entry of the array
    (`scanDown_eq`, `scanUp_eq`), and a key that the tree leads there is above the first entry. From
    position 0 the scan down starts at index `2 ^ 64 - 1`, outside the array: this happens for all keys
    up to the last one of the first block, and for all keys if R has one tuple and the node more than
    one slot (`cssProbe_countsWhen`). -/

namespace HashingBenchmark
namespace Inlj
open Join FanoutTree PrefixCount
open scoped UIntOrder

section Scans
variable {keys : List UInt32} {key : UInt32}

/-- The comparisons of a scan with the entry at `j`. -/
theorem compare_entry (hsorted : keys.Pairwise (· ≤ ·)) (key : UInt32) {j : ℕ}
    (hj : j < keys.length) :
    ∃ x, keys[j]? = some x ∧ (x = key ↔ below keys key ≤ j ∧ j < upTo keys key) ∧
      (x < key ↔ j < below keys key) ∧ (x > key ↔ upTo keys key ≤ j) := by
  have hread := List.getElem?_eq_getElem hj
  refine ⟨_, hread, eq_iff hsorted hread, lt_iff_lt_below hsorted hread, ?_⟩
  rw [gt_iff_lt, ← not_le, le_iff_lt_upTo hsorted hread, Nat.not_lt]

/-- The scan down counts the equal keys up to `j`, except one at index 0. -/
theorem scanDown_eq (hsorted : keys.Pairwise (· ≤ ·)) {j : ℕ} (hj : j < keys.length)
    (matches' : UInt64) :
    scanDown keys key j matches' =
      .ok (matches' + UInt64.ofNat (min (j + 1) (upTo keys key) - max 1 (below keys key))) := by
  have hle := below_add_countP keys key
  induction j generalizing matches' with
  | zero =>
    rw [scanDown, Nat.sub_eq_zero_of_le (by omega)]
    simp
  | succ j ih =>
    obtain ⟨x, hread, heq, hlt, -⟩ := compare_entry hsorted key hj
    rw [scanDown, hread]
    simp only
    split_ifs with hxeq hxlt
    · obtain ⟨hge, hltUp⟩ := heq.mp hxeq
      have hcount : min (j + 1 + 1) (upTo keys key) - max 1 (below keys key)
          = min (j + 1) (upTo keys key) - max 1 (below keys key) + 1 := by omega
      rw [ih (by omega), hcount, add_ofNat_succ]
    · rw [hlt] at hxlt
      rw [Nat.sub_eq_zero_of_le (by omega)]
      simp
    · rw [heq] at hxeq
      rw [hlt] at hxlt
      have hcount : min (j + 1 + 1) (upTo keys key) = min (j + 1) (upTo keys key) := by omega
      rw [ih (by omega), hcount]

/-- The scan up counts the equal keys from `j` on. -/
theorem scanUp_eq (hsorted : keys.Pairwise (· ≤ ·)) {n j : ℕ} (hn : j + n = keys.length)
    (matches' : UInt64) :
    scanUp keys key n j matches' =
      .ok (matches' + UInt64.ofNat (upTo keys key - max j (below keys key))) := by
  have hlen := upTo_le_length keys key
  induction n generalizing j matches' with
  | zero =>
    rw [scanUp, Nat.sub_eq_zero_of_le (by omega)]
    simp
  | succ n ih =>
    obtain ⟨x, hread, heq, -, hgt⟩ := compare_entry hsorted key (show j < keys.length by omega)
    rw [scanUp, hread]
    simp only
    split_ifs with hxeq hxgt
    · obtain ⟨hge, hltUp⟩ := heq.mp hxeq
      have hcount : upTo keys key - max j (below keys key)
          = upTo keys key - max (j + 1) (below keys key) + 1 := by omega
      rw [ih (by omega), hcount, add_ofNat_succ]
    · rw [hgt] at hxgt
      rw [Nat.sub_eq_zero_of_le (by omega)]
      simp
    · rw [heq] at hxeq
      rw [hgt] at hxgt
      have hcount : max (j + 1) (below keys key) = max j (below keys key) := by omega
      rw [ih (by omega), hcount]

/-- Both scans, from a position behind the first entry. -/
theorem scans_eq (hsorted : keys.Pairwise (· ≤ ·)) (hfits : keys.length < 2 ^ 63) {p : ℕ}
    (hpos : 0 < p) (hp : p ≤ keys.length) (hbelow : 0 < below keys key) (matches' : UInt64) :
    ∃ down, scanDown keys key (UInt64.ofNat p - 1).toNat matches' = .ok down ∧
      scanUp keys key (keys.length - p) p down
        = .ok (matches' + UInt64.ofNat (keys.countP (· = key))) := by
  have hnat : (UInt64.ofNat p - 1).toNat = p - 1 := by
    have hp' : (UInt64.ofNat p).toNat = p :=
      UInt64.toNat_ofNat_of_lt' ((hp.trans_lt hfits).trans (by decide))
    rw [UInt64.toNat_sub_of_le _ _ (by rw [UInt64.le_iff_toNat_le, hp']; exact hpos), hp']
    rfl
  refine ⟨_, by rw [hnat]; exact scanDown_eq hsorted (by omega) matches', ?_⟩
  have hsum := below_add_countP keys key
  have hcount : min (p - 1 + 1) (upTo keys key) - max 1 (below keys key)
      + (upTo keys key - max p (below keys key)) = keys.countP (· = key) := by omega
  rw [scanUp_eq hsorted (by omega), UInt64.add_assoc, ← UInt64.ofNat_add, hcount]

/-- From position 0 the scan down reads behind the array. -/
theorem scanDown_zero (hfits : keys.length < 2 ^ 63) (matches' : UInt64) :
    scanDown keys key (UInt64.ofNat 0 - 1).toNat matches' = .error .outOfBounds := by
  have hnat : (UInt64.ofNat 0 - 1).toNat = 18446744073709551614 + 1 := by decide
  rw [hnat, scanDown, List.getElem?_eq_none (by omega)]

end Scans

theorem getElem?_zero (r : KeyArray) : r.keys[0]? = some (r.keyAt 0) := by
  have hpos := r.length_pos
  rw [List.getElem?_eq_getElem hpos, KeyArray.keyAt]
  simp [Nat.not_le.mpr hpos]

/-- The body of the loop over S counts all pairs exactly if the tree leads behind the first block, and
    the search stays in `int`. -/
theorem cssProbe_countsWhen {r : KeyArray} {fanout : ℕ} {malloc : ℕ → UInt32} {tree : CssTree}
    (hfanout : 2 ≤ fanout) (hbuilt : Built r fanout malloc tree) :
    CountsWhen (cssProbe tree r.keys) r.keys fun key =>
      r.keyAt (fanout - 2) < key ∧ (r.keys.length = 1 → fanout = 2) ∧
        tree.numKey + tree.block key * tree.blockSize ≤ intMax := by
  intro key matches'
  change Adds (cssProbe tree r.keys key matches') matches' (r.keys.countP (· = key)) _
  have hzero := hbuilt.position_eq_zero_iff hfanout key
  rw [cssProbe, hbuilt.search_eq hfanout]
  by_cases hfits : tree.numKey + tree.block key * tree.blockSize ≤ intMax
  swap
  · refine .fails (e := .overflow) (fun hgood => hfits hgood.2.2) ?_
    rw [if_neg hfits]
  rw [if_pos hfits]
  simp only [hfits, and_true]
  by_cases hgood : r.keyAt (fanout - 2) < key ∧ (r.keys.length = 1 → fanout = 2)
  · have hne := mt hzero.mp (not_not.mpr hgood)
    have hbelow : 0 < below r.keys key := (lt_iff_lt_below r.sorted (getElem?_zero r)).mp
      ((keyAt_le r (Nat.zero_le _)).trans_lt hgood.1)
    obtain ⟨down, hdown, hup⟩ := scans_eq r.sorted r.fits (Nat.pos_of_ne_zero hne)
      (by split_ifs <;> omega) hbelow matches'
    refine .all hgood ?_
    rw [hdown]
    exact hup
  · refine .fails (e := .outOfBounds) hgood ?_
    rw [hzero.mpr hgood, scanDown_zero r.fits]

/-- In an array of two up to about `2 ^ 31 / fanout ^ 2` keys the tree exists, and the pairs of the
    keys above the first block are counted. -/
theorem css_probe_of_small (r : KeyArray) {fanout : ℕ} (hfanout : 2 ≤ fanout) (malloc : ℕ → UInt32)
    (hsmall : fanout ^ 3 * divRoundUp r.keys.length (fanout - 1) ≤ intMax + 1)
    (hlength : r.keys.length ≠ 1) {S : List Tuple} (hS : ∀ t ∈ S, r.keyAt (fanout - 2) < t.key) :
    ∃ tree, cssTree r fanout malloc = .ok tree ∧
      inljWithCsstreeProbeRelSPartition tree r S = .ok (UInt64.ofNat (pairs r.keys S)) := by
  obtain ⟨tree, htree, hfits⟩ := small_fits hfanout malloc hsmall
  have hcounts := cssProbe_countsWhen hfanout (built_of_cssTree htree)
  refine ⟨tree, htree, ?_⟩
  have hrun := hcounts.probeRelS_eq
    (fun t ht => ⟨hS t ht, fun hone => absurd hone hlength, hfits t.key⟩) 0
  rwa [UInt64.zero_add] at hrun

/-- A key in the first block of R is looked for behind the array. -/
theorem css_probe_reads_outside :
    ∃ tree, cssTree ⟨[5, 9], by decide, by decide, by decide⟩ 3 (fun _ => 0) = .ok tree ∧
      inljWithCsstreeProbeRelSPartition tree ⟨[5, 9], by decide, by decide, by decide⟩ [⟨5, 0⟩]
        = .error .outOfBounds :=
  ⟨_, rfl, by decide⟩

/-- CORRECT: the probe stays in the array and counts the join exactly if each key of S is above the
    first block of R, a single tuple of R has a tree with one slot a node, and the search stays in
    `int`; the number of pairs must fit in 64 bits. -/
theorem css_probe_counts_join_iff (r : KeyArray) (fanout : ℕ) (hfanout : 2 ≤ fanout)
    (malloc : ℕ → UInt32) (tree : CssTree) (htree : cssTree r fanout malloc = .ok tree)
    (S : List Tuple) :
    (∃ matches', inljWithCsstreeProbeRelSPartition tree r S = .ok matches' ∧
      matches'.toNat = pairs r.keys S) ↔
    pairs r.keys S < UInt64.size ∧ ∀ t ∈ S, r.keyAt (fanout - 2) < t.key ∧
      (r.keys.length = 1 → fanout = 2) ∧
      tree.numKey + tree.block t.key * tree.blockSize ≤ intMax :=
  (cssProbe_countsWhen hfanout (built_of_cssTree htree)).probeRelS_iff S

/-- Two of three keys above the first block. -/
theorem css_probe_counts_join_iff_three_keys :
    ∃ tree, cssTree ⟨[5, 9, 9], by decide, by decide, by decide⟩ 2 (fun _ => 0) = .ok tree ∧
      ∃ matches', inljWithCsstreeProbeRelSPartition tree
          ⟨[5, 9, 9], by decide, by decide, by decide⟩ [⟨9, 0⟩, ⟨12, 0⟩, ⟨9, 1⟩] = .ok matches' ∧
        matches'.toNat = pairs [5, 9, 9] [⟨9, 0⟩, ⟨12, 0⟩, ⟨9, 1⟩] :=
  ⟨_, rfl, (css_probe_counts_join_iff ⟨[5, 9, 9], by decide, by decide, by decide⟩ 2 (by decide)
    (fun _ => 0) _ rfl [⟨9, 0⟩, ⟨12, 0⟩, ⟨9, 1⟩]).mpr ⟨by decide, by decide⟩⟩

end Inlj
end HashingBenchmark

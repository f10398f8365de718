import HashingBenchmark.Gapped.TouchUp

/-! When the touch-up pass sorts every run.

    Two things go wrong. A neighbour pair with key 1 in it is not collected, so a run with this key
    is written back with keys missing (`flushed_iff`). A run of two or more keys that reaches the end
    of the array is never written back. -/

namespace HashingBenchmark
namespace Gapped
open Runs
open scoped UIntOrder

theorem one_lt_of_ne {key : UInt32} (h0 : key ≠ 0) (h1 : key ≠ 1) : 1 < key := by
  rw [UInt32.lt_iff_toNat_lt]
  rw [← UInt32.toNat_inj.ne] at h0 h1
  simp at h0 h1 ⊢
  omega

theorem one_notMem_collectedAfter (x : UInt32) (keys : List UInt32) :
    (1 : UInt32) ∉ collectedAfter x keys := by
  induction keys generalizing x with
  | nil => simp [collectedAfter]
  | cons y keys ih =>
    have hne : ¬ (1 < x ∧ 1 < y ∧ (1 : UInt32) = y) := by
      rintro ⟨-, hlt, rfl⟩; exact absurd hlt (by decide)
    rw [collectedAfter, List.mem_append, not_or]
    refine ⟨?_, ih y⟩
    split_ifs with hone
    · intro hmem
      exact hne ⟨hone.1, hone.2, List.mem_singleton.mp hmem⟩
    · simp

theorem collectedAfter_eq {x : UInt32} {keys : List UInt32} (hx : 1 < x)
    (hkeys : ∀ key ∈ keys, 1 < key) : collectedAfter x keys = keys := by
  induction keys generalizing x with
  | nil => rfl
  | cons y keys ih =>
    have hy := hkeys y List.mem_cons_self
    rw [collectedAfter, if_pos ⟨hx, hy⟩,
      ih hy fun key hkey => hkeys key (List.mem_cons_of_mem y hkey)]
    rfl

section Flush
variable {run keys : List UInt32} {x y z : UInt32}

theorem one_lt_of_mem (hzero : (0 : UInt32) ∉ run) {key : UInt32} (hkey : key ∈ run) (hne : key ≠ 1) :
    1 < key := one_lt_of_ne (fun h0 => hzero (h0 ▸ hkey)) hne

/-- A run without key 1 is collected as it is. -/
theorem flushed_of_notMem (hzero : (0 : UInt32) ∉ run) (hnot : (1 : UInt32) ∉ run) :
    flushed run = run.insertionSort (· ≤ ·) := by
  have hcollected : collected run = run := by
    cases run with
    | nil => rfl
    | cons x keys =>
      have hgreater : ∀ key ∈ x :: keys, 1 < key := fun key hkey =>
        one_lt_of_mem hzero hkey (fun h => hnot (h ▸ hkey))
      rw [collected, collectedAfter_eq (hgreater x List.mem_cons_self)
        fun key hkey => hgreater key (List.mem_cons_of_mem x hkey)]
  rw [flushed, hcollected, List.drop_length, List.append_nil]

/-- The key after key 1 is not collected, and the flush overwrites it. -/
theorem notMem_flushed (hzero : (0 : UInt32) ∉ 1 :: y :: z :: keys)
    (hnodup : (1 :: y :: z :: keys).Nodup) : y ∉ flushed (1 :: y :: z :: keys) := by
  have hgreater : ∀ key ∈ z :: keys, 1 < key := by
    intro key hkey
    refine one_lt_of_mem hzero (by simp at hkey ⊢; tauto) ?_
    rintro rfl
    simp at hnodup hkey
    tauto
  have hy : 1 < y := one_lt_of_mem hzero (by simp) (by rintro rfl; simp at hnodup)
  have hcollected : collected (1 :: y :: z :: keys) = 1 :: z :: keys := by
    rw [collected, collectedAfter, collectedAfter_eq hy hgreater]
    simp
  intro hmem
  rw [flushed, hcollected, List.mem_append, (List.perm_insertionSort _ _).mem_iff] at hmem
  rcases hmem with hmem | hmem
  · simp at hnodup hmem
    tauto
  · have hdrop : y ∈ z :: keys := List.mem_of_mem_drop (i := keys.length) hmem
    simp at hnodup hdrop
    tauto

/-- Key 1 is not collected after another key, so it stays behind a larger one. -/
theorem not_sorted_flushed (hzero : (0 : UInt32) ∉ x :: keys) (hx : x ≠ 1)
    (hmem : (1 : UInt32) ∈ flushed (x :: keys)) : ¬ (flushed (x :: keys)).Pairwise (· ≤ ·) := by
  intro hsorted
  have hnot : (1 : UInt32) ∉ (collected (x :: keys)).insertionSort (· ≤ ·) := by
    rw [(List.perm_insertionSort _ _).mem_iff, collected, List.mem_cons, not_or]
    exact ⟨fun h => hx h.symm, one_notMem_collectedAfter x keys⟩
  have hx_mem : x ∈ (collected (x :: keys)).insertionSort (· ≤ ·) := by
    rw [(List.perm_insertionSort _ _).mem_iff, collected]
    exact List.mem_cons_self
  rw [flushed, List.mem_append] at hmem
  rw [flushed, List.pairwise_append] at hsorted
  have hle := hsorted.2.2 x hx_mem 1 (hmem.resolve_left hnot)
  exact absurd (one_lt_of_mem hzero List.mem_cons_self hx) (not_lt.mpr hle)

/-- The flush sorts a run exactly if key 1 is not in it, or is its first key and at most one key
    comes after it. -/
theorem flushed_iff (hzero : (0 : UInt32) ∉ run) (hnodup : run.Nodup) :
    ((flushed run).Perm run ∧ (flushed run).Pairwise (· ≤ ·)) ↔
      (1 : UInt32) ∉ run ∨ (run.head? = some 1 ∧ run.length ≤ 2) := by
  constructor
  · rintro ⟨hperm, hsorted⟩
    by_contra hcon
    rw [not_or, not_not, not_and] at hcon
    obtain ⟨hmem, hlong⟩ := hcon
    cases run with
    | nil => simp at hmem
    | cons x keys =>
      by_cases hx : x = 1
      · subst hx
        rcases keys with _ | ⟨y, _ | ⟨z, keys⟩⟩
        · simp at hlong
        · simp at hlong
        · exact notMem_flushed hzero hnodup (hperm.mem_iff.mpr (by simp))
      · exact not_sorted_flushed hzero hx (hperm.mem_iff.mpr hmem) hsorted
  · rintro (hnot | ⟨hhead, hlen⟩)
    · rw [flushed_of_notMem hzero hnot]
      exact ⟨List.perm_insertionSort _ run, List.pairwise_insertionSort (· ≤ ·) run⟩
    · rcases run with _ | ⟨x, _ | ⟨y, _ | ⟨z, keys⟩⟩⟩
      · simp at hhead
      · simp [flushed, collected, collectedAfter]
      · obtain rfl : x = 1 := by simpa using hhead
        have hy : 1 < y := one_lt_of_mem hzero (by simp) (by rintro rfl; simp at hnodup)
        simp [flushed, collected, collectedAfter, hy.le]
      · simp at hlen

end Flush

/-- What the pass is for: the gaps stay, and every maximal run is sorted in place. -/
structure SortsRuns (vec out : List UInt32) : Prop where
  gaps : ∀ i : ℕ, vec[i]? = some 0 → out[i]? = some 0
  runs : ∀ pre run post, MaximalRun 0 vec pre run post →
    ((out.drop pre.length).take run.length).Perm run ∧
      ((out.drop pre.length).take run.length).Pairwise (· ≤ ·)

theorem gaps_kept {runs : List (List UInt32)} {last : List UInt32}
    (hmem : ∀ r ∈ runs, (0 : UInt32) ∉ r) (i : ℕ) (hi : (closed 0 runs ++ last)[i]? = some 0) :
    (closed 0 (runs.map flushed) ++ last)[i]? = some 0 := by
  induction runs generalizing i with
  | nil => exact hi
  | cons r runs ih =>
    rw [List.map_cons, closed_cons, List.append_assoc, List.cons_append] at *
    by_cases hlt : i < r.length
    · rw [List.getElem?_append_left hlt] at hi
      exact absurd (List.mem_of_getElem? hi) (hmem r List.mem_cons_self)
    · have hge : r.length ≤ i := Nat.le_of_not_lt hlt
      rw [List.getElem?_append_right hge] at hi
      rw [List.getElem?_append_right (by rw [length_flushed]; exact hge), length_flushed]
      cases hsub : i - r.length with
      | zero => simp
      | succ j =>
        rw [hsub, List.getElem?_cons_succ] at hi
        rw [List.getElem?_cons_succ]
        exact ih (fun r' hr' => hmem r' (List.mem_cons_of_mem r hr')) j hi

/-- A run of two keys at the end is left as it is, and so is a key 1 behind a larger key. -/
theorem touch_up_leaves_runs_unsorted :
    (¬ ∃ out, touchUp 0 [3, 2] = .ok out ∧ SortsRuns [3, 2] out) ∧
    ¬ ∃ out, touchUp 0 [2, 1, 0] = .ok out ∧ SortsRuns [2, 1, 0] out := by
  constructor
  · rintro ⟨out, hout, hsorts⟩
    obtain rfl : [3, 2] = out := by
      have hrun : touchUp 0 [3, 2] = .ok [3, 2] := by decide
      exact Except.ok.inj (hrun.symm.trans hout)
    have hrun := hsorts.runs [] [3, 2] [] ⟨rfl, by simp, by decide, by simp, by simp⟩
    exact absurd hrun.2 (by decide)
  · rintro ⟨out, hout, hsorts⟩
    obtain rfl : [2, 1, 0] = out := by
      have hrun : touchUp 0 [2, 1, 0] = .ok [2, 1, 0] := by decide
      exact Except.ok.inj (hrun.symm.trans hout)
    have hrun := hsorts.runs [] [2, 1] [0] ⟨rfl, by simp, by decide, by simp, by simp⟩
    exact absurd hrun.2 (by decide)

/-- CORRECT: with distinct keys the pass sorts every run exactly if the run that reaches the end is
    in order already, and key 1 is in no other run, unless it starts a run of at most two keys. -/
theorem touch_up_sorts_runs_iff (uninitialised : UInt32) (vec : List UInt32)
    (hlen : 2 ≤ vec.length) (hnodup : (vec.filter (· ≠ 0)).Nodup) :
    (∃ out, touchUp uninitialised vec = .ok out ∧ SortsRuns vec out) ↔
      ∀ pre run post, MaximalRun 0 vec pre run post →
        if post = [] then run.Pairwise (· ≤ ·)
        else (1 : UInt32) ∉ run ∨ (run.head? = some 1 ∧ run.length ≤ 2) := by
  obtain ⟨runs, last, hout, rfl, hmem, hlast⟩ := touchUp_eq uninitialised hlen
  have hdistinct : ∀ r ∈ runs, r.Nodup := by
    intro r hr
    obtain ⟨before, after, rfl⟩ := List.append_of_mem hr
    have hfilter : r.filter (· ≠ 0) = r := by
      rw [List.filter_eq_self]
      intro key hkey
      exact decide_eq_true fun h0 => hmem r hr (h0 ▸ hkey)
    rw [← hfilter]
    refine hnodup.sublist (List.Sublist.filter _ ?_)
    exact List.IsInfix.sublist ⟨closed 0 before, 0 :: (closed 0 after ++ last), by simp⟩
  have hiff := forall_maximalRun_iff hmem hlast length_flushed fun run out =>
    out.Perm run ∧ out.Pairwise (· ≤ ·)
  have hsorts : (∃ out, touchUp uninitialised (closed 0 runs ++ last) = .ok out ∧
      SortsRuns (closed 0 runs ++ last) out) ↔
      (∀ r ∈ runs, r ≠ [] → (flushed r).Perm r ∧ (flushed r).Pairwise (· ≤ ·)) ∧
        (last ≠ [] → last.Perm last ∧ last.Pairwise (· ≤ ·)) := by
    rw [← hiff]
    constructor
    · rintro ⟨out, hrun, hgood⟩
      obtain rfl := Except.ok.inj (hout.symm.trans hrun)
      exact hgood.runs
    · intro hgood
      exact ⟨_, hout, gaps_kept hmem, hgood⟩
  rw [hsorts]
  constructor
  · rintro ⟨hruns, hend⟩ pre run post hrun
    rcases (maximalRun_closed_iff hmem hlast).mp hrun with
      ⟨before, after, rfl, hne, rfl, rfl⟩ | ⟨rfl, hne, rfl, rfl⟩
    · rw [if_neg (List.cons_ne_nil _ _)]
      exact (flushed_iff (hmem run (by simp)) (hdistinct run (by simp))).mp (hruns run (by simp) hne)
    · rw [if_pos rfl]
      exact (hend hne).2
  · intro hall
    constructor
    · intro r hr hne
      obtain ⟨before, after, rfl⟩ := List.append_of_mem hr
      have hrun := hall _ r _
        ((maximalRun_closed_iff hmem hlast).mpr (.inl ⟨before, after, rfl, hne, rfl, rfl⟩))
      rw [if_neg (List.cons_ne_nil _ _)] at hrun
      exact (flushed_iff (hmem r hr) (hdistinct r hr)).mpr hrun
    · intro hne
      have hrun := hall _ last _
        ((maximalRun_closed_iff hmem hlast).mpr (.inr ⟨rfl, hne, rfl, rfl⟩))
      rw [if_pos rfl] at hrun
      exact ⟨List.Perm.refl last, hrun⟩

/-- An array with a run that is out of order and ends with a gap, and a run of one key at the end. -/
theorem touch_up_sorts_runs_iff_two_runs :
    ∃ out, touchUp 0 [5, 3, 4, 0, 7] = .ok out ∧ SortsRuns [5, 3, 4, 0, 7] out := by
  refine (touch_up_sorts_runs_iff 0 [5, 3, 4, 0, 7] (by decide) (by decide)).mpr
    fun pre run post hrun => ?_
  have hlist : [5, 3, 4, 0, 7] = closed 0 [[5, 3, 4]] ++ [(7 : UInt32)] := rfl
  rw [hlist, maximalRun_closed_iff (by decide) (by decide)] at hrun
  rcases hrun with ⟨before, after, hsplit, -, -, rfl⟩ | ⟨rfl, -, -, rfl⟩
  · have hmem : run ∈ [[(5 : UInt32), 3, 4]] := by
      rw [hsplit]
      exact List.mem_append_right _ List.mem_cons_self
    rw [List.mem_singleton.mp hmem, if_neg (List.cons_ne_nil _ _)]
    exact Or.inl (by decide)
  · rw [if_pos rfl]
    exact List.pairwise_singleton _ _

end Gapped
end HashingBenchmark

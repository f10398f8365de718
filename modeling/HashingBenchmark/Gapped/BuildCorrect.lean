import HashingBenchmark.Gapped.Insert

/-! When the model-based build keeps every key.

    A key that is lost never comes back, and an insert adds at most one key. So the build keeps every
    key exactly if every insert does. -/

namespace HashingBenchmark
namespace Gapped
open Join Outcome

section Run
variable {lookup : UInt32 → UInt64} {scaling_factor : UInt64}

/-- A run adds at most one key for each tuple. -/
theorem length_entries_le {rel_r : List Tuple} {vec out : List UInt32}
    (hlen : vec.length ≤ maxSize) (hkeys : ∀ t ∈ rel_r, t.key ≠ 0)
    (hrun : insertTuples lookup scaling_factor rel_r vec = .returned out) :
    (entries out).length ≤ (entries vec).length + rel_r.length := by
  have hinv := runAll_induction (I := fun done u => u.length = vec.length ∧
    (entries u).length ≤ (entries vec).length + done.length) ⟨rfl, Nat.le_refl _⟩ ?_ hrun
  · exact hinv.2
  · rintro done t u v hpre ⟨hu, hle⟩ hcall
    have hkey := hkeys t (hpre.subset (by simp))
    rw [List.length_append, List.length_singleton]
    rcases insertKey_spec (by rw [hu]; exact hlen) hkey (lookup t.key * scaling_factor) with
      ⟨-, v', hcall', hlength, hperm⟩ | ⟨-, hall⟩
    · obtain rfl := Outcome.returned.inj (hcall.symm.trans hcall')
      have hcount := hperm.length_eq
      rw [List.length_cons] at hcount
      exact ⟨hlength.trans hu, by omega⟩
    · obtain ⟨hlength, hcount⟩ := hall v hcall
      exact ⟨hlength.trans hu, by omega⟩

/-- A run keeps every key exactly if each key fits when it is inserted. -/
theorem insertTuples_iff {rel_r : List Tuple} {vec : List UInt32} (hlen : vec.length ≤ maxSize)
    (hkeys : ∀ t ∈ rel_r, t.key ≠ 0) :
    (∃ out, insertTuples lookup scaling_factor rel_r vec = .returned out ∧
      (entries out).Perm (rel_r.map Tuple.key ++ entries vec)) ↔
    ∀ pre t post, rel_r = pre ++ t :: post → ∀ u,
      insertTuples lookup scaling_factor pre vec = .returned u →
        Fits u (lookup t.key * scaling_factor).toNat := by
  induction rel_r generalizing vec with
  | nil => simp [insertTuples]
  | cons t rel_r ih =>
    have hrest : ∀ t' ∈ rel_r, t'.key ≠ 0 := fun t' h => hkeys t' (List.mem_cons_of_mem t h)
    rcases insertKey_spec hlen (hkeys t List.mem_cons_self) (lookup t.key * scaling_factor) with
      ⟨hfits, v, hcall, hlength, hperm⟩ | ⟨hnot, hall⟩
    · have hcons : ∀ l, insertTuples lookup scaling_factor (t :: l) vec
          = insertTuples lookup scaling_factor l v := by
        intro l
        rw [insertTuples, runAll_cons, hcall, andThen_returned]
        rfl
      have hkeep : ∀ out : List UInt32,
          (entries out).Perm ((t :: rel_r).map Tuple.key ++ entries vec) ↔
          (entries out).Perm (rel_r.map Tuple.key ++ entries v) := by
        intro out
        have hmove : ((t :: rel_r).map Tuple.key ++ entries vec).Perm
            (rel_r.map Tuple.key ++ entries v) := by
          rw [List.map_cons, List.cons_append]
          exact List.perm_middle.symm.trans (hperm.symm.append_left _)
        exact ⟨fun h => h.trans hmove, fun h => h.trans hmove.symm⟩
      have hhead : ∀ u, insertTuples lookup scaling_factor [] vec = .returned u →
          Fits u (lookup t.key * scaling_factor).toNat := by
        intro u hu
        rw [insertTuples, runAll_nil, Outcome.returned.injEq] at hu
        rw [← hu]; exact hfits
      rw [forall_split_cons, and_iff_right hhead]
      simp only [hcons, hkeep]
      exact ih (by rw [hlength]; exact hlen) hrest
    · constructor
      · -- the key is lost, and the inserts after it cannot make up for it
        rintro ⟨out, hrun, hperm⟩
        rw [insertTuples, runAll_cons, andThen_eq_returned] at hrun
        obtain ⟨v, hcall, hrun⟩ := hrun
        obtain ⟨hlength, hcount⟩ := hall v hcall
        have hle := length_entries_le (by rw [hlength]; exact hlen) hrest hrun
        have hsize := hperm.length_eq
        rw [List.length_append, List.length_map, List.length_cons] at hsize
        omega
      · intro h
        exact absurd (h [] t rel_r rfl vec rfl) hnot

end Run

/-- Six keys in a vector of six slots; the last one moves three entries over the first key. -/
theorem model_based_build_loses_key :
    ¬ ∃ out, modelBasedBuild (fun key => (key / 10).toUInt64) 1 0
        [⟨1, 0⟩, ⟨10, 0⟩, ⟨30, 0⟩, ⟨40, 0⟩, ⟨50, 0⟩, ⟨31, 0⟩] = .returned out ∧
      (entries out).Perm [1, 10, 30, 40, 50, 31] := by
  rintro ⟨out, hrun, hperm⟩
  have hvec : modelBasedBuild (fun key => (key / 10).toUInt64) 1 0
      [⟨1, 0⟩, ⟨10, 0⟩, ⟨30, 0⟩, ⟨40, 0⟩, ⟨50, 0⟩, ⟨31, 0⟩] = .returned [10, 0, 30, 31, 40, 50] := by
    decide
  obtain rfl := Outcome.returned.inj (hvec.symm.trans hrun)
  exact absurd hperm (by decide)

/-- CORRECT: the build ends normally with exactly the keys of R in the vector if and only if the
    vector can be created, and at each insert a gap is where the build needs one. -/
theorem model_based_build_keeps_keys_iff (lookup : UInt32 → UInt64) (scaling_factor : UInt64)
    (unspecified : UInt32) (rel_r : List Tuple) (hkeys : ∀ t ∈ rel_r, t.key ≠ 0) :
    (∃ out, modelBasedBuild lookup scaling_factor unspecified rel_r = .returned out ∧
      (entries out).Perm (rel_r.map Tuple.key)) ↔
    (gappedSize lookup scaling_factor unspecified rel_r).toNat ≤ maxSize ∧
    ∀ pre t post, rel_r = pre ++ t :: post → ∀ vec,
      insertTuples lookup scaling_factor pre
        (List.replicate (gappedSize lookup scaling_factor unspecified rel_r).toNat 0)
        = .returned vec → Fits vec (lookup t.key * scaling_factor).toNat := by
  by_cases hsize : (gappedSize lookup scaling_factor unspecified rel_r).toNat ≤ maxSize
  · rw [modelBasedBuild, if_neg (Nat.not_lt.mpr hsize), and_iff_right hsize,
      ← insertTuples_iff (by rw [List.length_replicate]; exact hsize) hkeys, entries_replicate,
      List.append_nil]
  · rw [modelBasedBuild, if_pos (Nat.lt_of_not_le hsize)]
    constructor
    · rintro ⟨out, hrun, -⟩
      cases hrun
    · rintro ⟨hle, -⟩
      exact absurd hle hsize

/-- Three keys, two of them with the same slot, which has gaps on both sides. -/
theorem model_based_build_keeps_keys_iff_three :
    ∃ out, modelBasedBuild (fun key => (key / 10).toUInt64) 2 0 [⟨10, 0⟩, ⟨11, 0⟩, ⟨30, 0⟩]
        = .returned out ∧ (entries out).Perm [10, 11, 30] := by
  refine (model_based_build_keeps_keys_iff (fun key => (key / 10).toUInt64) 2 0
    [⟨10, 0⟩, ⟨11, 0⟩, ⟨30, 0⟩] (by decide)).mpr ⟨by decide, ?_⟩
  simp only [forall_split_cons]
  refine ⟨fun vec hvec => ?_, fun vec hvec => ?_, fun vec hvec => ?_, forall_split_nil⟩
  · obtain rfl := Outcome.returned.inj hvec
    exact Or.inl (by decide)
  · obtain rfl := Outcome.returned.inj hvec
    exact Or.inr ⟨by decide, Or.inr (by decide)⟩
  · obtain rfl := Outcome.returned.inj hvec
    exact Or.inl (by decide)

end Gapped
end HashingBenchmark

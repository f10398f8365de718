import HashingBenchmark.Lib.SortedPairs
import HashingBenchmark.Mmphf.Table

/-! Scans and lookups of the minimal perfect hash table.

    A minimal perfect hash gives each key it was built from its rank (`Ranks`), so a stored key is
    found where it is, and an iterator from there visits the rest of the data in order.

    Nothing is known about the rank of a key that is not stored, and `operator[]` reads the pair at
    that rank before it looks whether the key is this one. If the rank is not below the number of
    pairs, it reads outside `payloads`. -/

namespace HashingBenchmark

namespace MMPHFTable
variable {Key Payload : Type}

/-- The iterator visits the pairs `l` and then equals `end()`. -/
def Visits (t : MMPHFTable Key Payload) : Iterator → List (Key × Payload) → Prop
  | it, [] => it = t.finish
  | it, d :: l => it ≠ t.finish ∧ it.deref t = .ok d ∧ Visits t it.next l

theorem deref_eq {t : MMPHFTable Key Payload} {i : ℕ} (hi : i < t.payloads.length) :
    (⟨i⟩ : Iterator).deref t = .ok t.payloads[i] := by
  rw [Iterator.deref, List.getElem?_eq_getElem hi]

/-- With a rank below the number of pairs a lookup returns. -/
theorem operatorSubscript_eq [DecidableEq Key] {t : MMPHFTable Key Payload} {key : Key}
    (hi : (t.mmphf key).toNat < t.payloads.length) : t.operatorSubscript key
      = .ok (if (t.payloads[(t.mmphf key).toNat]).1 = key then ⟨(t.mmphf key).toNat⟩
        else t.finish) := by
  rw [operatorSubscript, List.getElem?_eq_getElem hi]
  simp only [ne_eq, ite_not]
  split_ifs
  · rfl
  · rfl

/-- With any other rank it reads outside `payloads`. -/
theorem operatorSubscript_eq_error [DecidableEq Key] {t : MMPHFTable Key Payload} {key : Key}
    (hi : t.payloads.length ≤ (t.mmphf key).toNat) :
    t.operatorSubscript key = .error .outOfBounds := by
  rw [operatorSubscript, List.getElem?_eq_none hi]

/-- From index `i` on an iterator visits the rest of `payloads`. -/
theorem visits_drop (t : MMPHFTable Key Payload) {i : ℕ} (hi : i ≤ t.payloads.length) :
    t.Visits ⟨i⟩ (t.payloads.drop i) := by
  generalize hleft : t.payloads.length - i = left
  induction left generalizing i with
  | zero =>
    obtain rfl : i = t.payloads.length := by omega
    rw [List.drop_length]
    exact rfl
  | succ left ih =>
    have hlt : i < t.payloads.length := by omega
    have hleft' : t.payloads.length - (i + 1) = left := by omega
    rw [List.drop_eq_getElem_cons hlt]
    refine ⟨fun heq => ?_, deref_eq hlt, ih hlt hleft'⟩
    have : i = t.payloads.length := congrArg Iterator.payloads_ind heq
    omega

section
variable [LinearOrder Key] {build : List Key → HashFn Key} {data : List (Key × Payload)}

/-- A stored pair is at the rank of its key. -/
theorem exists_rank (hranks : Ranks (build (constructKeys data)) (constructKeys data))
    {d : Key × Payload} (hd : d ∈ data) :
    ∃ hi : ((construct build data).mmphf d.1).toNat < (construct build data).payloads.length,
      (construct build data).payloads[((construct build data).mmphf d.1).toNat] = d := by
  have hperm := List.perm_insertionSort (fun a b : Key × Payload => a.1 ≤ b.1) data
  obtain ⟨i, hi, hget⟩ := List.getElem_of_mem (hperm.mem_iff.mpr hd)
  have hlen : i < (constructKeys data).length := by rw [constructKeys, List.length_map]; exact hi
  have hkey : (constructKeys data)[i] = d.1 := by
    simp only [constructKeys, List.getElem_map, hget]
  have hrank : ((construct build data).mmphf d.1).toNat = i := by rw [← hkey]; exact hranks i hlen
  refine ⟨by rw [hrank]; exact hi, ?_⟩
  simp only [hrank]
  exact hget

end

end MMPHFTable

/-- CORRECT: `operator[]` of a stored key is an iterator to its pair, and from there `operator++`
    visits the stored pairs with a key from this one on, in ascending order, and then equals
    `end()`. -/
theorem mmphf_table_scans_in_order {Key Payload : Type} [LinearOrder Key]
    (build : List Key → HashFn Key) (data : List (Key × Payload))
    (hdistinct : (data.map Prod.fst).Nodup)
    (hranks : MMPHFTable.Ranks (build (MMPHFTable.constructKeys data))
      (MMPHFTable.constructKeys data))
    (k : Key) (v : Payload) (hk : (k, v) ∈ data) :
    let t := MMPHFTable.construct build data
    ∃ it, t.operatorSubscript k = .ok it ∧ it.deref t = .ok (k, v) ∧
      ∃ l, l.Pairwise (fun a b => a.1 < b.1) ∧ (∀ d, d ∈ l ↔ d ∈ data ∧ k ≤ d.1) ∧
        t.Visits it l := by
  intro t
  have hperm := List.perm_insertionSort (fun a b : Key × Payload => a.1 ≤ b.1) data
  have hsorted : t.payloads.Pairwise fun a b => a.1 < b.1 :=
    SortedPairs.pairwise_insertionSort hdistinct
  obtain ⟨hi, hget⟩ : ∃ hi : (t.mmphf k).toNat < t.payloads.length, t.payloads[(t.mmphf k).toNat]
    = (k, v) := MMPHFTable.exists_rank hranks hk
  refine ⟨⟨(t.mmphf k).toNat⟩, ?_, ?_, t.payloads.drop (t.mmphf k).toNat, hsorted.drop,
    fun d => ?_, t.visits_drop hi.le⟩
  · rw [MMPHFTable.operatorSubscript_eq hi, hget, if_pos rfl]
  · rw [MMPHFTable.deref_eq hi, hget]
  · rw [SortedPairs.mem_drop_iff hsorted hi, hget]
    exact and_congr_left' hperm.mem_iff

/-- From the second of three keys, given in no order. -/
theorem mmphf_table_scans_in_order_three :
    let build : List ℕ → HashFn ℕ := fun keys => ⟨fun key => UInt64.ofNat (keys.idxOf key), "rank"⟩
    let data : List (ℕ × ℕ) := [(9, 90), (2, 20), (5, 50)]
    let t := MMPHFTable.construct build data
    ∃ it, t.operatorSubscript 5 = .ok it ∧ it.deref t = .ok (5, 50) ∧
      ∃ l, l.Pairwise (fun a b => a.1 < b.1) ∧ (∀ d, d ∈ l ↔ d ∈ data ∧ 5 ≤ d.1) ∧
        t.Visits it l :=
  mmphf_table_scans_in_order _ _ (by simp) (by unfold MMPHFTable.Ranks; decide) 5 50 (by simp)

/-- The lookup law of a query: no read outside `payloads`, and `end()` for a key not stored. -/
def MMPHFTable.SafeFor {Key Payload : Type} [DecidableEq Key] (data : List (Key × Payload))
    (t : MMPHFTable Key Payload) (q : Key) : Prop :=
  (∃ it, t.operatorSubscript q = .ok it) ∧
  (q ∉ data.map Prod.fst → t.operatorSubscript q = .ok t.finish)

/-- A query on the empty table, and one for a key above all stored ones, read outside `payloads`. -/
theorem mmphf_table_reads_outside :
    let build : List ℕ → HashFn ℕ := fun keys => ⟨fun key => UInt64.ofNat (keys.idxOf key), "rank"⟩
    (MMPHFTable.Ranks (build []) [] ∧
      (MMPHFTable.construct build ([] : List (ℕ × ℕ))).operatorSubscript 7 = .error .outOfBounds) ∧
    (MMPHFTable.Ranks (build [5]) [5] ∧
      (MMPHFTable.construct build [(5, 50)]).operatorSubscript 7 = .error .outOfBounds) := by
  unfold MMPHFTable.Ranks
  decide

/-- CORRECT exactly when the rank exists: a query is safe if and only if its key is stored or the
    hash function gives it a rank below the number of pairs. -/
theorem mmphf_table_safe_iff {Key Payload : Type} [LinearOrder Key]
    (build : List Key → HashFn Key) (data : List (Key × Payload))
    (hranks : MMPHFTable.Ranks (build (MMPHFTable.constructKeys data))
      (MMPHFTable.constructKeys data)) (q : Key) :
    (MMPHFTable.construct build data).SafeFor data q ↔
      q ∈ data.map Prod.fst ∨ (build (MMPHFTable.constructKeys data) q).toNat < data.length := by
  generalize ht : MMPHFTable.construct build data = t
  have hperm : t.payloads.Perm data := ht ▸ List.perm_insertionSort _ _
  have hrank : build (MMPHFTable.constructKeys data) = t.mmphf := ht ▸ rfl
  have hstored : q ∈ data.map Prod.fst → (t.mmphf q).toNat < data.length := by
    intro hmem
    obtain ⟨d, hd, rfl⟩ := List.mem_map.mp hmem
    rw [← hperm.length_eq]
    exact ht ▸ (MMPHFTable.exists_rank hranks hd).choose
  rw [hrank, or_iff_right_of_imp hstored, ← hperm.length_eq]
  constructor
  · rintro ⟨⟨it, hit⟩, -⟩
    by_contra hge
    rw [MMPHFTable.operatorSubscript_eq_error (not_lt.mp hge)] at hit
    cases hit
  · intro hlt
    have hret := MMPHFTable.operatorSubscript_eq hlt
    refine ⟨⟨_, hret⟩, fun hno => ?_⟩
    rw [hret, if_neg fun hkey => hno ?_]
    exact List.mem_map.mpr ⟨_, hperm.mem_iff.mp (List.getElem_mem hlt), hkey⟩

/-- A key above the only stored one is safe with a rank below the number of pairs, and not with the
    next one. -/
theorem mmphf_table_safe_iff_foreign :
    (MMPHFTable.construct (fun _ => ⟨fun _ => 0, "constant"⟩) [((5 : ℕ), 50)]).SafeFor [(5, 50)] 7 ∧
    ¬ (MMPHFTable.construct (fun keys => ⟨fun key => UInt64.ofNat (keys.idxOf key), "rank"⟩)
      [((5 : ℕ), 50)]).SafeFor [(5, 50)] 7 := by
  constructor
  · exact (mmphf_table_safe_iff _ _ (by unfold MMPHFTable.Ranks; decide) 7).mpr (Or.inr (by decide))
  · rw [mmphf_table_safe_iff _ _ (by unfold MMPHFTable.Ranks; decide) 7]
    decide

end HashingBenchmark

import HashingBenchmark.Lib.SortedPairs
import HashingBenchmark.Lib.UIntOrder
import HashingBenchmark.Monotone.Iterate

/-! Iterating a monotone table enumerates its keys in order, if the model skips no directory bucket.

    The data is inserted in ascending order and the model is monotone, so the chains one after the
    other are the sorted data, and from the slot of a key on they are the pairs with this key and
    those above it (`tail_sorted`). An iterator visits just these pairs as long as it finds a pair
    in each directory bucket it comes to. Where the model maps no key to a directory bucket, the
    iterator stops at its first slot all the same, and gives out the Sentinel as a key. -/

namespace HashingBenchmark
open Chained support ChainedTable

namespace MonotoneHashtable
variable {Key Payload : Type} [LinearOrder Key] {BucketSize m : ℕ}

/-- The pairs from a key to the end of its chain, and those of the chains behind it, are the pairs
    with a key from this one on, in order. -/
theorem tail_sorted {index : Key → ℕ} (hmono : ∀ a b, a ≤ b → index a ≤ index b)
    {data : List (Key × Payload)} (hsorted : data.Pairwise fun a b => a.1 < b.1)
    (hindex : ∀ d ∈ data, index d.1 < m) {key : Key} (hi : index key < m) {payload : Payload}
    {before rest : List (Key × Payload)}
    (hchain : (data.filter fun d => index d.1 = index key) = before ++ (key, payload) :: rest)
    {l : List (Key × Payload)} (hl : l = (key, payload) :: rest ++
      (List.range' (index key + 1) (m - (index key + 1))).flatMap fun i =>
        data.filter fun d => index d.1 = i) :
    l.Pairwise (fun a b => a.1 < b.1) ∧ ∀ d, d ∈ l ↔ d ∈ data ∧ key ≤ d.1 := by
  have hall : ((List.range' (index key) (m - index key)).flatMap fun i =>
      data.filter fun d => index d.1 = i) = before ++ l := by
    have hsucc : m - index key = m - (index key + 1) + 1 := by omega
    rw [hsucc, List.range'_succ, List.flatMap_cons, hchain, hl, List.append_assoc]
  have hmem : ∀ d, d ∈ before ++ l ↔ d ∈ data ∧ index key ≤ index d.1 := by
    intro d
    rw [← hall]
    simp only [List.mem_flatMap, List.mem_range'_1, List.mem_filter, decide_eq_true_eq]
    constructor
    · rintro ⟨i, ⟨hle, -⟩, hd, rfl⟩
      exact ⟨hd, hle⟩
    · rintro ⟨hd, hle⟩
      have := hindex d hd
      exact ⟨index d.1, ⟨hle, by omega⟩, hd, rfl⟩
  -- pairs of different chains are ordered as their directory indices
  have hpairwise : (before ++ l).Pairwise fun a b => a.1 < b.1 := by
    have hrange : (List.range' (index key) (m - index key)).Pairwise (· < ·) :=
      List.pairwise_lt_range'
    rw [← hall, List.pairwise_flatMap]
    refine ⟨fun i _ => hsorted.filter _, hrange.imp ?_⟩
    intro i j hij a ha b hb
    have hai := of_decide_eq_true (List.mem_filter.mp ha).2
    have hbj := of_decide_eq_true (List.mem_filter.mp hb).2
    by_contra hge
    have hle := hmono b.1 a.1 (not_lt.mp hge)
    omega
  obtain ⟨-, hlsorted, hbefore⟩ := List.pairwise_append.mp hpairwise
  have hhead : (key, payload) ∈ l := by rw [hl]; exact List.mem_cons_self
  refine ⟨hlsorted, fun d => ⟨fun hd => ⟨?_, ?_⟩, fun ⟨hd, hle⟩ => ?_⟩⟩
  · exact ((hmem d).mp (List.mem_append_right _ hd)).1
  · rw [hl] at hd hlsorted
    rcases List.mem_cons.mp hd with rfl | hd
    · exact le_refl _
    · exact ((List.pairwise_cons.mp hlsorted).1 d hd).le
  · have hd' : d ∈ before ++ l := (hmem d).mpr ⟨hd, hmono key d.1 hle⟩
    rcases List.mem_append.mp hd' with hin | hin
    · exact absurd (hbefore d hin _ hhead) (not_lt.mpr hle)
    · exact hin

/-- From `operator[](key)` to `end()` an iterator visits the pairs with a key from this one on, in
    ascending order. -/
def IteratesFrom (Sentinel : Key) (ManualPrefetch : Bool) (model : Model Key)
    (data : List (Key × Payload)) (key : Key) (t : MonotoneHashtable Key Payload BucketSize m) :
    Prop :=
  ∃ it, operatorSubscript Sentinel ManualPrefetch model t key = .ok it ∧
    ∃ l, Visits Sentinel t it l ∧
      l.Pairwise (fun a b => a.1 < b.1) ∧ ∀ d, d ∈ l ↔ d ∈ data ∧ key ≤ d.1

/-- A table that visits a Sentinel does not satisfy the law. -/
theorem not_iteratesFrom {Sentinel : Key} {ManualPrefetch : Bool} {model : Model Key}
    {data : List (Key × Payload)} {key : Key} {t : MonotoneHashtable Key Payload BucketSize m}
    {it : Iterator} {l : List (Key × Payload)} {payload : Payload}
    (hdata : ∀ d ∈ data, d.1 ≠ Sentinel)
    (hit : operatorSubscript Sentinel ManualPrefetch model t key = .ok it)
    (hvisits : Visits Sentinel t it l) (hmem : (Sentinel, payload) ∈ l) :
    ¬ IteratesFrom Sentinel ManualPrefetch model data key t := by
  rintro ⟨it', hit', l', hvisits', -, hl'⟩
  obtain rfl := Except.ok.inj (hit.symm.trans hit')
  obtain rfl := hvisits.unique hvisits'
  exact hdata _ ((hl' _).mp hmem).1 rfl

section
variable [NeZero BucketSize] [Inhabited Payload] {Sentinel : Key} {ManualPrefetch : Bool}
  {sizeofBucket : ℕ} {model : Model Key}
  {chain : ℕ → List (Ptr × Bucket Key Payload BucketSize)}
  {data : List (Key × Payload)} {t : MonotoneHashtable Key Payload BucketSize m} {key : Key}

/-- Behind a stored key the iterator visits a Sentinel if some directory bucket there has no key. -/
theorem visits_sentinel
    (h : Built Sentinel sizeofBucket (fun key => (model key).toNat) chain data t)
    (hkey : key ∈ data.map Prod.fst) (hne : key ≠ Sentinel) {i : ℕ} (hi : (model key).toNat < i)
    (him : i < m) (hnone : ∀ d ∈ data, (model d.1).toNat ≠ i) :
    ∃ it l payload, operatorSubscript Sentinel ManualPrefetch model t key = .ok it ∧
      Visits Sentinel t it l ∧ (Sentinel, payload) ∈ l := by
  obtain ⟨it, before, payload, rest, hit, -, hvisits⟩ :=
    visits_operatorSubscript h (hi.trans him) hne hkey
  have hnil : pairs Sentinel (chain i) = [] := by
    rw [h.holds i him, List.filter_eq_nil_iff]
    exact fun d hd hdi => hnone d hd (of_decide_eq_true hdi)
  obtain ⟨p, hp⟩ := visited_of_nil h him hnil
  refine ⟨it, _, p, hit, hvisits, List.mem_append_right _ (List.mem_flatMap.mpr ⟨i, ?_, ?_⟩)⟩
  · rw [List.mem_range'_1]; omega
  · rw [hp]; exact List.mem_singleton_self _

/-- In a table with the sorted data the law holds exactly if the chains behind the key's are not
    empty. -/
theorem iteratesFrom_iff (hmono : ∀ a b, a ≤ b → model a ≤ model b)
    (hmodel : ∀ key, (model key).toNat < m) (hsorted : data.Pairwise fun a b => a.1 < b.1)
    (hdata : ∀ d ∈ data, d.1 ≠ Sentinel)
    (h : Built Sentinel sizeofBucket (fun key => (model key).toNat) chain data t)
    (hkey : key ∈ data.map Prod.fst) :
    IteratesFrom Sentinel ManualPrefetch model data key t ↔
      ∀ i, (model key).toNat < i → i < m → ∃ d ∈ data, (model d.1).toNat = i := by
  have hne : key ≠ Sentinel := by
    obtain ⟨d, hd, rfl⟩ := List.mem_map.mp hkey
    exact hdata d hd
  constructor
  · intro hiter i hi him
    by_contra hnone
    have hempty : ∀ d ∈ data, (model d.1).toNat ≠ i := fun d hd hdi => hnone ⟨d, hd, hdi⟩
    obtain ⟨it, l, payload, hit, hvisits, hmem⟩ := visits_sentinel h hkey hne hi him hempty
    exact not_iteratesFrom hdata hit hvisits hmem hiter
  · intro hall
    obtain ⟨it, before, payload, rest, hit, hchain, hvisits⟩ :=
      visits_operatorSubscript h (hmodel key) hne hkey
    refine ⟨it, hit, _, hvisits, ?_⟩
    refine tail_sorted (fun a b hab => UInt64.le_iff_toNat_le.mp (hmono a b hab)) hsorted
      (fun d _ => hmodel d.1) (hmodel key) hchain ?_
    congr 1
    refine List.flatMap_congr fun i hi => ?_
    rw [List.mem_range'_1] at hi
    have him : i < m := by omega
    have hpairs := h.holds i him
    obtain ⟨d, hd, hdi⟩ := hall i (by omega) him
    have hin : d ∈ pairs Sentinel (chain i) := by
      rw [hpairs]; exact List.mem_filter.mpr ⟨hd, decide_eq_true hdi⟩
    rw [visited_of_ne_nil (List.ne_nil_of_mem hin), hpairs]

end

end MonotoneHashtable

open MonotoneHashtable

section
open scoped UIntOrder

/-- A model that maps both keys to directory bucket 0 of 3: behind the last key the iterator stops
    at the Sentinel in directory bucket 1. -/
theorem monotone_hashtable_visits_sentinel :
    let model : Model UInt64 := ⟨fun _ => 0, "zero"⟩
    let data : List (UInt64 × UInt64) := [(2, 20), (1, 10)]
    let Sentinel : UInt64 := 18446744073709551615
    (∀ key, (model key).toNat < directorySize 1 data) ∧ (∀ a b, a ≤ b → model a ≤ model b) ∧
    (data.map Prod.fst).Nodup ∧ (∀ d ∈ data, d.1 ≠ Sentinel) ∧ 2 ∈ data.map Prod.fst ∧
    (∃ t : MonotoneHashtable UInt64 UInt64 1 (directorySize 1 data),
      construct Sentinel 24 model data = .returned t ∧
      ∃ it l payload, operatorSubscript Sentinel false model t 2 = .ok it ∧ Visits Sentinel t it l ∧
        (Sentinel, payload) ∈ l) ∧
    ¬ ∃ t : MonotoneHashtable UInt64 UInt64 1 (directorySize 1 data),
      construct Sentinel 24 model data = .returned t ∧
      IteratesFrom Sentinel false model data 2 t := by
  intro model data Sentinel
  have hmodel : ∀ key, (model key).toNat < directorySize 1 data := fun _ =>
    (by decide : (0 : UInt64).toNat < directorySize 1 data)
  have hdata : ∀ d ∈ data, d.1 ≠ Sentinel := by simp [data, Sentinel]
  have hinserts : (data.insertionSort fun a b => a.1 ≤ b.1) = [(1, 10), (2, 20)] := by decide
  have hkeys : ∀ d ∈ data.insertionSort fun a b => a.1 ≤ b.1, d.1 ≠ Sentinel := by
    rw [hinserts]; simp [Sentinel]
  obtain ⟨t, hrun⟩ : ∃ t : MonotoneHashtable UInt64 UInt64 1 (directorySize 1 data),
      construct Sentinel 24 model data = .returned t :=
    exists_insertAll hkeys (fun d _ => hmodel d.1) (Or.inl (by decide))
  obtain ⟨⟨chain, hbuilt⟩, -⟩ := built_of_insertAll hkeys (fun d _ => hmodel d.1) hrun
  have hvisits : ∃ it l payload, operatorSubscript Sentinel false model t 2 = .ok it ∧
      Visits Sentinel t it l ∧ (Sentinel, payload) ∈ l :=
    visits_sentinel (i := 1) hbuilt (by rw [hinserts]; decide) (by decide) Nat.one_pos (by decide)
      fun _ _ => zero_ne_one
  refine ⟨hmodel, fun _ _ _ => le_refl _, by decide, hdata, by decide, ⟨t, hrun, hvisits⟩, ?_⟩
  rintro ⟨t', hrun', hiter⟩
  obtain rfl := Outcome.returned.inj (hrun.symm.trans hrun')
  obtain ⟨it, l, payload, hit, hl, hmem⟩ := hvisits
  exact not_iteratesFrom hdata hit hl hmem hiter

end

variable {Key Payload : Type} [LinearOrder Key] [Inhabited Payload] {BucketSize : ℕ}
  [NeZero BucketSize]

/-- CORRECT: from a stored key on, iteration gives the stored keys in order exactly if each
    directory bucket behind the key's has a key, and every chain fits. -/
theorem monotone_hashtable_iterates_iff (Sentinel : Key) (ManualPrefetch : Bool)
    (sizeofBucket : ℕ) [NeZero sizeofBucket] (model : Model Key) (data : List (Key × Payload))
    (hmodel : ∀ key, (model key).toNat < directorySize BucketSize data)
    (hmono : ∀ a b, a ≤ b → model a ≤ model b) (hdistinct : (data.map Prod.fst).Nodup)
    (hdata : ∀ d ∈ data, d.1 ≠ Sentinel) {key : Key} (hkey : key ∈ data.map Prod.fst) :
    (∃ t : MonotoneHashtable Key Payload BucketSize (directorySize BucketSize data),
      construct Sentinel sizeofBucket model data = .returned t ∧
      IteratesFrom Sentinel ManualPrefetch model data key t) ↔
    (sizeofBucket ≤ 4194304 ∨ ∀ i < directorySize BucketSize data,
      (data.filter fun d => (model d.1).toNat = i).length ≤ BucketSize) ∧
    ∀ i, (model key).toNat < i → i < directorySize BucketSize data →
      ∃ d ∈ data, (model d.1).toNat = i := by
  have hperm := List.perm_insertionSort (fun a b : Key × Payload => a.1 ≤ b.1) data
  have hsorted := SortedPairs.pairwise_insertionSort hdistinct
  have hkeys : ∀ d ∈ data.insertionSort fun a b => a.1 ≤ b.1, d.1 ≠ Sentinel := fun d hd =>
    hdata d (hperm.mem_iff.mp hd)
  have hkey' : key ∈ (data.insertionSort fun a b => a.1 ≤ b.1).map Prod.fst :=
    (hperm.map Prod.fst).mem_iff.mpr hkey
  -- what the law says does not depend on the order of the inserts
  have hlaw : ∀ t : MonotoneHashtable Key Payload BucketSize (directorySize BucketSize data),
      construct Sentinel sizeofBucket model data = .returned t →
      (IteratesFrom Sentinel ManualPrefetch model data key t ↔
        ∀ i, (model key).toNat < i → i < directorySize BucketSize data →
          ∃ d ∈ data, (model d.1).toNat = i) := by
    intro t hrun
    obtain ⟨chain, hbuilt⟩ := built_of_construct hmodel hdata hrun
    have hiff : IteratesFrom Sentinel ManualPrefetch model _ key t ↔ _ :=
      iteratesFrom_iff hmono hmodel hsorted hkeys hbuilt hkey'
    simpa only [IteratesFrom, hperm.mem_iff] using hiff
  constructor
  · rintro ⟨t, hrun, hiter⟩
    exact ⟨(construct_returned_iff hmodel hdata).mp ⟨t, hrun⟩, (hlaw t hrun).mp hiter⟩
  · rintro ⟨hfit, hall⟩
    obtain ⟨t, hrun⟩ := (construct_returned_iff hmodel hdata).mpr hfit
    exact ⟨t, hrun, (hlaw t hrun).mpr hall⟩

section
open scoped UIntOrder

/-- From a key within a chain of two buckets over the end of the chain to the next directory
    bucket, past an empty one at the front of the directory. -/
theorem monotone_hashtable_iterates_iff_two_chains :
    let model : Model UInt64 := ⟨fun key => if key ≤ 3 then 1 else 2, "threshold"⟩
    let data : List (UInt64 × UInt64) := [(4, 40), (2, 20), (1, 10), (3, 30)]
    let Sentinel : UInt64 := 18446744073709551615
    ∃ t : MonotoneHashtable UInt64 UInt64 2 (directorySize 2 data),
      construct Sentinel 40 model data = .returned t ∧
      IteratesFrom Sentinel false model data 2 t := by
  intro model data Sentinel
  have hsize : directorySize 2 data = 3 := by decide
  have hmodel : ∀ key, (model key).toNat < directorySize 2 data := by
    intro key
    rw [hsize]
    change (if key ≤ 3 then (1 : UInt64) else 2).toNat < 3
    split_ifs
    · decide
    · decide
  have hmono : ∀ a b, a ≤ b → model a ≤ model b := by
    intro a b hab
    change (if a ≤ 3 then (1 : UInt64) else 2) ≤ if b ≤ 3 then 1 else 2
    split_ifs with ha hb hb
    · exact le_refl _
    · decide
    · exact absurd (hab.trans hb) ha
    · exact le_refl _
  refine (monotone_hashtable_iterates_iff Sentinel false 40 model data hmodel hmono (by decide)
    (by simp [data, Sentinel]) (by decide)).mpr ⟨Or.inl (by decide), fun i hi him => ?_⟩
  -- behind directory bucket 1 there is only directory bucket 2
  have hi' : 1 < i := hi
  have him' : i < 3 := hsize ▸ him
  obtain rfl : i = 2 := by omega
  exact ⟨(4, 40), by decide, by decide⟩

end

end HashingBenchmark

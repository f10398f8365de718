import HashingBenchmark.Chained.Insert
import HashingBenchmark.Lib.UIntOrder
import HashingBenchmark.Monotone.Table

/-! What a lookup of the monotone table finds.

    `operator[]` walks the chain of the predicted directory bucket. If the key is stored there it
    stops at its slot (`operatorSubscript_stored`). Otherwise it gets to the end of the chain; with
    `ManualPrefetch` it then reads `bucket->next` of the null pointer there, and without it returns
    `end()` (`operatorSubscript_absent`).

    The constructor does not return if some chain needs a second bucket and a bucket is larger than a
    tape segment. -/

namespace HashingBenchmark
open SlotArray Chained support ChainedTable

namespace MonotoneHashtable
variable {Key Payload : Type} {BucketSize m : ℕ}

/-! ### One chain -/

section
variable {t : MonotoneHashtable Key Payload BucketSize m} {ManualPrefetch : Bool}

theorem prefetchNext_of_isSome {p : Ptr} (hp : (t.load p).isSome) :
    prefetchNext ManualPrefetch t (some p) = .ok () := by
  obtain ⟨b, hb⟩ := Option.isSome_iff_exists.mp hp
  rw [prefetchNext, Option.bind_some, hb]
  split_ifs
  · rfl
  · rfl

/-- In front of a linked list that goes on, the bucket behind can be read. -/
theorem prefetchNext_of_linked {p : Option Ptr} {x : Ptr × Bucket Key Payload BucketSize}
    {l : List (Ptr × Bucket Key Payload BucketSize)} (h : Linked t.load Bucket.nextPtr p (x :: l)) :
    prefetchNext ManualPrefetch t p = .ok () := by
  obtain ⟨rfl, hload, -⟩ := h
  exact prefetchNext_of_isSome (Option.isSome_of_eq_some hload)

theorem load_directory_isSome {i : ℕ} (hi : i < m) : (t.load (.directory i)).isSome := by
  rw [load_directory hi]; rfl

variable [DecidableEq Key] {Sentinel : Key}

/-- In a bucket filled from the front the slot loop finds the first slot with the key. -/
theorem find_cases {key : Key} {b : Bucket Key Payload BucketSize}
    (h : FilledPrefix Sentinel b.keys) (hkey : key ≠ Sentinel) :
    (∃ j, b.keys j = key ∧ (∀ j' < j, b.keys j' ≠ key) ∧ find Sentinel key b = some j) ∨
    ((∀ j, b.keys j ≠ key) ∧ find Sentinel key b = none) := by
  rw [find]
  rcases search_cases Sentinel key b.keys (fun _ => none) some with
    ⟨i, hi, hbefore, hfind⟩ | ⟨i, -, hi, hbefore, hfind⟩ | ⟨hslot, hfind⟩
  · right
    exact ⟨h.ne_of_empty hkey hi fun j hj => (hbefore j hj).2, by rw [hfind]; rfl⟩
  · left
    exact ⟨i, hi, fun j hj => (hbefore j hj).2, by rw [hfind]; rfl⟩
  · right
    exact ⟨fun j => (hslot j).2, by rw [hfind]; rfl⟩

/-- A key is among the pairs of a bucket filled from the front if it is in one of the slots. -/
theorem mem_entries_iff {key : Key} {b : Bucket Key Payload BucketSize}
    (h : FilledPrefix Sentinel b.keys) (hkey : key ≠ Sentinel) :
    key ∈ (b.entries Sentinel).map Prod.fst ↔ ∃ j, b.keys j = key := by
  constructor
  · intro hmem
    obtain ⟨d, hd, rfl⟩ := List.mem_map.mp hmem
    obtain ⟨j, -, rfl⟩ := (mem_entries h).mp hd
    exact ⟨j, rfl⟩
  · rintro ⟨j, rfl⟩
    exact List.mem_map.mpr ⟨_, (mem_entries h).mpr ⟨j, hkey, rfl⟩, rfl⟩

/-- The loop of `operator[]` gets to the bucket of a chain that holds the key, and to its slot. -/
theorem findLoop_eq {key : Key} (hkey : key ≠ Sentinel) {i : ℕ}
    {l : List (Ptr × Bucket Key Payload BucketSize)} {p : Option Ptr} {fuel : ℕ}
    (hlinked : Linked t.load Bucket.nextPtr p l)
    (hprefixes : ∀ x ∈ l, FilledPrefix Sentinel x.2.keys) (hfuel : l.length ≤ fuel)
    (hmem : key ∈ (pairs Sentinel l).map Prod.fst) :
    ∃ s x r, ∃ j : Fin BucketSize, l = s ++ x :: r ∧ x.2.keys j = key ∧
      findLoop Sentinel key ManualPrefetch i t fuel p = .ok ⟨i, j, some x.1⟩ := by
  induction l generalizing p fuel with
  | nil => cases hmem
  | cons x l ih =>
    obtain ⟨rfl, hload, hrest⟩ := hlinked
    cases fuel with
    | zero => cases hfuel
    | succ fuel =>
      rw [findLoop, hload]
      have hx := hprefixes x List.mem_cons_self
      rcases find_cases hx hkey with ⟨j, hj, -, hfind⟩ | ⟨hnot, hfind⟩
      · exact ⟨[], x, l, j, rfl, hj, by simp only [hfind]⟩
      · have hmem' : key ∈ (pairs Sentinel l).map Prod.fst := by
          rw [pairs, List.flatMap_cons, List.map_append, List.mem_append] at hmem
          refine hmem.resolve_left fun hin => ?_
          obtain ⟨j, hj⟩ := (mem_entries_iff hx hkey).mp hin
          exact hnot j hj
        obtain ⟨s, y, r, j, rfl, hj, heq⟩ :=
          ih hrest (fun z hz => hprefixes z (List.mem_cons_of_mem _ hz))
            (Nat.le_of_succ_le_succ hfuel) hmem'
        have hnext : prefetchNext ManualPrefetch t x.2.nextPtr = .ok () := by
          cases s with
          | nil => exact prefetchNext_of_linked hrest
          | cons z s => exact prefetchNext_of_linked hrest
        refine ⟨x :: s, y, r, j, rfl, hj, ?_⟩
        simp only [hfind, hnext]
        exact heq

/-- Over a chain without the key the loop gets to the null pointer at its end. -/
theorem findLoop_absent {key : Key} (hkey : key ≠ Sentinel) {i : ℕ}
    {x : Ptr × Bucket Key Payload BucketSize} {l : List (Ptr × Bucket Key Payload BucketSize)}
    {p : Option Ptr} {fuel : ℕ} (hlinked : Linked t.load Bucket.nextPtr p (x :: l))
    (hprefixes : ∀ y ∈ x :: l, FilledPrefix Sentinel y.2.keys) (hfuel : (x :: l).length ≤ fuel)
    (hnot : key ∉ (pairs Sentinel (x :: l)).map Prod.fst) :
    findLoop Sentinel key ManualPrefetch i t fuel p
      = if ManualPrefetch then .error .outOfBounds else .ok (Iterator.finish m) := by
  induction l generalizing x p fuel with
  | nil =>
    obtain ⟨rfl, hload, hend⟩ := hlinked
    obtain ⟨fuel, rfl⟩ : ∃ n, fuel = n + 1 := ⟨fuel - 1, by simp at hfuel; omega⟩
    have hx := hprefixes x List.mem_cons_self
    have hfind : find Sentinel key x.2 = none := by
      rcases find_cases hx hkey with ⟨j, hj, -, -⟩ | ⟨-, hfind⟩
      · refine absurd ?_ hnot
        rw [pairs, List.flatMap_cons, List.map_append, List.mem_append]
        exact Or.inl ((mem_entries_iff hx hkey).mpr ⟨j, hj⟩)
      · exact hfind
    have hnext : x.2.nextPtr = none := hend
    rw [findLoop, hload]
    simp only [hfind, hnext, findLoop, prefetchNext, Option.bind_none]
    cases ManualPrefetch
    · rfl
    · rfl
  | cons y l ih =>
    obtain ⟨rfl, hload, hrest⟩ := hlinked
    obtain ⟨fuel, rfl⟩ : ∃ n, fuel = n + 1 := ⟨fuel - 1, by simp at hfuel; omega⟩
    have hx := hprefixes x List.mem_cons_self
    rw [pairs, List.flatMap_cons, List.map_append, List.mem_append, not_or] at hnot
    have hfind : find Sentinel key x.2 = none := by
      rcases find_cases hx hkey with ⟨j, hj, -, -⟩ | ⟨-, hfind⟩
      · exact absurd ((mem_entries_iff hx hkey).mpr ⟨j, hj⟩) hnot.1
      · exact hfind
    have hnext : prefetchNext ManualPrefetch t x.2.nextPtr = .ok () := prefetchNext_of_linked hrest
    rw [findLoop, hload]
    simp only [hfind, hnext]
    exact ih hrest (fun z hz => hprefixes z (List.mem_cons_of_mem _ hz))
      (Nat.le_of_succ_le_succ hfuel) hnot.2

/-! ### Lookups in a table that inserts have built -/

theorem operatorSubscript_eq {model : Model Key} {key : Key}
    (h : (t.load (.directory (model key).toNat)).isSome) :
    operatorSubscript Sentinel ManualPrefetch model t key
      = findLoop Sentinel key ManualPrefetch (model key).toNat t (t.tape.cells.length + 1)
        (some (.directory (model key).toNat)) := by
  rw [operatorSubscript, prefetchNext_of_isSome h]
  rfl

variable [Inhabited Payload] {sizeofBucket : ℕ} {model : Model Key}
  {chain : ℕ → List (Ptr × Bucket Key Payload BucketSize)} {data : List (Key × Payload)}

/-- A key is in the chain of its directory index if it is stored. -/
theorem mem_pairs_iff (h : Built Sentinel sizeofBucket (fun key => (model key).toNat) chain data t)
    {key : Key} (hi : (model key).toNat < m) :
    key ∈ (pairs Sentinel (chain (model key).toNat)).map Prod.fst ↔ key ∈ data.map Prod.fst := by
  rw [h.holds _ hi]
  constructor
  · exact fun hmem => (List.filter_sublist.map Prod.fst).subset hmem
  · intro hmem
    obtain ⟨d, hd, rfl⟩ := List.mem_map.mp hmem
    exact List.mem_map_of_mem (List.mem_filter.mpr ⟨hd, decide_eq_true rfl⟩)

/-- A stored key is found in its chain. -/
theorem operatorSubscript_stored
    (h : Built Sentinel sizeofBucket (fun key => (model key).toNat) chain data t) {key : Key}
    (hi : (model key).toNat < m) (hkey : key ≠ Sentinel) (hmem : key ∈ data.map Prod.fst) :
    ∃ s x r, ∃ j : Fin BucketSize, chain (model key).toNat = s ++ x :: r ∧ x.2.keys j = key ∧
      operatorSubscript Sentinel ManualPrefetch model t key
        = .ok ⟨(model key).toNat, j, some x.1⟩ := by
  rw [operatorSubscript_eq (load_directory_isSome hi)]
  exact findLoop_eq hkey (h.linked _ hi) (h.prefixes _ hi) (h.length_le hi)
    ((mem_pairs_iff h hi).mpr hmem)

/-- For any other key the lookup gets to the end of a chain. -/
theorem operatorSubscript_absent
    (h : Built Sentinel sizeofBucket (fun key => (model key).toNat) chain data t) {key : Key}
    (hi : (model key).toNat < m) (hkey : key ≠ Sentinel) (hnot : key ∉ data.map Prod.fst) :
    operatorSubscript Sentinel ManualPrefetch model t key
      = if ManualPrefetch then .error .outOfBounds else .ok (Iterator.finish m) := by
  rw [operatorSubscript_eq (load_directory_isSome hi)]
  have hlinked := h.linked _ hi
  have hprefixes := h.prefixes _ hi
  have hlen := h.length_le hi
  rw [← mem_pairs_iff h hi] at hnot
  cases hl : chain (model key).toNat with
  | nil => rw [hl] at hlinked; cases hlinked
  | cons x l =>
    rw [hl] at hlinked hprefixes hlen hnot
    exact findLoop_absent hkey hlinked hprefixes hlen hnot

end

/-! ### The constructor -/

section
variable [LinearOrder Key] [Inhabited Payload] [NeZero BucketSize] {Sentinel : Key}
  {sizeofBucket : ℕ} {model : Model Key} {data : List (Key × Payload)}

theorem built_of_construct (hmodel : ∀ key, (model key).toNat < directorySize BucketSize data)
    (hdata : ∀ d ∈ data, d.1 ≠ Sentinel)
    {t : MonotoneHashtable Key Payload BucketSize (directorySize BucketSize data)}
    (hrun : construct Sentinel sizeofBucket model data = .returned t) :
    ∃ chain, Built Sentinel sizeofBucket (fun key => (model key).toNat) chain
      (data.insertionSort fun a b => a.1 ≤ b.1) t := by
  have hperm := List.perm_insertionSort (fun a b : Key × Payload => a.1 ≤ b.1) data
  exact (built_of_insertAll (fun d hd => hdata d (hperm.mem_iff.mp hd)) (fun d _ => hmodel d.1)
    hrun).1

/-- The constructor returns exactly if every chain fits. -/
theorem construct_returned_iff [NeZero sizeofBucket]
    (hmodel : ∀ key, (model key).toNat < directorySize BucketSize data)
    (hdata : ∀ d ∈ data, d.1 ≠ Sentinel) :
    (∃ t : MonotoneHashtable Key Payload BucketSize (directorySize BucketSize data),
      construct Sentinel sizeofBucket model data = .returned t) ↔
    sizeofBucket ≤ 4194304 ∨ ∀ i < directorySize BucketSize data,
      (data.filter fun d => (model d.1).toNat = i).length ≤ BucketSize := by
  have hperm := List.perm_insertionSort (fun a b : Key × Payload => a.1 ≤ b.1) data
  have hkeys : ∀ d ∈ data.insertionSort fun a b => a.1 ≤ b.1, d.1 ≠ Sentinel := fun d hd =>
    hdata d (hperm.mem_iff.mp hd)
  have hfits : Fits BucketSize sizeofBucket (fun key => (model key).toNat)
      (data.insertionSort fun a b => a.1 ≤ b.1) ↔ _ := fits_iff fun d _ => hmodel d.1
  simp only [(hperm.filter _).length_eq] at hfits
  rw [← hfits]
  constructor
  · rintro ⟨t, hrun⟩
    exact (built_of_insertAll hkeys (fun d _ => hmodel d.1) hrun).2
  · intro hfit
    exact exists_insertAll hkeys (fun d _ => hmodel d.1) hfit

end

/-- The lookup law: an iterator to the key and the payload given for it, and `end()` for a key that
    was not given. -/
def LooksUp [DecidableEq Key] (Sentinel : Key) (ManualPrefetch : Bool) (model : Model Key)
    (data : List (Key × Payload)) (t : MonotoneHashtable Key Payload BucketSize m) : Prop :=
  ∀ q, q ≠ Sentinel →
    (∀ v, (q, v) ∈ data → ∃ it, operatorSubscript Sentinel ManualPrefetch model t q = .ok it ∧
      it.deref t = .ok (q, v)) ∧
    (q ∉ data.map Prod.fst →
      operatorSubscript Sentinel ManualPrefetch model t q = .ok (Iterator.finish m))

section
variable [LinearOrder Key] [Inhabited Payload] [NeZero BucketSize] {Sentinel : Key}
  {ManualPrefetch : Bool} {sizeofBucket : ℕ} {model : Model Key} {data : List (Key × Payload)}
  {t : MonotoneHashtable Key Payload BucketSize (directorySize BucketSize data)}

/-- In a table the constructor returns the law holds exactly if no lookup gets to the end of a chain
    while prefetching. -/
theorem looksUp_iff (hmodel : ∀ key, (model key).toNat < directorySize BucketSize data)
    (hdistinct : (data.map Prod.fst).Nodup) (hdata : ∀ d ∈ data, d.1 ≠ Sentinel)
    (hrun : construct Sentinel sizeofBucket model data = .returned t) :
    LooksUp Sentinel ManualPrefetch model data t ↔
      ManualPrefetch = false ∨ ∀ q, q ≠ Sentinel → q ∈ data.map Prod.fst := by
  obtain ⟨chain, hbuilt⟩ := built_of_construct hmodel hdata hrun
  have hperm := List.perm_insertionSort (fun a b : Key × Payload => a.1 ≤ b.1) data
  have hmem : ∀ q, q ∈ (data.insertionSort fun a b => a.1 ≤ b.1).map Prod.fst ↔
      q ∈ data.map Prod.fst := fun q => (hperm.map Prod.fst).mem_iff
  have habsent : ∀ q, q ≠ Sentinel → q ∉ data.map Prod.fst →
      operatorSubscript Sentinel ManualPrefetch model t q
        = if ManualPrefetch then .error .outOfBounds else .ok (Iterator.finish _) :=
    fun q hq hnot => operatorSubscript_absent hbuilt (hmodel q) hq ((hmem q).not.mpr hnot)
  constructor
  · intro hlaw
    by_contra hno
    rw [not_or, Bool.not_eq_false, not_forall] at hno
    obtain ⟨hprefetch, q, hq⟩ := hno
    obtain ⟨hne, hnot⟩ := Classical.not_imp.mp hq
    have hend := (hlaw q hne).2 hnot
    rw [habsent q hne hnot, if_pos hprefetch] at hend
    cases hend
  · intro hcond q hq
    constructor
    · intro v hv
      have hin : q ∈ data.map Prod.fst := List.mem_map_of_mem hv
      obtain ⟨s, x, r, j, hl, hj, hit⟩ :=
        operatorSubscript_stored hbuilt (hmodel q) hq ((hmem q).mpr hin)
      have hx : x ∈ chain (model q).toNat := by rw [hl]; simp
      have hload := (hbuilt.linked _ (hmodel q)).load_eq hx
      -- the pair in the slot is one of the data, so it is the pair with this key
      have hpair : (x.2.keys j, x.2.payloads j) ∈ data := by
        have hslot : (x.2.keys j, x.2.payloads j) ∈ pairs Sentinel (chain (model q).toNat) :=
          List.mem_flatMap.mpr ⟨x, hx, (mem_entries (hbuilt.prefixes _ (hmodel q) x hx)).mpr
            ⟨j, by rwa [hj], rfl⟩⟩
        rw [hbuilt.holds _ (hmodel q)] at hslot
        exact hperm.mem_iff.mp (List.mem_filter.mp hslot).1
      have hv' : x.2.payloads j = v := by
        have heq := List.inj_on_of_nodup_map hdistinct hpair hv (by rw [hj])
        exact (Prod.mk.inj heq).2
      refine ⟨_, hit, ?_⟩
      rw [Iterator.deref, Iterator.slot]
      simp only [Option.bind_some, hload, dif_pos j.isLt]
      rw [← hj, ← hv']
      rfl
    · intro hnot
      rw [habsent q hq hnot, if_neg]
      rcases hcond with hfalse | hall
      · rw [hfalse]; exact Bool.false_ne_true
      · exact absurd (hall q hq) hnot

end

end MonotoneHashtable

open MonotoneHashtable

/-- CORRECT: the table finds what it was given and nothing else exactly if every chain fits, and
    prefetching is off or no key can be looked up that is not stored. -/
theorem monotone_lookup_correct_iff {Key Payload : Type} [LinearOrder Key] [Inhabited Payload]
    {BucketSize : ℕ} [NeZero BucketSize] (Sentinel : Key) (ManualPrefetch : Bool)
    (sizeofBucket : ℕ) [NeZero sizeofBucket] (model : Model Key) (data : List (Key × Payload))
    (hmodel : ∀ key, (model key).toNat < directorySize BucketSize data)
    (hdistinct : (data.map Prod.fst).Nodup) (hdata : ∀ d ∈ data, d.1 ≠ Sentinel) :
    (∃ t : MonotoneHashtable Key Payload BucketSize (directorySize BucketSize data),
      construct Sentinel sizeofBucket model data = .returned t ∧
      LooksUp Sentinel ManualPrefetch model data t) ↔
    (sizeofBucket ≤ 4194304 ∨ ∀ i < directorySize BucketSize data,
      (data.filter fun d => (model d.1).toNat = i).length ≤ BucketSize) ∧
    (ManualPrefetch = false ∨ ∀ q, q ≠ Sentinel → q ∈ data.map Prod.fst) := by
  constructor
  · rintro ⟨t, hrun, hlaw⟩
    exact ⟨(construct_returned_iff hmodel hdata).mp ⟨t, hrun⟩,
      (looksUp_iff hmodel hdistinct hdata hrun).mp hlaw⟩
  · rintro ⟨hfit, hcond⟩
    obtain ⟨t, hrun⟩ := (construct_returned_iff hmodel hdata).mpr hfit
    exact ⟨t, hrun, (looksUp_iff hmodel hdistinct hdata hrun).mpr hcond⟩

section
open scoped UIntOrder

/-- A chain of two buckets next to an empty one. -/
theorem monotone_lookup_correct_iff_two_buckets :
    let model : Model UInt64 := ⟨fun _ => 1, "one"⟩
    let data : List (UInt64 × UInt64) := [(4, 40), (2, 20), (1, 10)]
    let Sentinel : UInt64 := 18446744073709551615
    ∃ t : MonotoneHashtable UInt64 UInt64 2 (directorySize 2 data),
      construct Sentinel 40 model data = .returned t ∧
      LooksUp Sentinel false model data t := by
  intro model data Sentinel
  have hsize : 1 < directorySize 2 data := by decide
  exact (monotone_lookup_correct_iff Sentinel false 40 model data (fun _ => hsize) (by simp [data])
    (by simp [data, Sentinel])).mpr ⟨Or.inl (by omega), Or.inl rfl⟩

/-- A prefetching table that is asked for a key it does not hold, and a table whose buckets are
    larger than a tape segment. -/
theorem monotone_lookup_fails :
    let model : Model UInt64 := ⟨fun _ => 0, "zero"⟩
    let Sentinel : UInt64 := 18446744073709551615
    (¬ ∃ t : MonotoneHashtable UInt64 UInt64 1 (directorySize 1 [((1 : UInt64), (10 : UInt64))]),
      construct Sentinel 24 model [(1, 10)] = .returned t ∧
      LooksUp Sentinel true model [(1, 10)] t) ∧
    let data : List (UInt64 × UInt64) := (UIntOrder.firstKeys 262145).map fun key => (key, 0)
    (data.map Prod.fst).Nodup ∧ (∀ d ∈ data, d.1 ≠ Sentinel) ∧
    ¬ ∃ t : MonotoneHashtable UInt64 UInt64 262144 (directorySize 262144 data),
      construct Sentinel 4194312 model data = .returned t := by
  intro model Sentinel
  have hmodel : ∀ key, (model key).toNat = 0 := fun _ => rfl
  have hzero : ∀ {BucketSize : ℕ} {data : List (UInt64 × UInt64)} (key : UInt64),
      (model key).toNat < directorySize BucketSize data := fun key => by
    rw [hmodel, directorySize]
    exact Nat.lt_of_lt_of_le Nat.one_pos (Nat.le_add_right 1 _)
  refine ⟨?_, ?_⟩
  · rintro ⟨t, hrun, hlaw⟩
    rcases (looksUp_iff hzero (by simp) (by simp [Sentinel]) hrun).mp hlaw with hfalse | hall
    · cases hfalse
    · simpa using hall 2 (by decide)
  · intro data
    have hkeys : data.map Prod.fst = UIntOrder.firstKeys 262145 := by
      rw [List.map_map]; exact List.map_id _
    have hdata : ∀ d ∈ data, d.1 ≠ Sentinel := by
      intro d hd heq
      have hmem : d.1 ∈ UIntOrder.firstKeys 262145 := hkeys ▸ List.mem_map_of_mem hd
      have hlt := UIntOrder.toNat_lt_of_mem_firstKeys (by omega) hmem
      rw [heq] at hlt
      exact absurd hlt (by decide)
    refine ⟨hkeys ▸ UIntOrder.nodup_firstKeys (by omega), hdata, fun hrun => ?_⟩
    rcases (construct_returned_iff hzero hdata).mp hrun with hsize | hfit
    · omega
    · have hlen := hfit 0 (by rw [directorySize]; omega)
      rw [List.filter_eq_self.mpr fun d _ => by simp [hmodel], List.length_map,
        UIntOrder.length_firstKeys] at hlen
      omega

end
end HashingBenchmark

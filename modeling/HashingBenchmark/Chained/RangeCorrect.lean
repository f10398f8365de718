import HashingBenchmark.Chained.Range
import Mathlib.Data.List.Range

/-! When the range query sums the payloads of the range.

    The pairs from the model's directory bucket on are all that can be in the range, since the model
    is monotone (`Placed.perm_traversal`). So two things are left to ask of the walk: that some key
    above `high_key` ends it before the directory does, and that the payloads it adds up are those of
    the range. The second holds whatever the payloads are exactly if every key of the range is in the
    first slot of its bucket and comes before every key above `high_key`; payloads that tell one key
    from all others (`sum_indicator`) show that nothing less will do. -/

namespace HashingBenchmark
open SlotArray Chained support ChainedTable
open scoped UIntOrder

namespace KapilChainedModelHashTable
variable {BucketSize m : ℕ}

/-- The pairs `data` are in the chains of the model's directory buckets, in any order in a chain. -/
structure Placed (Sentinel : UInt64) (model : Model UInt64)
    (chain : ℕ → List (Ptr × Bucket UInt64 UInt64 BucketSize)) (data : List (UInt64 × UInt64))
    (t : KapilChainedModelHashTable UInt64 UInt64 BucketSize m) : Prop where
  linked : ∀ i < m, Linked t.load Bucket.nextPtr (some (.directory i)) (chain i)
  prefixes : ∀ i < m, ∀ x ∈ chain i, FilledPrefix Sentinel x.2.keys
  holds : ∀ i < m, (pairs Sentinel (chain i)).Perm (data.filter fun d => (model d.1).toNat = i)

/-- The key is in the range of the query. -/
def InRange (low_key high_key key : UInt64) : Prop := low_key ≤ key ∧ key ≤ high_key

instance (low_key high_key key : UInt64) : Decidable (InRange low_key high_key key) :=
  inferInstanceAs (Decidable (_ ∧ _))

/-- The sum of the payloads of the range, modulo 2^64. -/
def rangeSum (low_key high_key : UInt64) (data : List (UInt64 × UInt64)) : UInt64 :=
  UInt64.ofNat ((data.filter fun d => InRange low_key high_key d.1).map fun d => d.2.toNat).sum

/-- The bucket with the payload `payloadOf key` for each of its keys. -/
def bucketWith (payloadOf : UInt64 → UInt64) (b : Bucket UInt64 UInt64 BucketSize) :
    Bucket UInt64 UInt64 BucketSize := { b with payloads := fun i => payloadOf (b.keys i) }

/-- The table with the payload `payloadOf key` for each of its keys. -/
def withPayloads (payloadOf : UInt64 → UInt64)
    (t : KapilChainedModelHashTable UInt64 UInt64 BucketSize m) :
    KapilChainedModelHashTable UInt64 UInt64 BucketSize m :=
  ⟨fun i => bucketWith payloadOf (t.buckets i),
    { t.tape with begins := t.tape.begins.map (·.map (bucketWith payloadOf)) }⟩

section Walk
variable [NeZero BucketSize] {Sentinel low_key high_key : UInt64} {model : Model UInt64}
  {chain : ℕ → List (Ptr × Bucket UInt64 UInt64 BucketSize)}
  {t : KapilChainedModelHashTable UInt64 UInt64 BucketSize m}

omit [NeZero BucketSize] in
theorem traversal_cons {ind : ℕ} (hind : ind < m) : traversal Sentinel chain m ind
    = slots Sentinel (chain ind) ++ traversal Sentinel chain m (ind + 1) := by
  have hlen : m - ind = (m - (ind + 1)) + 1 := by omega
  rw [traversal, hlen, List.range'_succ, List.flatMap_cons, traversal]

theorem directoryLoop_eq
    (hlinked : ∀ i < m, Linked t.load Bucket.nextPtr (some (.directory i)) (chain i))
    {fuel ind : ℕ} (hind : ind ≤ m) (hfuel : m < ind + fuel) (ans : UInt64) :
    directoryLoop Sentinel low_key high_key t fuel ind ans =
      if exits high_key (traversal Sentinel chain m ind) then
        .ok (ans + readSum low_key high_key (traversal Sentinel chain m ind))
      else .error .outOfBounds := by
  induction fuel generalizing ind ans with
  | zero => omega
  | succ fuel ih =>
    rw [directoryLoop]
    rcases hind.lt_or_eq with hlt | rfl
    · have hl := hlinked ind hlt
      rw [chainLoop_eq hl (length_le_of_linked hl), traversal_cons hlt, exits_append]
      cases hexit : exits high_key (slots Sentinel (chain ind)) with
      | true => rw [readSum_append_of_exits hexit]; simp
      | false =>
        simp only [Bool.false_or]
        rw [ih hlt (by omega), readSum_append_of_not_exits hexit, UInt64.add_assoc]
    · -- past the directory
      have hnone : t.load (.directory ind) = none := by simp [load]
      have hend : traversal Sentinel chain ind ind = [] := by simp [traversal]
      rw [hend]
      simp [chainLoop, hnone, exits]

/-- The query is one scan over the slots from the model's directory bucket on. -/
theorem hashRangeQuery_eq
    (hlinked : ∀ i < m, Linked t.load Bucket.nextPtr (some (.directory i)) (chain i))
    (hmodel : (model low_key).toNat < m) :
    hashRangeQuery Sentinel model t low_key high_key =
      if exits high_key (traversal Sentinel chain m (model low_key).toNat) then
        .ok (readSum low_key high_key (traversal Sentinel chain m (model low_key).toNat))
      else .error .outOfBounds := by
  rw [hashRangeQuery, directoryLoop_eq hlinked hmodel.le (by omega), UInt64.zero_add]

end Walk

/-! ### What is in the slots -/

theorem pairs_eq_slots (Sentinel : UInt64) (l : List (Ptr × Bucket UInt64 UInt64 BucketSize)) :
    pairs Sentinel l = (slots Sentinel l).map fun s => (s.key, s.payload) := by
  have hbucket : ∀ b : Bucket UInt64 UInt64 BucketSize,
      b.entries Sentinel = (bucketSlots Sentinel b).map fun s => (s.key, s.payload) := by
    intro b
    rw [bucketSlots, List.map_map]; rfl
  simp only [pairs, slots, List.map_flatMap, hbucket]

/-- Collecting the pairs value by value. -/
theorem perm_flatMap_filter {α : Type} (f : α → ℕ) (data : List α) (ind n : ℕ) :
    ((List.range' ind n).flatMap fun i => data.filter fun d => f d = i).Perm
      (data.filter fun d => ind ≤ f d ∧ f d < ind + n) := by
  induction n generalizing ind with
  | zero =>
    have hnone : (data.filter fun d => ind ≤ f d ∧ f d < ind + 0) = [] := by
      rw [List.filter_eq_nil_iff]
      intro d _ hd
      rw [decide_eq_true_eq] at hd; omega
    rw [hnone]; exact List.Perm.refl _
  | succ n ih =>
    rw [List.range'_succ, List.flatMap_cons]
    have hsplit := List.filter_append_perm (fun d => decide (f d = ind))
      (data.filter fun d => ind ≤ f d ∧ f d < ind + (n + 1))
    rw [List.filter_filter, List.filter_filter] at hsplit
    have hhead : (data.filter fun d => decide (f d = ind) && decide (ind ≤ f d ∧ f d < ind + (n + 1)))
        = data.filter fun d => f d = ind := by
      refine List.filter_congr fun d _ => ?_
      rw [← Bool.decide_and, decide_eq_decide]; omega
    have htail : (data.filter fun d =>
          (!decide (f d = ind)) && decide (ind ≤ f d ∧ f d < ind + (n + 1)))
        = data.filter fun d => ind + 1 ≤ f d ∧ f d < ind + 1 + n := by
      refine List.filter_congr fun d _ => ?_
      rw [← decide_not, ← Bool.decide_and, decide_eq_decide]; omega
    rw [hhead, htail] at hsplit
    exact ((ih (ind + 1)).append_left _).trans hsplit

section Facts
variable {Sentinel low_key high_key : UInt64} {model : Model UInt64}
  {chain : ℕ → List (Ptr × Bucket UInt64 UInt64 BucketSize)} {data : List (UInt64 × UInt64)}
  {t : KapilChainedModelHashTable UInt64 UInt64 BucketSize m}

/-- The pairs met from directory bucket `ind` on. -/
theorem Placed.perm_traversal (h : Placed Sentinel model chain data t)
    (hmodel : ∀ key, (model key).toNat < m) (ind : ℕ) (hind : ind ≤ m) :
    ((traversal Sentinel chain m ind).map fun s => (s.key, s.payload)).Perm
      (data.filter fun d => ind ≤ (model d.1).toNat) := by
  have hflat : ((traversal Sentinel chain m ind).map fun s => (s.key, s.payload))
      = (List.range' ind (m - ind)).flatMap fun i => pairs Sentinel (chain i) := by
    simp only [traversal, List.map_flatMap, pairs_eq_slots]
  have hchains : ((List.range' ind (m - ind)).flatMap fun i => pairs Sentinel (chain i)).Perm
      ((List.range' ind (m - ind)).flatMap fun i =>
        data.filter fun d => (model d.1).toNat = i) := by
    refine List.Perm.flatMap_left _ fun i hi => h.holds i ?_
    have := List.mem_range'_1.mp hi
    omega
  have hall := perm_flatMap_filter (fun d => (model d.1).toNat) data ind (m - ind)
  have hbound : (data.filter fun d => decide (ind ≤ (model d.1).toNat ∧
        (model d.1).toNat < ind + (m - ind)))
      = data.filter fun d => ind ≤ (model d.1).toNat := by
    refine List.filter_congr fun d _ => ?_
    have := hmodel d.1
    rw [decide_eq_decide]; omega
  rw [hflat]
  rw [hbound] at hall
  exact hchains.trans hall

/-- In the order of the walk, a key above `high_key` is met exactly if there is one. -/
theorem Placed.exits_iff (h : Placed Sentinel model chain data t)
    (hmodel : ∀ key, (model key).toNat < m) (hmono : ∀ a b, a ≤ b → model a ≤ model b)
    (hrange : low_key ≤ high_key) :
    exits high_key (traversal Sentinel chain m (model low_key).toNat) = true ↔
      ∃ d ∈ data, high_key < d.1 := by
  have hperm := h.perm_traversal hmodel _ (hmodel low_key).le
  rw [exits, List.any_eq_true]
  constructor
  · rintro ⟨s, hs, hhigh⟩
    have hd := hperm.mem_iff.mp (List.mem_map_of_mem hs)
    exact ⟨_, (List.mem_filter.mp hd).1, by simpa using hhigh⟩
  · rintro ⟨d, hd, hhigh⟩
    have hind : (model low_key).toNat ≤ (model d.1).toNat :=
      UInt64.le_iff_toNat_le.mp (hmono _ _ (hrange.trans hhigh.le))
    have hin : d ∈ data.filter fun d => (model low_key).toNat ≤ (model d.1).toNat :=
      List.mem_filter.mpr ⟨hd, decide_eq_true hind⟩
    obtain ⟨s, hs, rfl⟩ := List.mem_map.mp (hperm.mem_iff.mpr hin)
    exact ⟨s, hs, decide_eq_true hhigh⟩

/-- The payloads of the range, in the order of the walk. -/
theorem Placed.rangeSum_eq (h : Placed Sentinel model chain data t)
    (hmodel : ∀ key, (model key).toNat < m) (hmono : ∀ a b, a ≤ b → model a ≤ model b) :
    rangeSum low_key high_key data = UInt64.ofNat
      (((traversal Sentinel chain m (model low_key).toNat).filter
        fun s => InRange low_key high_key s.key).map fun s => s.payload.toNat).sum := by
  have hperm := (h.perm_traversal hmodel _ (hmodel low_key).le).filter
    fun d => decide (InRange low_key high_key d.1)
  have hall : ((data.filter fun d => decide ((model low_key).toNat ≤ (model d.1).toNat)).filter
      fun d => decide (InRange low_key high_key d.1))
      = data.filter fun d => InRange low_key high_key d.1 := by
    rw [List.filter_filter]
    refine List.filter_congr fun d _ => ?_
    rw [← Bool.decide_and, decide_eq_decide]
    exact and_iff_left_of_imp fun hd => UInt64.le_iff_toNat_le.mp (hmono _ _ hd.1)
  rw [hall, List.filter_map] at hperm
  have hsum := (hperm.map fun d => d.2.toNat).sum_eq
  rw [rangeSum, ← hsum, List.map_map]; rfl

theorem Placed.nodup_keys (h : Placed Sentinel model chain data t)
    (hmodel : ∀ key, (model key).toNat < m) (hkeys : (data.map Prod.fst).Nodup) (low_key : UInt64) :
    ((traversal Sentinel chain m (model low_key).toNat).map Slot.key).Nodup := by
  have hperm := (h.perm_traversal hmodel _ (hmodel low_key).le).map Prod.fst
  have hsub := (List.filter_sublist (l := data)
    (p := fun d => decide ((model low_key).toNat ≤ (model d.1).toNat))).map Prod.fst
  rw [List.map_map] at hperm
  exact hperm.nodup_iff.mpr (hkeys.sublist hsub)

/-! ### Other payloads -/

theorem load_withPayloads (payloadOf : UInt64 → UInt64) (p : Ptr) :
    (withPayloads payloadOf t).load p = (t.load p).map (bucketWith payloadOf) := by
  cases p with
  | directory i =>
    by_cases hi : i < m
    · simp [load, withPayloads, hi]
    · simp [load, hi]
  | cell c =>
    simp only [load, withPayloads, Tape.get?, List.getElem?_map]
    cases t.tape.begins[c.segment]? <;> simp

/-- The chains of the table with other payloads. -/
def chainWith (payloadOf : UInt64 → UInt64)
    (chain : ℕ → List (Ptr × Bucket UInt64 UInt64 BucketSize)) (i : ℕ) :
    List (Ptr × Bucket UInt64 UInt64 BucketSize) :=
  (chain i).map fun x => (x.1, bucketWith payloadOf x.2)

theorem slots_with (payloadOf : UInt64 → UInt64)
    (l : List (Ptr × Bucket UInt64 UInt64 BucketSize)) :
    slots Sentinel (l.map fun x => (x.1, bucketWith payloadOf x.2))
      = (slots Sentinel l).map fun s => (bucketWith payloadOf s.1, s.2) := by
  have hbucket : ∀ b : Bucket UInt64 UInt64 BucketSize, bucketSlots Sentinel (bucketWith payloadOf b)
      = (bucketSlots Sentinel b).map fun s => (bucketWith payloadOf s.1, s.2) := by
    intro b
    rw [bucketSlots, bucketSlots, List.map_map]; rfl
  simp only [slots, List.flatMap_map, List.map_flatMap, hbucket]

theorem traversal_with (payloadOf : UInt64 → UInt64) (ind : ℕ) :
    traversal Sentinel (chainWith payloadOf chain) m ind
      = (traversal Sentinel chain m ind).map fun s => (bucketWith payloadOf s.1, s.2) := by
  simp only [traversal, chainWith, slots_with, List.map_flatMap]

theorem Placed.withPayloads (h : Placed Sentinel model chain data t)
    (payloadOf : UInt64 → UInt64) :
    Placed Sentinel model (chainWith payloadOf chain) (data.map fun d => (d.1, payloadOf d.1))
      (withPayloads payloadOf t) := by
  refine ⟨fun i hi => ?_, fun i hi x hx => ?_, fun i hi => ?_⟩
  · exact (h.linked i hi).map (load_withPayloads payloadOf) fun _ => rfl
  · obtain ⟨y, hy, rfl⟩ := List.mem_map.mp hx
    exact h.prefixes i hi y hy
  · have hpairs : pairs Sentinel (chainWith payloadOf chain i)
        = (pairs Sentinel (chain i)).map fun d => (d.1, payloadOf d.1) := by
      rw [pairs_eq_slots, chainWith, slots_with, pairs_eq_slots, List.map_map, List.map_map]; rfl
    rw [hpairs, List.filter_map]
    exact (h.holds i hi).map _

end Facts

/-! ### The keys the walk reads -/

section Reads
variable [NeZero BucketSize] {Sentinel low_key high_key : UInt64}

/-- Every key of the range is in the first slot of its bucket and comes before every key above
    `high_key`. -/
def Readable (low_key high_key : UInt64) (l : List (Slot BucketSize)) : Prop :=
  ∀ s ∈ l, InRange low_key high_key s.key → s.2 = 0 ∧ s ∈ l.takeWhile fun s => s.key ≤ high_key

omit [NeZero BucketSize] in
theorem counted_eq_filter (l : List (Slot BucketSize)) : counted low_key high_key l
    = (l.takeWhile fun s => s.key ≤ high_key).filter fun s => InRange low_key high_key s.key := by
  refine List.filter_congr fun s hs => ?_
  have hle := List.mem_takeWhile_imp hs
  rw [decide_eq_true_eq] at hle
  rw [decide_eq_decide]
  exact (and_iff_left hle).symm

/-- Readable keys are read, each with its own payload. -/
theorem Readable.readSum_eq {l : List (Slot BucketSize)} (h : Readable low_key high_key l)
    (hkeys : (l.map Slot.key).Nodup) : readSum low_key high_key l = UInt64.ofNat
      ((l.filter fun s => InRange low_key high_key s.key).map fun s => s.payload.toNat).sum := by
  have hsplit := List.takeWhile_append_dropWhile (l := l)
    (p := fun s : Slot BucketSize => decide (s.key ≤ high_key))
  have hrest : ((l.dropWhile fun s => decide (s.key ≤ high_key)).filter
      fun s => InRange low_key high_key s.key) = [] := by
    rw [List.filter_eq_nil_iff]
    intro s hs hin
    rw [decide_eq_true_eq] at hin
    have hmem := (h s ((List.dropWhile_sublist _).mem hs) hin).2
    have hnodup := List.Nodup.of_map _ hkeys
    rw [← hsplit] at hnodup
    exact (List.disjoint_of_nodup_append hnodup) hmem hs
  have hcounted : counted low_key high_key l
      = l.filter fun s => InRange low_key high_key s.key := by
    rw [counted_eq_filter]
    conv_rhs => rw [← hsplit, List.filter_append, hrest, List.append_nil]
  rw [readSum, hcounted]
  congr 2
  refine List.map_congr_left fun s hs => ?_
  obtain ⟨hs, hin⟩ := List.mem_filter.mp hs
  have hzero := (h s hs (of_decide_eq_true hin)).1
  rw [Slot.firstPayload, Slot.payload, hzero]

theorem bucketSlots_cases (Sentinel : UInt64) (b : Bucket UInt64 UInt64 BucketSize) :
    bucketSlots Sentinel b = [] ∨ ∃ rest, bucketSlots Sentinel b = (b, 0) :: rest := by
  obtain ⟨n, rfl⟩ : ∃ n, BucketSize = n + 1 := ⟨BucketSize - 1, by have := NeZero.pos BucketSize; omega⟩
  rw [bucketSlots, List.finRange_succ, List.takeWhile_cons]
  split_ifs
  · exact Or.inr ⟨_, List.map_cons⟩
  · exact Or.inl rfl

/-- With a slot the scan reaches the first slot of the bucket. -/
theorem first_mem_takeWhile {bs : List (Bucket UInt64 UInt64 BucketSize)}
    {p : Slot BucketSize → Bool} {r : Slot BucketSize}
    (hr : r ∈ (bs.flatMap (bucketSlots Sentinel)).takeWhile p) :
    (r.1, 0) ∈ (bs.flatMap (bucketSlots Sentinel)).takeWhile p := by
  induction bs with
  | nil => cases hr
  | cons b bs ih =>
    rw [List.flatMap_cons] at hr ⊢
    rcases bucketSlots_cases Sentinel b with hnil | ⟨rest, hrest⟩
    · rw [hnil, List.nil_append] at hr ⊢
      exact ih hr
    · have hbucket : ∀ s ∈ bucketSlots Sentinel b, s.1 = b := by
        intro s hs
        obtain ⟨i, -, rfl⟩ := List.mem_map.mp hs
        rfl
      have hhead : p (b, 0) = true := by
        by_contra hneg
        rw [hrest, List.cons_append, List.takeWhile_cons_of_neg hneg] at hr
        cases hr
      have hfirst : (b, 0) ∈ (bucketSlots Sentinel b ++ bs.flatMap (bucketSlots Sentinel)).takeWhile
          p := by
        rw [hrest, List.cons_append, List.takeWhile_cons_of_pos hhead]
        exact List.mem_cons_self
      rw [List.takeWhile_append] at hr hfirst ⊢
      split_ifs at hr hfirst ⊢ with hfull
      · rcases List.mem_append.mp hr with hr | hr
        · rw [hbucket r hr]; exact hfirst
        · exact List.mem_append_right _ (ih hr)
      · rw [hbucket r ((List.takeWhile_sublist _).mem hr)]; exact hfirst

theorem sum_indicator {α : Type} (f : α → UInt64) (k : UInt64) (l : List α) :
    (l.map fun a => (if f a = k then (1 : UInt64) else 0).toNat).sum = (l.map f).count k := by
  induction l with
  | nil => rfl
  | cons a l ih =>
    rw [List.map_cons, List.sum_cons, ih, List.map_cons, List.count_cons]
    by_cases hk : f a = k
    · simp [hk, Nat.add_comm]
    · simp [hk]

end Reads

section Correct
variable [NeZero BucketSize] {Sentinel low_key high_key : UInt64} {model : Model UInt64}
  {chain : ℕ → List (Ptr × Bucket UInt64 UInt64 BucketSize)} {data : List (UInt64 × UInt64)}
  {t : KapilChainedModelHashTable UInt64 UInt64 BucketSize m}

/-- With the payloads of the table as they are, the query is right if and only if a key above
    `high_key` stops it and what it reads adds up to the payloads of the range. -/
theorem Placed.query_eq_iff (h : Placed Sentinel model chain data t)
    (hmodel : ∀ key, (model key).toNat < m) (hmono : ∀ a b, a ≤ b → model a ≤ model b)
    (hrange : low_key ≤ high_key) :
    hashRangeQuery Sentinel model t low_key high_key = .ok (rangeSum low_key high_key data) ↔
      (∃ d ∈ data, high_key < d.1) ∧
      readSum low_key high_key (traversal Sentinel chain m (model low_key).toNat) = UInt64.ofNat
        (((traversal Sentinel chain m (model low_key).toNat).filter
          fun s => InRange low_key high_key s.key).map fun s => s.payload.toNat).sum := by
  rw [hashRangeQuery_eq h.linked (hmodel low_key), ← h.rangeSum_eq hmodel hmono,
    ← h.exits_iff hmodel hmono hrange]
  split_ifs with hexit
  · simp [hexit]
  · simp [hexit]

/-- A key of the range that is not readable is missed by payloads that tell it from all others. -/
theorem Placed.readable_of_forall (h : Placed Sentinel model chain data t)
    (hmodel : ∀ key, (model key).toNat < m) (hmono : ∀ a b, a ≤ b → model a ≤ model b)
    (hkeys : (data.map Prod.fst).Nodup) (hrange : low_key ≤ high_key)
    (hall : ∀ payloadOf, hashRangeQuery Sentinel model (KapilChainedModelHashTable.withPayloads
      payloadOf t) low_key high_key
        = .ok (rangeSum low_key high_key (data.map fun d => (d.1, payloadOf d.1)))) :
    Readable low_key high_key (traversal Sentinel chain m (model low_key).toNat) := by
  intro s hs hin
  let payloadOf : UInt64 → UInt64 := fun q => if q = s.key then 1 else 0
  have hnodup := h.nodup_keys hmodel hkeys low_key
  obtain ⟨-, hsum⟩ := ((h.withPayloads payloadOf).query_eq_iff hmodel hmono hrange).mp
    (hall payloadOf)
  -- the query counts the slots read whose bucket starts with the key, and must count one
  have hread : readSum low_key high_key
        (traversal Sentinel (chainWith payloadOf chain) m (model low_key).toNat)
      = UInt64.ofNat (((counted low_key high_key
        (traversal Sentinel chain m (model low_key).toNat)).map fun s => s.1.keys 0).count s.key) := by
    rw [traversal_with, readSum, counted, List.takeWhile_map, List.filter_map, List.map_map,
      ← sum_indicator]
    rfl
  have hone : ((((traversal Sentinel (chainWith payloadOf chain) m (model low_key).toNat).filter
        fun s => InRange low_key high_key s.key).map fun s => s.payload.toNat).sum) = 1 := by
    have hcount := List.count_eq_one_of_mem
      (hnodup.sublist ((List.filter_sublist (p := fun s : Slot BucketSize =>
        decide (InRange low_key high_key s.key))).map Slot.key))
      (List.mem_map_of_mem (List.mem_filter.mpr ⟨hs, decide_eq_true hin⟩))
    rw [← hcount, ← sum_indicator, traversal_with, List.filter_map, List.map_map]
    rfl
  rw [hread, hone] at hsum
  have hpos : s.key ∈ (counted low_key high_key
      (traversal Sentinel chain m (model low_key).toNat)).map fun s => s.1.keys 0 := by
    by_contra hnot
    rw [List.count_eq_zero_of_not_mem hnot] at hsum
    exact absurd hsum (by decide)
  obtain ⟨r, hr, hfirst⟩ := List.mem_map.mp hpos
  have hr' := (List.mem_filter.mp hr).1
  have hbuckets : traversal Sentinel chain m (model low_key).toNat
      = ((List.range' (model low_key).toNat (m - (model low_key).toNat)).flatMap
        fun i => (chain i).map Prod.snd).flatMap (bucketSlots Sentinel) := by
    simp only [traversal, slots, List.flatMap_assoc, List.flatMap_map]
  have hmem : (r.1, 0) ∈ (traversal Sentinel chain m (model low_key).toNat).takeWhile
      fun s => decide (s.key ≤ high_key) := by
    rw [hbuckets] at hr' ⊢
    exact first_mem_takeWhile hr'
  have heq : s = (r.1, 0) := List.inj_on_of_nodup_map hnodup hs
    ((List.takeWhile_sublist _).mem hmem) hfirst.symm
  rw [heq]
  exact ⟨rfl, hmem⟩

/-- Two keys of the range in one bucket: the payload of the first is added twice. -/
theorem hash_range_query_adds_first_payload_twice :
    let model : Model UInt64 := ⟨fun _ => 0, "zero"⟩
    let data : List (UInt64 × UInt64) := [(5, 50), (6, 60), (9, 90)]
    let second : Bucket UInt64 UInt64 2 := ⟨![9, 0], ![90, 0], none⟩
    let first : Bucket UInt64 UInt64 2 := ⟨![5, 6], ![50, 60], some ⟨0, 0⟩⟩
    let t : KapilChainedModelHashTable UInt64 UInt64 2 1 := ⟨fun _ => first, ⟨[[second]], 1, 1⟩⟩
    ((∀ key, (model key).toNat < 1) ∧ (∀ a b, a ≤ b → model a ≤ model b) ∧
      (data.map Prod.fst).Nodup ∧
      Placed 0 model (fun _ => [(.directory 0, first), (.cell ⟨0, 0⟩, second)]) data t) ∧
    hashRangeQuery 0 model t 5 6 = .ok 100 ∧ rangeSum 5 6 data = 110 := by
  intro model data second first t
  refine ⟨⟨fun _ => one_pos, fun _ _ _ => le_refl _, by decide, ?_⟩, by rfl, by rfl⟩
  refine ⟨fun i hi => ?_, fun i hi x hx => ?_, fun i hi => ?_⟩
  · obtain rfl := Nat.lt_one_iff.mp hi
    exact ⟨rfl, rfl, rfl, rfl, rfl⟩
  · simp only [List.mem_cons, List.not_mem_nil, or_false] at hx
    rcases hx with rfl | rfl
    · intro i j; revert i j; decide
    · intro i j; revert i j; decide
  · obtain rfl := Nat.lt_one_iff.mp hi
    exact List.Perm.refl _

/-- CORRECT: whatever the payloads, the range query returns the sum of the payloads of the range
    exactly if some key is above `high_key` and every key of the range is in the first slot of its
    bucket and before every key above `high_key`. With given payloads it also does where the payloads
    it reads happen to add up to the same sum. -/
theorem hash_range_query_correct_iff (Sentinel : UInt64) (model : Model UInt64)
    (hmodel : ∀ key, (model key).toNat < m) (hmono : ∀ a b, a ≤ b → model a ≤ model b)
    (data : List (UInt64 × UInt64)) (hkeys : (data.map Prod.fst).Nodup)
    (t : KapilChainedModelHashTable UInt64 UInt64 BucketSize m)
    (chain : ℕ → List (Ptr × Bucket UInt64 UInt64 BucketSize))
    (hplaced : Placed Sentinel model chain data t) (low_key high_key : UInt64)
    (hrange : low_key ≤ high_key) :
    ((∀ payloadOf, hashRangeQuery Sentinel model (withPayloads payloadOf t) low_key high_key
        = .ok (rangeSum low_key high_key (data.map fun d => (d.1, payloadOf d.1)))) ↔
      (∃ d ∈ data, high_key < d.1) ∧
      Readable low_key high_key (traversal Sentinel chain m (model low_key).toNat)) ∧
    (hashRangeQuery Sentinel model t low_key high_key = .ok (rangeSum low_key high_key data) ↔
      (∃ d ∈ data, high_key < d.1) ∧
      readSum low_key high_key (traversal Sentinel chain m (model low_key).toNat) = UInt64.ofNat
        (((traversal Sentinel chain m (model low_key).toNat).filter
          fun s => InRange low_key high_key s.key).map fun s => s.payload.toNat).sum) := by
  refine ⟨⟨fun hall => ⟨?_, hplaced.readable_of_forall hmodel hmono hkeys hrange hall⟩, ?_⟩,
    hplaced.query_eq_iff hmodel hmono hrange⟩
  · obtain ⟨⟨d, hd, hhigh⟩, -⟩ :=
      ((hplaced.withPayloads id).query_eq_iff hmodel hmono hrange).mp (hall id)
    obtain ⟨e, he, rfl⟩ := List.mem_map.mp hd
    exact ⟨e, he, hhigh⟩
  · rintro ⟨⟨d, hd, hhigh⟩, hreadable⟩ payloadOf
    have hwith := hplaced.withPayloads payloadOf
    have hnodup := hplaced.nodup_keys hmodel hkeys low_key
    refine (hwith.query_eq_iff hmodel hmono hrange).mpr
      ⟨⟨_, List.mem_map_of_mem hd, hhigh⟩, Readable.readSum_eq ?_ ?_⟩
    · rw [traversal_with]
      intro s hs hin
      obtain ⟨r, hr, rfl⟩ := List.mem_map.mp hs
      obtain ⟨hzero, hmem⟩ := hreadable r hr hin
      rw [List.takeWhile_map]
      exact ⟨hzero, List.mem_map_of_mem hmem⟩
    · rw [traversal_with, List.map_map]
      exact hnodup

/-- Two directory buckets with a key each, and a range of the first. -/
theorem hash_range_query_correct_iff_one_slot :
    let model : Model UInt64 := ⟨fun key => if key < 9 then 0 else 1, "step"⟩
    let data : List (UInt64 × UInt64) := [(5, 50), (9, 90)]
    let first : Bucket UInt64 UInt64 1 := ⟨![5], ![50], none⟩
    let second : Bucket UInt64 UInt64 1 := ⟨![9], ![90], none⟩
    let t : KapilChainedModelHashTable UInt64 UInt64 1 2 := ⟨![first, second], Tape.empty⟩
    hashRangeQuery 0 model t 2 7 = .ok (rangeSum 2 7 data) := by
  intro model data first second t
  have hplaced : Placed 0 model
      (fun i => [(.directory i, if i = 0 then first else second)]) data t := by
    refine ⟨fun i hi => ?_, fun i hi x hx => ?_, fun i hi => ?_⟩
    · obtain rfl | rfl : i = 0 ∨ i = 1 := by omega
      · exact ⟨rfl, rfl, rfl⟩
      · exact ⟨rfl, rfl, rfl⟩
    · rw [List.mem_singleton.mp hx]
      intro a b _ ha
      rwa [Subsingleton.elim b a]
    · obtain rfl | rfl : i = 0 ∨ i = 1 := by omega
      · exact List.Perm.refl _
      · exact List.Perm.refl _
  have hmono : ∀ a b, a ≤ b → model a ≤ model b := by
    intro a b hab
    change (if a < 9 then (0 : UInt64) else 1) ≤ if b < 9 then 0 else 1
    split_ifs with ha hb hb
    · exact le_refl _
    · decide
    · exact absurd (lt_of_le_of_lt hab hb) ha
    · exact le_refl _
  have hmodel : ∀ key, (model key).toNat < 2 := by
    intro key
    change (if key < 9 then (0 : UInt64) else 1).toNat < 2
    split_ifs <;> decide
  exact (hash_range_query_correct_iff 0 model hmodel hmono data (by decide) t _ hplaced 2 7
    (by decide)).2.mpr ⟨⟨(9, 90), by simp [data], by decide⟩, by rfl⟩

end Correct
end KapilChainedModelHashTable
end HashingBenchmark

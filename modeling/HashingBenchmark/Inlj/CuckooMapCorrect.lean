import HashingBenchmark.Cuckoo.Correct
import HashingBenchmark.Inlj.CuckooMap
import Mathlib.Data.List.Dedup

/-! `CuckooHashMap` is a map, and the join that probes it.

    With its slots seen as a `CuckooTable` the map obeys the same discipline as the tables of
    `cuckoo.hpp` (`Sound`), so the rules for one write to such a table carry over. What differs is
    the order of the update check, the choice of the victim, and that no round is the last one. The
    induction is over the rounds of a call, for any map the table is sound for. -/

namespace HashingBenchmark
namespace Inlj
open SlotArray LaneMask Npj CuckooTable

namespace CuckooHashMap
variable {V : Type} {num_buckets_ : UInt32}

/-- The buckets with key and value of a slot next to each other. -/
def toTable (t : CuckooHashMap V num_buckets_) :
    CuckooTable UInt32 V bckt_size num_buckets_.toNat :=
  ⟨fun b => ⟨fun i => ⟨(t.buckets_ b).keys i, (t.buckets_ b).values i⟩⟩, t.rand_⟩

@[simp] theorem toTable_keys (t : CuckooHashMap V num_buckets_) (b : Fin num_buckets_.toNat) :
    t.toTable.keys b = (t.buckets_ b).keys := rfl

theorem toTable_write (t : CuckooHashMap V num_buckets_) (b : Fin num_buckets_.toNat)
    (i : Fin bckt_size) (key : UInt32) (value : V) :
    (t.write b i key value).toTable = t.toTable.write b i key value := by
  have hbuckets : (t.write b i key value).toTable.buckets
      = (t.toTable.write b i key value).buckets := by
    funext c
    rcases eq_or_ne c b with rfl | hc
    · simp only [toTable, write, CuckooTable.write, Function.update_self]
      congr 1
      funext j
      rcases eq_or_ne j i with rfl | hj
      · simp
      · simp [hj]
    · simp [toTable, write, CuckooTable.write, hc]
  exact congrArg (fun buckets => (⟨buckets, t.rand_⟩ : CuckooTable UInt32 V bckt_size _)) hbuckets

/-- What the comparison of a bucket with a key finds. -/
theorem search_cases (key : UInt32) (b : Bucket V) :
    (∃ i, b.keys i = key ∧ search key b = some i) ∨
    ((∀ i, b.keys i ≠ key) ∧ search key b = none) := by
  have hencodes := encodes_movemask_epi8 (Nat.succ_pos 3) (set1 key.toBitVec)
    (fun i => (b.keys i).toBitVec : Lanes bckt_size (8 * 4))
  have hlane : ∀ i, (set1 key.toBitVec : Lanes bckt_size (8 * 4)) i = (b.keys i).toBitVec ↔
      b.keys i = key := fun i => by rw [set1, UInt32.toBitVec_inj, eq_comm]
  rcases ctz_cases hencodes (Nat.succ_pos 3) with ⟨hne, i, hi, -, hctz⟩ | ⟨hzero, hnone⟩
  · exact .inl ⟨i, (hlane i).mp hi, (dif_pos hne).trans (congrArg some (Fin.ext hctz))⟩
  · exact .inr ⟨fun i hi => hnone i ((hlane i).mpr hi), dif_neg fun hne => hne hzero⟩

variable [NeZero num_buckets_.toNat]

/-- The hashes of a key, reduced to the number of buckets. -/
def primary (num_buckets_ key : UInt32) : UInt64 := (altMod (hash32 key) num_buckets_).toUInt64

def secondary (num_buckets_ key : UInt32) : UInt64 :=
  (altMod (hash32 (key ^^^ hash32 key)) num_buckets_).toUInt64

theorem ofNat_altMod (x : UInt32) :
    Fin.ofNat num_buckets_.toNat (altMod x num_buckets_).toUInt64.toNat
      = ⟨(altMod x num_buckets_).toNat, altMod_lt x num_buckets_⟩ := by
  apply Fin.ext
  rw [Fin.val_ofNat, UInt32.toNat_toUInt64, Nat.mod_eq_of_lt (altMod_lt x num_buckets_)]

theorem i1_eq (key : UInt32) :
    CuckooTable.i1 (primary num_buckets_) num_buckets_.toNat key = i1 num_buckets_ key := by
  rw [CuckooTable.i1, primary, ofNat_altMod, i1]

theorem i2_eq (key : UInt32) :
    CuckooTable.i2 (primary num_buckets_) (secondary num_buckets_) num_buckets_.toNat key
      = i2 num_buckets_ key := by
  simp only [CuckooTable.i2, i2, i1_eq, secondary, ofNat_altMod]

/-- The two buckets a key may be in. -/
def Candidate (key : UInt32) (b : Fin num_buckets_.toNat) : Prop :=
  b = i1 num_buckets_ key ∨ b = i2 num_buckets_ key

/-- The update check: a slot of a candidate bucket that holds the key, or there is none. -/
theorem search_both_cases (t : CuckooHashMap V num_buckets_) (key : UInt32) :
    (∃ i, (t.buckets_ (i1 num_buckets_ key)).keys i = key ∧
      search key (t.buckets_ (i1 num_buckets_ key)) = some i) ∨
    (search key (t.buckets_ (i1 num_buckets_ key)) = none ∧
      ∃ i, (t.buckets_ (i2 num_buckets_ key)).keys i = key ∧
        search key (t.buckets_ (i2 num_buckets_ key)) = some i) ∨
    (search key (t.buckets_ (i1 num_buckets_ key)) = none ∧
      search key (t.buckets_ (i2 num_buckets_ key)) = none ∧
      ∀ b i, Candidate key b → (t.buckets_ b).keys i ≠ key) := by
  rcases search_cases key (t.buckets_ (i1 num_buckets_ key)) with h1 | ⟨h1, hnone1⟩
  · exact .inl h1
  rcases search_cases key (t.buckets_ (i2 num_buckets_ key)) with h2 | ⟨h2, hnone2⟩
  · exact .inr (.inl ⟨hnone1, h2⟩)
  · refine .inr (.inr ⟨hnone1, hnone2, ?_⟩)
    rintro b i (rfl | rfl)
    · exact h1 i
    · exact h2 i

/-- What a round of `insert` does: it updates the value of a stored key, or writes a new key into the
    first free slot of a candidate bucket, or puts it in place of another key and goes on with that
    one. -/
theorem insertLoop_cases (rounds : ℕ) (key : UInt32) (value : V) (is_reinsert : Bool)
    (t : CuckooHashMap V num_buckets_) :
    (∃ b i, (t.buckets_ b).keys i = key ∧
      insertLoop (rounds + 1) key value is_reinsert t = .returned (t.setValue b i value)) ∨
    ((∀ b i, Candidate key b → (t.buckets_ b).keys i ≠ key) ∧
      ((∃ b i, Candidate key b ∧
        (FilledPrefix INVALID_KEY (t.buckets_ b).keys → (t.buckets_ b).keys i = INVALID_KEY ∧
          ∀ j < i, (t.buckets_ b).keys j ≠ INVALID_KEY) ∧
        insertLoop (rounds + 1) key value is_reinsert t
          = .returned ((t.counted is_reinsert).write b i key value)) ∨
      ∃ b i rand', Candidate key b ∧ (∀ c, Candidate key c → Full INVALID_KEY (t.buckets_ c).keys) ∧
        insertLoop (rounds + 1) key value is_reinsert t
          = insertLoop rounds ((t.buckets_ b).keys i) ((t.buckets_ b).values i) true
            { (t.counted is_reinsert).write b i key value with rand_ := rand' })) := by
  rw [insertLoop]
  rcases t.search_both_cases key with ⟨i, hi, hsome⟩ | ⟨hnone, i, hi, hsome⟩ | ⟨h1, h2, hnot⟩
  · rw [hsome]
    exact .inl ⟨_, i, hi, rfl⟩
  · rw [hnone, hsome]
    exact .inl ⟨_, i, hi, rfl⟩
  rw [h1, h2]
  refine .inr ⟨hnot, ?_⟩
  have hbuckets : (t.counted is_reinsert).buckets_ = t.buckets_ := by
    rw [counted]; split_ifs <;> rfl
  have hplace : ∀ b (hlt : (t.counted is_reinsert).count b < bckt_size),
      FilledPrefix INVALID_KEY (t.buckets_ b).keys →
      (t.buckets_ b).keys ⟨(t.counted is_reinsert).count b, hlt⟩ = INVALID_KEY ∧
        ∀ j < (⟨(t.counted is_reinsert).count b, hlt⟩ : Fin bckt_size),
          (t.buckets_ b).keys j ≠ INVALID_KEY := by
    intro b hlt h
    rw [← hbuckets] at h ⊢
    exact ⟨eq_of_val_eq_occupied h rfl, fun j hj => (ne_iff_lt_occupied h j).mpr hj⟩
  simp only
  by_cases hroom1 : (t.counted is_reinsert).count (i1 num_buckets_ key)
      ≤ (t.counted is_reinsert).count (i2 num_buckets_ key) ∧
      (t.counted is_reinsert).count (i1 num_buckets_ key) < bckt_size
  · rw [dif_pos hroom1]
    exact .inl ⟨_, _, .inl rfl, hplace _ hroom1.2, rfl⟩
  rw [dif_neg hroom1]
  by_cases hroom2 : (t.counted is_reinsert).count (i2 num_buckets_ key) < bckt_size
  · rw [dif_pos hroom2]
    exact .inl ⟨_, _, .inr rfl, hplace _ hroom2, rfl⟩
  rw [dif_neg hroom2]
  have hfull : ∀ c, Candidate key c → Full INVALID_KEY (t.buckets_ c).keys := by
    have hle : (t.counted is_reinsert).count (i1 num_buckets_ key) ≤ bckt_size := occupied_le _ _
    rw [← hbuckets]
    rintro c (rfl | rfl)
    · refine full_of_le_occupied (not_lt.mp fun hlt => hroom1 ⟨?_, hlt⟩)
      exact hle.trans (not_lt.mp hroom2)
    · exact full_of_le_occupied (not_lt.mp hroom2)
  refine .inr ⟨_, _, _, ?_, hfull, by rw [← hbuckets]⟩
  split_ifs
  · exact .inr rfl
  · exact .inl rfl

/-! ### Runs -/

/-- The buckets are the map `M`. -/
abbrev Sound (M : UInt32 → Option V) (t : CuckooHashMap V num_buckets_) : Prop :=
  CuckooTable.Sound (primary num_buckets_) (secondary num_buckets_) INVALID_KEY M t.toTable

omit [NeZero num_buckets_.toNat] in
theorem counted_toTable (is_reinsert : Bool) (t : CuckooHashMap V num_buckets_) :
    (t.counted is_reinsert).toTable = t.toTable := by
  rw [counted]; split_ifs <;> rfl

omit [NeZero num_buckets_.toNat] in
theorem evicted_toTable (is_reinsert : Bool) (t : CuckooHashMap V num_buckets_)
    (b : Fin num_buckets_.toNat) (i : Fin bckt_size) (key : UInt32) (value : V)
    (rand' : Stream' UInt32) :
    ({ (t.counted is_reinsert).write b i key value with rand_ := rand' } :
        CuckooHashMap V num_buckets_).toTable
      = { t.toTable.write b i key value with rand_ := rand' } := by
  have hwrite := toTable_write (t.counted is_reinsert) b i key value
  rw [counted_toTable] at hwrite
  rw [← hwrite]
  rfl

theorem candidate_iff (key : UInt32) (b : Fin num_buckets_.toNat) :
    Candidate key b ↔ b = CuckooTable.i1 (primary num_buckets_) num_buckets_.toNat key ∨
      b = CuckooTable.i2 (primary num_buckets_) (secondary num_buckets_) num_buckets_.toNat key := by
  rw [i1_eq, i2_eq, Candidate]

theorem Sound.eq_none {M : UInt32 → Option V} {t : CuckooHashMap V num_buckets_} (h : t.Sound M)
    {key : UInt32} (hkey : key ≠ INVALID_KEY)
    (hnot : ∀ b i, Candidate key b → (t.buckets_ b).keys i ≠ key) : M key = none :=
  h.placed.eq_none hkey fun b i hb => hnot b i ((candidate_iff key b).mpr hb)

/-- The rounds of one insert add up to one update of the map. -/
theorem Sound.insertLoop {rounds : ℕ} {key : UInt32} {value : V} {is_reinsert : Bool}
    {M : UInt32 → Option V} {t t' : CuckooHashMap V num_buckets_} (h : t.Sound M)
    (hkey : key ≠ INVALID_KEY)
    (hret : CuckooHashMap.insertLoop rounds key value is_reinsert t = .returned t') :
    t'.Sound (Function.update M key (some value)) := by
  induction rounds generalizing key value is_reinsert M t with
  | zero => cases hret
  | succ rounds ih =>
    rcases t.insertLoop_cases rounds key value is_reinsert with
      ⟨b, i, hhit, hround⟩ | ⟨hnot, ⟨b, i, hb, hplace, hround⟩ | ⟨b, i, rand', hb, hfull, hround⟩⟩
    · rw [hround] at hret
      obtain rfl := Outcome.returned.inj hret
      have hset : CuckooTable.Sound _ _ INVALID_KEY (Function.update M key (some value))
          (t.toTable.setPayload b i value) := CuckooTable.Sound.setPayload h hkey hhit
      rw [Sound, setValue, toTable_write]
      exact hset
    all_goals have hM := h.eq_none hkey hnot
    · rw [hround] at hret
      obtain rfl := Outcome.returned.inj hret
      obtain ⟨hfree, hbefore⟩ := hplace (h.prefixes b)
      rw [Sound, toTable_write, counted_toTable]
      exact h.fill hkey hM ((candidate_iff key b).mp hb) hfree hbefore
    · -- the victim, with its old value, is inserted into the map without it
      rw [hround] at hret
      have hvictim : (t.buckets_ b).keys i ≠ INVALID_KEY := hfull b hb i
      obtain ⟨hMv, hne⟩ := victim_held h.represents hM (b := b) (i := i) hvictim
      have hevict : CuckooTable.Sound _ _ INVALID_KEY
          (Function.update (Function.update M ((t.buckets_ b).keys i) none) key (some value))
          { t.toTable.write b i key value with rand_ := rand' } :=
        CuckooTable.Sound.evict h hkey hM ((candidate_iff key b).mp hb) (hfull b hb) rand'
      rw [← evicted_toTable is_reinsert] at hevict
      have hmap := update_restore (M := M) hne (some value)
      rw [hMv] at hmap
      rw [← hmap]
      exact ih hevict hvictim hret

/-- A reinsert does not count. -/
theorem size_insertLoop_true {rounds : ℕ} {key : UInt32} {value : V}
    {t t' : CuckooHashMap V num_buckets_}
    (hret : CuckooHashMap.insertLoop rounds key value true t = .returned t') :
    t'.size_ = t.size_ := by
  induction rounds generalizing key value t with
  | zero => cases hret
  | succ rounds ih =>
    rcases t.insertLoop_cases rounds key value true with
      ⟨b, i, -, hround⟩ | ⟨-, ⟨b, i, -, -, hround⟩ | ⟨b, i, rand', -, -, hround⟩⟩
    · rw [hround] at hret
      obtain rfl := Outcome.returned.inj hret
      rfl
    · rw [hround] at hret
      obtain rfl := Outcome.returned.inj hret
      rfl
    · rw [hround] at hret
      exact (ih hret).trans rfl

/-- An insert counts a key that is new. -/
theorem Sound.size_insert {rounds : ℕ} {key : UInt32} {value : V} {M : UInt32 → Option V}
    {t t' : CuckooHashMap V num_buckets_} (h : t.Sound M) (hkey : key ≠ INVALID_KEY)
    (hret : t.insert rounds key value = .returned t') :
    t'.size_ = if (M key).isSome then t.size_ else t.size_ + 1 := by
  cases rounds with
  | zero => cases hret
  | succ rounds =>
    rw [insert] at hret
    rcases t.insertLoop_cases rounds key value false with ⟨b, i, hhit, hround⟩ | ⟨hnot, hround⟩
    · rw [hround] at hret
      obtain rfl := Outcome.returned.inj hret
      have hsome : (M key).isSome := (h.represents.stored_iff hkey).mpr ⟨(b, i), hhit⟩
      rw [if_pos hsome]
      rfl
    · rw [h.eq_none hkey hnot, if_neg (by simp)]
      rcases hround with ⟨b, i, -, -, hround⟩ | ⟨b, i, rand', -, -, hround⟩
      · rw [hround] at hret
        obtain rfl := Outcome.returned.inj hret
        rfl
      · rw [hround] at hret
        exact (size_insertLoop_true hret).trans rfl

/-- The number of different keys of a list of pairs. -/
def keyCount (data : List (UInt32 × V)) : ℕ := (data.map Prod.fst).dedup.length

theorem keyCount_snoc (data : List (UInt32 × V)) (d : UInt32 × V) :
    keyCount (data ++ [d])
      = if (lastWrite data d.1).isSome then keyCount data else keyCount data + 1 := by
  have hperm : (data.map Prod.fst ++ [d.1]).dedup.Perm (d.1 :: data.map Prod.fst).dedup :=
    (List.perm_append_singleton d.1 _).dedup
  rw [keyCount, List.map_append, List.map_singleton, hperm.length_eq]
  by_cases hmem : d.1 ∈ data.map Prod.fst
  · rw [List.dedup_cons_of_mem hmem, if_pos]
    · rfl
    · rw [lastWrite_isSome_iff]
      exact List.mem_map.mp hmem
  · rw [List.dedup_cons_of_notMem hmem, if_neg]
    · rfl
    · rw [lastWrite_isSome_iff]
      exact fun hex => hmem (List.mem_map.mpr hex)

/-- Run lemma: after inserts that return the buckets are the map of the last writes, and `size_` is
    the number of its keys. -/
theorem sound_of_insertAll {rounds : ℕ} {posix_memalign : Fin num_buckets_.toNat → Bucket V}
    {rand_ : Stream' UInt32} {uninitialized_value_ : V} {data : List (UInt32 × V)}
    (hdata : ∀ d ∈ data, d.1 ≠ INVALID_KEY) {t : CuckooHashMap V num_buckets_}
    (hrun : insertAll (insert rounds) data (new posix_memalign rand_ uninitialized_value_)
      = .returned t) :
    t.Sound (lastWrite data) ∧ t.size_ = UInt32.ofNat (keyCount data) := by
  refine Outcome.runAll_induction (I := fun done (u : CuckooHashMap V num_buckets_) =>
    u.Sound (lastWrite done) ∧ u.size_ = UInt32.ofNat (keyCount done)) ?_ ?_ hrun
  · exact ⟨⟨fun _ => filledPrefix_const INVALID_KEY, Represents.empty fun _ => rfl,
      fun _ _ h => absurd rfl h⟩, rfl⟩
  · rintro done d u v hpre ⟨hu, hsize⟩ hv
    have hkey : d.1 ≠ INVALID_KEY := hdata d (hpre.subset (by simp))
    refine ⟨?_, ?_⟩
    · rw [lastWrite_snoc]
      exact hu.insertLoop hkey hv
    · rw [hu.size_insert hkey hv, keyCount_snoc, hsize]
      split_ifs
      · rfl
      · rw [UInt32.ofNat_add]
        rfl

/-! ### Lookups -/

/-- What `get` answers: a pair of a candidate bucket, or that there is none with the key. -/
theorem get_cases (t : CuckooHashMap V num_buckets_) (key : UInt32) :
    (∃ b i, Candidate key b ∧ (t.buckets_ b).keys i = key ∧
      t.get key = ⟨true, (t.buckets_ b).values i⟩) ∨
    ((∀ b i, Candidate key b → (t.buckets_ b).keys i ≠ key) ∧
      t.get key = ⟨false, t.uninitialized_value_⟩) := by
  rw [get]
  rcases t.search_both_cases key with ⟨i, hi, hsome⟩ | ⟨hnone, i, hi, hsome⟩ | ⟨h1, h2, hnot⟩
  · rw [hsome]
    exact .inl ⟨_, i, .inl rfl, hi, rfl⟩
  · rw [hnone]
    simp only [hsome]
    exact .inl ⟨_, i, .inr rfl, hi, rfl⟩
  · rw [h1]
    simp only [h2]
    exact .inr ⟨hnot, trivial⟩

/-- In a map that is `M` a lookup answers what `M` does. -/
theorem Sound.get_eq {M : UInt32 → Option V} {t : CuckooHashMap V num_buckets_} (h : t.Sound M)
    {key : UInt32} (hkey : key ≠ INVALID_KEY) :
    (t.get key).found = (M key).isSome ∧ ∀ v, M key = some v → (t.get key).value = v := by
  rcases t.get_cases key with ⟨b, i, -, hi, hget⟩ | ⟨hnot, hget⟩
  · have hM : M ((t.buckets_ b).keys i) = some ((t.buckets_ b).values i) :=
      h.represents.lookup (i := (b, i)) (by rw [← hi] at hkey; exact hkey)
    rw [hi] at hM
    rw [hget, hM]
    exact ⟨rfl, fun v hv => Option.some.inj hv⟩
  · rw [hget, h.eq_none hkey hnot]
    exact ⟨rfl, fun v hv => nomatch hv⟩

/-- The keys of the map are in different slots. -/
theorem keyCount_le {t : CuckooHashMap V num_buckets_} {data : List (UInt32 × V)}
    (hdata : ∀ d ∈ data, d.1 ≠ INVALID_KEY) (h : t.Sound (lastWrite data)) :
    keyCount data ≤ bckt_size * num_buckets_.toNat := by
  have hslot : ∀ k ∈ (data.map Prod.fst).dedup, ∃ s : Fin num_buckets_.toNat × Fin bckt_size,
      (t.buckets_ s.1).keys s.2 = k := by
    intro k hk
    obtain ⟨d, hd, rfl⟩ := List.mem_map.mp (List.mem_dedup.mp hk)
    exact (h.represents.stored_iff (hdata d hd)).mp (lastWrite_isSome_iff.mpr ⟨d, hd, rfl⟩)
  have hsub : (data.map Prod.fst).dedup.toFinset ⊆
      Finset.univ.image fun s : Fin num_buckets_.toNat × Fin bckt_size =>
        (t.buckets_ s.1).keys s.2 := by
    intro k hk
    obtain ⟨s, hs⟩ := hslot k (List.mem_toFinset.mp hk)
    exact Finset.mem_image.mpr ⟨s, Finset.mem_univ s, hs⟩
  have hcard := (Finset.card_le_card hsub).trans Finset.card_image_le
  rw [List.toFinset_card_of_nodup (List.nodup_dedup _), Finset.card_univ, Fintype.card_prod,
    Fintype.card_fin, Fintype.card_fin, mul_comm] at hcard
  exact hcard

/-- CORRECT: after inserts that return, every key is found with the value last inserted under it, no
    other key is found, and `size_` is the number of keys, which is at most the number of slots. -/
theorem cuckooHashMap_is_map {rounds : ℕ} {posix_memalign : Fin num_buckets_.toNat → Bucket V}
    {rand_ : Stream' UInt32} {uninitialized_value_ : V} {data : List (UInt32 × V)}
    (hdata : ∀ d ∈ data, d.1 ≠ INVALID_KEY) {t : CuckooHashMap V num_buckets_}
    (hrun : insertAll (insert rounds) data (new posix_memalign rand_ uninitialized_value_)
      = .returned t) :
    (∀ key ≠ INVALID_KEY, (t.get key).found = (lastWrite data key).isSome ∧
      ∀ v, lastWrite data key = some v → (t.get key).value = v) ∧
    t.size_ = UInt32.ofNat (keyCount data) ∧ keyCount data ≤ bckt_size * num_buckets_.toNat := by
  obtain ⟨hsound, hsize⟩ := sound_of_insertAll hdata hrun
  exact ⟨fun key hkey => hsound.get_eq hkey, hsize, keyCount_le hdata hsound⟩

instance : NeZero (UInt32.toNat 3) := ⟨by decide⟩

/-- The keys from 2 to 25: as many as three buckets have slots. -/
def fillingKeys : List UInt32 := (List.range' 2 24).map UInt32.ofNat

/-- The last of the keys that fill three buckets evicts one of the others in a second round, and the
    key 7 gets a new value. -/
theorem cuckooHashMap_is_map_three :
    let empty : CuckooHashMap UInt32 3 :=
      new (fun _ => ⟨fun _ => 0, fun _ => 0⟩) (Stream'.const 0) 0
    let data : List (UInt32 × UInt32) := fillingKeys.map (fun k => (k, k)) ++ [(7, 100)]
    (insertAll (insert 1) data empty).isReturned = false ∧
    ∃ t, insertAll (insert 2) data empty = .returned t ∧
      (∀ key ∈ fillingKeys, (t.get key).found = true) ∧ (t.get 7).value = 100 ∧
      (t.get 26).found = false ∧ t.size_ = 24 := by
  intro empty data
  have hvalid : data.all (fun d => d.1 != INVALID_KEY) = true := by decide +kernel
  have hdata : ∀ d ∈ data, d.1 ≠ INVALID_KEY := fun d hd =>
    bne_iff_ne.mp (List.all_eq_true.mp hvalid d hd)
  have hwritten : fillingKeys.all (fun key => key != INVALID_KEY && (lastWrite data key).isSome)
      = true := by decide +kernel
  have hstored : ∀ key ∈ fillingKeys, key ≠ INVALID_KEY ∧ (lastWrite data key).isSome = true := by
    intro key hkey
    have h := List.all_eq_true.mp hwritten key hkey
    rw [Bool.and_eq_true, bne_iff_ne] at h
    exact h
  have hrun := Outcome.eq_returned_state (o := insertAll (insert 2) data empty) (by decide +kernel)
  obtain ⟨hget, hsize, -⟩ := cuckooHashMap_is_map hdata hrun
  refine ⟨by decide +kernel, _, hrun, fun key hkey => ?_, (hget 7 (by decide)).2 100 rfl, ?_, ?_⟩
  · rw [(hget key (hstored key hkey).1).1]
    exact (hstored key hkey).2
  · exact (hget 26 (by decide)).1
  · exact hsize

/-! ### The join -/

/-- A bucket of `INVALID_KEY` has an empty slot, so that a lookup of this key hits it. -/
def FindsInvalid (t : CuckooHashMap V num_buckets_) : Prop :=
  ∃ b i, Candidate INVALID_KEY b ∧ (t.buckets_ b).keys i = INVALID_KEY

theorem found_invalid_iff (t : CuckooHashMap V num_buckets_) :
    (t.get INVALID_KEY).found = true ↔ t.FindsInvalid := by
  rcases t.get_cases INVALID_KEY with ⟨b, i, hb, hi, hget⟩ | ⟨hnot, hget⟩
  · rw [hget]
    exact iff_of_true rfl ⟨b, i, hb, hi⟩
  · rw [hget]
    exact iff_of_false Bool.false_ne_true fun ⟨b, i, hb, hi⟩ => hnot b i hb hi

end CuckooHashMap

open CuckooHashMap

section Join
variable {num_buckets_ : UInt32} [NeZero num_buckets_.toNat]
  (cuckoo_hashmap : CuckooHashMap UInt32 num_buckets_)

/-- The loop over S counts the lookups that find their key. -/
theorem probeRelS_found (S : List Join.Tuple) (matches' : UInt64) :
    probeRelS (fun keyForSearch matches' =>
        (Except.ok (if (cuckoo_hashmap.get keyForSearch).found then matches' + 1 else matches') :
          Except Fault UInt64)) S matches'
      = .ok (matches' + UInt64.ofNat (S.countP fun s => (cuckoo_hashmap.get s.key).found)) := by
  induction S generalizing matches' with
  | nil => simp [probeRelS]
  | cons s S ih =>
    rw [probeRelS]
    simp only
    rw [ih, List.countP_cons]
    split_ifs with hfound
    · rw [add_ofNat_succ]
    · rfl

/-- The tuples of S whose lookup finds something, for keys of R that are all different. -/
theorem countP_found {R : List Join.Tuple} (hR : ∀ r ∈ R, r.key ≠ INVALID_KEY)
    (hkeys : (R.map Join.Tuple.key).Nodup)
    (hsound : cuckoo_hashmap.Sound (lastWrite (cuckooHashmapData R))) (S : List Join.Tuple) :
    S.countP (fun s => (cuckoo_hashmap.get s.key).found)
      = Join.joinSize R S
        + S.countP fun s => s.key = INVALID_KEY ∧ (cuckoo_hashmap.get INVALID_KEY).found := by
  have hmem : ∀ key, (lastWrite (cuckooHashmapData R) key).isSome ↔ key ∈ R.map Join.Tuple.key := by
    intro key
    rw [lastWrite_isSome_iff]
    simp [cuckooHashmapData]
  rw [Join.joinSize_eq hkeys]
  induction S with
  | nil => rfl
  | cons s S ih =>
    rw [List.countP_cons, List.countP_cons, List.countP_cons, ih]
    rcases eq_or_ne s.key INVALID_KEY with hs | hs
    · have hnot : s.key ∉ R.map Join.Tuple.key := by
        rw [hs]
        intro hex
        obtain ⟨r, hr, hrk⟩ := List.mem_map.mp hex
        exact hR r hr hrk
      simp only [hs] at hnot ⊢
      simp only [hnot, decide_false, true_and, decide_eq_true_eq]
      simp only [Bool.false_eq_true, if_false]
      omega
    · have hfound := (hsound.get_eq hs).1
      rw [hfound]
      simp only [hs, false_and, decide_false, decide_eq_true_eq, hmem s.key]
      simp only [Bool.false_eq_true, if_false]
      omega

end Join

/-- CORRECT: for keys of R that are different and valid the probe counts the join exactly if no tuple
    of S has the invalid key, or both buckets of this key are full. -/
theorem cuckoo_probe_counts_join_iff {num_buckets_ : UInt32} [NeZero num_buckets_.toNat]
    {R S : List Join.Tuple} (hR : ∀ r ∈ R, r.key ≠ INVALID_KEY)
    (hkeys : (R.map Join.Tuple.key).Nodup) (hS : S.length < UInt64.size) {rounds : ℕ}
    {posix_memalign : Fin num_buckets_.toNat → Bucket UInt32} {rand_ : Stream' UInt32}
    {uninitialized_value_ : UInt32} {t : CuckooHashMap UInt32 num_buckets_}
    (hrun : insertAll (insert rounds) (cuckooHashmapData R)
      (new posix_memalign rand_ uninitialized_value_) = .returned t) :
    (∃ matches', inljWithCuckoohashProbeRelSPartition t S = .ok matches' ∧
      matches'.toNat = Join.joinSize R S) ↔
    ∀ s ∈ S, s.key = INVALID_KEY → ∀ b, Candidate INVALID_KEY b →
      ∀ i, (t.buckets_ b).keys i ≠ INVALID_KEY := by
  have hdata : ∀ d ∈ cuckooHashmapData R, d.1 ≠ INVALID_KEY := by
    rintro d hd
    obtain ⟨r, hr, rfl⟩ := List.mem_map.mp hd
    exact hR r hr
  have hcount := countP_found t hR hkeys (sound_of_insertAll hdata hrun).1 S
  have hprobe : inljWithCuckoohashProbeRelSPartition t S
      = .ok (UInt64.ofNat (S.countP fun s => (t.get s.key).found)) := by
    rw [← UInt64.zero_add (UInt64.ofNat _)]
    exact probeRelS_found t S 0
  have hlt : (S.countP fun s => (t.get s.key).found) < UInt64.size :=
    List.countP_le_length.trans_lt hS
  have hempty : (∀ b, Candidate INVALID_KEY b → ∀ i, (t.buckets_ b).keys i ≠ INVALID_KEY) ↔
      ¬ (t.get INVALID_KEY).found = true := by
    rw [found_invalid_iff, FindsInvalid]
    push Not
    exact forall_congr' fun b => forall_comm
  have hzero : (S.countP fun s => s.key = INVALID_KEY ∧ (t.get INVALID_KEY).found) = 0 ↔
      ∀ s ∈ S, s.key = INVALID_KEY → ¬ (t.get INVALID_KEY).found = true := by
    rw [List.countP_eq_zero]
    simp
  rw [hempty, ← hzero, hprobe]
  constructor
  · rintro ⟨matches', hok, hnat⟩
    obtain rfl := Except.ok.inj hok
    rw [UInt64.toNat_ofNat_of_lt' hlt] at hnat
    omega
  · intro hnone
    refine ⟨_, rfl, ?_⟩
    rw [UInt64.toNat_ofNat_of_lt' hlt]
    omega

/-- Of 24 tuples that fill three buckets, the last one in a second round, and four probes. -/
theorem cuckoo_probe_counts_join_iff_three :
    let rel_r : List Join.Tuple := fillingKeys.map fun k => ⟨k, 0⟩
    ∃ t : CuckooHashMap UInt32 3,
      insertAll (insert 2) (cuckooHashmapData rel_r)
        (new (fun _ => ⟨fun _ => 0, fun _ => 0⟩) (Stream'.const 0) 0) = .returned t ∧
      ∃ matches', inljWithCuckoohashProbeRelSPartition t [⟨9, 0⟩, ⟨7, 0⟩, ⟨26, 0⟩, ⟨7, 1⟩]
        = .ok matches' ∧ matches'.toNat = 3 := by
  intro rel_r
  have hrun := Outcome.eq_returned_state (o := insertAll (insert 2) (cuckooHashmapData rel_r)
    (new (fun _ => ⟨fun _ => 0, fun _ => 0⟩) (Stream'.const 0) 0 : CuckooHashMap UInt32 3))
    (by decide +kernel)
  have hvalid : ∀ s ∈ [(⟨9, 0⟩ : Join.Tuple), ⟨7, 0⟩, ⟨26, 0⟩, ⟨7, 1⟩], s.key ≠ INVALID_KEY := by
    decide
  obtain ⟨matches', hcount, hsize⟩ := (cuckoo_probe_counts_join_iff (by decide +kernel)
    (by decide +kernel) (by decide) hrun).mpr fun s hs hkey => absurd hkey (hvalid s hs)
  exact ⟨_, hrun, matches', hcount, hsize⟩

end Inlj
end HashingBenchmark

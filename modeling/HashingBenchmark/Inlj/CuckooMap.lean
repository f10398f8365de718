import HashingBenchmark.Inlj.Count
import HashingBenchmark.Lib.LaneMask
import HashingBenchmark.Npj.Table

/-! `CuckooHashMap` of `stanford_hash.h`, and the probe of `npj_join_runner.cpp` over it.

    A bucketed cuckoo map with 32-bit keys and eight slots a bucket. All keys of a bucket are compared
    at once, and the slot is recovered from the mask. An insert into two full buckets replaces a
    random slot of one of them and inserts what was there; nothing bounds how often this happens, so
    a call of `insert` gets a number of rounds it may take and ends with `diverges` when they are
    used up. -/

namespace HashingBenchmark
namespace Inlj
open Npj LaneMask

/-- An unusable key, the mark of an empty slot. -/
def INVALID_KEY : UInt32 := 0xffffffff

abbrev bckt_size : ℕ := 8

/-- `hash32`, with the steps of `murmur_hash_32`. -/
def hash32 (value : UInt32) : UInt32 := murmurHash32 value

theorem altMod_lt (x n : UInt32) [hn : NeZero n.toNat] : (altMod x n).toNat < n.toNat := by
  have hx : x.toNat < 4294967296 := x.toNat_lt
  have hprod : x.toNat * n.toNat < 4294967296 * n.toNat :=
    Nat.mul_lt_mul_of_pos_right hx hn.pos
  rw [altMod, UInt64.toNat_toUInt32, UInt64.toNat_shiftRight, UInt64.toNat_mul,
    UInt32.toNat_toUInt64, UInt32.toNat_toUInt64]
  refine lt_of_le_of_lt (Nat.mod_le _ _) ?_
  rw [Nat.shiftRight_eq_div_pow]
  exact Nat.div_lt_of_lt_mul (lt_of_le_of_lt (Nat.mod_le _ _) hprod)

namespace CuckooHashMap

structure Bucket (V : Type) where
  keys : Fin bckt_size → UInt32
  values : Fin bckt_size → V

structure SearchResult (V : Type) where
  found : Bool
  value : V

end CuckooHashMap

open CuckooHashMap

/-- `CuckooHashMap<V>` with any number of buckets; `rand_` is the numbers its generator is going to
    produce. -/
structure CuckooHashMap (V : Type) (num_buckets_ : UInt32) where
  buckets_ : Fin num_buckets_.toNat → Bucket V
  size_ : UInt32
  rand_ : Stream' UInt32
  uninitialized_value_ : V

namespace CuckooHashMap
variable {V : Type} {num_buckets_ : UInt32}

/-- The constructor: all keys invalid, the values as `posix_memalign` returned them. -/
def new (posix_memalign : Fin num_buckets_.toNat → Bucket V) (rand_ : Stream' UInt32)
    (uninitialized_value_ : V) : CuckooHashMap V num_buckets_ :=
  ⟨fun i => { posix_memalign i with keys := fun _ => INVALID_KEY }, 0, rand_, uninitialized_value_⟩

/-- The comparison of all keys of a bucket with `key`: the slot of the first equal one. -/
def search (key : UInt32) (b : Bucket V) : Option (Fin bckt_size) :=
  let vkey : Lanes bckt_size (8 * 4) := set1 key.toBitVec
  let vbucket : Lanes bckt_size (8 * 4) := fun i => (b.keys i).toBitVec
  let cmp := cmpeq vkey vbucket
  let mask := movemask_epi8 cmp
  if h : mask ≠ 0 then
    some ⟨mask.ctz.toNat / 4, Nat.div_lt_of_lt_mul (BitVec.ctz_lt_iff_ne_zero.mpr h)⟩
  else none

/-- `buckets_[b].keys[i] = key; buckets_[b].values[i] = value`. -/
def write (t : CuckooHashMap V num_buckets_) (b : Fin num_buckets_.toNat) (i : Fin bckt_size)
    (key : UInt32) (value : V) : CuckooHashMap V num_buckets_ :=
  { t with
    buckets_ := Function.update t.buckets_ b
      ⟨Function.update (t.buckets_ b).keys i key, Function.update (t.buckets_ b).values i value⟩ }

/-- `buckets_[b].values[i] = value`. -/
def setValue (t : CuckooHashMap V num_buckets_) (b : Fin num_buckets_.toNat) (i : Fin bckt_size)
    (value : V) : CuckooHashMap V num_buckets_ := t.write b i ((t.buckets_ b).keys i) value

/-- The loop that counts the slots of a bucket that are in use. -/
def count (t : CuckooHashMap V num_buckets_) (b : Fin num_buckets_.toNat) : ℕ :=
  SlotArray.occupied INVALID_KEY (t.buckets_ b).keys

variable [NeZero num_buckets_.toNat]

/-- `i1`. -/
def i1 (num_buckets_ : UInt32) [NeZero num_buckets_.toNat] (key : UInt32) :
    Fin num_buckets_.toNat :=
  let hash := hash32 key
  ⟨(altMod hash num_buckets_).toNat, altMod_lt hash num_buckets_⟩

/-- `i2`: the second bucket, or the one after `i1` if both are the same. -/
def i2 (num_buckets_ : UInt32) [NeZero num_buckets_.toNat] (key : UInt32) :
    Fin num_buckets_.toNat :=
  let hash := hash32 key
  let i1 := i1 num_buckets_ key
  let i2 : Fin num_buckets_.toNat :=
    ⟨(altMod (hash32 (key ^^^ hash)) num_buckets_).toNat, altMod_lt _ num_buckets_⟩
  if i2 = i1 then
    if h : i1.val = num_buckets_.toNat - 1 then 0
    else ⟨i1.val + 1, by have hlt := i1.isLt; omega⟩
  else i2

/-- `get`. -/
def get (t : CuckooHashMap V num_buckets_) (key : UInt32) : SearchResult V :=
  let b1 := t.buckets_ (i1 num_buckets_ key)
  match search key b1 with
  | some index => ⟨true, b1.values index⟩
  | none =>
    let b2 := t.buckets_ (i2 num_buckets_ key)
    match search key b2 with
    | some index => ⟨true, b2.values index⟩
    | none => ⟨false, t.uninitialized_value_⟩

/-- `if (!is_reinsert) size_++`. -/
def counted (is_reinsert : Bool) (t : CuckooHashMap V num_buckets_) : CuckooHashMap V num_buckets_ :=
  if !is_reinsert then { t with size_ := t.size_ + 1 } else t

/-- The private `insert`, for at most so many rounds. -/
def insertLoop : ℕ → UInt32 → V → Bool → CuckooHashMap V num_buckets_ →
    Outcome Fault (CuckooHashMap V num_buckets_)
  | 0, _, _, _, t => .threw .diverges t
  | rounds + 1, key, value, is_reinsert, t =>
    let b1 := i1 num_buckets_ key
    let b2 := i2 num_buckets_ key
    match search key (t.buckets_ b1) with
    | some index => .returned (t.setValue b1 index value)
    | none =>
      match search key (t.buckets_ b2) with
      | some index => .returned (t.setValue b2 index value)
      | none =>
        let t := t.counted is_reinsert
        if h : t.count b1 ≤ t.count b2 ∧ t.count b1 < bckt_size then
          .returned (t.write b1 ⟨t.count b1, h.2⟩ key value)
        else if h : t.count b2 < bckt_size then
          .returned (t.write b2 ⟨t.count b2, h⟩ key value)
        else
          let victim_bucket := if t.rand_.head % 2 = 0 then b2 else b1
          let victim_index := Fin.ofNat bckt_size t.rand_.tail.head.toNat
          let old_key := (t.buckets_ victim_bucket).keys victim_index
          let old_value := (t.buckets_ victim_bucket).values victim_index
          insertLoop rounds old_key old_value true
            { t.write victim_bucket victim_index key value with rand_ := t.rand_.tail.tail }

/-- The public `insert`. -/
def insert (rounds : ℕ) (key : UInt32) (value : V) (t : CuckooHashMap V num_buckets_) :
    Outcome Fault (CuckooHashMap V num_buckets_) := insertLoop rounds key value false t

end CuckooHashMap

/-- `cuckoo_hashmap_data` of `main`: the payload of each tuple is set to its key. -/
def cuckooHashmapData (rel_r : List Join.Tuple) : List (UInt32 × UInt32) :=
  rel_r.map fun t => (t.key, t.key)

/-- `inlj_with_cuckoohash_probe_rel_s_partition`. -/
def inljWithCuckoohashProbeRelSPartition {num_buckets_ : UInt32} [NeZero num_buckets_.toNat]
    (cuckoo_hashmap : CuckooHashMap UInt32 num_buckets_) (rel_s : List Join.Tuple) :
    Except Fault UInt64 :=
  probeRelS (fun keyForSearch matches' =>
    let result := cuckoo_hashmap.get keyForSearch
    .ok (if result.found then matches' + 1 else matches')) rel_s 0

end Inlj
end HashingBenchmark

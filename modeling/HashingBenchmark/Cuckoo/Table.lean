import HashingBenchmark.Lib.Binary64
import HashingBenchmark.Lib.SlotArray
import HashingBenchmark.Support.Table
import Mathlib.Data.Stream.Defs

/-! The cuckoo tables of `cuckoo.hpp`, `cuckoo_model.hpp` and `cuckoo_exotic.hpp`, with their kicking
    strategies.

    A key may be in one of two buckets. An insert updates the key where it is, else places it in a
    candidate bucket with room, else puts it in place of a victim and goes on with the victim, up
    to `MaxKickCycleLength` times. The classes differ only in the two functions that give the
    candidate buckets, so they are instances of `CuckooTable.insert` and `CuckooTable.lookup`.

    A bucket pointer is an index into the directory: with one bucket both candidates are the same
    object, and a write through either index is seen through the other. -/

namespace HashingBenchmark
namespace Cuckoo

structure Slot (Key Payload : Type) where
  key : Key
  payload : Payload

structure Bucket (Key Payload : Type) (BucketSize : ℕ) where
  slots : Fin BucketSize → Slot Key Payload

end Cuckoo

open Cuckoo

/-- The state of a cuckoo table: the directory and the numbers `kickingfn.rand_` is going to
    produce. -/
structure CuckooTable (Key Payload : Type) (BucketSize m : ℕ) where
  buckets : Fin m → Bucket Key Payload BucketSize
  rand_ : Stream' UInt32

/-- The `KickingFn` argument of the table classes. -/
inductive KickingFn where
  | KapilBalancedKicking
  | KapilBiasedKicking (Bias : UInt8)
  deriving DecidableEq

namespace CuckooTable
variable {Key Payload : Type} {BucketSize m : ℕ}

/-- `Bucket` objects with every key the Sentinel and every payload uninitialised. -/
def empty [Inhabited Payload] (Sentinel : Key) (rand_ : Stream' UInt32) :
    CuckooTable Key Payload BucketSize m :=
  ⟨fun _ => ⟨fun _ => ⟨Sentinel, default⟩⟩, rand_⟩

/-- `buckets[b].slots[i] = {key, payload}`. -/
def write (t : CuckooTable Key Payload BucketSize m) (b : Fin m) (i : Fin BucketSize) (key : Key)
    (payload : Payload) : CuckooTable Key Payload BucketSize m :=
  { t with
    buckets := Function.update t.buckets b
      ⟨Function.update (t.buckets b).slots i ⟨key, payload⟩⟩ }

/-- `buckets[b].slots[i].payload = payload`. -/
def setPayload (t : CuckooTable Key Payload BucketSize m) (b : Fin m) (i : Fin BucketSize)
    (payload : Payload) : CuckooTable Key Payload BucketSize m :=
  t.write b i ((t.buckets b).slots i).key payload

/-- `clear`: every key becomes the Sentinel, and the payloads stay. -/
def clear (Sentinel : Key) (t : CuckooTable Key Payload BucketSize m) :
    CuckooTable Key Payload BucketSize m :=
  { t with buckets := fun b => ⟨fun i => { (t.buckets b).slots i with key := Sentinel }⟩ }

/-- The loop that computes `c1` and `c2`: the number of slots of a bucket that are in use. -/
def count [DecidableEq Key] (Sentinel : Key) (t : CuckooTable Key Payload BucketSize m)
    (b : Fin m) : ℕ :=
  SlotArray.occupied Sentinel fun i => ((t.buckets b).slots i).key

/-- Take the next random number, replace the slot it selects and return what was there; `first`
    says for which numbers the victim is in `b1`. -/
def kickRandom [NeZero BucketSize] (b1 b2 : Fin m) (first : UInt32 → Bool) (key : Key)
    (payload : Payload) (t : CuckooTable Key Payload BucketSize m) :
    Option (Key × Payload) × CuckooTable Key Payload BucketSize m :=
  let rng := t.rand_.head
  let victim_bucket := if first rng then b1 else b2
  let victim_index := Fin.ofNat BucketSize rng.toNat
  let victim := (t.buckets victim_bucket).slots victim_index
  (some (victim.key, victim.payload),
    { t.write victim_bucket victim_index key payload with rand_ := t.rand_.tail })

variable [DecidableEq Key] [NeZero BucketSize]

/-- `KapilBalancedKicking::operator()`: into the bucket with more room, else kick from either. -/
def kapilBalancedKicking (Sentinel : Key) (b1 b2 : Fin m) (key : Key) (payload : Payload)
    (t : CuckooTable Key Payload BucketSize m) :
    Option (Key × Payload) × CuckooTable Key Payload BucketSize m :=
  if h : t.count Sentinel b1 ≤ t.count Sentinel b2 ∧ t.count Sentinel b1 < BucketSize then
    (none, t.write b1 ⟨t.count Sentinel b1, h.2⟩ key payload)
  else if h : t.count Sentinel b2 < BucketSize then
    (none, t.write b2 ⟨t.count Sentinel b2, h⟩ key payload)
  else kickRandom b1 b2 (fun rng => rng &&& 0x1 ≠ 0) key payload t

/-- `threshold` of `KapilBiasedKicking`, computed in doubles and truncated. -/
def threshold (Bias : UInt8) : UInt32 :=
  let chance := Binary64.div (Binary64.ofNat Bias.toNat) 100
  UInt32.ofNat (Binary64.toNat (Binary64.mul (Binary64.ofNat 4294967295) chance))

/-- `KapilBiasedKicking::operator()`: into the primary bucket if it has room, else into the
    secondary one, else kick from the one the bias selects. -/
def kapilBiasedKicking (Bias : UInt8) (Sentinel : Key) (b1 b2 : Fin m) (key : Key)
    (payload : Payload) (t : CuckooTable Key Payload BucketSize m) :
    Option (Key × Payload) × CuckooTable Key Payload BucketSize m :=
  if h : t.count Sentinel b1 < BucketSize then
    (none, t.write b1 ⟨t.count Sentinel b1, h⟩ key payload)
  else if h : t.count Sentinel b2 < BucketSize then
    (none, t.write b2 ⟨t.count Sentinel b2, h⟩ key payload)
  else kickRandom b1 b2 (fun rng => rng > threshold Bias) key payload t

def kick (kickingfn : KickingFn) (Sentinel : Key) (b1 b2 : Fin m) (key : Key) (payload : Payload)
    (t : CuckooTable Key Payload BucketSize m) :
    Option (Key × Payload) × CuckooTable Key Payload BucketSize m :=
  match kickingfn with
  | .KapilBalancedKicking => kapilBalancedKicking Sentinel b1 b2 key payload t
  | .KapilBiasedKicking Bias => kapilBiasedKicking Bias Sentinel b1 b2 key payload t

variable [NeZero m]

/-- `i1`: the primary bucket of a key. -/
def i1 (primary : Key → UInt64) (m : ℕ) [NeZero m] (key : Key) : Fin m :=
  Fin.ofNat m (primary key).toNat

/-- `i2`: the secondary bucket, or the one after `i1` if both hashes agree. -/
def i2 (primary secondary : Key → UInt64) (m : ℕ) [NeZero m] (key : Key) : Fin m :=
  let i1 := i1 primary m key
  let i2 := Fin.ofNat m (secondary key).toNat
  if i2 = i1 then
    if h : i1.val = m - 1 then 0 else ⟨i1.val + 1, by have := i1.isLt; omega⟩
  else i2

/-- The slot loop of `lookup` on one bucket. -/
def probe (t : CuckooTable Key Payload BucketSize m) (b : Fin m) (key : Key) : Option ℕ :=
  Fin.findSome? fun i => if ((t.buckets b).slots i).key = key then some 1 else none

/-- `lookup` for the two hash functions of a class. -/
def lookup (primary secondary : Key → UInt64) (t : CuckooTable Key Payload BucketSize m)
    (key : Key) : ℕ :=
  match t.probe (i1 primary m key) key with
  | some r => r
  | none =>
    match t.probe (i2 primary secondary m key) key with
    | some r => r
    | none => 0

/-- The update check of `insert`: the first slot, alternating between the buckets, with the key. -/
def findKey (t : CuckooTable Key Payload BucketSize m) (b1 b2 : Fin m) (key : Key) :
    Option (Fin m × Fin BucketSize) :=
  Fin.findSome? fun i =>
    if ((t.buckets b1).slots i).key = key then some (b1, i)
    else if ((t.buckets b2).slots i).key = key then some (b2, i)
    else none

def MaxKickCycleLength : ℕ := 50000

/-- The loop behind the label `start`; `budget` is `MaxKickCycleLength + 1 - kick_count`. -/
def insertLoop (kickingfn : KickingFn) (primary secondary : Key → UInt64) (Sentinel : Key) :
    ℕ → Key → Payload → CuckooTable Key Payload BucketSize m →
      Outcome Fault (CuckooTable Key Payload BucketSize m)
  | 0, _, _, t =>
    .threw (.runtime_error
      ("maximum kick cycle length (" ++ toString MaxKickCycleLength ++ ") reached")) t
  | budget + 1, key, payload, t =>
    let b1 := i1 primary m key
    let b2 := i2 primary secondary m key
    match t.findKey b1 b2 key with
    | some (b, i) => .returned (t.setPayload b i payload)
    | none =>
      match t.kick kickingfn Sentinel b1 b2 key payload with
      | (none, t') => .returned t'
      | (some (key', payload'), t') =>
        insertLoop kickingfn primary secondary Sentinel budget key' payload' t'

/-- `insert` for the two hash functions of a class. -/
def insert (kickingfn : KickingFn) (primary secondary : Key → UInt64) (Sentinel : Key) (key : Key)
    (value : Payload) (t : CuckooTable Key Payload BucketSize m) :
    Outcome Fault (CuckooTable Key Payload BucketSize m) :=
  insertLoop kickingfn primary secondary Sentinel (MaxKickCycleLength + 1) key value t

end CuckooTable

/-- `KapilCuckooHashTable`. -/
abbrev KapilCuckooHashTable := CuckooTable

namespace KapilCuckooHashTable
variable {Key Payload : Type} [DecidableEq Key] [OfNat Key 408957] {BucketSize m : ℕ}
  [NeZero BucketSize] [NeZero m]

/-- The secondary hash: a constant mixed into the primary one. -/
def secondary (hashfn1 hashfn2 : HashFn Key) (key : Key) : UInt64 :=
  hashfn2 408957 ^^^ hashfn1 key

/-- `KapilCuckooHashTable::insert`. -/
def insert (kickingfn : KickingFn) (hashfn1 hashfn2 : HashFn Key) (Sentinel : Key) (key : Key)
    (value : Payload) (t : KapilCuckooHashTable Key Payload BucketSize m) :
    Outcome Fault (KapilCuckooHashTable Key Payload BucketSize m) :=
  CuckooTable.insert kickingfn hashfn1 (secondary hashfn1 hashfn2) Sentinel key value t

/-- `KapilCuckooHashTable::lookup`. -/
def lookup (hashfn1 hashfn2 : HashFn Key) (t : KapilCuckooHashTable Key Payload BucketSize m)
    (key : Key) : ℕ :=
  CuckooTable.lookup hashfn1 (secondary hashfn1 hashfn2) t key

end KapilCuckooHashTable

/-- `KapilCuckooModelHashTable`; its kicking strategies are copies of those above. -/
abbrev KapilCuckooModelHashTable := CuckooTable

namespace KapilCuckooModelHashTable
variable {Key Payload : Type} [DecidableEq Key] {BucketSize m : ℕ} [NeZero BucketSize] [NeZero m]

/-- `KapilCuckooModelHashTable::insert`. -/
def insert (kickingfn : KickingFn) (model : Model Key) (hashfn2 : HashFn Key) (Sentinel : Key)
    (key : Key) (value : Payload) (t : KapilCuckooModelHashTable Key Payload BucketSize m) :
    Outcome Fault (KapilCuckooModelHashTable Key Payload BucketSize m) :=
  CuckooTable.insert kickingfn model hashfn2 Sentinel key value t

/-- `KapilCuckooModelHashTable::lookup`. -/
def lookup (model : Model Key) (hashfn2 : HashFn Key)
    (t : KapilCuckooModelHashTable Key Payload BucketSize m) (key : Key) : ℕ :=
  CuckooTable.lookup model hashfn2 t key

end KapilCuckooModelHashTable

/-- `KapilCuckooExoticHashTable`; its kicking strategies are copies of those above. -/
abbrev KapilCuckooExoticHashTable := CuckooTable

namespace KapilCuckooExoticHashTable
variable {Key Payload : Type} [DecidableEq Key] {BucketSize m : ℕ} [NeZero BucketSize] [NeZero m]

/-- `KapilCuckooExoticHashTable::insert`. -/
def insert (kickingfn : KickingFn) (mmphf hashfn2 : HashFn Key) (Sentinel : Key) (key : Key)
    (value : Payload) (t : KapilCuckooExoticHashTable Key Payload BucketSize m) :
    Outcome Fault (KapilCuckooExoticHashTable Key Payload BucketSize m) :=
  CuckooTable.insert kickingfn mmphf hashfn2 Sentinel key value t

/-- `KapilCuckooExoticHashTable::lookup`. -/
def lookup (mmphf hashfn2 : HashFn Key)
    (t : KapilCuckooExoticHashTable Key Payload BucketSize m) (key : Key) : ℕ :=
  CuckooTable.lookup mmphf hashfn2 t key

end KapilCuckooExoticHashTable
end HashingBenchmark

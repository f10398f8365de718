import HashingBenchmark.Lib.SlotArray
import HashingBenchmark.Support.Table

/-! The linear probing tables of `probe.hpp` and `probe_model.hpp`.

    Both classes keep a directory of `m` buckets of `BucketSize` slots and walk it cyclically from
    the key's home bucket. An insert goes to the first bucket on the way that has a free slot or the
    key, a lookup stops at the first free slot or at the key. Each walk has its own step limit. The
    classes differ in the function that gives the home bucket and in these limits, so they are
    instances of `ProbeTable.insert` and `ProbeTable.operatorSubscript`.

    `index` counts up without wrapping and is reduced modulo the directory size at each access;
    a directory of `std::vector` buckets is far smaller than 2^64, so `ℕ` is exact here. -/

namespace HashingBenchmark
namespace Probe

/-- `Bucket`: `keys` and `payloads`; the pointer `next` stays null in these classes. -/
structure Bucket (Key Payload : Type) (BucketSize : ℕ) where
  keys : Fin BucketSize → Key
  payloads : Fin BucketSize → Payload

variable {Key Payload : Type} {BucketSize m : ℕ}

/-- `Bucket()`: the Sentinel in each slot, payloads left uninitialised. -/
def Bucket.empty [Inhabited Payload] (Sentinel : Key) : Bucket Key Payload BucketSize :=
  ⟨fun _ => Sentinel, fun _ => default⟩

/-- `keys[i] = key; payloads[i] = payload`. -/
def Bucket.write (b : Bucket Key Payload BucketSize) (i : Fin BucketSize) (key : Key)
    (payload : Payload) : Bucket Key Payload BucketSize :=
  ⟨Function.update b.keys i key, Function.update b.payloads i payload⟩

variable [DecidableEq Key]

/-- `Bucket::insert`: write into the first slot that is free or holds the key. -/
def Bucket.insert (Sentinel key : Key) (payload : Payload) (b : Bucket Key Payload BucketSize) :
    Bool × Bucket Key Payload BucketSize :=
  match Fin.findSome? fun i =>
      if b.keys i = Sentinel then some (b.write i key payload)
      else if b.keys i = key then some (b.write i key payload)
      else none with
  | some b' => (true, b')
  | none => (false, b)

/-- The slot loop of `operator[]`: what it returns from within the bucket, if it does. -/
def Bucket.probe (Sentinel key : Key) (b : Bucket Key Payload BucketSize) : Option ℕ :=
  Fin.findSome? fun i =>
    if b.keys i = Sentinel then some 0 else if b.keys i = key then some 1 else none

end Probe

open Probe

/-- The state of a probing table: its directory of buckets. -/
structure ProbeTable (Key Payload : Type) (BucketSize m : ℕ) where
  buckets : Fin m → Bucket Key Payload BucketSize

namespace ProbeTable
variable {Key Payload : Type} {BucketSize m : ℕ}

/-- A directory of empty buckets. -/
def empty [Inhabited Payload] (Sentinel : Key) : ProbeTable Key Payload BucketSize m :=
  ⟨fun _ => Bucket.empty Sentinel⟩

variable [NeZero m]

/-- Write a pair into slot `j` of bucket `i`. -/
def write (t : ProbeTable Key Payload BucketSize m) (i : Fin m) (j : Fin BucketSize) (key : Key)
    (payload : Payload) : ProbeTable Key Payload BucketSize m :=
  ⟨Function.update t.buckets i ((t.buckets i).write j key payload)⟩

variable [DecidableEq Key]

/-- The loop of `insert`; `budget` is the number of steps left before the limit. A bucket whose
    `insert` returned `false` is as it was. -/
def insertLoop (Sentinel key : Key) (payload : Payload) (what : String) :
    ℕ → ℕ → ProbeTable Key Payload BucketSize m → Outcome Fault (ProbeTable Key Payload BucketSize m)
  | 0, _, t => .threw (.runtime_error what) t
  | budget + 1, index, t =>
    match (t.buckets (Fin.ofNat m index)).insert Sentinel key payload with
    | (true, b) => .returned ⟨Function.update t.buckets (Fin.ofNat m index) b⟩
    | (false, _) => insertLoop Sentinel key payload what budget (index + 1) t

/-- `insert` for the home function `home`, the step limit `limit` and the class's `name()`. -/
def insert (Sentinel : Key) (home : Key → UInt64) (limit : ℕ) (name : String) (key : Key)
    (payload : Payload) (t : ProbeTable Key Payload BucketSize m) :
    Outcome Fault (ProbeTable Key Payload BucketSize m) :=
  insertLoop Sentinel key payload
    ("Building " ++ name ++ " failed: during probing, all buckets along the way are full")
    limit ((home key).toNat % m) t

/-- The loop of `operator[]`; `budget` is the number of steps left before the limit. -/
def lookupLoop (Sentinel key : Key) (t : ProbeTable Key Payload BucketSize m) : ℕ → ℕ → ℕ
  | 0, _ => 0
  | budget + 1, directory_ind =>
    match (t.buckets (Fin.ofNat m directory_ind)).probe Sentinel key with
    | some r => r
    | none => lookupLoop Sentinel key t budget (directory_ind + 1)

/-- `operator[]` for the home function `home` and the step limit `limit`. -/
def operatorSubscript (Sentinel : Key) (home : Key → UInt64) (limit : ℕ)
    (t : ProbeTable Key Payload BucketSize m) (key : Key) : ℕ :=
  lookupLoop Sentinel key t limit ((home key).toNat % m)

end ProbeTable

/-- `KapilLinearHashTable`. -/
abbrev KapilLinearHashTable := ProbeTable

namespace KapilLinearHashTable
variable {Key Payload : Type} [DecidableEq Key] {BucketSize m : ℕ} [NeZero m]

def name (args : TemplateArgs Key) (BucketSize : ℕ) (hashfn : HashFn Key) : String :=
  args.name "KapilLinearHashTable" BucketSize hashfn.name

/-- `KapilLinearHashTable::insert`. -/
def insert (args : TemplateArgs Key) (hashfn : HashFn Key) (key : Key) (payload : Payload)
    (t : KapilLinearHashTable Key Payload BucketSize m) :
    Outcome Fault (KapilLinearHashTable Key Payload BucketSize m) :=
  ProbeTable.insert args.Sentinel hashfn 50000 (name args BucketSize hashfn) key payload t

/-- `KapilLinearHashTable::operator[]`. -/
def operatorSubscript (args : TemplateArgs Key) (hashfn : HashFn Key)
    (t : KapilLinearHashTable Key Payload BucketSize m) (key : Key) : ℕ :=
  ProbeTable.operatorSubscript args.Sentinel hashfn 50000 t key

end KapilLinearHashTable

/-- `KapilLinearModelHashTable`. -/
abbrev KapilLinearModelHashTable := ProbeTable

namespace KapilLinearModelHashTable
variable {Key Payload : Type} [DecidableEq Key] {BucketSize m : ℕ} [NeZero m]

def name (args : TemplateArgs Key) (BucketSize : ℕ) (model : Model Key) : String :=
  args.name "KapilLinearModelHashTable" BucketSize model.name

/-- `KapilLinearModelHashTable::insert`; its limit is a hundred times that of the lookup. -/
def insert (args : TemplateArgs Key) (model : Model Key) (key : Key) (payload : Payload)
    (t : KapilLinearModelHashTable Key Payload BucketSize m) :
    Outcome Fault (KapilLinearModelHashTable Key Payload BucketSize m) :=
  ProbeTable.insert args.Sentinel model 5000000 (name args BucketSize model) key payload t

/-- `KapilLinearModelHashTable::operator[]`. -/
def operatorSubscript (args : TemplateArgs Key) (model : Model Key)
    (t : KapilLinearModelHashTable Key Payload BucketSize m) (key : Key) : ℕ :=
  ProbeTable.operatorSubscript args.Sentinel model 50000 t key

end KapilLinearModelHashTable
end HashingBenchmark

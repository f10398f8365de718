import HashingBenchmark.Chained.Table
import Mathlib.Data.List.Sort

/-! The table of `monotone_hashtable.hpp` and its iterator.

    The table is a chained table whose constructor sorts the data and inserts it at the directory
    indices the model predicts. `operator[]` returns an iterator. `operator++` goes to the next slot
    in use of the bucket, else to the next bucket of the chain, else to the next directory bucket,
    whether that one holds a key or not.

    `operator[]` is the generic path. With `ManualPrefetch` it reads `bucket->next` for each bucket it
    comes to, before it looks whether there is one. The data has distinct keys wherever the order of
    the sort matters, so any sort gives the same list. -/

namespace HashingBenchmark
open Chained support

/-- `MonotoneHashtable`. -/
abbrev MonotoneHashtable := ChainedTable

/-- `Iterator`, without the reference to its table. -/
structure MonotoneHashtable.Iterator where
  directory_ind : ℕ
  bucket_ind : ℕ
  current_bucket : Option Ptr
  deriving DecidableEq

namespace MonotoneHashtable
variable {Key Payload : Type} {BucketSize m : ℕ}

namespace Iterator

/-- `end()` of a table with `m` directory buckets. -/
def finish (m : ℕ) : Iterator := ⟨m, 0, none⟩

/-- The bucket and the slot an iterator stands on. -/
def slot (t : MonotoneHashtable Key Payload BucketSize m) (it : Iterator) :
    Except Fault (Bucket Key Payload BucketSize × Fin BucketSize) :=
  match it.current_bucket.bind t.load with
  | none => .error .outOfBounds
  | some b =>
    if h : it.bucket_ind < BucketSize then .ok (b, ⟨it.bucket_ind, h⟩)
    else .error .outOfBounds

/-- `key()` and `payload()`. -/
def deref (t : MonotoneHashtable Key Payload BucketSize m) (it : Iterator) :
    Except Fault (Key × Payload) :=
  (it.slot t).map fun x => (x.1.keys x.2, x.1.payloads x.2)

/-- `current_bucket->keys[bucket_ind]` is not to be visited: the bucket ends before it, or it is the
    Sentinel. -/
def exhausted [DecidableEq Key] (Sentinel : Key) (b : Bucket Key Payload BucketSize)
    (bucket_ind : ℕ) : Bool :=
  if h : bucket_ind < BucketSize then b.keys ⟨bucket_ind, h⟩ = Sentinel else true

/-- Leaving a bucket: to the next one of the chain, else to the next directory bucket. -/
def leave (m directory_ind : ℕ) (b : Bucket Key Payload BucketSize) : Iterator :=
  match b.nextPtr with
  | some p => ⟨directory_ind, 0, some p⟩
  | none =>
    if directory_ind + 1 < m then ⟨directory_ind + 1, 0, some (.directory (directory_ind + 1))⟩
    else ⟨directory_ind + 1, 0, none⟩

/-- `operator++`. -/
def next [DecidableEq Key] (Sentinel : Key) (t : MonotoneHashtable Key Payload BucketSize m)
    (it : Iterator) : Except Fault Iterator :=
  match it.current_bucket.bind t.load with
  | none => .error .outOfBounds
  | some b =>
    if exhausted Sentinel b (it.bucket_ind + 1) then .ok (leave m it.directory_ind b)
    else .ok { it with bucket_ind := it.bucket_ind + 1 }

end Iterator

section
variable [DecidableEq Key]

/-- The slot loop of `operator[]`: the slot of the key, if it is before the first Sentinel. -/
def find (Sentinel key : Key) (b : Bucket Key Payload BucketSize) : Option (Fin BucketSize) :=
  (Fin.findSome? fun i =>
    if b.keys i = Sentinel then some none
    else if b.keys i = key then some (some i)
    else none).join

/-- `prefetch_next(bucket)`: the read of `bucket->next`; the prefetch itself has no effect. -/
def prefetchNext (ManualPrefetch : Bool) (t : MonotoneHashtable Key Payload BucketSize m)
    (bucket : Option Ptr) : Except Fault Unit :=
  if ManualPrefetch then
    match bucket.bind t.load with
    | none => .error .outOfBounds
    | some _ => .ok ()
  else .ok ()

/-- The loop of `operator[]` over the chain of directory bucket `directory_ind`. -/
def findLoop (Sentinel key : Key) (ManualPrefetch : Bool) (directory_ind : ℕ)
    (t : MonotoneHashtable Key Payload BucketSize m) : ℕ → Option Ptr → Except Fault Iterator
  | _, none => .ok (Iterator.finish m)
  | 0, some _ => .error .diverges
  | fuel + 1, some bucket =>
    match t.load bucket with
    | none => .error .outOfBounds
    | some b =>
      match find Sentinel key b with
      | some i => .ok ⟨directory_ind, i, some bucket⟩
      | none => do
        prefetchNext ManualPrefetch t b.nextPtr
        findLoop Sentinel key ManualPrefetch directory_ind t fuel b.nextPtr

/-- `operator[]`. -/
def operatorSubscript (Sentinel : Key) (ManualPrefetch : Bool) (model : Model Key)
    (t : MonotoneHashtable Key Payload BucketSize m) (key : Key) : Except Fault Iterator := do
  let directory_ind := (model key).toNat
  prefetchNext ManualPrefetch t (some (.directory directory_ind))
  findLoop Sentinel key ManualPrefetch directory_ind t (t.tape.cells.length + 1)
    (some (.directory directory_ind))

/-- `insert`. -/
def insert [Inhabited Payload] (Sentinel : Key) (sizeofBucket : ℕ) (model : Model Key) (key : Key)
    (payload : Payload) (t : MonotoneHashtable Key Payload BucketSize m) :
    Outcome Fault (MonotoneHashtable Key Payload BucketSize m) :=
  ChainedTable.insert Sentinel sizeofBucket (fun key => (model key).toNat) key payload t

end

/-- The number of directory buckets: `1 + data.size() / BucketSize`. -/
def directorySize (BucketSize : ℕ) (data : List (Key × Payload)) : ℕ := 1 + data.length / BucketSize

/-- The constructor, with the model it has trained. -/
def construct [LinearOrder Key] [Inhabited Payload] (Sentinel : Key) (sizeofBucket : ℕ)
    (model : Model Key) (data : List (Key × Payload)) :
    Outcome Fault (MonotoneHashtable Key Payload BucketSize (directorySize BucketSize data)) :=
  insertAll (insert Sentinel sizeofBucket model) (data.insertionSort fun a b => a.1 ≤ b.1)
    (ChainedTable.empty Sentinel)

end MonotoneHashtable
end HashingBenchmark

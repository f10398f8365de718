import HashingBenchmark.Lib.Binary64
import HashingBenchmark.Lib.SlotArray
import HashingBenchmark.Support.Table
import HashingBenchmark.Support.Tape

/-! The chained tables of `chained.hpp` and `chained_model.hpp`.

    A directory bucket is the head of a chain of buckets; the others are cells of the tape. An
    insert goes to the first free slot of the chain, in a new bucket at its end if there is none. A
    lookup leaves a bucket at its first free slot, but goes on with the next one. The classes differ
    in the functions that give the directory index, so they are instances of `ChainedTable.insert`
    and `ChainedTable.operatorSubscript`.

    The chain is followed through the pointers in the store, so nothing in the model says that it
    ends or that no two chains share a bucket. -/

namespace HashingBenchmark
namespace Chained

/-- `Bucket`; `next` is null or was returned by the tape. -/
structure Bucket (Key Payload : Type) (BucketSize : ℕ) where
  keys : Fin BucketSize → Key
  payloads : Fin BucketSize → Payload
  next : Option support.Cell

/-- A non-null `Bucket*`: into the directory or into the tape. -/
inductive Ptr where
  | directory (i : ℕ)
  | cell (c : support.Cell)
  deriving DecidableEq

namespace Bucket
variable {Key Payload : Type} {BucketSize : ℕ}

/-- `Bucket()`: the Sentinel in each slot, payloads left uninitialised. -/
def empty [Inhabited Payload] (Sentinel : Key) : Bucket Key Payload BucketSize :=
  ⟨fun _ => Sentinel, fun _ => default, none⟩

/-- `keys[i] = key; payloads[i] = payload`. -/
def write (b : Bucket Key Payload BucketSize) (i : Fin BucketSize) (key : Key) (payload : Payload) :
    Bucket Key Payload BucketSize :=
  { b with keys := Function.update b.keys i key, payloads := Function.update b.payloads i payload }

/-- `next` as a `Bucket*`. -/
def nextPtr (b : Bucket Key Payload BucketSize) : Option Ptr := b.next.map Ptr.cell

variable [DecidableEq Key]

/-- The slot loop of `Bucket::insert`: the bucket with the pair in its first free slot. -/
def fill (Sentinel key : Key) (payload : Payload) (b : Bucket Key Payload BucketSize) :
    Option (Bucket Key Payload BucketSize) :=
  Fin.findSome? fun i => if b.keys i = Sentinel then some (b.write i key payload) else none

/-- The slot loop of `operator[]`: whether it returns from within the bucket. -/
def probe (Sentinel key : Key) (b : Bucket Key Payload BucketSize) : Bool :=
  (Fin.findSome? fun i =>
    if b.keys i = Sentinel then some false
    else if b.keys i = key then some true
    else none).getD false

end Bucket
end Chained

open Chained support

/-- The state of a chained table: its directory and its tape. -/
structure ChainedTable (Key Payload : Type) (BucketSize m : ℕ) where
  buckets : Fin m → Bucket Key Payload BucketSize
  tape : Tape (Bucket Key Payload BucketSize)

namespace ChainedTable
variable {Key Payload : Type} {BucketSize m : ℕ}

/-- A directory of empty buckets and a new tape. -/
def empty [Inhabited Payload] (Sentinel : Key) : ChainedTable Key Payload BucketSize m :=
  ⟨fun _ => Bucket.empty Sentinel, Tape.empty⟩

/-- `*p`, if the pointer is valid. -/
def load (t : ChainedTable Key Payload BucketSize m) : Ptr → Option (Bucket Key Payload BucketSize)
  | .directory i => if h : i < m then some (t.buckets ⟨i, h⟩) else none
  | .cell c => t.tape.get? c

/-- `*p = b`, for a valid pointer. -/
def store (t : ChainedTable Key Payload BucketSize m) (b : Bucket Key Payload BucketSize) :
    Ptr → ChainedTable Key Payload BucketSize m
  | .directory i => if h : i < m then { t with buckets := Function.update t.buckets ⟨i, h⟩ b } else t
  | .cell c => { t with tape := t.tape.set c b }

/-- `previous->next = tape.alloc()`, with the new pointer. -/
def append [Inhabited Payload] (Sentinel : Key) (sizeofBucket : ℕ) (previous : Ptr)
    (b : Bucket Key Payload BucketSize) (t : ChainedTable Key Payload BucketSize m) :
    Cell × ChainedTable Key Payload BucketSize m :=
  let (c, tape) := t.tape.alloc (Bucket.empty Sentinel) (Tape.nextTapeSegmentSize sizeofBucket)
  (c, { t with tape := tape }.store { b with next := some c } previous)

variable [DecidableEq Key]

/-- `Bucket::insert` on `*current`. The loop over the chain and the call on the new bucket at its
    end are one recursion, since that call starts the same loop there. -/
def insertLoop [Inhabited Payload] (Sentinel : Key) (sizeofBucket : ℕ) (key : Key)
    (payload : Payload) : ℕ → Ptr → ChainedTable Key Payload BucketSize m →
      Outcome Fault (ChainedTable Key Payload BucketSize m)
  | 0, _, t => .threw .diverges t
  | fuel + 1, current, t =>
    match t.load current with
    | none => .threw .outOfBounds t
    | some b =>
      match b.fill Sentinel key payload with
      | some b' => .returned (t.store b' current)
      | none =>
        match b.next with
        | some c => insertLoop Sentinel sizeofBucket key payload fuel (.cell c) t
        | none =>
          let (c, t') := t.append Sentinel sizeofBucket current b
          insertLoop Sentinel sizeofBucket key payload fuel (.cell c) t'

/-- `insert` for the function `index` that gives the directory index of a key. The buckets a chain
    can have are its directory bucket, the cells on the tape and one new cell. -/
def insert [Inhabited Payload] (Sentinel : Key) (sizeofBucket : ℕ) (index : Key → ℕ) (key : Key)
    (payload : Payload) (t : ChainedTable Key Payload BucketSize m) :
    Outcome Fault (ChainedTable Key Payload BucketSize m) :=
  insertLoop Sentinel sizeofBucket key payload (t.tape.cells.length + 2) (.directory (index key)) t

/-- The loop of `operator[]` over the chain. -/
def lookupLoop (Sentinel key : Key) (t : ChainedTable Key Payload BucketSize m) :
    ℕ → Option Ptr → Except Fault ℕ
  | _, none => .ok 0
  | 0, some _ => .error .diverges
  | fuel + 1, some bucket =>
    match t.load bucket with
    | none => .error .outOfBounds
    | some b => if b.probe Sentinel key then .ok 1 else lookupLoop Sentinel key t fuel b.nextPtr

/-- `operator[]` for the function `index` that gives the directory index of a key. -/
def operatorSubscript (Sentinel : Key) (index : Key → ℕ)
    (t : ChainedTable Key Payload BucketSize m) (key : Key) : Except Fault ℕ :=
  lookupLoop Sentinel key t (t.tape.cells.length + 1) (some (.directory (index key)))

end ChainedTable

/-- `KapilChainedHashTable`. -/
abbrev KapilChainedHashTable := ChainedTable

namespace KapilChainedHashTable
variable {Key Payload : Type} [DecidableEq Key] {BucketSize m : ℕ}

/-- `hashfn(key) % buckets.size()`. -/
def index (hashfn : HashFn Key) (m : ℕ) (key : Key) : ℕ := (hashfn key).toNat % m

/-- `KapilChainedHashTable::insert`. -/
def insert [Inhabited Payload] (Sentinel : Key) (sizeofBucket : ℕ) (hashfn : HashFn Key) (key : Key)
    (payload : Payload) (t : KapilChainedHashTable Key Payload BucketSize m) :
    Outcome Fault (KapilChainedHashTable Key Payload BucketSize m) :=
  ChainedTable.insert Sentinel sizeofBucket (index hashfn m) key payload t

/-- `KapilChainedHashTable::operator[]`. -/
def operatorSubscript (Sentinel : Key) (hashfn : HashFn Key)
    (t : KapilChainedHashTable Key Payload BucketSize m) (key : Key) : Except Fault ℕ :=
  ChainedTable.operatorSubscript Sentinel (index hashfn m) t key

end KapilChainedHashTable

/-- `KapilChainedModelHashTable`. -/
abbrev KapilChainedModelHashTable := ChainedTable

namespace KapilChainedModelHashTable
variable {Key Payload : Type} [DecidableEq Key] {BucketSize m : ℕ}

/-- `model(key) / 100000000.0`, a double, as the index of `buckets`. -/
def insertIndex (model : Model Key) (key : Key) : ℕ :=
  Binary64.toNat (Binary64.div (Binary64.ofNat (model key).toNat) 100000000)

/-- `KapilChainedModelHashTable::insert`. -/
def insert [Inhabited Payload] (Sentinel : Key) (sizeofBucket : ℕ) (model : Model Key) (key : Key)
    (payload : Payload) (t : KapilChainedModelHashTable Key Payload BucketSize m) :
    Outcome Fault (KapilChainedModelHashTable Key Payload BucketSize m) :=
  ChainedTable.insert Sentinel sizeofBucket (insertIndex model) key payload t

/-- `KapilChainedModelHashTable::operator[]`. -/
def operatorSubscript (Sentinel : Key) (model : Model Key)
    (t : KapilChainedModelHashTable Key Payload BucketSize m) (key : Key) : Except Fault ℕ :=
  ChainedTable.operatorSubscript Sentinel (fun key => (model key).toNat) t key

end KapilChainedModelHashTable
end HashingBenchmark

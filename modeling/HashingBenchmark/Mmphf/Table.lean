import HashingBenchmark.Support.Table
import Mathlib.Data.List.Sort

/-! The table of `mmphf_table.hpp`: the data in order, and a minimal perfect hash as the index.

    The constructor sorts the data and has the hash function built from the keys in that order.
    `operator[]` reads the pair at the rank of its key and compares the key there. An iterator is an
    index of `payloads`. -/

namespace HashingBenchmark

/-- `MMPHFTable`. -/
structure MMPHFTable (Key Payload : Type) where
  payloads : List (Key × Payload)
  mmphf : HashFn Key

/-- `Iterator`, without the reference to its table. -/
structure MMPHFTable.Iterator where
  payloads_ind : ℕ
  deriving DecidableEq

namespace MMPHFTable
variable {Key Payload : Type}

/-- The keys the hash function is built from. -/
def constructKeys [LinearOrder Key] (data : List (Key × Payload)) : List Key :=
  (data.insertionSort fun a b => a.1 ≤ b.1).map Prod.fst

/-- The constructor; `build` is the `construct` of the class `MMPHF`. -/
def construct [LinearOrder Key] (build : List Key → HashFn Key) (data : List (Key × Payload)) :
    MMPHFTable Key Payload :=
  ⟨data.insertionSort fun a b => a.1 ≤ b.1, build (constructKeys data)⟩

/-- A monotone minimal perfect hash of ascending keys: the rank of each of them. -/
def Ranks (mmphf : Key → UInt64) (keys : List Key) : Prop :=
  ∀ i (h : i < keys.length), (mmphf keys[i]).toNat = i

/-- `end()`. -/
def finish (t : MMPHFTable Key Payload) : Iterator := ⟨t.payloads.length⟩

/-- `key()` and `payload()`. -/
def Iterator.deref (t : MMPHFTable Key Payload) (it : Iterator) : Except Fault (Key × Payload) :=
  match t.payloads[it.payloads_ind]? with
  | none => .error .outOfBounds
  | some p => .ok p

/-- `operator++`. -/
def Iterator.next (it : Iterator) : Iterator := ⟨it.payloads_ind + 1⟩

/-- `operator[]`. -/
def operatorSubscript [DecidableEq Key] (t : MMPHFTable Key Payload) (key : Key) :
    Except Fault Iterator :=
  let index := (t.mmphf key).toNat
  match t.payloads[index]? with
  | none => .error .outOfBounds
  | some p => if p.1 ≠ key then .ok t.finish else .ok ⟨index⟩

end MMPHFTable
end HashingBenchmark

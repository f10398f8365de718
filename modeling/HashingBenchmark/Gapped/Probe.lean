import HashingBenchmark.Gapped.Insert
import HashingBenchmark.Lib.Bisect

/-! The probe of the gapped array, `inlj_with_rmi_model_based_build_probe_rel_s_partition`.

    For each tuple of S the probe starts at the slot the model guesses, doubles `bound` until the key
    is bracketed, and bisects. `bound` is declared before the loop over S and never set back to 1, so
    a probe starts with the bound that the probes before it left. A gap reads as a key that is smaller
    than all others.

    All variables are `int64_t`. An array of 4-byte keys has at most `maxSize` slots, so the doubling
    does not overflow. In the left branch `curr_index - bound / 2` may be negative; it is only
    compared with `l` then, which is 0, and is 0 here. -/

namespace HashingBenchmark
namespace Gapped
open Join

/-- The loop that doubles `bound`, for one of the two directions: `slot` is the slot that is read for
    a bound, and `goesOn` the comparison of its entry with the key. -/
def boundLoop (v : List UInt32) (size : ℕ) (slot : ℕ → ℕ) (goesOn : UInt32 → Bool) :
    ℕ → ℕ → Except Fault ℕ
  | 0, _ => .error .diverges
  | fuel + 1, bound =>
    if bound < size then
      match v[slot bound]? with
      | none => .error .outOfBounds
      | some x =>
        if goesOn x then boundLoop v size slot goesOn fuel (bound * 2) else .ok bound
    else .ok bound

/-- The binary search in `[l, r)`. -/
def binarySearch (v : List UInt32) (key : UInt32) : ℕ → ℕ → ℕ → Except Fault ℕ
  | 0, l, _ => .ok l
  | fuel + 1, l, r =>
    if l < r then
      let mid := l + (r - l) / 2
      match v[mid]? with
      | none => .error .outOfBounds
      | some x =>
        if key ≤ x then binarySearch v key fuel l mid else binarySearch v key fuel (mid + 1) r
    else .ok l

/-- The binary search, and the comparison after it. -/
def searchWindow (v : List UInt32) (key : UInt32) (l r : ℕ) : Except Fault Bool :=
  match binarySearch v key (r - l) l r with
  | .error fault => .error fault
  | .ok l' =>
    match v[l']? with
    | none => .error .outOfBounds
    | some x => .ok (decide (x = key))

/-- The left branch: the new `bound`, and whether the tuple is counted. -/
def searchLeft (v : List UInt32) (curr_index : ℕ) (key : UInt32) (bound : ℕ) :
    Except Fault (ℕ × Bool) :=
  let size := curr_index
  match boundLoop v size (fun b => curr_index - b) (fun x => decide (key ≤ x)) (size + 1) bound with
  | .error fault => .error fault
  | .ok bound' =>
    (searchWindow v key (curr_index - min bound' size) (curr_index - bound' / 2)).map (bound', ·)

/-- The right branch: the new `bound`, and whether the tuple is counted. -/
def searchRight (v : List UInt32) (curr_index : ℕ) (key : UInt32) (bound : ℕ) :
    Except Fault (ℕ × Bool) :=
  let size := v.length - curr_index
  match boundLoop v size (fun b => curr_index + b) (fun x => decide (x < key)) (size + 1) bound with
  | .error fault => .error fault
  | .ok bound' =>
    (searchWindow v key (curr_index + bound' / 2) (curr_index + min bound' size)).map (bound', ·)

/-- The body of the loop over S. -/
def probeKey (v : List UInt32) (curr_index : ℕ) (key : UInt32) (bound : ℕ) :
    Except Fault (ℕ × Bool) :=
  match v[curr_index]? with
  | none => .error .outOfBounds
  | some x =>
    if x = key then .ok (bound, true)
    else if key ≤ x then searchLeft v curr_index key bound
    else searchRight v curr_index key bound

/-- The loop over S: `bound` and `matches`. -/
def probeTuples (lookup : UInt32 → UInt64) (scaling_factor : UInt64) (v : List UInt32) :
    List Tuple → ℕ × UInt64 → Except Fault (ℕ × UInt64)
  | [], s => .ok s
  | t :: rel_s, (bound, matches') =>
    match probeKey v (lookup t.key * scaling_factor).toNat t.key bound with
    | .error fault => .error fault
    | .ok (bound', hit) =>
      probeTuples lookup scaling_factor v rel_s
        (bound', if hit then matches' + 1 else matches')

/-- `inlj_with_rmi_model_based_build_probe_rel_s_partition`. -/
def inljWithRmiModelBasedBuildProbeRelSPartition (lookup : UInt32 → UInt64)
    (scaling_factor : UInt64) (sorted_relation_r_gapped_keys_only : List UInt32)
    (rel_s_partition : Relation) : Except Fault UInt64 :=
  (probeTuples lookup scaling_factor sorted_relation_r_gapped_keys_only
    rel_s_partition.tuples (1, 0)).map Prod.snd

/-! ### When one probe is right -/

/-- The window that a probe with `bound` bisects, left or right of the slot. -/
inductive Window (v : List UInt32) (i : ℕ) (key : UInt32) (bound : ℕ) : ℕ → ℕ → Prop where
  | left (x : UInt32) (B : ℕ) (hread : v[i]? = some x) (hlt : key < x)
      (hdouble : Bisect.Doubled i (fun b => key ≤ v.getD (i - b) 0) bound B) :
      Window v i key bound (i - min B i) (i - B / 2)
  | right (x : UInt32) (B : ℕ) (hread : v[i]? = some x) (hlt : x < key)
      (hdouble : Bisect.Doubled (v.length - i) (fun b => v.getD (i + b) 0 < key) bound B) :
      Window v i key bound (i + B / 2) (i + min B (v.length - i))

/-- The slot of the key is in the window and no midpoint between it and the end of the window is a
    gap; or the key is in no slot, and the window does not reach the end of the array, or some entry
    that it is compared with on the way to the end is larger. -/
def Reaches (v : List UInt32) (key : UInt32) (l r : ℕ) : Prop :=
  (∀ p, v[p]? = some key → l ≤ p ∧ p ≤ r ∧ ∀ m ∈ Bisect.midpoints p l r, p < m → v[m]? ≠ some 0) ∧
  (key ∉ v → r < v.length ∨ l < v.length ∧ ∃ m ∈ Bisect.midpoints v.length l r, key < v.getD m 0)

/-- The probe of a key at slot `i`, with the bound that the probes before it left, is right. -/
def Decides (v : List UInt32) (i : ℕ) (key : UInt32) (bound : ℕ) : Prop :=
  v[i]? = some key ∨ ∃ l r, Window v i key bound l r ∧ Reaches v key l r

end Gapped
end HashingBenchmark

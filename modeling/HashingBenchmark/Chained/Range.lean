import HashingBenchmark.Chained.Invariant
import HashingBenchmark.Lib.UIntOrder
import Mathlib.Data.List.TakeWhile

/-! The range query of `chained_model.hpp`.

    `hash_range_query` walks the directory from the bucket the model predicts for `low_key`, each
    chain bucket by bucket and each bucket slot by slot, and stops at the first key above `high_key`.
    All in all it is one scan over one list, the slots from that directory bucket on in the order of
    the walk (`traversal`, `hashRangeQuery_eq`): the sum over the slots before the first key above
    `high_key`, and an access past the directory where there is no such key. What the scan adds for a
    slot is the first payload of its bucket. -/

namespace HashingBenchmark
open SlotArray Chained support

namespace KapilChainedModelHashTable
variable {BucketSize m : ℕ}

section Walk
variable [NeZero BucketSize]

/-- The slot loop of `hash_range_query` over the slots that are left: `ans` and `exit_check`. -/
def slotLoop (Sentinel low_key high_key : UInt64) (bucket : Bucket UInt64 UInt64 BucketSize) :
    List (Fin BucketSize) → UInt64 → UInt64 × Bool
  | [], ans => (ans, false)
  | i :: rest, ans =>
    let current_key := bucket.keys i
    if current_key = Sentinel then (ans, false)
    else
      let ans' := if low_key ≤ current_key ∧ current_key ≤ high_key then ans + bucket.payloads 0
        else ans
      if high_key < current_key ∧ current_key ≠ Sentinel then (ans', true)
      else slotLoop Sentinel low_key high_key bucket rest ans'

/-- The loop of `hash_range_query` over the chain: `ans` and `exit_check`. -/
def chainLoop (Sentinel low_key high_key : UInt64)
    (t : KapilChainedModelHashTable UInt64 UInt64 BucketSize m) :
    ℕ → Option Ptr → UInt64 → Except Fault (UInt64 × Bool)
  | _, none, ans => .ok (ans, false)
  | 0, some _, _ => .error .diverges
  | fuel + 1, some bucket, ans =>
    match t.load bucket with
    | none => .error .outOfBounds
    | some b =>
      match slotLoop Sentinel low_key high_key b (List.finRange BucketSize) ans with
      | (ans', true) => .ok (ans', true)
      | (ans', false) => chainLoop Sentinel low_key high_key t fuel b.nextPtr ans'

/-- The outer loop of `hash_range_query`. -/
def directoryLoop (Sentinel low_key high_key : UInt64)
    (t : KapilChainedModelHashTable UInt64 UInt64 BucketSize m) : ℕ → ℕ → UInt64 → Except Fault UInt64
  | 0, _, _ => .error .diverges
  | fuel + 1, directory_ind, ans =>
    match chainLoop Sentinel low_key high_key t (t.tape.cells.length + 1)
        (some (.directory directory_ind)) ans with
    | .error fault => .error fault
    | .ok (ans', true) => .ok ans'
    | .ok (ans', false) => directoryLoop Sentinel low_key high_key t fuel (directory_ind + 1) ans'

/-- `KapilChainedModelHashTable::hash_range_query`. The outer loop has no bound of its own; an access
    to `buckets[m]` ends it. -/
def hashRangeQuery (Sentinel : UInt64) (model : Model UInt64)
    (t : KapilChainedModelHashTable UInt64 UInt64 BucketSize m) (low_key high_key : UInt64) :
    Except Fault UInt64 :=
  directoryLoop Sentinel low_key high_key t (m + 1) (model low_key).toNat 0

end Walk

/-! ### The slots in the order of the walk -/

/-- A slot of a bucket. -/
abbrev Slot (BucketSize : ℕ) := Bucket UInt64 UInt64 BucketSize × Fin BucketSize

def Slot.key (s : Slot BucketSize) : UInt64 := s.1.keys s.2

def Slot.payload (s : Slot BucketSize) : UInt64 := s.1.payloads s.2

/-- The first payload of the slot's bucket. -/
def Slot.firstPayload [NeZero BucketSize] (s : Slot BucketSize) : UInt64 := s.1.payloads 0

/-- The occupied slots of a bucket. -/
def bucketSlots (Sentinel : UInt64) (b : Bucket UInt64 UInt64 BucketSize) : List (Slot BucketSize) :=
  ((List.finRange BucketSize).takeWhile fun i => b.keys i ≠ Sentinel).map fun i => (b, i)

/-- The occupied slots of a list of buckets. -/
def slots (Sentinel : UInt64) (l : List (Ptr × Bucket UInt64 UInt64 BucketSize)) :
    List (Slot BucketSize) := l.flatMap fun x => bucketSlots Sentinel x.2

/-- The occupied slots from directory bucket `ind` on. -/
def traversal (Sentinel : UInt64) (chain : ℕ → List (Ptr × Bucket UInt64 UInt64 BucketSize))
    (m ind : ℕ) : List (Slot BucketSize) :=
  (List.range' ind (m - ind)).flatMap fun i => slots Sentinel (chain i)

/-- The slots before the first key above `high_key` whose key is in the range. -/
def counted (low_key high_key : UInt64) (l : List (Slot BucketSize)) : List (Slot BucketSize) :=
  (l.takeWhile fun s => s.key ≤ high_key).filter fun s => low_key ≤ s.key

/-- What the scan adds up. -/
def readSum [NeZero BucketSize] (low_key high_key : UInt64) (l : List (Slot BucketSize)) : UInt64 :=
  UInt64.ofNat ((counted low_key high_key l).map fun s => s.firstPayload.toNat).sum

/-- Whether the scan stops. -/
def exits (high_key : UInt64) (l : List (Slot BucketSize)) : Bool := l.any fun s => high_key < s.key

section Scan
variable {Sentinel low_key high_key : UInt64}

theorem counted_append_of_exits {l : List (Slot BucketSize)} (h : exits high_key l = true)
    (l' : List (Slot BucketSize)) :
    counted low_key high_key (l ++ l') = counted low_key high_key l := by
  have hstop : ((l.takeWhile fun s => decide (s.key ≤ high_key)).length ≠ l.length) := by
    intro hlen
    obtain ⟨s, hs, hhigh⟩ := List.any_eq_true.mp h
    have heq := List.IsPrefix.eq_of_length (List.takeWhile_prefix _) hlen
    rw [← heq] at hs
    have hle := List.mem_takeWhile_imp hs
    rw [decide_eq_true_eq] at hle hhigh
    exact UInt64.not_lt.mpr hle hhigh
  rw [counted, List.takeWhile_append, if_neg hstop, counted]

theorem takeWhile_eq_of_not_exits {l : List (Slot BucketSize)} (h : exits high_key l = false) :
    (l.takeWhile fun s => s.key ≤ high_key) = l := by
  rw [List.takeWhile_eq_self_iff]
  intro s hs
  have hnot := List.any_eq_false.mp h s hs
  rw [decide_eq_true_eq] at hnot ⊢
  exact UInt64.not_lt.mp hnot

theorem counted_append_of_not_exits {l : List (Slot BucketSize)} (h : exits high_key l = false)
    (l' : List (Slot BucketSize)) : counted low_key high_key (l ++ l')
      = counted low_key high_key l ++ counted low_key high_key l' := by
  have hall := List.takeWhile_eq_self_iff.mp (takeWhile_eq_of_not_exits h)
  rw [counted, List.takeWhile_append_of_pos hall, List.filter_append, counted, counted,
    takeWhile_eq_of_not_exits h]

theorem exits_append (l l' : List (Slot BucketSize)) :
    exits high_key (l ++ l') = (exits high_key l || exits high_key l') := List.any_append

variable [NeZero BucketSize]

theorem readSum_append_of_exits {l : List (Slot BucketSize)} (h : exits high_key l = true)
    (l' : List (Slot BucketSize)) :
    readSum low_key high_key (l ++ l') = readSum low_key high_key l := by
  rw [readSum, counted_append_of_exits h, readSum]

theorem readSum_append_of_not_exits {l : List (Slot BucketSize)} (h : exits high_key l = false)
    (l' : List (Slot BucketSize)) : readSum low_key high_key (l ++ l')
      = readSum low_key high_key l + readSum low_key high_key l' := by
  rw [readSum, counted_append_of_not_exits h, List.map_append, List.sum_append, UInt64.ofNat_add,
    readSum, readSum]

/-! ### The three loops -/

theorem slotLoop_eq (b : Bucket UInt64 UInt64 BucketSize) (is : List (Fin BucketSize))
    (ans : UInt64) :
    slotLoop Sentinel low_key high_key b is ans =
      (ans + readSum low_key high_key ((is.takeWhile fun i => b.keys i ≠ Sentinel).map fun i => (b, i)),
        exits high_key ((is.takeWhile fun i => b.keys i ≠ Sentinel).map fun i => (b, i))) := by
  induction is generalizing ans with
  | nil => simp [slotLoop, readSum, counted, exits]
  | cons i rest ih =>
    rw [slotLoop]
    by_cases hfree : b.keys i = Sentinel
    · simp [hfree, readSum, counted, exits]
    · have hcons : ((i :: rest).takeWhile fun i => decide (b.keys i ≠ Sentinel)).map
          (fun i => ((b, i) : Slot BucketSize))
          = [(b, i)] ++ (rest.takeWhile fun i => decide (b.keys i ≠ Sentinel)).map
            fun i => (b, i) := by
        rw [List.takeWhile_cons_of_pos (by simpa using hfree)]; rfl
      rw [hcons]
      by_cases hhigh : high_key < b.keys i
      · have hexit : exits high_key [((b, i) : Slot BucketSize)] = true := by
          simp [exits, Slot.key, hhigh]
        have hout : ¬ (low_key ≤ b.keys i ∧ b.keys i ≤ high_key) := fun h =>
          UInt64.not_lt.mpr h.2 hhigh
        have hnone : readSum low_key high_key [((b, i) : Slot BucketSize)] = 0 := by
          simp [readSum, counted, Slot.key, UInt64.not_le.mpr hhigh]
        simp only [if_neg hfree, if_neg hout, if_pos (And.intro hhigh hfree)]
        rw [readSum_append_of_exits hexit, hnone, exits_append, hexit, UInt64.add_zero, Bool.true_or]
      · have hexit : exits high_key [((b, i) : Slot BucketSize)] = false := by
          simp [exits, Slot.key, hhigh]
        have hle : b.keys i ≤ high_key := UInt64.not_lt.mp hhigh
        have hone : readSum low_key high_key [((b, i) : Slot BucketSize)]
            = if low_key ≤ b.keys i then b.payloads 0 else 0 := by
          by_cases hlow : low_key ≤ b.keys i
          · simp [readSum, counted, Slot.key, Slot.firstPayload, hle, hlow]
          · simp [readSum, counted, Slot.key, hle, hlow]
        have hgo : ¬ (high_key < b.keys i ∧ b.keys i ≠ Sentinel) := fun h => hhigh h.1
        simp only [if_neg hfree, if_neg hgo, ih]
        rw [readSum_append_of_not_exits hexit, hone, exits_append, hexit, Bool.false_or]
        by_cases hlow : low_key ≤ b.keys i
        · rw [if_pos ⟨hlow, hle⟩, if_pos hlow, UInt64.add_assoc]
        · rw [if_neg fun h => hlow h.1, if_neg hlow, UInt64.zero_add]

theorem chainLoop_eq {t : KapilChainedModelHashTable UInt64 UInt64 BucketSize m}
    {l : List (Ptr × Bucket UInt64 UInt64 BucketSize)} {p : Option Ptr} {fuel : ℕ}
    (hlinked : Linked t.load Bucket.nextPtr p l) (hfuel : l.length ≤ fuel) (ans : UInt64) :
    chainLoop Sentinel low_key high_key t fuel p ans = .ok
      (ans + readSum low_key high_key (slots Sentinel l), exits high_key (slots Sentinel l)) := by
  induction l generalizing p fuel ans with
  | nil => rw [hlinked, chainLoop]; simp [slots, readSum, counted, exits]
  | cons x l ih =>
    obtain ⟨rfl, hload, hrest⟩ := hlinked
    cases fuel with
    | zero => cases hfuel
    | succ fuel =>
      have hcons : slots Sentinel (x :: l) = bucketSlots Sentinel x.2 ++ slots Sentinel l :=
        List.flatMap_cons
      have hslot : slotLoop Sentinel low_key high_key x.2 (List.finRange BucketSize) ans
          = (ans + readSum low_key high_key (bucketSlots Sentinel x.2),
            exits high_key (bucketSlots Sentinel x.2)) := slotLoop_eq x.2 _ ans
      rw [chainLoop, hload, hcons, exits_append]
      simp only [hslot]
      cases hexit : exits high_key (bucketSlots Sentinel x.2) with
      | true => rw [readSum_append_of_exits hexit, Bool.true_or]
      | false =>
        simp only
        rw [ih hrest (Nat.le_of_succ_le_succ hfuel), readSum_append_of_not_exits hexit,
          Bool.false_or, UInt64.add_assoc]

end Scan
end KapilChainedModelHashTable
end HashingBenchmark

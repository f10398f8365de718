import HashingBenchmark.Chained.EachBucket

/-! The chained table of `chained_exotic.hpp`, and its shortcut.

    Its buckets and its insert are those of `chained.hpp`. Its lookup returns 0 as soon as it sees a
    Sentinel, where the lookup of `chained.hpp` leaves the bucket and goes on with the next one. The
    two differ only on a chain with a bucket behind one that has a free slot. An insert puts a
    bucket behind another only when the other is full, and no slot ever becomes free again
    (`NextOnlyIfFull`), so there is no such chain.

    This is a fact about single buckets. It holds after any calls, also after one that has written
    outside the tape. -/

namespace HashingBenchmark
open SlotArray Chained support

/-- The slot loop of `KapilChainedExoticHashTable::operator[]`: what it returns from within the
    bucket, if it does. -/
def Chained.Bucket.probeExotic {Key Payload : Type} {BucketSize : ℕ} [DecidableEq Key]
    (Sentinel key : Key) (b : Bucket Key Payload BucketSize) : Option ℕ :=
  Fin.findSome? fun i =>
    if b.keys i = Sentinel then some 0 else if b.keys i = key then some 1 else none

/-- `KapilChainedExoticHashTable`. -/
abbrev KapilChainedExoticHashTable := ChainedTable

namespace KapilChainedExoticHashTable
variable {Key Payload : Type} [DecidableEq Key] {BucketSize m : ℕ}

/-- `mmphf(key) % buckets.size()`. -/
def index (mmphf : HashFn Key) (m : ℕ) (key : Key) : ℕ := (mmphf key).toNat % m

/-- `KapilChainedExoticHashTable::insert`. -/
def insert [Inhabited Payload] (Sentinel : Key) (sizeofBucket : ℕ) (mmphf : HashFn Key) (key : Key)
    (payload : Payload) (t : KapilChainedExoticHashTable Key Payload BucketSize m) :
    Outcome Fault (KapilChainedExoticHashTable Key Payload BucketSize m) :=
  ChainedTable.insert Sentinel sizeofBucket (index mmphf m) key payload t

/-- The loop of `operator[]` over the chain. -/
def lookupLoop (Sentinel key : Key) (t : KapilChainedExoticHashTable Key Payload BucketSize m) :
    ℕ → Option Ptr → Except Fault ℕ
  | _, none => .ok 0
  | 0, some _ => .error .diverges
  | fuel + 1, some bucket =>
    match t.load bucket with
    | none => .error .outOfBounds
    | some b =>
      match b.probeExotic Sentinel key with
      | some r => .ok r
      | none => lookupLoop Sentinel key t fuel b.nextPtr

/-- `KapilChainedExoticHashTable::operator[]`. -/
def operatorSubscript (Sentinel : Key) (mmphf : HashFn Key)
    (t : KapilChainedExoticHashTable Key Payload BucketSize m) (key : Key) : Except Fault ℕ :=
  lookupLoop Sentinel key t (t.tape.cells.length + 1) (some (.directory (index mmphf m key)))

end KapilChainedExoticHashTable

namespace ChainedTable
variable {Key Payload : Type} {BucketSize m : ℕ} [DecidableEq Key] {Sentinel : Key}

/-- Every bucket that another one comes behind is full. -/
def NextOnlyIfFull (Sentinel : Key) (t : ChainedTable Key Payload BucketSize m) : Prop :=
  t.EachBucket fun b => b.next ≠ none → Full Sentinel b.keys

theorem nextOnlyIfFull_insertAll [Inhabited Payload] (sizeofBucket : ℕ) (index : Key → ℕ)
    (data : List (Key × Payload)) :
    (insertAll (insert Sentinel sizeofBucket index) data (empty Sentinel)
      : Outcome Fault (ChainedTable Key Payload BucketSize m)).state.NextOnlyIfFull Sentinel := by
  refine eachBucket_insertAll ⟨fun hnext => absurd rfl hnext, ?_, fun _ _ _ hfull _ => hfull⟩ data
  -- a bucket with a free slot has none behind it, before the write and after it
  intro b i key payload hb hfree _ hnext
  exact absurd hfree (hb hnext i)

/-- The one slot loop in terms of the other. -/
theorem probe_eq_probeExotic (key : Key) (b : Bucket Key Payload BucketSize) :
    b.probe Sentinel key = ((b.probeExotic Sentinel key).map (decide <| · = 1)).getD false := by
  rw [Bucket.probeExotic, Fin.map_findSome?, Bucket.probe]
  congr 2
  funext i
  split_ifs <;> rfl

/-- The shorter loop returns at the key, goes through a full bucket without it, or returns 0 at a
    free slot. -/
theorem probeExotic_cases (key : Key) (b : Bucket Key Payload BucketSize) :
    b.probeExotic Sentinel key = some 1 ∨ b.probeExotic Sentinel key = none ∨
    (¬ Full Sentinel b.keys ∧ b.probeExotic Sentinel key = some 0) := by
  rw [Bucket.probeExotic]
  rcases search_cases Sentinel key b.keys (fun _ => 0) (fun _ => 1) with
    ⟨i, hi, -, hfind⟩ | ⟨i, -, -, -, hfind⟩ | ⟨-, hfind⟩
  · exact Or.inr (Or.inr ⟨fun hfull => hfull i hi, hfind⟩)
  · exact Or.inl hfind
  · exact Or.inr (Or.inl hfind)

/-- Both lookups walk the chain alike, and where the shorter one returns 0 early the other one is in
    the last bucket. -/
theorem exotic_lookupLoop_eq {t : ChainedTable Key Payload BucketSize m}
    (h : t.NextOnlyIfFull Sentinel) (key : Key) (fuel : ℕ) (bucket : Option Ptr) :
    KapilChainedExoticHashTable.lookupLoop Sentinel key t fuel bucket
      = lookupLoop Sentinel key t fuel bucket := by
  induction fuel generalizing bucket with
  | zero => cases bucket <;> rfl
  | succ fuel ih =>
    cases bucket with
    | none => rfl
    | some p =>
      rw [KapilChainedExoticHashTable.lookupLoop, lookupLoop]
      cases hload : t.load p with
      | none => rfl
      | some b =>
        have hprobe : b.probe Sentinel key
            = ((b.probeExotic Sentinel key).map (decide <| · = 1)).getD false :=
          probe_eq_probeExotic key b
        have hcases : b.probeExotic Sentinel key = some 1 ∨ b.probeExotic Sentinel key = none ∨
            (¬ Full Sentinel b.keys ∧ b.probeExotic Sentinel key = some 0) :=
          probeExotic_cases key b
        rcases hcases with hhit | hpass | ⟨hfree, hstop⟩
        · simp [hprobe, hhit]
        · simp only [hprobe, hpass, Option.map_none, Option.getD_none, Bool.false_eq_true, if_false]
          exact ih b.nextPtr
        · have hnext : b.next = none := by
            by_contra hne
            exact hfree (h p b hload hne)
          simp [hprobe, hstop, Bucket.nextPtr, hnext, lookupLoop]

end ChainedTable

/-- CORRECT: after any calls of `insert` on an empty table the lookup that stops at the first
    Sentinel and the one that follows the chain to its end answer alike. -/
theorem exotic_lookup_eq {Key Payload : Type} [DecidableEq Key] [Inhabited Payload]
    {BucketSize m : ℕ} (Sentinel : Key) (sizeofBucket : ℕ) (mmphf : HashFn Key)
    (data : List (Key × Payload)) (q : Key) :
    let t : ChainedTable Key Payload BucketSize m :=
      (insertAll (KapilChainedExoticHashTable.insert Sentinel sizeofBucket mmphf) data
        (ChainedTable.empty Sentinel)).state
    KapilChainedExoticHashTable.operatorSubscript Sentinel mmphf t q
      = KapilChainedHashTable.operatorSubscript Sentinel mmphf t q :=
  ChainedTable.exotic_lookupLoop_eq (ChainedTable.nextOnlyIfFull_insertAll _ _ data) q _ _

end HashingBenchmark

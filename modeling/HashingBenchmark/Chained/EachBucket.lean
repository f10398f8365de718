import HashingBenchmark.Chained.Invariant

/-! What holds of every single bucket of a chained table.

    An insert does three things to buckets: it writes into the first free slot of one, it links a new
    bucket behind a full one, and it makes new buckets empty. A property of single buckets that
    these three keep (`BucketRule`) holds of every bucket after any calls, however they end. The
    rule says nothing about which buckets a chain goes through, so it needs no invariant of chains. -/

namespace HashingBenchmark
open SlotArray Chained support

namespace ChainedTable
variable {Key Payload : Type} {BucketSize m : ℕ}

/-- Every bucket in the store, in a chain or not. -/
def EachBucket (P : Bucket Key Payload BucketSize → Prop)
    (t : ChainedTable Key Payload BucketSize m) : Prop :=
  ∀ p b, t.load p = some b → P b

/-- `P` holds of an empty bucket and is kept by a write and by a link. -/
structure BucketRule [Inhabited Payload] (Sentinel : Key)
    (P : Bucket Key Payload BucketSize → Prop) : Prop where
  empty : P (Bucket.empty Sentinel)
  write : ∀ b i key payload, P b → b.keys i = Sentinel → (∀ j < i, b.keys j ≠ Sentinel) →
    P (b.write i key payload)
  link : ∀ b c, P b → Full Sentinel b.keys → P { b with next := some c }

section Store
variable {P : Bucket Key Payload BucketSize → Prop} {t : ChainedTable Key Payload BucketSize m}

theorem EachBucket.store (h : t.EachBucket P) {p : Ptr} (hp : (t.load p).isSome)
    {b : Bucket Key Payload BucketSize} (hb : P b) : (t.store b p).EachBucket P := by
  intro q c hq
  rw [load_store hp] at hq
  rcases eq_or_ne q p with rfl | hqp
  · rw [if_pos rfl, Option.some.injEq] at hq
    exact hq ▸ hb
  · rw [if_neg hqp] at hq
    exact h q c hq

/-- A new cell holds a new bucket or one that was there. -/
theorem EachBucket.allocated (h : t.EachBucket P) {new : Bucket Key Payload BucketSize}
    (hnew : P new) (n : ℕ) : (t.allocated new n).EachBucket P := by
  intro q c hq
  cases q with
  | directory i => exact h (.directory i) c hq
  | cell a =>
    change (t.tape.alloc new n).2.get? a = some c at hq
    rcases t.tape.alloc_cases new n with ⟨-, halloc⟩ | ⟨-, halloc⟩
    · rw [halloc, Tape.get?_push] at hq
      split_ifs at hq with hseg
      · obtain rfl := List.eq_of_mem_replicate (List.mem_of_getElem? hq)
        exact hnew
      · exact h (.cell a) c hq
    · rw [halloc] at hq
      exact h (.cell a) c hq

variable [Inhabited Payload] {Sentinel : Key}

theorem eachBucket_empty (hrule : BucketRule Sentinel P) :
    (empty Sentinel : ChainedTable Key Payload BucketSize m).EachBucket P := by
  intro p b hp
  cases p with
  | directory i =>
    rw [load] at hp
    split_ifs at hp with hi
    obtain rfl := Option.some.inj hp
    exact hrule.empty
  | cell c => cases hp

theorem EachBucket.append (hrule : BucketRule Sentinel P) (h : t.EachBucket P) {p : Ptr}
    {b : Bucket Key Payload BucketSize} (hp : t.load p = some b) (hfull : Full Sentinel b.keys)
    (sizeofBucket : ℕ) : (t.append Sentinel sizeofBucket p b).2.EachBucket P := by
  have hsome : (t.load p).isSome := by rw [hp]; rfl
  refine (h.allocated hrule.empty (Tape.nextTapeSegmentSize sizeofBucket)).store ?_
    (hrule.link b _ (h p b hp) hfull)
  rw [load_allocated _ _ hsome]
  exact hsome

end Store

variable [DecidableEq Key] [Inhabited Payload] {Sentinel : Key}
  {P : Bucket Key Payload BucketSize → Prop}

/-- The loop of an insert keeps the property, however it ends. -/
theorem EachBucket.insertLoop (hrule : BucketRule Sentinel P) {sizeofBucket : ℕ} {key : Key}
    {payload : Payload} {fuel : ℕ} {current : Ptr} {t : ChainedTable Key Payload BucketSize m}
    (h : t.EachBucket P) :
    (insertLoop Sentinel sizeofBucket key payload fuel current t).state.EachBucket P := by
  induction fuel generalizing current t with
  | zero => exact h
  | succ fuel ih =>
    rw [ChainedTable.insertLoop]
    cases hload : t.load current with
    | none => exact h
    | some b =>
      have hsome : (t.load current).isSome := by rw [hload]; rfl
      rcases b.fill_cases Sentinel key payload with ⟨hfull, hfill⟩ | ⟨i, hfree, hbefore, hfill⟩
      · simp only [hfill]
        cases hnext : b.next with
        | some c => exact ih h
        | none => exact ih (h.append hrule hload hfull sizeofBucket)
      · simp only [hfill]
        exact h.store hsome (hrule.write b i key payload (h current b hload) hfree hbefore)

/-- Run lemma: the property holds of every bucket after any calls. -/
theorem eachBucket_insertAll (hrule : BucketRule Sentinel P) {sizeofBucket : ℕ} {index : Key → ℕ}
    (data : List (Key × Payload)) :
    (insertAll (insert Sentinel sizeofBucket index) data (empty Sentinel)
      : Outcome Fault (ChainedTable Key Payload BucketSize m)).state.EachBucket P := by
  suffices h : ∀ t : ChainedTable Key Payload BucketSize m, t.EachBucket P →
      (insertAll (insert Sentinel sizeofBucket index) data t).state.EachBucket P by
    exact h _ (eachBucket_empty hrule)
  induction data with
  | nil => exact fun t h => h
  | cons d data ih =>
    intro t h
    have hstep : (insert Sentinel sizeofBucket index d.1 d.2 t).state.EachBucket P :=
      h.insertLoop hrule
    rw [insertAll, Outcome.runAll_cons]
    cases hcall : insert Sentinel sizeofBucket index d.1 d.2 t with
    | returned u => rw [hcall] at hstep; exact ih u hstep
    | threw e u => rw [hcall] at hstep; exact hstep

/-- In every bucket the slots in use come first. -/
theorem filledPrefix_insertAll {sizeofBucket : ℕ} {index : Key → ℕ} (data : List (Key × Payload)) :
    (insertAll (insert Sentinel sizeofBucket index) data (empty Sentinel)
      : Outcome Fault (ChainedTable Key Payload BucketSize m)).state.EachBucket
        fun b => FilledPrefix Sentinel b.keys := by
  refine eachBucket_insertAll ⟨filledPrefix_const Sentinel, ?_, fun _ _ h _ => h⟩ data
  intro b i key payload h hfree hbefore
  by_cases hkey : key = Sentinel
  · -- a write of the Sentinel changes no key
    rw [Bucket.write, hkey, ← hfree, Function.update_eq_self]
    exact hfree ▸ h
  · exact h.write hkey hbefore

end ChainedTable
end HashingBenchmark

import HashingBenchmark.Chained.Insert
import Mathlib.Data.Finset.Card

/-! Every chain of a table that inserts have built ends.

    The tape hands out its cells in ascending order, and an insert points the last bucket of a chain to
    the cell handed out last. So pointers lead upwards, and a chain has no cycle (`Rising`). Nothing
    is asked of the keys: an insert of the Sentinel itself writes it into a free slot, which stays
    free, or adds a bucket that stays empty. -/

namespace HashingBenchmark
open SlotArray Chained support

namespace ChainedTable
variable {Key Payload : Type} {BucketSize m : ℕ}

/-- The cell comes behind the pointer; all cells come behind the directory. -/
def After : Ptr → Cell → Prop
  | .directory _, _ => True
  | .cell a, c => a.segment < c.segment ∨ a.segment = c.segment ∧ a.offset < c.offset

instance (p : Ptr) : DecidablePred (After p) := fun c =>
  match p with
  | .directory _ => inferInstanceAs (Decidable True)
  | .cell a =>
    inferInstanceAs (Decidable (a.segment < c.segment ∨ a.segment = c.segment ∧ a.offset < c.offset))

theorem After.trans {p : Ptr} {c d : Cell} (h : After p c) (h' : After (.cell c) d) : After p d := by
  cases p with
  | directory i => trivial
  | cell a =>
    simp only [After] at h h' ⊢
    omega

/-- A new cell comes behind every pointer in use. -/
theorem Owned.after_alloc {t : ChainedTable Key Payload BucketSize m} {p : Ptr} (hp : t.Owned p)
    (new : Bucket Key Payload BucketSize) (n : ℕ) : After p (t.tape.alloc new n).1 := by
  cases p with
  | directory i => trivial
  | cell a =>
    obtain ⟨hvalid, hused⟩ := hp.2 a rfl
    have hseg := Tape.segment_lt_of_valid hvalid
    rcases t.tape.alloc_cases new n with ⟨-, halloc⟩ | ⟨-, halloc⟩
    · rw [halloc]
      exact Or.inl hseg
    · rw [halloc]
      simp only [After]
      by_contra hnot
      exact hused ⟨by omega, by omega⟩

/-- Every pointer leads upwards, to a cell in use. -/
structure Rising [Inhabited Payload] (Sentinel : Key)
    (t : ChainedTable Key Payload BucketSize m) : Prop where
  tape_valid : Tape.Valid (Bucket.empty Sentinel) t.tape
  next : ∀ p b c, t.load p = some b → b.next = some c → After p c ∧ t.Owned (.cell c)

section
variable [Inhabited Payload] {Sentinel : Key} {t : ChainedTable Key Payload BucketSize m}

/-- Writing a bucket that keeps its pointer. -/
theorem Rising.store (h : Rising Sentinel t) {p : Ptr} (hp : t.Owned p)
    {b b' : Bucket Key Payload BucketSize} (hb : t.load p = some b) (hnext : b'.next = b.next) :
    Rising Sentinel (t.store b' p) := by
  refine ⟨tape_valid_store h.tape_valid hp b', fun q d c hq hd => ?_⟩
  rw [owned_store hp.1]
  rw [load_store hp.1] at hq
  by_cases hqp : q = p
  · rw [if_pos hqp, Option.some.injEq] at hq
    rw [hqp]
    exact h.next p b c hb (hnext ▸ hq ▸ hd)
  · rw [if_neg hqp] at hq
    exact h.next q d c hq hd

omit [Inhabited Payload] in
theorem load_allocated_cases {new b : Bucket Key Payload BucketSize} {n : ℕ} {p : Ptr}
    (h : (t.allocated new n).load p = some b) : t.load p = some b ∨ b = new := by
  cases p with
  | directory i => exact Or.inl h
  | cell a =>
    change (t.tape.alloc new n).2.get? a = some b at h
    rcases t.tape.alloc_cases new n with ⟨-, halloc⟩ | ⟨-, halloc⟩
    · rw [halloc, Tape.get?_push] at h
      split_ifs at h
      · exact Or.inr (List.eq_of_mem_replicate (List.mem_of_getElem? h))
      · exact Or.inl h
    · rw [halloc] at h
      exact Or.inl h

/-- A new bucket behind the last one of a chain, if the tape has a cell for it. -/
theorem Rising.append (h : Rising Sentinel t) {p : Ptr} (hp : t.Owned p)
    {b : Bucket Key Payload BucketSize} {sizeofBucket : ℕ}
    (hcell : ((t.append Sentinel sizeofBucket p b).2.load
      (.cell (t.append Sentinel sizeofBucket p b).1)).isSome) :
    Rising Sentinel (t.append Sentinel sizeofBucket p b).2 ∧
      (t.append Sentinel sizeofBucket p b).2.Owned
        (.cell (t.append Sentinel sizeofBucket p b).1) := by
  have hne : p ≠ .cell (t.append Sentinel sizeofBucket p b).1 := hp.ne_alloc _ _
  rw [load_append hp, if_neg hne.symm] at hcell
  obtain ⟨hvalid, hhanded⟩ := h.tape_valid.alloc_of_isSome hcell
  have howned : (t.allocated (Bucket.empty Sentinel)
      (Tape.nextTapeSegmentSize sizeofBucket)).Owned
        (.cell (t.append Sentinel sizeofBucket p b).1) := by
    refine ⟨hcell, fun c hc => ?_⟩
    obtain rfl := Ptr.cell.inj hc
    exact hhanded
  refine ⟨⟨tape_valid_store hvalid (hp.allocated _ _) _, fun q d c hq hd => ?_⟩,
    (owned_append hp b _).2 howned⟩
  rw [owned_append hp]
  rw [load_append hp] at hq
  by_cases hqp : q = p
  · rw [if_pos hqp, Option.some.injEq] at hq
    obtain rfl : (t.append Sentinel sizeofBucket p b).1 = c := by
      rw [← hq] at hd
      exact Option.some.inj hd
    rw [hqp]
    exact ⟨hp.after_alloc _ _, howned⟩
  · rw [if_neg hqp] at hq
    rcases load_allocated_cases hq with hold | hnew
    · obtain ⟨hafter, hc⟩ := h.next q d c hold hd
      exact ⟨hafter, hc.allocated _ _⟩
    · rw [hnew] at hd
      cases hd

variable [DecidableEq Key] {sizeofBucket : ℕ}

omit [Inhabited Payload] in
/-- The slot loop keeps the pointer. -/
theorem next_of_fill {key : Key} {payload : Payload} {b b' : Bucket Key Payload BucketSize}
    (h : b.fill Sentinel key payload = some b') : b'.next = b.next := by
  rcases b.fill_cases Sentinel key payload with ⟨-, hnone⟩ | ⟨i, -, -, hsome⟩
  · rw [hnone] at h
    cases h
  · rw [hsome] at h
    obtain rfl := Option.some.inj h
    rfl

theorem load_of_insertLoop {key : Key} {payload : Payload} {fuel : ℕ} {current : Ptr}
    {t' : ChainedTable Key Payload BucketSize m}
    (h : insertLoop Sentinel sizeofBucket key payload fuel current t = .returned t') :
    (t.load current).isSome := by
  cases fuel with
  | zero => cases h
  | succ fuel =>
    rw [insertLoop] at h
    cases hload : t.load current with
    | none =>
      rw [hload] at h
      cases h
    | some b => rfl

/-- Step lemma: a loop that returns leaves rising pointers. -/
theorem Rising.insertLoop (h : Rising Sentinel t) {key : Key} {payload : Payload} {fuel : ℕ}
    {current : Ptr} (hcurrent : t.Owned current) {t' : ChainedTable Key Payload BucketSize m}
    (hrun : insertLoop Sentinel sizeofBucket key payload fuel current t = .returned t') :
    Rising Sentinel t' := by
  induction fuel generalizing current t with
  | zero => cases hrun
  | succ fuel ih =>
    obtain ⟨b, hload⟩ := Option.isSome_iff_exists.1 hcurrent.1
    rw [ChainedTable.insertLoop, hload] at hrun
    cases hfill : b.fill Sentinel key payload with
    | some b' =>
      simp only [hfill] at hrun
      obtain rfl := Outcome.returned.inj hrun
      exact h.store hcurrent hload (next_of_fill hfill)
    | none =>
      simp only [hfill] at hrun
      cases hnext : b.next with
      | some c =>
        simp only [hnext] at hrun
        exact ih h (h.next current b c hload hnext).2 hrun
      | none =>
        simp only [hnext] at hrun
        obtain ⟨hrising, howned⟩ := h.append hcurrent (load_of_insertLoop hrun)
        exact ih hrising howned hrun

end

end ChainedTable
end HashingBenchmark

import HashingBenchmark.Chained.Table
import HashingBenchmark.Lib.Linked

/-! The invariant of the chained tables, for any directory index function.

    `Built` says where the chains are: `chain i` is the linked list of buckets that starts at
    directory bucket `i`, its buckets are filled from the front, only the last may have a free slot
    and only the first may be empty, no bucket is in two chains, and every chain lives in cells the
    tape has handed out. What chain `i` holds, read bucket by bucket, is the list of the pairs
    inserted with directory index `i`, in the order of the inserts.

    An insert changes the end of one chain, and `Built.replace_tail` says when the invariant
    survives that. -/

namespace HashingBenchmark
open SlotArray Chained support

namespace Chained
namespace Bucket
variable {Key Payload : Type} {BucketSize : ℕ} [DecidableEq Key]

/-- The pairs of a bucket, read slot by slot up to its first Sentinel. -/
def entries (Sentinel : Key) (b : Bucket Key Payload BucketSize) : List (Key × Payload) :=
  SlotArray.entries Sentinel b.keys b.payloads

theorem fill_cases (Sentinel key : Key) (payload : Payload) (b : Bucket Key Payload BucketSize) :
    (Full Sentinel b.keys ∧ b.fill Sentinel key payload = none) ∨
    ∃ i, b.keys i = Sentinel ∧ (∀ j < i, b.keys j ≠ Sentinel) ∧
      b.fill Sentinel key payload = some (b.write i key payload) := by
  cases hfill : b.fill Sentinel key payload with
  | none =>
    left
    refine ⟨fun i hi => ?_, rfl⟩
    have hnone := Fin.findSome?_eq_none_iff.mp hfill i
    rw [if_pos hi] at hnone; cases hnone
  | some b' =>
    right
    obtain ⟨i, hi, hbefore⟩ := Fin.findSome?_eq_some_iff.mp hfill
    split_ifs at hi with hfree
    refine ⟨i, hfree, fun j hj hjfree => ?_, by rw [← hi]⟩
    have hnone := hbefore j hj
    rw [if_pos hjfree] at hnone; cases hnone

/-- In a bucket filled from the front the slot loop finds a key wherever it is. -/
theorem probe_iff {Sentinel key : Key} {b : Bucket Key Payload BucketSize}
    (h : FilledPrefix Sentinel b.keys) (hkey : key ≠ Sentinel) :
    b.probe Sentinel key = true ↔ key ∈ (b.entries Sentinel).map Prod.fst := by
  have hmem : key ∈ (b.entries Sentinel).map Prod.fst ↔ ∃ i, b.keys i = key := by
    constructor
    · intro hk
      obtain ⟨d, hd, rfl⟩ := List.mem_map.mp hk
      obtain ⟨i, -, rfl⟩ := (mem_entries h).mp hd
      exact ⟨i, rfl⟩
    · rintro ⟨i, rfl⟩
      exact List.mem_map.mpr ⟨(b.keys i, b.payloads i), (mem_entries h).mpr ⟨i, hkey, rfl⟩, rfl⟩
  rw [hmem, probe]
  rcases search_cases Sentinel key b.keys (fun _ => false) (fun _ => true) with
    ⟨i, hi, hbefore, hfind⟩ | ⟨i, -, hi, -, hfind⟩ | ⟨hslot, hfind⟩
  · rw [hfind]
    refine iff_of_false (by simp) ?_
    rintro ⟨j, hj⟩
    exact h.ne_of_empty hkey hi (fun j hj => (hbefore j hj).2) j hj
  · rw [hfind]
    exact iff_of_true rfl ⟨i, hi⟩
  · rw [hfind]
    refine iff_of_false (by simp) ?_
    rintro ⟨j, hj⟩
    exact (hslot j).2 hj

theorem entries_write {Sentinel key : Key} {payload : Payload} {b : Bucket Key Payload BucketSize}
    (h : FilledPrefix Sentinel b.keys) (hkey : key ≠ Sentinel) {i : Fin BucketSize}
    (hfree : b.keys i = Sentinel) (hbefore : ∀ j < i, b.keys j ≠ Sentinel) :
    (b.write i key payload).entries Sentinel = b.entries Sentinel ++ [(key, payload)] :=
  SlotArray.entries_write h hkey hfree hbefore payload

theorem entries_of_empty [Inhabited Payload] (Sentinel : Key) :
    (empty Sentinel : Bucket Key Payload BucketSize).entries Sentinel = [] :=
  SlotArray.entries_empty _ fun _ => rfl

/-- A bucket filled from the front is full exactly when it holds `BucketSize` pairs. -/
theorem full_iff {Sentinel : Key} {b : Bucket Key Payload BucketSize}
    (h : FilledPrefix Sentinel b.keys) :
    Full Sentinel b.keys ↔ (b.entries Sentinel).length = BucketSize := by
  rw [entries, length_entries b.payloads h, full_iff_occupied_eq]

theorem length_entries_le {Sentinel : Key} {b : Bucket Key Payload BucketSize}
    (h : FilledPrefix Sentinel b.keys) : (b.entries Sentinel).length ≤ BucketSize := by
  rw [entries, length_entries b.payloads h]; exact occupied_le Sentinel b.keys

end Bucket
end Chained

namespace ChainedTable
variable {Key Payload : Type} {BucketSize m : ℕ}

/-! ### Reading and writing through pointers -/

theorem load_store {t : ChainedTable Key Payload BucketSize m} {p : Ptr}
    (hp : (t.load p).isSome) (b : Bucket Key Payload BucketSize) (q : Ptr) :
    (t.store b p).load q = if q = p then some b else t.load q := by
  cases p with
  | directory i =>
    have hi : i < m := by
      by_contra hge
      simp [load, hge] at hp
    cases q with
    | directory j =>
      rcases eq_or_ne j i with rfl | hne
      · simp [load, store, hi]
      · simp [load, store, hi, hne]
    | cell c => simp [load, store, hi]
  | cell c =>
    cases q with
    | directory j => simp [load, store]
    | cell c' =>
      simp only [load, store, Ptr.cell.injEq]
      exact Tape.get?_set hp b c'

theorem load_directory {t : ChainedTable Key Payload BucketSize m} {i : ℕ} (hi : i < m) :
    t.load (.directory i) = some (t.buckets ⟨i, hi⟩) := by
  simp [load, hi]

/-- The pointer is into the directory or to a cell that the tape has handed out. -/
def Owned (t : ChainedTable Key Payload BucketSize m) (p : Ptr) : Prop :=
  (t.load p).isSome ∧ ∀ c, p = .cell c → t.tape.Handed c

theorem owned_store {t : ChainedTable Key Payload BucketSize m} {p : Ptr} (hp : (t.load p).isSome)
    (b : Bucket Key Payload BucketSize) (q : Ptr) : (t.store b p).Owned q ↔ t.Owned q := by
  have hsome : ((t.store b p).load q).isSome ↔ (t.load q).isSome := by
    rw [load_store hp]
    rcases eq_or_ne q p with rfl | hne
    · simp [hp]
    · simp [hne]
  have hhanded : ∀ c, (t.store b p).tape.Handed c ↔ t.tape.Handed c := by
    intro c
    cases p with
    | directory i => rw [store]; split_ifs <;> rfl
    | cell c' => exact Tape.handed_set hp b c
  exact and_congr hsome (forall_congr' fun c => imp_congr_right fun _ => hhanded c)

theorem tape_valid_store {new : Bucket Key Payload BucketSize}
    {t : ChainedTable Key Payload BucketSize m} (h : Tape.Valid new t.tape) {p : Ptr}
    (hp : t.Owned p) (b : Bucket Key Payload BucketSize) : Tape.Valid new (t.store b p).tape := by
  cases p with
  | directory i =>
    rw [store]
    split_ifs
    · exact h
    · exact h
  | cell c => exact h.set (hp.2 c rfl) b

theorem begins_store_eq_nil {t : ChainedTable Key Payload BucketSize m} (h : t.tape.begins = [])
    (b : Bucket Key Payload BucketSize) (p : Ptr) : (t.store b p).tape.begins = [] := by
  cases p with
  | directory i =>
    rw [store]
    split_ifs
    · exact h
    · exact h
  | cell c => simp [store, Tape.set, h]

/-! ### A new bucket at the end of a chain -/

/-- The table after `tape.alloc()`. -/
def allocated (t : ChainedTable Key Payload BucketSize m) (new : Bucket Key Payload BucketSize)
    (n : ℕ) : ChainedTable Key Payload BucketSize m :=
  { t with tape := (t.tape.alloc new n).2 }

theorem load_allocated {t : ChainedTable Key Payload BucketSize m}
    (new : Bucket Key Payload BucketSize) (n : ℕ) {p : Ptr} (hp : (t.load p).isSome) :
    (t.allocated new n).load p = t.load p := by
  cases p with
  | directory i => rfl
  | cell c => exact Tape.alloc_get?_of_valid new n hp

theorem Owned.allocated {t : ChainedTable Key Payload BucketSize m} {p : Ptr} (h : t.Owned p)
    (new : Bucket Key Payload BucketSize) (n : ℕ) : (t.allocated new n).Owned p :=
  ⟨by rw [load_allocated new n h.1]; exact h.1, fun c hc => (h.2 c hc).alloc⟩

theorem owned_alloc {t : ChainedTable Key Payload BucketSize m}
    {new : Bucket Key Payload BucketSize} (h : Tape.Valid new t.tape) {n : ℕ} (hn : 0 < n) :
    (t.allocated new n).Owned (.cell (t.tape.alloc new n).1) := by
  refine ⟨(h.handed_alloc hn).1, fun c hc => ?_⟩
  obtain rfl := Ptr.cell.inj hc
  exact h.handed_alloc hn

/-- No pointer in use points to the new bucket. -/
theorem Owned.ne_alloc {t : ChainedTable Key Payload BucketSize m} {p : Ptr} (h : t.Owned p)
    (new : Bucket Key Payload BucketSize) (n : ℕ) : p ≠ .cell (t.tape.alloc new n).1 := fun heq =>
  Tape.not_handed_alloc new n t.tape (h.2 _ heq)

/-! ### The invariant -/

theorem next_of_linked {load : Ptr → Option (Bucket Key Payload BucketSize)}
    {b : Bucket Key Payload BucketSize} {y : Ptr × Bucket Key Payload BucketSize}
    {l : List (Ptr × Bucket Key Payload BucketSize)}
    (h : Linked load Bucket.nextPtr b.nextPtr (y :: l)) : ∃ c, b.next = some c ∧ y.1 = .cell c := by
  obtain ⟨c, hc, hy⟩ := Option.map_eq_some_iff.mp h.1
  exact ⟨c, hc, hy.symm⟩

/-- A linked list from the directory has at most one bucket more than the tape has cells. -/
theorem length_le_of_linked {t : ChainedTable Key Payload BucketSize m} {i : ℕ}
    {l : List (Ptr × Bucket Key Payload BucketSize)}
    (h : Linked t.load Bucket.nextPtr (some (.directory i)) l) :
    l.length ≤ t.tape.cells.length + 1 := by
  have hsub : Linked.addresses l ⊆ .directory i :: t.tape.cells.map Ptr.cell := by
    intro p hp
    rcases h.mem_addresses hp with hstart | ⟨x, -, hnext⟩
    · rw [Option.some.inj hstart]; exact List.mem_cons_self
    · obtain ⟨c, -, rfl⟩ := Option.map_eq_some_iff.mp hnext
      obtain ⟨y, hy, hyc⟩ := List.mem_map.mp hp
      have hload := h.load_eq hy
      rw [hyc] at hload
      have hvalid : (t.tape.get? c).isSome := Option.isSome_of_eq_some hload
      exact List.mem_cons_of_mem _ (List.mem_map_of_mem (Tape.mem_cells.mpr hvalid))
  have hle := (h.nodup.subperm hsub).length_le
  simpa [Linked.addresses] using hle

/-- The pairs of a list of buckets, bucket by bucket. -/
def pairs [DecidableEq Key] (Sentinel : Key) (l : List (Ptr × Bucket Key Payload BucketSize)) :
    List (Key × Payload) :=
  l.flatMap fun x => x.2.entries Sentinel

variable [DecidableEq Key] [Inhabited Payload]

/-- The chains `chain` of the table hold the pairs `data`. -/
structure Built (Sentinel : Key) (sizeofBucket : ℕ) (index : Key → ℕ)
    (chain : ℕ → List (Ptr × Bucket Key Payload BucketSize)) (data : List (Key × Payload))
    (t : ChainedTable Key Payload BucketSize m) : Prop where
  linked : ∀ i < m, Linked t.load Bucket.nextPtr (some (.directory i)) (chain i)
  prefixes : ∀ i < m, ∀ x ∈ chain i, FilledPrefix Sentinel x.2.keys
  full : ∀ i < m, ∀ x ∈ (chain i).dropLast, Full Sentinel x.2.keys
  nonempty : ∀ i < m, ∀ x ∈ (chain i).tail, x.2.entries Sentinel ≠ []
  disjoint : ∀ i < m, ∀ j < m, ∀ p ∈ Linked.addresses (chain i),
    p ∈ Linked.addresses (chain j) → i = j
  owned : ∀ i < m, ∀ p ∈ Linked.addresses (chain i), t.Owned p
  holds : ∀ i < m, pairs Sentinel (chain i) = data.filter fun d => index d.1 = i
  tape_valid : Tape.Valid (Bucket.empty Sentinel) t.tape
  tape_unused : Tape.nextTapeSegmentSize sizeofBucket = 0 → t.tape.begins = []

variable {Sentinel : Key} {sizeofBucket : ℕ} {index : Key → ℕ}

theorem built_empty : Built Sentinel sizeofBucket index
    (fun i => [(.directory i, Bucket.empty Sentinel)]) []
    (empty Sentinel : ChainedTable Key Payload BucketSize m) := by
  have hdir : ∀ i < m, (empty Sentinel : ChainedTable Key Payload BucketSize m).load
      (.directory i) = some (Bucket.empty Sentinel) := fun i hi => load_directory hi
  refine ⟨fun i hi => ⟨rfl, hdir i hi, rfl⟩, fun i hi x hx => ?_, fun i hi x hx => ?_,
    fun i hi x hx => ?_, fun i hi j hj p hp hp' => ?_, fun i hi p hp => ?_, fun i hi => ?_,
    Tape.valid_of_begins_eq_nil rfl, fun _ => rfl⟩
  · obtain rfl := List.mem_singleton.mp hx
    exact filledPrefix_const Sentinel
  · cases hx
  · cases hx
  · have h := (List.mem_singleton.mp hp).symm.trans (List.mem_singleton.mp hp')
    exact Ptr.directory.inj h
  · obtain rfl := List.mem_singleton.mp hp
    exact ⟨by rw [hdir i hi]; rfl, fun c hc => by cases hc⟩
  · simp [pairs, Bucket.entries_of_empty]

namespace Built
variable {chain : ℕ → List (Ptr × Bucket Key Payload BucketSize)} {data : List (Key × Payload)}
  {t : ChainedTable Key Payload BucketSize m}

/-- Every chain has a last bucket. -/
theorem exists_last (h : Built Sentinel sizeofBucket index chain data t) {i : ℕ} (hi : i < m) :
    ∃ l x, chain i = l ++ [x] := by
  rcases List.eq_nil_or_concat (chain i) with hnil | ⟨l, x, hl⟩
  · have hlinked := h.linked i hi
    rw [hnil] at hlinked; cases hlinked
  · exact ⟨l, x, by rw [hl, List.concat_eq_append]⟩

/-- A chain has at most one bucket more than the tape has cells. -/
theorem length_le (h : Built Sentinel sizeofBucket index chain data t) {i : ℕ} (hi : i < m) :
    (chain i).length ≤ t.tape.cells.length + 1 := length_le_of_linked (h.linked i hi)

omit [DecidableEq Key] [Inhabited Payload] in
/-- A bucket of a chain with a new tail was in the same chain before, or is new to the table. -/
theorem mem_replace_tail {i j : ℕ} {l r : List (Ptr × Bucket Key Payload BucketSize)}
    {x : Ptr × Bucket Key Payload BucketSize} (hl : chain i = l ++ [x])
    (hnew : ∀ p ∈ Linked.addresses r, p = x.1 ∨ ¬ t.Owned p) {p : Ptr}
    (hp : p ∈ Linked.addresses (Function.update chain i (l ++ r) j)) :
    p ∈ Linked.addresses (chain j) ∨ (j = i ∧ ¬ t.Owned p) := by
  rcases eq_or_ne j i with rfl | hji
  · rw [Function.update_self, Linked.addresses_append] at hp
    rcases List.mem_append.mp hp with hp | hp
    · left
      rw [hl, Linked.addresses_append]
      exact List.mem_append_left _ hp
    · rcases hnew p hp with rfl | hfresh
      · exact Or.inl (by simp [hl])
      · exact Or.inr ⟨rfl, hfresh⟩
  · rw [Function.update_of_ne hji] at hp
    exact Or.inl hp

/-- Chains stay disjoint when one of them gets a new tail. -/
theorem disjoint_replace_tail (h : Built Sentinel sizeofBucket index chain data t) {i j k : ℕ}
    {l r : List (Ptr × Bucket Key Payload BucketSize)} {x : Ptr × Bucket Key Payload BucketSize}
    (hl : chain i = l ++ [x]) (hnew : ∀ p ∈ Linked.addresses r, p = x.1 ∨ ¬ t.Owned p)
    (hj : j < m) (hk : k < m) {p : Ptr}
    (hp : p ∈ Linked.addresses (Function.update chain i (l ++ r) j))
    (hp' : p ∈ Linked.addresses (Function.update chain i (l ++ r) k)) : j = k := by
  rcases mem_replace_tail hl hnew hp with hj' | ⟨rfl, hfresh⟩
  · rcases mem_replace_tail hl hnew hp' with hk' | ⟨rfl, hfresh⟩
    · exact h.disjoint j hj k hk p hj' hk'
    · exact absurd (h.owned j hj p hj') hfresh
  · rcases mem_replace_tail hl hnew hp' with hk' | ⟨rfl, -⟩
    · exact absurd (h.owned k hk p hk') hfresh
    · rfl

omit [DecidableEq Key] [Inhabited Payload] in
theorem mem_addresses_init {i : ℕ} {l : List (Ptr × Bucket Key Payload BucketSize)}
    {x : Ptr × Bucket Key Payload BucketSize} (hl : chain i = l ++ [x]) {p : Ptr}
    (hp : p ∈ Linked.addresses l) : p ∈ Linked.addresses (chain i) := by
  rw [hl, Linked.addresses_append]
  exact List.mem_append_left _ hp

/-- The last bucket of a chain is in no other place of any chain. -/
theorem ne_last (h : Built Sentinel sizeofBucket index chain data t) {i : ℕ} (hi : i < m)
    {l : List (Ptr × Bucket Key Payload BucketSize)} {x : Ptr × Bucket Key Payload BucketSize}
    (hl : chain i = l ++ [x]) :
    (∀ p ∈ Linked.addresses l, p ≠ x.1) ∧
      ∀ j < m, j ≠ i → ∀ p ∈ Linked.addresses (chain j), p ≠ x.1 := by
  have hx : x.1 ∈ Linked.addresses (chain i) := by simp [hl]
  constructor
  · have hnodup := (h.linked i hi).nodup
    rw [hl, Linked.addresses_append, List.nodup_append] at hnodup
    exact fun p hp => hnodup.2.2 p hp x.1 (by simp)
  · rintro j hj hji p hp rfl
    exact hji (h.disjoint j hj i hi _ hp hx)

section ReplaceTail
variable {i : ℕ} {l r : List (Ptr × Bucket Key Payload BucketSize)}
  {x : Ptr × Bucket Key Payload BucketSize} {t' : ChainedTable Key Payload BucketSize m}

/-- With a new tail linked from the last bucket on, all chains are linked and in use. -/
theorem linked_replace_tail (h : Built Sentinel sizeofBucket index chain data t) (hi : i < m)
    (hl : chain i = l ++ [x]) (hlinked : Linked t'.load Bucket.nextPtr (some x.1) r)
    (hframe : ∀ p, t.Owned p → p ≠ x.1 → t'.load p = t.load p ∧ t'.Owned p)
    (hnew : ∀ p ∈ Linked.addresses r, t'.Owned p) :
    ∀ j < m, Linked t'.load Bucket.nextPtr (some (.directory j)) (Function.update chain i (l ++ r) j) ∧
      ∀ p ∈ Linked.addresses (Function.update chain i (l ++ r) j), t'.Owned p := by
  obtain ⟨hinit, hother⟩ := h.ne_last hi hl
  have hold := h.linked i hi
  rw [hl] at hold
  have hkeep : ∀ p ∈ Linked.addresses l, t'.load p = t.load p ∧ t'.Owned p := fun p hp =>
    hframe p (h.owned i hi p (mem_addresses_init hl hp)) (hinit p hp)
  refine (Function.forall_update_iff chain (p := fun j c => j < m →
    Linked t'.load Bucket.nextPtr (some (.directory j)) c ∧
      ∀ p ∈ Linked.addresses c, t'.Owned p)).mpr ⟨fun _ => ⟨?_, fun p hp => ?_⟩, fun j hji hj => ?_⟩
  · exact hold.replace_tail (fun p hp => (hkeep p hp).1) hlinked
  · rw [Linked.addresses_append] at hp
    rcases List.mem_append.mp hp with hp | hp
    · exact (hkeep p hp).2
    · exact hnew p hp
  · have hkeep' : ∀ p ∈ Linked.addresses (chain j), t'.load p = t.load p ∧ t'.Owned p :=
      fun p hp => hframe p (h.owned j hj p hp) (hother j hj hji p hp)
    exact ⟨(h.linked j hj).frame fun p hp => (hkeep' p hp).1, fun p hp => (hkeep' p hp).2⟩

/-- With one pair more in the tail of its chain, every chain holds the pairs of its index. -/
theorem holds_replace_tail (h : Built Sentinel sizeofBucket index chain data t) (hi : i < m)
    (hl : chain i = l ++ [x]) {d : Key × Payload} (hd : index d.1 = i)
    (hpairs : pairs Sentinel r = x.2.entries Sentinel ++ [d]) :
    ∀ j < m, pairs Sentinel (Function.update chain i (l ++ r) j)
      = (data ++ [d]).filter fun e => index e.1 = j := by
  have holds := h.holds i hi
  rw [hl, pairs, List.flatMap_append] at holds
  refine (Function.forall_update_iff chain (p := fun j c => j < m →
    pairs Sentinel c = (data ++ [d]).filter fun e => index e.1 = j)).mpr
      ⟨fun _ => ?_, fun j hji hj => ?_⟩
  · rw [pairs] at hpairs
    rw [List.filter_append, ← holds, pairs, List.flatMap_append]
    simp [hpairs, hd]
  · have hdj : index d.1 ≠ j := by rw [hd]; exact hji.symm
    rw [h.holds j hj, List.filter_append]
    simp [hdj]

/-- Replacing the last bucket of a chain by the list `r`, which holds one pair more. -/
theorem replace_tail (h : Built Sentinel sizeofBucket index chain data t) (hi : i < m)
    (hl : chain i = l ++ [x]) {d : Key × Payload}
    (hd : index d.1 = i) (hr : r ≠ []) (hlinked : Linked t'.load Bucket.nextPtr (some x.1) r)
    (hframe : ∀ p, t.Owned p → p ≠ x.1 → t'.load p = t.load p ∧ t'.Owned p)
    (hnew : ∀ p ∈ Linked.addresses r, t'.Owned p ∧ (p = x.1 ∨ ¬ t.Owned p))
    (hprefixes : ∀ y ∈ r, FilledPrefix Sentinel y.2.keys)
    (hfull : ∀ y ∈ r.dropLast, Full Sentinel y.2.keys)
    (hnonempty : ∀ y ∈ r, y.2.entries Sentinel ≠ [])
    (hpairs : pairs Sentinel r = x.2.entries Sentinel ++ [d])
    (hvalid : Tape.Valid (Bucket.empty Sentinel) t'.tape)
    (hunused : Tape.nextTapeSegmentSize sizeofBucket = 0 → t'.tape.begins = []) :
    Built Sentinel sizeofBucket index (Function.update chain i (l ++ r)) (data ++ [d]) t' := by
  have hchains := h.linked_replace_tail hi hl hlinked hframe fun p hp => (hnew p hp).1
  refine ⟨fun j hj => (hchains j hj).1, ?_, ?_, ?_, fun j hj k hk p hp hp' => ?_,
    fun j hj => (hchains j hj).2, h.holds_replace_tail hi hl hd hpairs, hvalid, hunused⟩
  · refine (Function.forall_update_iff chain (p := fun j c => j < m →
      ∀ y ∈ c, FilledPrefix Sentinel y.2.keys)).mpr ⟨fun _ y hy => ?_, fun j _ => h.prefixes j⟩
    rcases List.mem_append.mp hy with hy | hy
    · exact h.prefixes i hi y (by rw [hl]; exact List.mem_append_left _ hy)
    · exact hprefixes y hy
  · refine (Function.forall_update_iff chain (p := fun j c => j < m →
      ∀ y ∈ c.dropLast, Full Sentinel y.2.keys)).mpr ⟨fun _ y hy => ?_, fun j _ => h.full j⟩
    rw [List.dropLast_append_of_ne_nil hr] at hy
    rcases List.mem_append.mp hy with hy | hy
    · exact h.full i hi y (by rw [hl, List.dropLast_concat]; exact hy)
    · exact hfull y hy
  · refine (Function.forall_update_iff chain (p := fun j c => j < m →
      ∀ y ∈ c.tail, y.2.entries Sentinel ≠ [])).mpr ⟨fun _ y hy => ?_, fun j _ => h.nonempty j⟩
    cases l with
    | nil => exact hnonempty y (List.mem_of_mem_tail hy)
    | cons z l =>
      rcases List.mem_append.mp hy with hy | hy
      · exact h.nonempty i hi y (by rw [hl]; exact List.mem_append_left _ hy)
      · exact hnonempty y hy
  · exact h.disjoint_replace_tail hl (fun q hq => (hnew q hq).2) hj hk hp hp'

end ReplaceTail

end Built

end ChainedTable
end HashingBenchmark

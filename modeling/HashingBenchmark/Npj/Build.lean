import HashingBenchmark.Lib.ChunkList
import HashingBenchmark.Lib.Linked
import HashingBenchmark.Npj.Table
import Mathlib.Data.Nat.SuccPred
import Mathlib.Logic.Function.Basic

/-! The invariant of the build, kept by every critical section of every thread.

    `Holds` says where the chains are: `chain i` is the linked list from directory bucket `i`, no
    bucket is in two of them, and every overflow bucket in one of them has been handed out by its
    thread's buffers. What the buckets of chain `i` store is the layout in chunks of the tuples
    inserted so far with index `i`, in the order of the critical sections, whichever threads they
    were in. A critical section changes one bucket of one chain (`Holds.put`) or puts a new one
    behind the head (`Holds.splice`), and both are what adding an element to that layout does. -/

namespace HashingBenchmark
namespace Npj
open ChunkList

variable {α : Type} {BUCKET_SIZE T m : ℕ}

namespace Bucket

/-- The tuples in the first `count` slots. -/
def stored (b : Bucket α BUCKET_SIZE T m) : List α := (List.ofFn b.tuples).take b.count

theorem length_stored {b : Bucket α BUCKET_SIZE T m} (h : b.count ≤ BUCKET_SIZE) :
    b.stored.length = b.count := by
  rw [stored, List.length_take, List.length_ofFn, Nat.min_eq_left h]

theorem stored_write (b : Bucket α BUCKET_SIZE T m) (h : b.count < BUCKET_SIZE) (tuple : α)
    (next : Option (Ptr T m)) :
    stored ⟨b.count + 1, next, Function.update b.tuples ⟨b.count, h⟩ tuple⟩
      = b.stored ++ [tuple] := by
  have hlen : b.stored.length = b.count := length_stored h.le
  refine List.ext_getElem ?_ fun i hi hi' => ?_
  · rw [List.length_append, hlen, stored, List.length_take, List.length_ofFn]
    exact Nat.min_eq_left h
  · have hle : i < b.count + 1 := by rw [List.length_append, hlen] at hi'; exact hi'
    rw [List.getElem_append]
    simp only [stored, List.getElem_take, List.getElem_ofFn]
    rcases Nat.lt_succ_iff_lt_or_eq.mp hle with hlt | rfl
    · have hne : (⟨i, hlt.trans h⟩ : Fin BUCKET_SIZE) ≠ ⟨b.count, h⟩ := fun heq =>
        hlt.ne (Fin.mk.inj heq)
      have hin : ¬ BUCKET_SIZE ≤ i := Nat.not_le.mpr (hlt.trans h)
      rw [Function.update_of_ne hne]
      simp [hlt, hin]
    · simp

theorem stored_new [NeZero BUCKET_SIZE] (tuples : Fin BUCKET_SIZE → α) (tuple : α)
    (next : Option (Ptr T m)) :
    stored ⟨1, next, Function.update tuples 0 tuple⟩ = [tuple] := by
  have hpos : 0 < BUCKET_SIZE := NeZero.pos BUCKET_SIZE
  have h := stored_write (⟨0, next, tuples⟩ : Bucket α BUCKET_SIZE T m) hpos tuple next
  simpa [stored] using h

end Bucket

namespace State
variable {OVERFLOW_BUF_SIZE : ℕ}

/-! ### Pointers -/

/-- A bucket of the directory, or one that its thread has taken from its buffers. -/
def Handed (s : State α BUCKET_SIZE T m) : Ptr T m → Prop
  | .directory _ => True
  | .overflow tid buffer offset =>
    buffer < s.buffer tid ∨ buffer = s.buffer tid ∧ offset < s.count tid

theorem handed_store (s : State α BUCKET_SIZE T m) (p : Ptr T m) (b : Bucket α BUCKET_SIZE T m)
    (q : Ptr T m) : (s.store p b).Handed q ↔ s.Handed q := by
  cases q <;> rfl

theorem load_store {s : State α BUCKET_SIZE T m} {p : Ptr T m}
    (hp : (s.load OVERFLOW_BUF_SIZE p).isSome) (b : Bucket α BUCKET_SIZE T m) (q : Ptr T m) :
    (s.store p b).load OVERFLOW_BUF_SIZE q
      = if q = p then some b else s.load OVERFLOW_BUF_SIZE q := by
  split_ifs with hqp
  · subst hqp
    cases q with
    | directory i => simp [load, store]
    | overflow tid buffer offset =>
      rw [load] at hp ⊢
      split_ifs at hp with hvalid
      · simp [store, hvalid]
      · cases hp
  · cases q with
    | directory i => simp [load, store, hqp]
    | overflow tid buffer offset => simp [load, store, hqp]

theorem mem_pointers {s : State α BUCKET_SIZE T m} {p : Ptr T m} :
    p ∈ s.pointers OVERFLOW_BUF_SIZE ↔ (s.load OVERFLOW_BUF_SIZE p).isSome := by
  cases p with
  | directory i => simp [pointers, load]
  | overflow tid buffer offset => simp [pointers, load]

/-- What `get_new_bucket` returns: a bucket that was in nobody's hands. -/
theorem getNewBucket_spec (hsize : 0 < OVERFLOW_BUF_SIZE) (s : State α BUCKET_SIZE T m)
    (tid : Fin T) :
    let (b, s') := s.getNewBucket OVERFLOW_BUF_SIZE tid
    ¬ s.Handed b ∧ (∀ p, p = b ∨ s.Handed p → s'.Handed p) ∧
      s'.load OVERFLOW_BUF_SIZE b = some (s.memory b) ∧
      (∀ p n, s.load OVERFLOW_BUF_SIZE p = some n → s'.load OVERFLOW_BUF_SIZE p = some n) ∧
      s'.pos = s.pos := by
  rw [getNewBucket]
  split_ifs with hroom
  · refine ⟨by simp [Handed], fun p hp => ?_, by simp [load, hroom], fun p n hload => ?_, rfl⟩
    · cases p with
      | directory i => trivial
      | overflow t buffer offset =>
        simp only [Handed, Ptr.overflow.injEq, Function.update_apply] at hp ⊢
        split_ifs with ht
        · subst ht; omega
        · omega
    · cases p with
      | directory i => exact hload
      | overflow t buffer offset => exact hload
  · refine ⟨by simp [Handed], fun p hp => ?_, by simp [load, hsize], fun p n hload => ?_, rfl⟩
    · cases p with
      | directory i => trivial
      | overflow t buffer offset =>
        simp only [Handed, Ptr.overflow.injEq, Function.update_apply] at hp ⊢
        split_ifs with ht
        · subst ht; omega
        · omega
    · cases p with
      | directory i => exact hload
      | overflow t buffer offset =>
        simp only [load, Function.update_apply] at hload ⊢
        split_ifs at hload with hvalid
        have hle : buffer ≤ if t = tid then s.buffer tid + 1 else s.buffer t := by
          split_ifs with ht
          · subst ht; exact hvalid.1.trans (Nat.le_succ _)
          · exact hvalid.1
        rw [if_pos ⟨hle, hvalid.2⟩]
        exact hload

/-- What `splice` does to a bucket of the directory: it stays in front of a bucket that was in nobody's
    hands, and the other buckets are what they were. -/
theorem splice_spec [NeZero BUCKET_SIZE] (hsize : 0 < OVERFLOW_BUF_SIZE) (s : State α BUCKET_SIZE T m)
    (tid : Fin T) (i : Fin m) (head : Bucket α BUCKET_SIZE T m) (tuple : α) :
    ∃ b s', s.splice OVERFLOW_BUF_SIZE tid (.directory i) head tuple = .returned s' ∧
      s'.pos = s.pos ∧ ¬ s.Handed b ∧ (∀ p, p = b ∨ s.Handed p → s'.Handed p) ∧
      s'.load OVERFLOW_BUF_SIZE (.directory i) = some { head with next := some b } ∧
      s'.load OVERFLOW_BUF_SIZE b
        = some ⟨1, head.next, Function.update (s.memory b).tuples 0 tuple⟩ ∧
      ∀ q n, q ≠ b → q ≠ .directory i → s.load OVERFLOW_BUF_SIZE q = some n →
        s'.load OVERFLOW_BUF_SIZE q = some n := by
  rcases hnew : s.getNewBucket OVERFLOW_BUF_SIZE tid with ⟨b, s₁⟩
  have hspec := getNewBucket_spec hsize s tid
  rw [hnew] at hspec
  obtain ⟨hfresh, hhanded, hload, hmono, hpos⟩ := hspec
  let head' : Bucket α BUCKET_SIZE T m := { head with next := some b }
  let b' : Bucket α BUCKET_SIZE T m := ⟨1, head.next, Function.update (s.memory b).tuples 0 tuple⟩
  have hdir : (s₁.load OVERFLOW_BUF_SIZE (.directory i)).isSome := rfl
  have hbdir : b ≠ .directory i := by rintro rfl; exact hfresh trivial
  have hsome : ((s₁.store (.directory i) head').load OVERFLOW_BUF_SIZE b).isSome := by
    rw [load_store hdir, if_neg hbdir, hload]; rfl
  have hload' : ∀ q, ((s₁.store (.directory i) head').store b b').load OVERFLOW_BUF_SIZE q
      = if q = b then some b' else if q = .directory i then some head'
        else s₁.load OVERFLOW_BUF_SIZE q := fun q => by rw [load_store hsome, load_store hdir]
  refine ⟨b, (s₁.store (.directory i) head').store b b',
    by rw [State.splice, hnew]; simp only [hload]; rfl, hpos, hfresh, fun p hp => ?_, ?_, ?_,
    fun q n hqb hqi hq => ?_⟩
  · rw [handed_store, handed_store]; exact hhanded p hp
  · rw [hload', if_neg hbdir.symm, if_pos rfl]
  · rw [hload', if_pos rfl]
  · rw [hload', if_neg hqb, if_neg hqi]; exact hmono q n hq

/-! ### The invariant -/

/-- The chains `chain` of the table hold the tuples `log`, in the order of their inserts. -/
structure Holds (OVERFLOW_BUF_SIZE : ℕ) (zero : α) (index : α → Fin m)
    (chain : Fin m → List (Ptr T m × Bucket α BUCKET_SIZE T m)) (log : List α)
    (s : State α BUCKET_SIZE T m) : Prop where
  linked : ∀ i, Linked (s.load OVERFLOW_BUF_SIZE) Bucket.next (some (.directory i)) (chain i)
  disjoint : ∀ i j p, p ∈ Linked.addresses (chain i) → p ∈ Linked.addresses (chain j) → i = j
  handed : ∀ i, ∀ p ∈ Linked.addresses (chain i), s.Handed p
  count_le : ∀ i, ∀ x ∈ chain i, x.2.count ≤ BUCKET_SIZE
  zeroed : ∀ i, ∀ x ∈ chain i, x.2.count = 0 → x.2.tuples = fun _ => zero
  holds : ∀ i, (chain i).map (fun x => x.2.stored)
    = layout BUCKET_SIZE (log.filter fun a => index a = i)

theorem holds_init (index : α → Fin m) (zero : α) (malloc : Ptr T m → Bucket α BUCKET_SIZE T m) :
    Holds OVERFLOW_BUF_SIZE zero index (fun i => [(.directory i, ⟨0, none, fun _ => zero⟩)]) []
      (init zero malloc) := by
  refine ⟨fun i => ⟨rfl, rfl, rfl⟩, fun i j p hi hj => ?_, fun i p hp => ?_, fun i x hx => ?_,
    fun i x hx _ => ?_, fun i => rfl⟩
  · have h := (List.mem_singleton.mp hi).symm.trans (List.mem_singleton.mp hj)
    exact Ptr.directory.inj h
  · rw [List.mem_singleton.mp hp]; trivial
  · rw [List.mem_singleton.mp hx]; exact Nat.zero_le _
  · rw [List.mem_singleton.mp hx]

namespace Holds
variable {zero : α} {index : α → Fin m}
  {chain : Fin m → List (Ptr T m × Bucket α BUCKET_SIZE T m)}
  {log : List α} {s : State α BUCKET_SIZE T m}

/-- Replacing one chain by one with a tuple more. -/
theorem update (h : Holds OVERFLOW_BUF_SIZE zero index chain log s) {tuple : α} {i : Fin m}
    (hi : index tuple = i) {c : List (Ptr T m × Bucket α BUCKET_SIZE T m)}
    {s' : State α BUCKET_SIZE T m}
    (hlinked : Linked (s'.load OVERFLOW_BUF_SIZE) Bucket.next (some (.directory i)) c)
    (hframe : ∀ j, j ≠ i → ∀ p ∈ Linked.addresses (chain j),
      s'.load OVERFLOW_BUF_SIZE p = s.load OVERFLOW_BUF_SIZE p)
    (hmono : ∀ p, s.Handed p → s'.Handed p)
    (haddr : ∀ p ∈ Linked.addresses c,
      p ∈ Linked.addresses (chain i) ∨ (s'.Handed p ∧ ¬ s.Handed p))
    (hcount : ∀ x ∈ c, x.2.count ≤ BUCKET_SIZE)
    (hzeroed : ∀ x ∈ c, x.2.count = 0 → x.2.tuples = fun _ => zero)
    (hstored : c.map (fun x => x.2.stored)
      = place BUCKET_SIZE tuple ((chain i).map fun x => x.2.stored)) :
    Holds OVERFLOW_BUF_SIZE zero index (Function.update chain i c) (log ++ [tuple]) s' := by
  -- a bucket of a new chain was in the same old chain, or in nobody's hands
  have hmem : ∀ j, ∀ p ∈ Linked.addresses (Function.update chain i c j),
      p ∈ Linked.addresses (chain j) ∨ (j = i ∧ s'.Handed p ∧ ¬ s.Handed p) := by
    intro j p hp
    rcases eq_or_ne j i with rfl | hji
    · rw [Function.update_self] at hp
      exact (haddr p hp).imp_right fun hfresh => ⟨rfl, hfresh⟩
    · rw [Function.update_of_ne hji] at hp
      exact Or.inl hp
  refine ⟨?_, fun j k p hp hp' => ?_, fun j p hp => ?_, ?_, ?_, ?_⟩
  · refine (Function.forall_update_iff chain (p := fun j c =>
      Linked (s'.load OVERFLOW_BUF_SIZE) Bucket.next (some (.directory j)) c)).mpr
        ⟨hlinked, fun j hji => ?_⟩
    exact (h.linked j).frame (hframe j hji)
  · rcases hmem j p hp with hj | ⟨rfl, -, hfresh⟩
    · rcases hmem k p hp' with hk | ⟨rfl, -, hfresh⟩
      · exact h.disjoint j k p hj hk
      · exact absurd (h.handed j p hj) hfresh
    · rcases hmem k p hp' with hk | ⟨rfl, -, -⟩
      · exact absurd (h.handed k p hk) hfresh
      · rfl
  · rcases hmem j p hp with hj | ⟨-, hnew, -⟩
    · exact hmono p (h.handed j p hj)
    · exact hnew
  · exact (Function.forall_update_iff chain (p := fun _ c =>
      ∀ x ∈ c, x.2.count ≤ BUCKET_SIZE)).mpr ⟨hcount, fun j _ => h.count_le j⟩
  · exact (Function.forall_update_iff chain (p := fun _ c =>
      ∀ x ∈ c, x.2.count = 0 → x.2.tuples = fun _ => zero)).mpr ⟨hzeroed, fun j _ => h.zeroed j⟩
  · refine (Function.forall_update_iff chain (p := fun j c => c.map (fun x => x.2.stored)
      = layout BUCKET_SIZE ((log ++ [tuple]).filter fun a => index a = j))).mpr
        ⟨?_, fun j hji => ?_⟩
    · rw [hstored, h.holds i, List.filter_append, ← layout_snoc]
      simp [hi]
    · have hj : index tuple ≠ j := by rw [hi]; exact hji.symm
      rw [h.holds j, List.filter_append]
      simp [hj]

/-- A tuple more in a bucket with room. -/
theorem put (h : Holds OVERFLOW_BUF_SIZE zero index chain log s) {tuple : α} {i : Fin m}
    (hi : index tuple = i) {l r : List (Ptr T m × Bucket α BUCKET_SIZE T m)} {p : Ptr T m}
    {b : Bucket α BUCKET_SIZE T m} (hchain : chain i = l ++ (p, b) :: r)
    (hroom : b.count < BUCKET_SIZE)
    (hplace : place BUCKET_SIZE tuple ((chain i).map fun x => x.2.stored)
      = l.map (fun x => x.2.stored) ++ (b.stored ++ [tuple]) :: r.map fun x => x.2.stored) :
    ∃ s', s.put p b tuple = .returned s' ∧ s'.pos = s.pos ∧
      ∃ chain', Holds OVERFLOW_BUF_SIZE zero index chain' (log ++ [tuple]) s' := by
  let b' : Bucket α BUCKET_SIZE T m :=
    { b with count := b.count + 1, tuples := Function.update b.tuples ⟨b.count, hroom⟩ tuple }
  have hvalid : s.load OVERFLOW_BUF_SIZE p = some b :=
    (h.linked i).load_eq (x := (p, b)) (by simp [hchain])
  have hsome : (s.load OVERFLOW_BUF_SIZE p).isSome := Option.isSome_of_eq_some hvalid
  have hlinked := h.linked i
  have hcount := h.count_le i
  have hzeroed := h.zeroed i
  rw [hchain] at hlinked hcount hzeroed
  rw [List.forall_mem_append, List.forall_mem_cons] at hcount hzeroed
  refine ⟨s.store p b', by rw [State.put, dif_pos hroom], rfl,
    Function.update chain i (l ++ (p, b') :: r), h.update hi ?_ ?_ (fun q hq => ?_) ?_ ?_ ?_ ?_⟩
  · refine hlinked.replace_node ?_ rfl fun q hq => ?_
    · rw [load_store hsome, if_pos rfl]
    · rw [load_store hsome, if_neg hq]
  · rintro j hji q hq
    have hqp : q ≠ p := by
      rintro rfl
      exact hji (h.disjoint j i q hq (by simp [hchain]))
    rw [load_store hsome, if_neg hqp]
  · rw [handed_store]; exact hq
  · intro q hq
    left
    rw [hchain]
    simpa using hq
  · exact List.forall_mem_append.mpr ⟨hcount.1, List.forall_mem_cons.mpr ⟨hroom, hcount.2.2⟩⟩
  · exact List.forall_mem_append.mpr ⟨hzeroed.1,
      List.forall_mem_cons.mpr ⟨fun hzero => absurd hzero (Nat.succ_ne_zero _), hzeroed.2.2⟩⟩
  · rw [hplace, List.map_append, List.map_cons, Bucket.stored_write b hroom]

/-- A new bucket with the tuple behind the head of a chain. -/
theorem splice [NeZero BUCKET_SIZE] (hsize : 0 < OVERFLOW_BUF_SIZE)
    (h : Holds OVERFLOW_BUF_SIZE zero index chain log s) (tid : Fin T) {tuple : α} {i : Fin m}
    (hi : index tuple = i) {head : Bucket α BUCKET_SIZE T m}
    {r : List (Ptr T m × Bucket α BUCKET_SIZE T m)}
    (hchain : chain i = (.directory i, head) :: r)
    (hplace : place BUCKET_SIZE tuple ((chain i).map fun x => x.2.stored)
      = head.stored :: [tuple] :: r.map fun x => x.2.stored) :
    ∃ s', s.splice OVERFLOW_BUF_SIZE tid (.directory i) head tuple = .returned s' ∧
      s'.pos = s.pos ∧ ∃ chain', Holds OVERFLOW_BUF_SIZE zero index chain' (log ++ [tuple]) s' := by
  obtain ⟨b, s', hsplice, hpos, hfresh, hhanded, hheadLoad, hnewLoad, hold⟩ :=
    splice_spec hsize s tid i head tuple
  -- buckets of the chains are neither the new one nor, but for this chain, its head
  have hkeep : ∀ j, ∀ x ∈ chain j, x.1 ≠ .directory i →
      s'.load OVERFLOW_BUF_SIZE x.1 = s.load OVERFLOW_BUF_SIZE x.1 := by
    intro j x hx hxi
    have hxb : x.1 ≠ b := fun heq => hfresh (heq ▸ h.handed j x.1 (List.mem_map_of_mem hx))
    have hxload := (h.linked j).load_eq hx
    rw [hxload]
    exact hold _ _ hxb hxi hxload
  have hlinked := h.linked i
  have hcount := h.count_le i
  have hzeroed := h.zeroed i
  have hnodup := hlinked.nodup
  rw [hchain] at hlinked hcount hzeroed hnodup
  rw [List.forall_mem_cons] at hcount hzeroed
  obtain ⟨-, -, hrest⟩ := hlinked
  refine ⟨s', hsplice, hpos, Function.update chain i ((.directory i, { head with next := some b }) ::
    (b, ⟨1, head.next, Function.update (s.memory b).tuples 0 tuple⟩) :: r),
    h.update hi ⟨rfl, hheadLoad, rfl, hnewLoad, ?_⟩ ?_ (fun q hq => hhanded q (Or.inr hq)) ?_ ?_ ?_ ?_⟩
  · refine hrest.frame fun q hq => ?_
    obtain ⟨x, hx, rfl⟩ := List.mem_map.mp hq
    refine hkeep i x (by rw [hchain]; exact List.mem_cons_of_mem _ hx) fun heq => ?_
    rw [heq] at hq
    exact (List.nodup_cons.mp hnodup).1 hq
  · rintro j hji q hq
    obtain ⟨x, hx, rfl⟩ := List.mem_map.mp hq
    refine hkeep j x hx fun heq => hji (h.disjoint j i x.1 hq ?_)
    rw [heq, hchain]; exact List.mem_cons_self
  · intro q hq
    rw [hchain]
    rcases List.mem_cons.mp hq with rfl | hq
    · exact Or.inl List.mem_cons_self
    rcases List.mem_cons.mp hq with rfl | hq
    · exact Or.inr ⟨hhanded _ (Or.inl rfl), hfresh⟩
    · exact Or.inl (List.mem_cons_of_mem _ hq)
  · exact List.forall_mem_cons.mpr ⟨hcount.1,
      List.forall_mem_cons.mpr ⟨NeZero.pos BUCKET_SIZE, hcount.2⟩⟩
  · exact List.forall_mem_cons.mpr ⟨hzeroed.1,
      List.forall_mem_cons.mpr ⟨fun hzero => absurd hzero Nat.one_ne_zero, hzeroed.2⟩⟩
  · rw [hplace, List.map_cons, List.map_cons, Bucket.stored_new]
    rfl

/-- A critical section inserts its tuple. -/
theorem insert [NeZero BUCKET_SIZE] (hsize : 0 < OVERFLOW_BUF_SIZE)
    (h : Holds OVERFLOW_BUF_SIZE zero index chain log s) (tid : Fin T) (tuple : α) :
    ∃ s', s.insert OVERFLOW_BUF_SIZE tid (index tuple) tuple = .returned s' ∧ s'.pos = s.pos ∧
      ∃ chain', Holds OVERFLOW_BUF_SIZE zero index chain' (log ++ [tuple]) s' := by
  obtain ⟨i, hi⟩ : ∃ i, index tuple = i := ⟨_, rfl⟩
  have hlinked := h.linked i
  have hcount := h.count_le i
  have hholds := h.holds i
  rw [hi]
  rcases layout_cases (NeZero.pos BUCKET_SIZE) (log.filter fun a => index a = i) with
    ⟨hle, hl⟩ | ⟨hd, f, r, hl, hhd, hpos, hf, hr, -⟩
  · -- the chain is the directory bucket alone
    rw [hl] at hholds
    obtain ⟨⟨p, head⟩, hchain, hstored⟩ := List.map_eq_singleton_iff.mp hholds
    rw [hchain] at hlinked hcount
    obtain ⟨hp, hload, hnil⟩ := hlinked
    obtain rfl := Option.some.inj hp
    have hhead : s.memory (.directory i) = head := Option.some.inj hload
    have hnext : head.next = none := hnil
    have hlen := Bucket.length_stored (hcount _ List.mem_cons_self)
    have hplace := h.holds i
    rw [State.insert]
    simp only [hhead]
    by_cases hfull : head.count = BUCKET_SIZE
    · simp only [if_pos hfull, hnext]
      refine h.splice hsize tid hi hchain ?_
      rw [hchain, List.map_singleton, place, if_pos (hlen.trans hfull)]; rfl
    · simp only [if_neg hfull]
      have hroom := lt_of_le_of_ne (hcount _ List.mem_cons_self) hfull
      refine h.put (l := []) hi hchain hroom ?_
      rw [hchain, List.map_singleton, place, if_neg fun heq => hfull (hlen.symm.trans heq)]; rfl
  · -- the directory bucket is full, and there is a bucket behind it
    rw [hl] at hholds
    obtain ⟨⟨p, head⟩, l, hchain, hstored, hholds⟩ := List.map_eq_cons_iff.mp hholds
    obtain ⟨⟨nxt, b⟩, rest, rfl, hstored', hholds⟩ := List.map_eq_cons_iff.mp hholds
    rw [hchain] at hlinked hcount
    obtain ⟨hp, hload, hnext, hload', -⟩ := hlinked
    obtain rfl := Option.some.inj hp
    have hhead : s.memory (.directory i) = head := Option.some.inj hload
    have hnext : head.next = some nxt := hnext
    have hcountb : b.count ≤ BUCKET_SIZE := hcount _ (List.mem_cons_of_mem _ List.mem_cons_self)
    have hfull : head.count = BUCKET_SIZE := by
      rw [← Bucket.length_stored (hcount _ List.mem_cons_self), hstored, hhd]
    have hlen : head.stored.length = BUCKET_SIZE := by rw [hstored, hhd]
    have hlenb := Bucket.length_stored hcountb
    rw [State.insert]
    simp only [hhead, if_pos hfull, hnext, hload']
    by_cases hfullb : b.count = BUCKET_SIZE
    · simp only [if_pos hfullb]
      refine h.splice hsize tid hi hchain ?_
      rw [hchain, List.map_cons, List.map_cons, place, if_pos hlen, if_pos (hlenb.trans hfullb)]
    · simp only [if_neg hfullb]
      have hroom := lt_of_le_of_ne hcountb hfullb
      refine h.put (l := [(.directory i, head)]) hi hchain hroom ?_
      rw [hchain, List.map_cons, List.map_cons, place, if_pos hlen,
        if_neg fun heq => hfullb (hlenb.symm.trans heq)]
      rfl

end Holds
end State
end Npj
end HashingBenchmark

import HashingBenchmark.Cuckoo.Correct
import Mathlib.Data.List.Induction
import Mathlib.Data.Stream.Init

/-! What a cuckoo insert that fails leaves behind.

    An insert that finds its key nowhere goes through rounds: a full candidate bucket takes in the
    pair in flight and gives out a victim (`Evicts`). A call throws exactly if it has a path of
    50001 such rounds (`insertLoop_threw_iff`). Along the path the table and the pair in flight
    together are the map the call was to make, the table alone is that map without the pair in
    flight (`InFlight`). At the throw this pair is dropped. If it is the pair of the call, the
    table holds what it held before, and otherwise it is an earlier entry, which is lost.

    Which pair it is depends on the candidate buckets of each victim on the way. Where all keys in
    the two buckets of a call have the same two buckets (`Crowded`), every victim comes out of a slot
    that its random number alone selects, and a call that throws only moves its own pair into the
    slot of one number and out of it at the next number with this slot (`follow`). -/

namespace HashingBenchmark
open SlotArray Cuckoo

namespace CuckooTable
variable {Key Payload : Type} [DecidableEq Key] {BucketSize m : ℕ}

omit [DecidableEq Key] in
/-- A table is its slots and its random numbers. -/
theorem ext_slots {t t' : CuckooTable Key Payload BucketSize m} (hslots : t.slots = t'.slots)
    (hrand : t.rand_ = t'.rand_) : t = t' := by
  obtain ⟨buckets, rand⟩ := t
  obtain ⟨buckets', rand'⟩ := t'
  obtain rfl : rand = rand' := hrand
  suffices hbuckets : buckets = buckets' by rw [hbuckets]
  funext b
  have hslot : ∀ i, (buckets b).slots i = (buckets' b).slots i := fun i => by
    have heq := Prod.mk.inj (congrFun hslots (b, i))
    exact Slot.mk.injEq .. ▸ heq
  exact congrArg Bucket.mk (funext hslot)

/-- The variable `payload` in the slot loop of `lookup` on one bucket. -/
def probePayload (t : CuckooTable Key Payload BucketSize m) (b : Fin m) (key : Key) :
    Option Payload :=
  Fin.findSome? fun i =>
    if ((t.buckets b).slots i).key = key then some ((t.buckets b).slots i).payload else none

theorem probePayload_cases (t : CuckooTable Key Payload BucketSize m) (b : Fin m) (key : Key) :
    (∃ i, t.keys b i = key ∧ t.probePayload b key = some (t.slots (b, i)).2) ∨
    (t.probePayload b key = none ∧ ∀ i, t.keys b i ≠ key) := by
  cases hprobe : t.probePayload b key with
  | some r =>
    obtain ⟨i, hi, -⟩ := Fin.findSome?_eq_some_iff.mp hprobe
    split_ifs at hi with hk
    exact Or.inl ⟨i, hk, hi.symm⟩
  | none =>
    have hnone := Fin.findSome?_eq_none_iff.mp hprobe
    refine Or.inr ⟨rfl, fun i hi => ?_⟩
    have := hnone i
    rw [if_pos (show ((t.buckets b).slots i).key = key from hi)] at this
    cases this

variable [NeZero m]

/-- The payload that `lookup` reads before it returns 1. -/
def lookupPayload (primary secondary : Key → UInt64) (t : CuckooTable Key Payload BucketSize m)
    (key : Key) : Option Payload :=
  match t.probePayload (i1 primary m key) key with
  | some v => some v
  | none => t.probePayload (i2 primary secondary m key) key

/-- `lookup` finds the key, with the payload `v`. -/
def Finds (primary secondary : Key → UInt64) (t : CuckooTable Key Payload BucketSize m) (q : Key)
    (v : Payload) : Prop :=
  t.lookup primary secondary q = 1 ∧ t.lookupPayload primary secondary q = some v

variable {primary secondary : Key → UInt64} {Sentinel : Key}

theorem Placed.lookupPayload_eq {M : Key → Option Payload}
    {t : CuckooTable Key Payload BucketSize m} (h : Placed primary secondary Sentinel M t) {q : Key}
    (hq : q ≠ Sentinel) : t.lookupPayload primary secondary q = M q := by
  have hread : ∀ b i, t.keys b i = q → M q = some (t.slots (b, i)).2 := by
    rintro b i rfl
    exact h.represents.lookup (i := (b, i)) hq
  rw [lookupPayload]
  rcases t.probePayload_cases (i1 primary m q) q with ⟨i, hi, hprobe⟩ | ⟨hprobe, hnot⟩
  · rw [hprobe, hread _ i hi]
  · rw [hprobe]
    rcases t.probePayload_cases (i2 primary secondary m q) q with ⟨i, hi, hprobe'⟩ | ⟨hprobe', hnot'⟩
    · rw [hread _ i hi]; exact hprobe'
    · rw [h.eq_none hq]
      · exact hprobe'
      · rintro b i (rfl | rfl)
        · exact hnot i
        · exact hnot' i

theorem Placed.finds_iff {M : Key → Option Payload} {t : CuckooTable Key Payload BucketSize m}
    (h : Placed primary secondary Sentinel M t) {q : Key} (hq : q ≠ Sentinel) {v : Payload} :
    t.Finds primary secondary q v ↔ M q = some v := by
  rw [Finds, h.lookup_eq_one_iff hq, h.lookupPayload_eq hq]
  exact ⟨fun hv => hv.2, fun hv => ⟨by rw [hv]; rfl, hv⟩⟩

/-! ### The eviction path -/

variable [NeZero BucketSize] {kickingfn : KickingFn}

omit [DecidableEq Key] [NeZero m] in
theorem kickRandom_first {first : UInt32 → Bool} {t : CuckooTable Key Payload BucketSize m}
    (b1 b2 : Fin m) {key : Key} {payload : Payload} (h : first t.rand_.head = true) :
    t.kickRandom b1 b2 first key payload
      = (some (t.slots (b1, Fin.ofNat BucketSize t.rand_.head.toNat)),
        { t.write b1 (Fin.ofNat BucketSize t.rand_.head.toNat) key payload with
          rand_ := t.rand_.tail }) := by
  simp only [kickRandom, h, if_true]
  rfl

/-- A round of the loop in which the pair `x` takes the slot of the pair `y`. -/
def Evicts (kickingfn : KickingFn) (primary secondary : Key → UInt64) (Sentinel : Key)
    (x : Key × Payload) (t : CuckooTable Key Payload BucketSize m) (y : Key × Payload)
    (t' : CuckooTable Key Payload BucketSize m) : Prop :=
  t.findKey (i1 primary m x.1) (i2 primary secondary m x.1) x.1 = none ∧
    t.kick kickingfn Sentinel (i1 primary m x.1) (i2 primary secondary m x.1) x.1 x.2 = (some y, t')

/-- `n` rounds of this kind, one after the other. -/
def EvictionPath (kickingfn : KickingFn) (primary secondary : Key → UInt64) (Sentinel : Key) :
    ℕ → Key × Payload → CuckooTable Key Payload BucketSize m → Key × Payload →
      CuckooTable Key Payload BucketSize m → Prop
  | 0, x, t, y, t' => x = y ∧ t = t'
  | n + 1, x, t, y, t' => ∃ z u, Evicts kickingfn primary secondary Sentinel x t z u ∧
      EvictionPath kickingfn primary secondary Sentinel n z u y t'

/-- The loop throws exactly at the end of a path as long as its budget. -/
theorem insertLoop_threw_iff {n : ℕ} {x : Key × Payload}
    {t t' : CuckooTable Key Payload BucketSize m} :
    (∃ e, insertLoop kickingfn primary secondary Sentinel n x.1 x.2 t = .threw e t') ↔
      ∃ y, EvictionPath kickingfn primary secondary Sentinel n x t y t' := by
  induction n generalizing x t with
  | zero =>
    constructor
    · rintro ⟨e, h⟩
      rw [insertLoop, Outcome.threw.injEq] at h
      exact ⟨x, rfl, h.2⟩
    · rintro ⟨y, -, rfl⟩
      exact ⟨_, rfl⟩
  | succ n ih =>
    rw [insertLoop]
    cases hfind : t.findKey (i1 primary m x.1) (i2 primary secondary m x.1) x.1 with
    | some p =>
      refine iff_of_false ?_ ?_
      · rintro ⟨e, h⟩
        cases h
      · rintro ⟨y, z, u, ⟨hnone, -⟩, -⟩
        rw [hfind] at hnone; cases hnone
    | none =>
      rcases hkick : t.kick kickingfn Sentinel (i1 primary m x.1) (i2 primary secondary m x.1)
        x.1 x.2 with ⟨_ | z, u⟩
      · refine iff_of_false ?_ ?_
        · rintro ⟨e, h⟩
          cases h
        · rintro ⟨y, z', u', ⟨-, hkick'⟩, -⟩
          rw [hkick] at hkick'; cases hkick'
      · refine ih.trans ⟨?_, ?_⟩
        · rintro ⟨y, hy⟩
          exact ⟨y, z, u, ⟨hfind, hkick⟩, hy⟩
        · rintro ⟨y, z', u', ⟨-, hkick'⟩, hy⟩
          rw [hkick] at hkick'
          obtain ⟨rfl, rfl⟩ : z = z' ∧ u = u' := by simpa using hkick'
          exact ⟨y, hy⟩

/-- The table and the pair `x` in flight are the map `T`, the table alone is `T` without `x`. -/
structure InFlight (primary secondary : Key → UInt64) (Sentinel : Key) (T : Key → Option Payload)
    (x : Key × Payload) (t : CuckooTable Key Payload BucketSize m) : Prop where
  key_ne : x.1 ≠ Sentinel
  held : T x.1 = some x.2
  placed : Placed primary secondary Sentinel (Function.update T x.1 none) t

/-- Step lemma: a round hands the role of the pair in flight to the victim. -/
theorem InFlight.evicts {T : Key → Option Payload} {x y : Key × Payload}
    {t t' : CuckooTable Key Payload BucketSize m}
    (h : InFlight primary secondary Sentinel T x t)
    (hstep : Evicts kickingfn primary secondary Sentinel x t y t') :
    InFlight primary secondary Sentinel T y t' := by
  obtain ⟨-, hkick⟩ := hstep
  have hM : Function.update T x.1 none x.1 = none := Function.update_self ..
  rcases t.kick_cases kickingfn x.1 x.2 (i1 primary m x.1) (i2 primary secondary m x.1) with
    ⟨b, i, -, -, hnone⟩ | ⟨b, i, rand', hb, hfull, hsome⟩
  · rw [hnone] at hkick; cases hkick
  · rw [hsome] at hkick
    obtain ⟨rfl, rfl⟩ : t.slots (b, i) = y ∧ _ = t' := by simpa using hkick
    have hvictim : t.keys b i ≠ Sentinel := hfull i
    obtain ⟨hMv, hne⟩ := victim_held h.placed.represents hM hvictim
    have hT : T (t.keys b i) = some (t.slots (b, i)).2 := by rwa [Function.update_of_ne hne] at hMv
    refine ⟨hvictim, hT, ?_⟩
    have hmap : Function.update (Function.update (Function.update T x.1 none) (t.keys b i) none) x.1
        (some x.2) = Function.update T (t.keys b i) none := by
      have hheld : Function.update T (t.keys b i) none x.1 = some x.2 := by
        rw [Function.update_of_ne hne.symm, h.held]
      rw [Function.update_comm hne.symm, Function.update_idem, ← hheld, Function.update_eq_self]
    have hplaced := h.placed.evict (i := i) x.2 h.key_ne hM hb
    rw [hmap] at hplaced
    exact ⟨hplaced.represents, hplaced.candidate⟩

/-- Run lemma: so does a path. -/
theorem InFlight.path {T : Key → Option Payload} {n : ℕ} {x y : Key × Payload}
    {t t' : CuckooTable Key Payload BucketSize m} (h : InFlight primary secondary Sentinel T x t)
    (hpath : EvictionPath kickingfn primary secondary Sentinel n x t y t') :
    InFlight primary secondary Sentinel T y t' := by
  induction n generalizing x t with
  | zero =>
    obtain ⟨rfl, rfl⟩ := hpath
    exact h
  | succ n ih =>
    obtain ⟨z, u, hstep, hrest⟩ := hpath
    exact ih (h.evicts hstep) hrest

omit [NeZero BucketSize] in
/-- A call starts with its own pair in flight, unless its key is stored. -/
theorem Placed.inFlight {M : Key → Option Payload} {t : CuckooTable Key Payload BucketSize m}
    (h : Placed primary secondary Sentinel M t) {x : Key × Payload} (hx : x.1 ≠ Sentinel)
    (hM : M x.1 = none) :
    InFlight primary secondary Sentinel (Function.update M x.1 (some x.2)) x t := by
  refine ⟨hx, Function.update_self .., ?_⟩
  rw [Function.update_idem, ← hM, Function.update_eq_self]
  exact h

/-- What a call that throws leaves behind: the map without one entry, or all of it. -/
theorem Placed.insert_threw {M : Key → Option Payload} {t t' : CuckooTable Key Payload BucketSize m}
    (h : Placed primary secondary Sentinel M t) {key : Key} {value : Payload} (hkey : key ≠ Sentinel)
    {e : Fault} (hthrow : CuckooTable.insert kickingfn primary secondary Sentinel key value t
      = .threw e t') :
    ∃ y, EvictionPath kickingfn primary secondary Sentinel (MaxKickCycleLength + 1) (key, value) t
        y t' ∧
      InFlight primary secondary Sentinel (Function.update M key (some value)) y t' ∧
      M key = none := by
  obtain ⟨y, hpath⟩ := (insertLoop_threw_iff (x := (key, value))).mp ⟨e, hthrow⟩
  have hfind : t.findKey (i1 primary m key) (i2 primary secondary m key) key = none := by
    obtain ⟨z, u, hstep, -⟩ := hpath
    exact hstep.1
  have hM : M key = none := by
    rcases t.findKey_cases (i1 primary m key) (i2 primary secondary m key) key with
      ⟨b, i, -, -, hsome⟩ | ⟨-, hnot⟩
    · rw [hfind] at hsome; cases hsome
    · exact h.eq_none hkey hnot
  exact ⟨y, hpath, (h.inFlight hkey hM).path hpath, hM⟩

/-! ### Reachable tables -/

omit [NeZero BucketSize] in
/-- Any write of a key into a candidate bucket, if the key is in no other slot. -/
theorem Placed.write {M : Key → Option Payload} {t : CuckooTable Key Payload BucketSize m}
    (h : Placed primary secondary Sentinel M t) {b : Fin m} {i : Fin BucketSize} {key : Key}
    (payload : Payload) (hb : b = i1 primary m key ∨ b = i2 primary secondary m key)
    (hother : key ≠ Sentinel → ∀ p, p ≠ (b, i) → (t.slots p).1 ≠ key) :
    ∃ M', Placed primary secondary Sentinel M' (t.write b i key payload) := by
  by_cases hkey : key = Sentinel
  · subst hkey
    exact ⟨_, by rw [slots_write]; exact h.represents.erase, h.candidate_write hb⟩
  · exact ⟨_, by rw [slots_write]; exact h.represents.write hkey (hother hkey), h.candidate_write hb⟩

/-- Step lemma: any call of `insert`, also one that throws or that passes the Sentinel, leaves every
    key in one slot of a candidate bucket. -/
theorem Placed.insertLoop {n : ℕ} {key : Key} {payload : Payload} {M : Key → Option Payload}
    {t : CuckooTable Key Payload BucketSize m} (h : Placed primary secondary Sentinel M t) :
    ∃ M', Placed primary secondary Sentinel M'
      (CuckooTable.insertLoop kickingfn primary secondary Sentinel n key payload t).state := by
  induction n generalizing key payload M t with
  | zero => exact ⟨M, h⟩
  | succ n ih =>
    rw [CuckooTable.insertLoop]
    rcases t.findKey_cases (i1 primary m key) (i2 primary secondary m key) key with
      ⟨b, i, hb, hhit, hfind⟩ | ⟨hfind, hnot⟩
    · rw [hfind]
      have hwrite : t.setPayload b i payload = t.write b i key payload := by rw [← hhit]; rfl
      obtain ⟨M', hM'⟩ := h.write (i := i) payload hb fun hkey p hp hpk =>
        hp (h.represents.unique p (b, i) (hpk.trans hhit.symm) (by rw [hpk]; exact hkey))
      rw [← hwrite] at hM'
      exact ⟨M', hM'⟩
    · have hother : ∀ b i, key ≠ Sentinel → ∀ p, p ≠ (b, i) → (t.slots p).1 ≠ key := fun b i hkey p _ =>
        (h.represents.notStored_iff hkey).mp (h.eq_none hkey hnot) p
      rw [hfind]
      rcases t.kick_cases kickingfn key payload (i1 primary m key) (i2 primary secondary m key) with
        ⟨b, i, hb, -, hkick⟩ | ⟨b, i, rand', hb, -, hkick⟩
      · obtain ⟨M', hM'⟩ := h.write (i := i) payload hb (hother b i)
        rw [hkick]
        exact ⟨M', hM'⟩
      · obtain ⟨M', hM'⟩ := h.write (i := i) payload hb (hother b i)
        rw [hkick]
        exact ih (t := { t.write b i key payload with rand_ := rand' })
          ⟨hM'.represents, hM'.candidate⟩

/-- A call of a member function that changes the table. -/
inductive Call (Key Payload : Type) where
  | insert (key : Key) (value : Payload)
  | clear

/-- The table after a call, also after one that throws. -/
def Call.run (kickingfn : KickingFn) (primary secondary : Key → UInt64) (Sentinel : Key)
    (t : CuckooTable Key Payload BucketSize m) :
    Call Key Payload → CuckooTable Key Payload BucketSize m
  | .insert key value => (CuckooTable.insert kickingfn primary secondary Sentinel key value t).state
  | .clear => t.clear Sentinel

/-- The table after calls whose exceptions the caller handles. -/
def afterCalls [Inhabited Payload] (kickingfn : KickingFn) (primary secondary : Key → UInt64)
    (Sentinel : Key) (rand_ : Stream' UInt32) (calls : List (Call Key Payload)) :
    CuckooTable Key Payload BucketSize m :=
  calls.foldl (Call.run kickingfn primary secondary Sentinel) (empty Sentinel rand_)

/-- Run lemma: so does any sequence of calls. -/
theorem placed_afterCalls [Inhabited Payload] (rand_ : Stream' UInt32)
    (calls : List (Call Key Payload)) :
    ∃ M, Placed primary secondary Sentinel M (afterCalls kickingfn primary secondary Sentinel rand_
      calls : CuckooTable Key Payload BucketSize m) := by
  induction calls using List.reverseRecOn with
  | nil => exact ⟨_, placed_of_empty fun _ _ => rfl⟩
  | append_singleton calls call ih =>
    obtain ⟨M, hM⟩ := ih
    rw [afterCalls, List.foldl_append]
    cases call with
    | insert key value => exact hM.insertLoop
    | clear => exact ⟨_, placed_of_empty fun _ _ => rfl⟩

omit [NeZero BucketSize] in
/-- A call that throws loses nothing exactly if its own pair is in flight at the end. -/
theorem Placed.keeps_iff {M : Key → Option Payload} {t t' : CuckooTable Key Payload BucketSize m}
    (h : Placed primary secondary Sentinel M t) {key : Key} {value : Payload}
    (hnew : M key = none) {y : Key × Payload}
    (hflight : InFlight primary secondary Sentinel (Function.update M key (some value)) y t') :
    (∀ q v, q ≠ Sentinel → t.Finds primary secondary q v → t'.Finds primary secondary q v) ↔
      y.1 = key := by
  constructor
  · intro hkeeps
    -- any other pair in flight at the throw was found before and is not found after
    by_contra hne
    have hheld := hflight.held
    rw [Function.update_of_ne hne] at hheld
    have hfinds := hkeeps y.1 y.2 hflight.key_ne ((h.finds_iff hflight.key_ne).mpr hheld)
    rw [hflight.placed.finds_iff hflight.key_ne, Function.update_self] at hfinds
    cases hfinds
  · rintro rfl q v hq hfinds
    rw [h.finds_iff hq] at hfinds
    rw [hflight.placed.finds_iff hq, Function.update_idem, ← hnew, Function.update_eq_self]
    exact hfinds

/-! ### Crowded buckets -/

/-- Whether a kick takes the victim from the primary bucket, for a random number. -/
def kicksFirst : KickingFn → UInt32 → Bool
  | .KapilBalancedKicking, rng => rng &&& 0x1 ≠ 0
  | .KapilBiasedKicking Bias, rng => rng > threshold Bias

/-- The slot of the victim that a random number selects in two full buckets. -/
def victim (kickingfn : KickingFn) (b1 b2 : Fin m) (rng : UInt32) : Fin m × Fin BucketSize :=
  (if kicksFirst kickingfn rng then b1 else b2, Fin.ofNat BucketSize rng.toNat)

omit [NeZero m] in
theorem kick_some {b1 b2 : Fin m} {key : Key} {payload : Payload} {y : Key × Payload}
    {t t' : CuckooTable Key Payload BucketSize m}
    (h : t.kick kickingfn Sentinel b1 b2 key payload = (some y, t')) :
    y = t.slots (victim kickingfn b1 b2 t.rand_.head) ∧ t'.rand_ = t.rand_.tail ∧
      t'.slots = Function.update t.slots (victim kickingfn b1 b2 t.rand_.head) (key, payload) := by
  have hrandom : t.kickRandom b1 b2 (kicksFirst kickingfn) key payload = (some y, t') := by
    cases kickingfn with
    | KapilBalancedKicking =>
      rw [kick, kapilBalancedKicking] at h
      split_ifs at h
      · cases h
      · cases h
      · exact h
    | KapilBiasedKicking Bias =>
      rw [kick, kapilBiasedKicking] at h
      split_ifs at h
      · cases h
      · cases h
      · exact h
  obtain ⟨hy, rfl⟩ := Prod.mk.inj hrandom
  exact ⟨(Option.some.inj hy).symm, rfl, slots_write t _ _ key payload⟩

/-- All keys in the two buckets have these two buckets as their candidates, in this order. -/
def Crowded (primary secondary : Key → UInt64) (b1 b2 : Fin m)
    (t : CuckooTable Key Payload BucketSize m) : Prop :=
  ∀ p : Fin m × Fin BucketSize, p.1 = b1 ∨ p.1 = b2 →
    i1 primary m (t.slots p).1 = b1 ∧ i2 primary secondary m (t.slots p).1 = b2

omit [DecidableEq Key] [NeZero m] in
theorem victim_fst (kickingfn : KickingFn) (b1 b2 : Fin m) (rng : UInt32) :
    (victim kickingfn b1 b2 rng : Fin m × Fin BucketSize).1 = b1 ∨
      (victim kickingfn b1 b2 rng : Fin m × Fin BucketSize).1 = b2 := by
  rw [victim]
  split_ifs
  · exact Or.inl rfl
  · exact Or.inr rfl

/-- Step lemma: in crowded buckets a round moves the pair in flight into the slot that the random
    number selects, and leaves the buckets crowded. -/
theorem Crowded.evicts {b1 b2 : Fin m} {x z : Key × Payload}
    {t u : CuckooTable Key Payload BucketSize m} (h : Crowded primary secondary b1 b2 t)
    (hx : i1 primary m x.1 = b1 ∧ i2 primary secondary m x.1 = b2)
    (hstep : Evicts kickingfn primary secondary Sentinel x t z u) :
    z = t.slots (victim kickingfn b1 b2 t.rand_.head) ∧ u.rand_ = t.rand_.tail ∧
      u.slots = Function.update t.slots (victim kickingfn b1 b2 t.rand_.head) x ∧
      Crowded primary secondary b1 b2 u ∧
      i1 primary m z.1 = b1 ∧ i2 primary secondary m z.1 = b2 := by
  obtain ⟨-, hkick⟩ := hstep
  rw [hx.1, hx.2] at hkick
  obtain ⟨rfl, hrand, hslots⟩ := kick_some hkick
  refine ⟨rfl, hrand, hslots, fun p hp => ?_, h _ (victim_fst kickingfn b1 b2 _)⟩
  rw [hslots]
  rcases eq_or_ne p (victim kickingfn b1 b2 t.rand_.head) with rfl | hne
  · rw [Function.update_self]; exact hx
  · rw [Function.update_of_ne hne]; exact h p hp

/-- Where a pair is: in flight, or in a slot. A victim is taken from slot `v`, and the pair in flight
    is put there. -/
def follow {α : Type} [DecidableEq α] : Option α → α → Option α
  | none, v => some v
  | some p, v => if p = v then none else some p

/-- Where the key is that is followed. -/
def LiesAt (key : Key) (x : Key × Payload) (t : CuckooTable Key Payload BucketSize m) :
    Option (Fin m × Fin BucketSize) → Prop
  | none => x.1 = key
  | some p => (t.slots p).1 = key

omit [DecidableEq Key] [NeZero BucketSize] [NeZero m] in
theorem LiesAt.follow {key : Key} {x : Key × Payload} {t u : CuckooTable Key Payload BucketSize m}
    {own : Option (Fin m × Fin BucketSize)} (h : LiesAt key x t own) (v : Fin m × Fin BucketSize)
    (hslots : u.slots = Function.update t.slots v x) :
    LiesAt key (t.slots v) u (CuckooTable.follow own v) := by
  cases own with
  | none =>
    rw [CuckooTable.follow, LiesAt, hslots, Function.update_self]
    exact h
  | some p =>
    rw [CuckooTable.follow]
    split_ifs with hp
    · rw [← hp]; exact h
    · rw [LiesAt, hslots, Function.update_of_ne hp]; exact h

/-- Run lemma: a path in crowded buckets ends with the key in flight exactly if it does for the slots
    that the random numbers select. -/
theorem Crowded.path_iff {T : Key → Option Payload} {b1 b2 : Fin m} {n : ℕ} {x y : Key × Payload}
    {t t' : CuckooTable Key Payload BucketSize m} (h : Crowded primary secondary b1 b2 t)
    (hx : i1 primary m x.1 = b1 ∧ i2 primary secondary m x.1 = b2)
    (hflight : InFlight primary secondary Sentinel T x t) {key : Key}
    {own : Option (Fin m × Fin BucketSize)} (hown : LiesAt key x t own)
    (hpath : EvictionPath kickingfn primary secondary Sentinel n x t y t') :
    y.1 = key ↔ ((t.rand_.take n).map (victim kickingfn b1 b2)).foldl follow own = none := by
  induction n generalizing x t own with
  | zero =>
    obtain ⟨rfl, rfl⟩ := hpath
    rw [Stream'.take_zero, List.map_nil, List.foldl_nil]
    cases own with
    | none => exact iff_of_true hown rfl
    | some p =>
      refine iff_of_false (fun heq => ?_) (Option.some_ne_none p)
      have hnone : Function.update T x.1 none x.1 = none := Function.update_self ..
      exact (hflight.placed.represents.notStored_iff hflight.key_ne).mp hnone p (hown.trans heq.symm)
  | succ n ih =>
    obtain ⟨z, u, hstep, hrest⟩ := hpath
    obtain ⟨hz, hrand, hslots, hcrowded, hz'⟩ := h.evicts hx hstep
    rw [Stream'.take_succ, List.map_cons, List.foldl_cons, ← hrand]
    refine ih hcrowded hz' (hflight.evicts hstep) ?_ hrest
    rw [hz]
    exact hown.follow _ hslots

/-- In full crowded buckets there is a path of any length. -/
theorem Crowded.exists_path {T : Key → Option Payload} {b1 b2 : Fin m} (n : ℕ) {x : Key × Payload}
    {t : CuckooTable Key Payload BucketSize m} (h : Crowded primary secondary b1 b2 t)
    (hfull : ∀ p : Fin m × Fin BucketSize, p.1 = b1 ∨ p.1 = b2 → (t.slots p).1 ≠ Sentinel)
    (hx : i1 primary m x.1 = b1 ∧ i2 primary secondary m x.1 = b2)
    (hflight : InFlight primary secondary Sentinel T x t) :
    ∃ y t', EvictionPath kickingfn primary secondary Sentinel n x t y t' := by
  induction n generalizing x t with
  | zero => exact ⟨x, t, rfl, rfl⟩
  | succ n ih =>
    have hnone : t.findKey (i1 primary m x.1) (i2 primary secondary m x.1) x.1 = none := by
      have hnot := (hflight.placed.represents.notStored_iff hflight.key_ne).mp
        (Function.update_self ..)
      rcases t.findKey_cases (i1 primary m x.1) (i2 primary secondary m x.1) x.1 with
        ⟨b, i, -, hhit, -⟩ | ⟨hnone, -⟩
      · exact absurd hhit (hnot (b, i))
      · exact hnone
    rcases t.kick_cases kickingfn x.1 x.2 (i1 primary m x.1) (i2 primary secondary m x.1) with
      ⟨b, i, hb, hfree, -⟩ | ⟨b, i, rand', hb, -, hkick⟩
    · -- the buckets have no room
      rw [hx.1, hx.2] at hb
      exact absurd (hfree fun j _ _ heq => absurd heq (hfull (b, j) hb)).1 (hfull (b, i) hb)
    · have hstep : Evicts kickingfn primary secondary Sentinel x t (t.slots (b, i)) _ := ⟨hnone, hkick⟩
      obtain ⟨-, -, hslots, hcrowded, hz⟩ := h.evicts hx hstep
      suffices hfull' : ∀ p : Fin m × Fin BucketSize, p.1 = b1 ∨ p.1 = b2 →
          (slots { t.write b i x.1 x.2 with rand_ := rand' } p).1 ≠ Sentinel by
        obtain ⟨y, t', hpath⟩ := ih hcrowded hfull' hz (hflight.evicts hstep)
        exact ⟨y, t', _, _, hstep, hpath⟩
      intro p hp
      rw [hslots]
      rcases eq_or_ne p (victim kickingfn b1 b2 t.rand_.head) with rfl | hne
      · rw [Function.update_self]; exact hflight.key_ne
      · rw [Function.update_of_ne hne]; exact hfull p hp

end CuckooTable

open CuckooTable

/-! ### The failing call -/

/-- Two buckets of one slot: the pair `x` in the first one, (2, 20) in the second. -/
def crowdedBuckets (x : UInt64 × UInt64) : KapilCuckooHashTable UInt64 UInt64 1 2 :=
  ⟨fun b => ⟨fun _ => if b = 0 then ⟨x.1, x.2⟩ else ⟨2, 20⟩⟩, Stream'.const 1⟩

/-- With the first bucket as the primary one of every key, a new pair and the one in that bucket
    take turns in it. -/
theorem crowdedBuckets_evicts {x y : UInt64 × UInt64} (hx : x.1 ≠ 2) (hxy : y.1 ≠ x.1)
    (hy : y.1 ≠ 0) :
    Evicts (.KapilBiasedKicking 0) (fun _ => 0) (fun _ => 1) 0 x (crowdedBuckets y) y
      (crowdedBuckets x) := by
  have hkeys : ∀ b i, (crowdedBuckets y).keys b i = if b = 0 then y.1 else 2 := by
    intro b i
    simp only [keys, crowdedBuckets]
    split_ifs
    · rfl
    · rfl
  have hfull : ∀ b, ¬ (crowdedBuckets y).count 0 b < 1 := by
    intro b
    have hocc : Full 0 ((crowdedBuckets y).keys b) := fun i => by
      rw [hkeys]
      split_ifs
      · exact hy
      · decide
    exact (full_iff_occupied_eq.mp hocc).not_lt
  refine ⟨?_, ?_⟩
  · rcases (crowdedBuckets y).findKey_cases (i1 (fun _ => 0) 2 x.1) (i2 (fun _ => 0) (fun _ => 1) 2 x.1)
      x.1 with ⟨b, i, -, hhit, -⟩ | ⟨hnone, -⟩
    · rw [hkeys] at hhit
      split_ifs at hhit
      · exact absurd hhit hxy
      · exact absurd hhit.symm hx
    · exact hnone
  · have hthreshold : threshold 0 = 0 := by
      simp [threshold, Binary64.div, Binary64.mul, Binary64.ofNat, Binary64.toNat]
    have hslot : Fin.ofNat 1 (crowdedBuckets y).rand_.head.toNat = 0 := Subsingleton.elim _ _
    have hbucket : i1 (fun _ => 0) 2 x.1 = 0 := rfl
    rw [kick, kapilBiasedKicking, dif_neg (hfull _), dif_neg (hfull _), hthreshold,
      kickRandom_first _ _ rfl, hslot, hbucket]
    refine Prod.ext rfl (ext_slots ?_ rfl)
    change ((crowdedBuckets y).write 0 0 x.1 x.2).slots = (crowdedBuckets x).slots
    rw [slots_write]
    funext p
    obtain ⟨b, i⟩ := p
    obtain rfl : i = 0 := Subsingleton.elim _ _
    rcases eq_or_ne b 0 with rfl | hb
    · rw [Function.update_self]; rfl
    · rw [Function.update_of_ne fun h => hb (Prod.mk.inj h).1]
      simp only [slots, crowdedBuckets, if_neg hb]

theorem crowdedBuckets_path (n : ℕ) :
    EvictionPath (.KapilBiasedKicking 0) (fun _ => 0) (fun _ => 1) 0 (2 * n + 1) (3, 30)
      (crowdedBuckets (1, 10)) (1, 10) (crowdedBuckets (3, 30)) := by
  have hin : Evicts (.KapilBiasedKicking 0) (fun _ => 0) (fun _ => 1) 0 (3, 30)
      (crowdedBuckets (1, 10)) (1, 10) (crowdedBuckets (3, 30)) :=
    crowdedBuckets_evicts (by decide) (by decide) (by decide)
  have hout : Evicts (.KapilBiasedKicking 0) (fun _ => 0) (fun _ => 1) 0 (1, 10)
      (crowdedBuckets (3, 30)) (3, 30) (crowdedBuckets (1, 10)) :=
    crowdedBuckets_evicts (by decide) (by decide) (by decide)
  induction n with
  | zero => exact ⟨_, _, hin, rfl, rfl⟩
  | succ n ih => exact ⟨_, _, hin, _, _, hout, ih⟩

/-- With these functions the calls below reach the two buckets, and the next one throws. -/
def zeroFn : HashFn UInt64 := ⟨fun _ => 0, "zero"⟩

def oneFn : HashFn UInt64 := ⟨fun _ => 1, "one"⟩

def crowdingCalls : List (Call UInt64 UInt64) := [.insert 1 10, .insert 2 20]

theorem secondary_crowded : KapilCuckooHashTable.secondary zeroFn oneFn = fun _ => (1 : UInt64) := by
  funext _
  exact (by decide : (1 : UInt64) ^^^ 0 = 1)

theorem crowdedBuckets_reached :
    crowdedBuckets (1, 10) = afterCalls (.KapilBiasedKicking 0) zeroFn
      (KapilCuckooHashTable.secondary zeroFn oneFn) 0 (Stream'.const 1) crowdingCalls := by
  rw [secondary_crowded]
  have hslots : ∀ b i, (crowdedBuckets (1, 10)).slots (b, i) = (afterCalls (.KapilBiasedKicking 0)
      (fun _ => 0) (fun _ => 1) 0 (Stream'.const 1) crowdingCalls :
        KapilCuckooHashTable UInt64 UInt64 1 2).slots (b, i) := by decide
  exact ext_slots (funext fun p => hslots p.1 p.2) rfl

theorem crowdedBuckets_threw :
    ∃ e, KapilCuckooHashTable.insert (.KapilBiasedKicking 0) zeroFn oneFn 0 3 30
      (crowdedBuckets (1, 10)) = .threw e (crowdedBuckets (3, 30)) := by
  have hbudget : MaxKickCycleLength + 1 = 2 * 25000 + 1 := rfl
  rw [KapilCuckooHashTable.insert, secondary_crowded, CuckooTable.insert, hbudget]
  exact insertLoop_threw_iff.mpr ⟨_, crowdedBuckets_path 25000⟩

/-- The entry (1, 10) is lost by an insert of (3, 30) that throws. -/
theorem cuckoo_failed_insert_loses_entry :
    let secondary := KapilCuckooHashTable.secondary zeroFn oneFn
    let t : KapilCuckooHashTable UInt64 UInt64 1 2 :=
      afterCalls (.KapilBiasedKicking 0) zeroFn secondary 0 (Stream'.const 1) crowdingCalls
    ∃ e t', KapilCuckooHashTable.insert (.KapilBiasedKicking 0) zeroFn oneFn 0 3 30 t
        = .threw e t' ∧
      t.Finds zeroFn secondary 1 10 ∧ ¬ t'.Finds zeroFn secondary 1 10 := by
  intro secondary t
  obtain ⟨e, he⟩ := crowdedBuckets_threw
  have ht : t = crowdedBuckets (1, 10) := crowdedBuckets_reached.symm
  have hfound : (crowdedBuckets (1, 10)).Finds zeroFn secondary 1 10 := ⟨by decide, by decide⟩
  have hlost : ¬ (crowdedBuckets (3, 30)).Finds zeroFn secondary 1 10 := fun h =>
    absurd h.1 (by decide)
  rw [ht]
  exact ⟨e, _, he, hfound, hlost⟩

/-- CORRECT in crowded buckets exactly when the call gives up on its own pair: of a call that throws,
    where all keys in the two buckets of its key have the same two buckets, no earlier entry is lost
    if and only if the 50001 slots that its random numbers select bring its own pair back. -/
theorem cuckoo_failed_insert_keeps_iff {Key Payload : Type} [DecidableEq Key] [OfNat Key 408957]
    [Inhabited Payload] {BucketSize m : ℕ} [NeZero BucketSize] [NeZero m] (kickingfn : KickingFn)
    (hashfn1 hashfn2 : HashFn Key) (Sentinel : Key) (rand_ : Stream' UInt32)
    (calls : List (Call Key Payload)) (key : Key) (payload : Payload) (hkey : key ≠ Sentinel)
    (t : KapilCuckooHashTable Key Payload BucketSize m)
    (ht : t = afterCalls kickingfn hashfn1 (KapilCuckooHashTable.secondary hashfn1 hashfn2) Sentinel
      rand_ calls)
    (hcrowded : Crowded hashfn1 (KapilCuckooHashTable.secondary hashfn1 hashfn2)
      (i1 hashfn1 m key) (i2 hashfn1 (KapilCuckooHashTable.secondary hashfn1 hashfn2) m key) t)
    (e : Fault) (t' : KapilCuckooHashTable Key Payload BucketSize m)
    (hthrow : KapilCuckooHashTable.insert kickingfn hashfn1 hashfn2 Sentinel key payload t
      = .threw e t') :
    (∀ q v, q ≠ Sentinel →
      t.Finds hashfn1 (KapilCuckooHashTable.secondary hashfn1 hashfn2) q v →
      t'.Finds hashfn1 (KapilCuckooHashTable.secondary hashfn1 hashfn2) q v) ↔
    ((t.rand_.take (MaxKickCycleLength + 1)).map (victim kickingfn (i1 hashfn1 m key)
      (i2 hashfn1 (KapilCuckooHashTable.secondary hashfn1 hashfn2) m key) :
        UInt32 → Fin m × Fin BucketSize)).foldl follow none = none := by
  obtain ⟨M, hM⟩ : ∃ M, Placed hashfn1 (KapilCuckooHashTable.secondary hashfn1 hashfn2) Sentinel M t :=
    ht ▸ placed_afterCalls rand_ calls
  obtain ⟨y, hpath, hflight, hnew⟩ := hM.insert_threw hkey hthrow
  rw [hM.keeps_iff hnew hflight]
  exact hcrowded.path_iff ⟨rfl, rfl⟩ (hM.inFlight (x := (key, payload)) hkey hnew) rfl hpath

/-- Random numbers that select the first bucket and the second one in turn. -/
def alternating : Stream' UInt32 := fun n => if n % 2 = 0 then 1 else 0

/-- After every third of its evictions the own pair is in flight: the two others have taken its
    place. -/
theorem follow_alternating (k : ℕ) :
    ((alternating.take (6 * k + 3)).map (victim .KapilBalancedKicking 0 1 :
      UInt32 → Fin 2 × Fin 1)).foldl follow none = none := by
  have htail : alternating.tail.tail = alternating := by
    funext n
    exact congrArg (fun r => if r = 0 then (1 : UInt32) else 0) (Nat.add_mod_right n 2)
  induction k with
  | zero => rfl
  | succ k ih =>
    have hlength : 6 * (k + 1) + 3 = 6 * k + 3 + 6 := by omega
    rw [hlength]
    generalize 6 * k + 3 = n at ih ⊢
    simp only [Stream'.take_succ, List.map_cons, List.foldl_cons, htail]
    exact ih

/-- The same two calls, with balanced kicking and these random numbers: the insert of (3, 30) throws,
    and the entries (1, 10) and (2, 20) are found as before. -/
theorem cuckoo_failed_insert_keeps_iff_crowded :
    let secondary := KapilCuckooHashTable.secondary zeroFn oneFn
    let t : KapilCuckooHashTable UInt64 UInt64 1 2 :=
      afterCalls .KapilBalancedKicking zeroFn secondary 0 alternating crowdingCalls
    ∃ e t', KapilCuckooHashTable.insert .KapilBalancedKicking zeroFn oneFn 0 3 30 t = .threw e t' ∧
      ∀ q v, q ≠ 0 → t.Finds zeroFn secondary q v → t'.Finds zeroFn secondary q v := by
  intro secondary t
  have hsecondary : secondary = fun _ => 1 := secondary_crowded
  have hkeys : ∀ b i, (t.slots (b, i)).1 = if b = 0 then 1 else 2 := by
    simp only [t, hsecondary]
    decide
  have hrand : t.rand_ = alternating := rfl
  have hcandidate : ∀ key, i2 zeroFn secondary 2 key = 1 := by
    intro key
    rw [hsecondary]
    rfl
  have hcrowded : Crowded zeroFn secondary 0 1 t := fun p _ => ⟨rfl, hcandidate _⟩
  obtain ⟨M, hM⟩ : ∃ M, Placed zeroFn secondary 0 M t :=
    placed_afterCalls alternating crowdingCalls
  have hnew : M 3 = none := by
    rw [hM.represents.notStored_iff (by decide)]
    rintro ⟨b, i⟩
    rw [hkeys]
    split_ifs
    · decide
    · decide
  have hfull : ∀ p : Fin 2 × Fin 1, p.1 = 0 ∨ p.1 = 1 → (t.slots p).1 ≠ 0 := by
    rintro ⟨b, i⟩ -
    rw [hkeys]
    split_ifs
    · decide
    · decide
  have hpath : ∃ y t', EvictionPath .KapilBalancedKicking zeroFn secondary 0
      (MaxKickCycleLength + 1) (3, 30) t y t' :=
    hcrowded.exists_path _ hfull ⟨rfl, hcandidate 3⟩ (hM.inFlight (by decide) hnew)
  obtain ⟨y, t', hpath⟩ := hpath
  obtain ⟨e, hthrow⟩ := insertLoop_threw_iff.mpr ⟨y, hpath⟩
  have hbudget : MaxKickCycleLength + 1 = 6 * 8333 + 3 := rfl
  refine ⟨e, t', hthrow, (cuckoo_failed_insert_keeps_iff .KapilBalancedKicking zeroFn oneFn 0
    alternating crowdingCalls 3 30 (by decide) t rfl ?_ e t' hthrow).mpr ?_⟩
  · exact hcrowded
  · rw [hbudget]
    exact follow_alternating 8333

end HashingBenchmark

import HashingBenchmark.Cuckoo.Table
import HashingBenchmark.Lib.SlotMap

/-! The cuckoo tables are maps.

    `Sound` relates a table to a map: buckets are filled from the front, the slots represent the
    map, and every key is in one of its candidate buckets. A call of `insert` runs through up to
    50001 rounds, each with its own pair in flight. The induction is over the rounds, for any map
    the table is sound for: a round that returns adds its pair to the map, and a round that evicts
    leaves a table sound for the map without the victim, so that the rest of the call, which inserts
    the victim with its old payload, adds up to one update of the map. -/

namespace HashingBenchmark
open SlotArray

namespace CuckooTable
variable {Key Payload : Type} {BucketSize m : ℕ}

/-- All slots of the table, as key and payload. -/
def slots (t : CuckooTable Key Payload BucketSize m) (p : Fin m × Fin BucketSize) :
    Key × Payload :=
  (((t.buckets p.1).slots p.2).key, ((t.buckets p.1).slots p.2).payload)

/-- The keys of one bucket. -/
def keys (t : CuckooTable Key Payload BucketSize m) (b : Fin m) (i : Fin BucketSize) : Key :=
  ((t.buckets b).slots i).key

/-- A write changes one slot of the table. -/
theorem slots_write (t : CuckooTable Key Payload BucketSize m) (b : Fin m) (i : Fin BucketSize)
    (key : Key) (payload : Payload) :
    (t.write b i key payload).slots = Function.update t.slots (b, i) (key, payload) := by
  funext ⟨c, j⟩
  rcases eq_or_ne c b with rfl | hc
  · rcases eq_or_ne j i with rfl | hj
    · simp [slots, write]
    · simp [slots, write, hj]
  · simp [slots, write, hc]

theorem keys_write (t : CuckooTable Key Payload BucketSize m) (b c : Fin m) (i : Fin BucketSize)
    (key : Key) (payload : Payload) :
    (t.write b i key payload).keys c
      = if c = b then Function.update (t.keys b) i key else t.keys c := by
  funext j
  rcases eq_or_ne c b with rfl | hc
  · rcases eq_or_ne j i with rfl | hj
    · simp [keys, write]
    · simp [keys, write, hj]
  · simp [keys, write, hc]

/-- A write into a slot with occupied slots before it keeps the buckets filled from the front. -/
theorem prefixes_write {Sentinel key : Key} {payload : Payload} {b : Fin m} {i : Fin BucketSize}
    {t : CuckooTable Key Payload BucketSize m} (h : ∀ c, FilledPrefix Sentinel (t.keys c))
    (hkey : key ≠ Sentinel) (hbefore : ∀ j < i, t.keys b j ≠ Sentinel) (c : Fin m) :
    FilledPrefix Sentinel ((t.write b i key payload).keys c) := by
  rw [keys_write]
  split_ifs with hc
  · exact (h b).write hkey hbefore
  · exact h c

variable [DecidableEq Key]

/-- What a kicking strategy does: it writes into one of the buckets, into the first free slot if
    the bucket is filled from the front, or, if both are full, replaces a slot of one of them and
    hands back what was there. -/
theorem kick_cases [NeZero BucketSize] (kickingfn : KickingFn) {Sentinel : Key} (key : Key)
    (payload : Payload) (t : CuckooTable Key Payload BucketSize m) (b1 b2 : Fin m) :
    (∃ b i, (b = b1 ∨ b = b2) ∧
      (FilledPrefix Sentinel (t.keys b) →
        t.keys b i = Sentinel ∧ ∀ j < i, t.keys b j ≠ Sentinel) ∧
      t.kick kickingfn Sentinel b1 b2 key payload = (none, t.write b i key payload)) ∨
    ∃ b i rand', (b = b1 ∨ b = b2) ∧ Full Sentinel (t.keys b) ∧
      t.kick kickingfn Sentinel b1 b2 key payload
        = (some (t.slots (b, i)), { t.write b i key payload with rand_ := rand' }) := by
  -- slot number `count` of a bucket with room is its first free slot
  have hplace : ∀ b (hlt : t.count Sentinel b < BucketSize), FilledPrefix Sentinel (t.keys b) →
      t.keys b ⟨t.count Sentinel b, hlt⟩ = Sentinel ∧
      ∀ j < (⟨t.count Sentinel b, hlt⟩ : Fin BucketSize), t.keys b j ≠ Sentinel := fun b hlt h =>
    ⟨eq_of_val_eq_occupied h rfl, fun j hj => (ne_iff_lt_occupied h j).mpr hj⟩
  have hfull : ∀ b, ¬ t.count Sentinel b < BucketSize → Full Sentinel (t.keys b) := fun b hge =>
    full_of_le_occupied (not_lt.mp hge)
  have hkicked : ∀ first : UInt32 → Bool, Full Sentinel (t.keys b1) → Full Sentinel (t.keys b2) →
      ∃ b i rand', (b = b1 ∨ b = b2) ∧ Full Sentinel (t.keys b) ∧
        t.kickRandom b1 b2 first key payload
          = (some (t.slots (b, i)), { t.write b i key payload with rand_ := rand' }) := by
    intro first h1 h2
    refine ⟨if first t.rand_.head then b1 else b2, Fin.ofNat BucketSize t.rand_.head.toNat,
      t.rand_.tail, ?_, ?_, rfl⟩
    · split_ifs
      · exact Or.inl rfl
      · exact Or.inr rfl
    · split_ifs
      · exact h1
      · exact h2
  cases kickingfn with
  | KapilBalancedKicking =>
    rw [kick, kapilBalancedKicking]
    split_ifs with h1 h2
    · exact Or.inl ⟨b1, _, Or.inl rfl, hplace b1 h1.2, rfl⟩
    · exact Or.inl ⟨b2, _, Or.inr rfl, hplace b2 h2, rfl⟩
    · have h1' : ¬ t.count Sentinel b1 < BucketSize := fun hlt => h1 ⟨by omega, hlt⟩
      exact Or.inr (hkicked _ (hfull b1 h1') (hfull b2 h2))
  | KapilBiasedKicking Bias =>
    rw [kick, kapilBiasedKicking]
    split_ifs with h1 h2
    · exact Or.inl ⟨b1, _, Or.inl rfl, hplace b1 h1, rfl⟩
    · exact Or.inl ⟨b2, _, Or.inr rfl, hplace b2 h2, rfl⟩
    · exact Or.inr (hkicked _ (hfull b1 h1) (hfull b2 h2))

/-- What the update check finds. -/
theorem findKey_cases (t : CuckooTable Key Payload BucketSize m) (b1 b2 : Fin m) (key : Key) :
    (∃ b i, (b = b1 ∨ b = b2) ∧ t.keys b i = key ∧ t.findKey b1 b2 key = some (b, i)) ∨
    (t.findKey b1 b2 key = none ∧ ∀ b i, (b = b1 ∨ b = b2) → t.keys b i ≠ key) := by
  cases hfind : t.findKey b1 b2 key with
  | some p =>
    left
    obtain ⟨i, hi, -⟩ := Fin.findSome?_eq_some_iff.mp hfind
    split_ifs at hi with h1 h2
    · obtain rfl := Option.some.inj hi; exact ⟨b1, i, Or.inl rfl, h1, rfl⟩
    · obtain rfl := Option.some.inj hi; exact ⟨b2, i, Or.inr rfl, h2, rfl⟩
  | none =>
    right
    refine ⟨rfl, ?_⟩
    have hnone := Fin.findSome?_eq_none_iff.mp hfind
    rintro b i hb hkey
    have := hnone i
    split_ifs at this with h1 h2
    rcases hb with rfl | rfl
    · exact h1 hkey
    · exact h2 hkey

variable [NeZero m]

/-- Every key of the table is in one slot, in one of its candidate buckets, and the pairs there are
    the map `M`. -/
structure Placed (primary secondary : Key → UInt64) (Sentinel : Key) (M : Key → Option Payload)
    (t : CuckooTable Key Payload BucketSize m) : Prop where
  represents : Represents Sentinel t.slots M
  candidate : ∀ b i, t.keys b i ≠ Sentinel →
    b = i1 primary m (t.keys b i) ∨ b = i2 primary secondary m (t.keys b i)

/-- The table is the map `M`, with every key in one of its candidate buckets. -/
structure Sound (primary secondary : Key → UInt64) (Sentinel : Key) (M : Key → Option Payload)
    (t : CuckooTable Key Payload BucketSize m) : Prop where
  prefixes : ∀ b, FilledPrefix Sentinel (t.keys b)
  represents : Represents Sentinel t.slots M
  candidate : ∀ b i, t.keys b i ≠ Sentinel →
    b = i1 primary m (t.keys b i) ∨ b = i2 primary secondary m (t.keys b i)

variable {primary secondary : Key → UInt64} {Sentinel : Key}

omit [DecidableEq Key] in
theorem sound_empty [Inhabited Payload] (rand_ : Stream' UInt32) :
    Sound primary secondary Sentinel (fun _ => none)
      (empty Sentinel rand_ : CuckooTable Key Payload BucketSize m) :=
  ⟨fun _ => filledPrefix_const Sentinel, Represents.empty fun _ => rfl, fun _ _ h => absurd rfl h⟩

omit [DecidableEq Key] in
/-- A table of empty slots is the empty map. -/
theorem placed_of_empty {t : CuckooTable Key Payload BucketSize m}
    (h : ∀ b i, t.keys b i = Sentinel) : Placed primary secondary Sentinel (fun _ => none) t :=
  ⟨Represents.empty fun p => h p.1 p.2, fun b i hne => absurd (h b i) hne⟩

omit [DecidableEq Key] in
theorem Sound.placed {M : Key → Option Payload} {t : CuckooTable Key Payload BucketSize m}
    (h : Sound primary secondary Sentinel M t) : Placed primary secondary Sentinel M t :=
  ⟨h.represents, h.candidate⟩

omit [DecidableEq Key] in
/-- Writing a key into one of its candidate buckets keeps every key where it may be. -/
theorem Placed.candidate_write {M : Key → Option Payload}
    {t : CuckooTable Key Payload BucketSize m} (h : Placed primary secondary Sentinel M t) {b : Fin m}
    {i : Fin BucketSize} {key : Key} {payload : Payload}
    (hb : b = i1 primary m key ∨ b = i2 primary secondary m key) (c : Fin m) (j : Fin BucketSize)
    (hj : (t.write b i key payload).keys c j ≠ Sentinel) :
    c = i1 primary m ((t.write b i key payload).keys c j) ∨
      c = i2 primary secondary m ((t.write b i key payload).keys c j) := by
  rw [keys_write] at hj ⊢
  split_ifs at hj ⊢ with hc
  · subst hc
    rcases eq_or_ne j i with rfl | hji
    · rw [Function.update_self]; exact hb
    · rw [Function.update_of_ne hji] at hj ⊢; exact h.candidate c j hj
  · exact h.candidate c j hj

/-- Replacing the pair of a slot by a new key: the key that was there leaves the map. -/
theorem Placed.evict {M : Key → Option Payload} {t : CuckooTable Key Payload BucketSize m}
    (h : Placed primary secondary Sentinel M t) {b : Fin m} {i : Fin BucketSize} {key : Key}
    (payload : Payload) (hkey : key ≠ Sentinel) (hM : M key = none)
    (hb : b = i1 primary m key ∨ b = i2 primary secondary m key) :
    Placed primary secondary Sentinel
      (Function.update (Function.update M (t.keys b i) none) key (some payload))
      (t.write b i key payload) :=
  ⟨by rw [slots_write]; exact h.represents.evict hkey hM, h.candidate_write hb⟩

/-- Filling the first free slot of a candidate bucket with a new key. -/
theorem Sound.fill {M : Key → Option Payload} {t : CuckooTable Key Payload BucketSize m}
    (h : Sound primary secondary Sentinel M t) {b : Fin m} {i : Fin BucketSize} {key : Key}
    {payload : Payload} (hkey : key ≠ Sentinel) (hM : M key = none)
    (hb : b = i1 primary m key ∨ b = i2 primary secondary m key) (hfree : t.keys b i = Sentinel)
    (hbefore : ∀ j < i, t.keys b j ≠ Sentinel) :
    Sound primary secondary Sentinel (Function.update M key (some payload))
      (t.write b i key payload) :=
  ⟨prefixes_write h.prefixes hkey hbefore,
    by rw [slots_write]; exact h.represents.fill hkey hfree hM, h.placed.candidate_write hb⟩

/-- Overwriting the payload of a stored key. -/
theorem Sound.setPayload {M : Key → Option Payload} {t : CuckooTable Key Payload BucketSize m}
    (h : Sound primary secondary Sentinel M t) {b : Fin m} {i : Fin BucketSize} {key : Key}
    {payload : Payload} (hkey : key ≠ Sentinel) (hhit : t.keys b i = key) :
    Sound primary secondary Sentinel (Function.update M key (some payload))
      (t.setPayload b i payload) := by
  have hwrite : t.setPayload b i payload = t.write b i key payload := by rw [← hhit]; rfl
  have hocc : t.keys b i ≠ Sentinel := by rw [hhit]; exact hkey
  have hb := h.candidate b i hocc
  rw [hhit] at hb
  rw [hwrite]
  refine ⟨prefixes_write h.prefixes hkey fun j hj => (h.prefixes b).ne_of_le hocc hj.le, ?_,
    h.placed.candidate_write hb⟩
  rw [slots_write]; exact h.represents.overwrite hkey hhit

/-- Replacing a slot of a full candidate bucket: the victim leaves the map. -/
theorem Sound.evict {M : Key → Option Payload} {t : CuckooTable Key Payload BucketSize m}
    (h : Sound primary secondary Sentinel M t) {b : Fin m} {i : Fin BucketSize} {key : Key}
    {payload : Payload} (hkey : key ≠ Sentinel) (hM : M key = none)
    (hb : b = i1 primary m key ∨ b = i2 primary secondary m key)
    (hfull : Full Sentinel (t.keys b)) (rand' : Stream' UInt32) :
    Sound primary secondary Sentinel
      (Function.update (Function.update M (t.keys b i) none) key (some payload))
      { t.write b i key payload with rand_ := rand' } := by
  have hplaced := h.placed.evict (i := i) payload hkey hM hb
  exact ⟨prefixes_write h.prefixes hkey fun j _ => hfull j, hplaced.represents, hplaced.candidate⟩

omit [DecidableEq Key] in
/-- A key that is in neither of its candidate buckets is not in the table. -/
theorem Placed.eq_none {M : Key → Option Payload} {t : CuckooTable Key Payload BucketSize m}
    (h : Placed primary secondary Sentinel M t) {key : Key} (hkey : key ≠ Sentinel)
    (hnot : ∀ b i, (b = i1 primary m key ∨ b = i2 primary secondary m key) → t.keys b i ≠ key) :
    M key = none := by
  rw [h.represents.notStored_iff hkey]
  rintro ⟨b, i⟩ hbi
  change t.keys b i = key at hbi
  have hb := h.candidate b i (by rw [hbi]; exact hkey)
  rw [hbi] at hb; exact hnot b i hb hbi

omit [DecidableEq Key] [NeZero m] in
/-- The pair of a slot in use is in the map, so a key that is not in the map is another one. -/
theorem victim_held {M : Key → Option Payload} {t : CuckooTable Key Payload BucketSize m}
    (h : Represents Sentinel t.slots M) {key : Key} (hM : M key = none) {b : Fin m}
    {i : Fin BucketSize} (hvictim : t.keys b i ≠ Sentinel) :
    M (t.keys b i) = some (t.slots (b, i)).2 ∧ t.keys b i ≠ key := by
  have hMv : M (t.keys b i) = some (t.slots (b, i)).2 := h.lookup (i := (b, i)) hvictim
  refine ⟨hMv, fun heq => ?_⟩
  rw [heq, hM] at hMv
  cases hMv

/-- The rounds of one insert add up to one update of the map. -/
theorem Sound.insertLoop [NeZero BucketSize] {kickingfn : KickingFn} {budget : ℕ} {key : Key}
    {payload : Payload} {M : Key → Option Payload} {t t' : CuckooTable Key Payload BucketSize m}
    (h : Sound primary secondary Sentinel M t) (hkey : key ≠ Sentinel)
    (hret : CuckooTable.insertLoop kickingfn primary secondary Sentinel budget key payload t
      = .returned t') :
    Sound primary secondary Sentinel (Function.update M key (some payload)) t' := by
  induction budget generalizing key payload M t with
  | zero => cases hret
  | succ budget ih =>
    rw [CuckooTable.insertLoop] at hret
    rcases t.findKey_cases (i1 primary m key) (i2 primary secondary m key) key with
      ⟨b, i, -, hhit, hfind⟩ | ⟨hfind, hnot⟩
    · rw [hfind] at hret
      obtain rfl := Outcome.returned.inj hret
      exact h.setPayload hkey hhit
    · have hM : M key = none := h.placed.eq_none hkey hnot
      rw [hfind] at hret
      rcases t.kick_cases kickingfn key payload (i1 primary m key)
          (i2 primary secondary m key) with
        ⟨b, i, hb, hplace, hkick⟩ | ⟨b, i, rand', hb, hfull, hkick⟩
      · obtain ⟨hfree, hbefore⟩ := hplace (h.prefixes b)
        rw [hkick] at hret
        obtain rfl := Outcome.returned.inj hret
        exact h.fill hkey hM hb hfree hbefore
      · -- the victim, with its old payload, is inserted into the table without it
        rw [hkick] at hret
        have hvictim : t.keys b i ≠ Sentinel := hfull i
        obtain ⟨hMv, hne⟩ := victim_held h.represents hM hvictim
        have hrest := ih (h.evict hkey hM hb hfull rand') hvictim hret
        have hmap : Function.update (Function.update (Function.update M (t.keys b i) none) key
            (some payload)) (t.keys b i) (some (t.slots (b, i)).2)
            = Function.update M key (some payload) := by
          funext q
          rcases eq_or_ne q (t.keys b i) with rfl | hq
          · rw [Function.update_self, Function.update_of_ne hne, hMv]
          · rw [Function.update_of_ne hq]
            rcases eq_or_ne q key with rfl | hqk
            · rw [Function.update_self, Function.update_self]
            · rw [Function.update_of_ne hqk, Function.update_of_ne hqk, Function.update_of_ne hq]
        rw [← hmap]; exact hrest

/-- Run lemma: after inserts that return the table is the map of the last writes. -/
theorem sound_of_insertAll [Inhabited Payload] [NeZero BucketSize] {kickingfn : KickingFn}
    {rand_ : Stream' UInt32} {data : List (Key × Payload)} (hdata : ∀ d ∈ data, d.1 ≠ Sentinel)
    {t : CuckooTable Key Payload BucketSize m}
    (hrun : insertAll (CuckooTable.insert kickingfn primary secondary Sentinel) data
      (empty Sentinel rand_) = .returned t) :
    Sound primary secondary Sentinel (lastWrite data) t := by
  refine Outcome.runAll_induction (I := fun done u =>
    Sound primary secondary Sentinel (lastWrite done) u) (sound_empty rand_) ?_ hrun
  intro done d u v hpre hu hv
  rw [lastWrite_snoc]
  exact hu.insertLoop (hdata d (hpre.subset (by simp))) hv

/-! ### Lookups -/

omit [NeZero m] in
theorem probe_cases (t : CuckooTable Key Payload BucketSize m) (b : Fin m) (key : Key) :
    (t.probe b key = some 1 ∧ ∃ i, t.keys b i = key) ∨
    (t.probe b key = none ∧ ∀ i, t.keys b i ≠ key) := by
  cases hprobe : t.probe b key with
  | some r =>
    obtain ⟨i, hi, -⟩ := Fin.findSome?_eq_some_iff.mp hprobe
    split_ifs at hi with hk
    obtain rfl := Option.some.inj hi
    exact Or.inl ⟨rfl, i, hk⟩
  | none =>
    have hnone := Fin.findSome?_eq_none_iff.mp hprobe
    refine Or.inr ⟨rfl, fun i hi => ?_⟩
    have := hnone i
    rw [if_pos (show ((t.buckets b).slots i).key = key from hi)] at this
    cases this

/-- The lookup answers 1 exactly if a candidate bucket holds the key, and 0 otherwise. -/
theorem lookup_cases (t : CuckooTable Key Payload BucketSize m) (key : Key) :
    (t.lookup primary secondary key = 1 ∧
      ∃ b i, (b = i1 primary m key ∨ b = i2 primary secondary m key) ∧ t.keys b i = key) ∨
    (t.lookup primary secondary key = 0 ∧
      ∀ b i, (b = i1 primary m key ∨ b = i2 primary secondary m key) → t.keys b i ≠ key) := by
  rw [lookup]
  rcases t.probe_cases (i1 primary m key) key with ⟨h1, i, hi⟩ | ⟨h1, hnot1⟩
  · rw [h1]; exact Or.inl ⟨rfl, _, i, Or.inl rfl, hi⟩
  · rw [h1]
    rcases t.probe_cases (i2 primary secondary m key) key with ⟨h2, i, hi⟩ | ⟨h2, hnot2⟩
    · rw [h2]; exact Or.inl ⟨rfl, _, i, Or.inr rfl, hi⟩
    · rw [h2]
      refine Or.inr ⟨rfl, ?_⟩
      rintro b i (rfl | rfl)
      · exact hnot1 i
      · exact hnot2 i

/-- In a table that is the map `M` the lookup is membership in `M`. -/
theorem Placed.lookup_eq_one_iff {M : Key → Option Payload}
    {t : CuckooTable Key Payload BucketSize m} (h : Placed primary secondary Sentinel M t) {q : Key}
    (hq : q ≠ Sentinel) : t.lookup primary secondary q = 1 ↔ (M q).isSome := by
  rcases t.lookup_cases q with ⟨hone, b, i, -, hi⟩ | ⟨hzero, hnot⟩
  · exact iff_of_true hone ((h.represents.stored_iff hq).mpr ⟨(b, i), hi⟩)
  · rw [hzero]
    refine iff_of_false (by decide) ?_
    rw [h.eq_none hq hnot]; simp

/-- What a map of the writes `data` is: lookups are membership, and every written key is in exactly
    one slot, in one of its candidate buckets, next to its last payload. -/
def IsMapOf (primary secondary : Key → UInt64) (Sentinel : Key) (lookup : Key → ℕ)
    (data : List (Key × Payload)) (t : CuckooTable Key Payload BucketSize m) : Prop :=
  ∀ q, q ≠ Sentinel →
    (lookup q = 1 ↔ ∃ d ∈ data, d.1 = q) ∧
    ((∃ d ∈ data, d.1 = q) → ∃ p, (∀ p', (t.slots p').1 = q ↔ p' = p) ∧
      (p.1 = i1 primary m q ∨ p.1 = i2 primary secondary m q) ∧
      lastWrite data q = some (t.slots p).2)

theorem isMapOf_of_insertAll [Inhabited Payload] [NeZero BucketSize] {kickingfn : KickingFn}
    {rand_ : Stream' UInt32} {data : List (Key × Payload)} (hdata : ∀ d ∈ data, d.1 ≠ Sentinel)
    {t : CuckooTable Key Payload BucketSize m}
    (hrun : insertAll (CuckooTable.insert kickingfn primary secondary Sentinel) data
      (empty Sentinel rand_) = .returned t) :
    IsMapOf primary secondary Sentinel (t.lookup primary secondary) data t := by
  have h : Sound primary secondary Sentinel (lastWrite data) t := sound_of_insertAll hdata hrun
  intro q hq
  refine ⟨by rw [h.placed.lookup_eq_one_iff hq, lastWrite_isSome_iff], fun hmem => ?_⟩
  obtain ⟨v, hv⟩ := Option.isSome_iff_exists.mp (lastWrite_isSome_iff.mpr hmem)
  obtain ⟨p, hp, huniq⟩ := h.represents.existsUnique hq hv
  have hpq : t.keys p.1 p.2 = q := congrArg Prod.fst hp
  have hcand := h.candidate p.1 p.2 (by rw [hpq]; exact hq)
  rw [hpq] at hcand
  exact ⟨p, fun p' => ⟨huniq p', by rintro rfl; exact hpq⟩, hcand, by rw [hp]; exact hv⟩

end CuckooTable

open CuckooTable
variable {Key Payload : Type} [DecidableEq Key] [OfNat Key 408957] [Inhabited Payload]
  {BucketSize m : ℕ} [NeZero BucketSize] [NeZero m]

/-- CORRECT: both cuckoo classes are maps after any inserts that do not throw, for every kicking
    strategy and every stream of random numbers. -/
theorem cuckoo_tables_are_maps (kickingfn : KickingFn) (rand_ : Stream' UInt32) (Sentinel : Key)
    (data : List (Key × Payload)) (hdata : ∀ d ∈ data, d.1 ≠ Sentinel) :
    (∀ (hashfn1 hashfn2 : HashFn Key) (t : KapilCuckooHashTable Key Payload BucketSize m),
      insertAll (KapilCuckooHashTable.insert kickingfn hashfn1 hashfn2 Sentinel) data
        (CuckooTable.empty Sentinel rand_) = .returned t →
      IsMapOf hashfn1 (KapilCuckooHashTable.secondary hashfn1 hashfn2) Sentinel
        (KapilCuckooHashTable.lookup hashfn1 hashfn2 t) data t) ∧
    (∀ (model : Model Key) (hashfn2 : HashFn Key)
      (t : KapilCuckooModelHashTable Key Payload BucketSize m),
      insertAll (KapilCuckooModelHashTable.insert kickingfn model hashfn2 Sentinel) data
        (CuckooTable.empty Sentinel rand_) = .returned t →
      IsMapOf model hashfn2 Sentinel (KapilCuckooModelHashTable.lookup model hashfn2 t) data t) :=
  ⟨fun _ _ _ hrun => isMapOf_of_insertAll hdata hrun,
    fun _ _ _ hrun => isMapOf_of_insertAll hdata hrun⟩

/-- A run with a full pair of buckets, an eviction and an update. -/
theorem cuckoo_tables_are_maps_evicts :
    let rand_ : Stream' UInt32 := Stream'.const 1
    let hashfn1 : HashFn UInt64 := ⟨id, "identity"⟩
    let hashfn2 : HashFn UInt64 := ⟨fun _ => 1, "one"⟩
    let flip : HashFn UInt64 := ⟨fun key => 1 ^^^ key, "flip"⟩
    let model : Model UInt64 := ⟨id, "identity"⟩
    let data : List (UInt64 × UInt64) := [(3, 30), (6, 60), (12, 120), (6, 61)]
    let t : KapilCuckooHashTable UInt64 UInt64 1 3 :=
      (insertAll (KapilCuckooHashTable.insert .KapilBalancedKicking hashfn1 hashfn2 0) data
        (CuckooTable.empty 0 rand_)).state
    let u : KapilCuckooModelHashTable UInt64 UInt64 1 3 :=
      (insertAll (KapilCuckooModelHashTable.insert .KapilBalancedKicking model flip 0) data
        (CuckooTable.empty 0 rand_)).state
    IsMapOf hashfn1 (KapilCuckooHashTable.secondary hashfn1 hashfn2) 0
      (KapilCuckooHashTable.lookup hashfn1 hashfn2 t) data t ∧
    IsMapOf model flip 0 (KapilCuckooModelHashTable.lookup model flip u) data u := by
  have hmaps := @cuckoo_tables_are_maps UInt64 UInt64 _ _ _ 1 3 _ _ .KapilBalancedKicking
    (Stream'.const 1) 0 [(3, 30), (6, 60), (12, 120), (6, 61)] (by simp)
  exact ⟨hmaps.1 _ _ _ rfl, hmaps.2 _ _ _ rfl⟩

end HashingBenchmark

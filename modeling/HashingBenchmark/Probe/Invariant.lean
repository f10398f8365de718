import HashingBenchmark.Lib.SlotMap
import HashingBenchmark.Probe.Table

/-! The probing invariant, for any home function and any step limits.

    An insert walks past a bucket exactly when the bucket is full and does not hold the key
    (`Passes`); the lookup does the same. `Built` is what every sequence of inserts keeps:

    * each bucket is filled from the front;
    * the slots are the map of the last writes, so no key is in two of them;
    * every key is reachable: its walk passes all buckets before the one that holds it.

    The walk of a new key cannot miss an older copy of the key, because the copy would lie behind a
    bucket that has a free slot (`Built.notStored`). The lookup finds a stored key exactly if the
    walk to it is shorter than the lookup's own limit. -/

namespace HashingBenchmark
open SlotArray

namespace Probe
variable {Key Payload : Type} {BucketSize : ℕ}

/-- Insert and lookup go on to the next bucket: this one is full and does not hold the key. -/
def Bucket.Passes (Sentinel key : Key) (b : Bucket Key Payload BucketSize) : Prop :=
  Full Sentinel b.keys ∧ ∀ j, b.keys j ≠ key

/-- Slot `j` is where the walk stops: the first slot that is free or holds the key. -/
def Bucket.StopsAt (Sentinel key : Key) (b : Bucket Key Payload BucketSize) (j : Fin BucketSize) :
    Prop :=
  (b.keys j = Sentinel ∨ b.keys j = key) ∧ ∀ j' < j, b.keys j' ≠ Sentinel ∧ b.keys j' ≠ key

theorem Bucket.StopsAt.not_passes {Sentinel key : Key} {b : Bucket Key Payload BucketSize}
    {j : Fin BucketSize} (h : b.StopsAt Sentinel key j) : ¬ b.Passes Sentinel key := by
  rintro ⟨hfull, hkey⟩
  exact h.1.elim (hfull j) (hkey j)

theorem Bucket.passes_one_slot {b : Bucket Key Payload 1} {Sentinel key : Key} :
    b.Passes Sentinel key ↔ b.keys 0 ≠ Sentinel ∧ b.keys 0 ≠ key := by
  simp [Bucket.Passes, Full]

variable [DecidableEq Key]

/-- What `Bucket::insert` does: nothing to a bucket that passes, one write otherwise. -/
theorem Bucket.insert_cases (Sentinel key : Key) (payload : Payload)
    (b : Bucket Key Payload BucketSize) :
    (b.Passes Sentinel key ∧ b.insert Sentinel key payload = (false, b)) ∨
    ∃ j, b.StopsAt Sentinel key j ∧
      b.insert Sentinel key payload = (true, b.write j key payload) := by
  rw [Bucket.insert]
  rcases search_cases Sentinel key b.keys (fun i => b.write i key payload)
    (fun i => b.write i key payload) with
    ⟨j, hj, hbefore, hfind⟩ | ⟨j, -, hj, hbefore, hfind⟩ | ⟨hslot, hfind⟩
  · exact Or.inr ⟨j, ⟨Or.inl hj, hbefore⟩, by rw [hfind]⟩
  · exact Or.inr ⟨j, ⟨Or.inr hj, hbefore⟩, by rw [hfind]⟩
  · exact Or.inl ⟨⟨fun j => (hslot j).1, fun j => (hslot j).2⟩, by rw [hfind]⟩

/-- What the lookup sees of a bucket: it passes, it ends at a free slot, or it holds the key. -/
theorem Bucket.probe_cases (Sentinel : Key) {key : Key} (hkey : key ≠ Sentinel)
    (b : Bucket Key Payload BucketSize) :
    (b.Passes Sentinel key ∧ b.probe Sentinel key = none) ∨
    ∃ j, b.StopsAt Sentinel key j ∧
      b.probe Sentinel key = some (if b.keys j = key then 1 else 0) := by
  rw [Bucket.probe]
  rcases search_cases Sentinel key b.keys (fun _ => 0) (fun _ => 1) with
    ⟨j, hj, hbefore, hfind⟩ | ⟨j, -, hj, hbefore, hfind⟩ | ⟨hslot, hfind⟩
  · exact Or.inr ⟨j, ⟨Or.inl hj, hbefore⟩, by rw [hfind, hj, if_neg hkey.symm]⟩
  · exact Or.inr ⟨j, ⟨Or.inr hj, hbefore⟩, by rw [hfind, if_pos hj]⟩
  · exact Or.inl ⟨⟨fun j => (hslot j).1, fun j => (hslot j).2⟩, hfind⟩

end Probe

namespace ProbeTable
open Probe
variable {Key Payload : Type} {BucketSize m : ℕ}

/-- All slots of the table, as key and payload. -/
def slots (t : ProbeTable Key Payload BucketSize m) (p : Fin m × Fin BucketSize) : Key × Payload :=
  ((t.buckets p.1).keys p.2, (t.buckets p.1).payloads p.2)

/-- A write changes one slot of the table. -/
theorem slots_write (t : ProbeTable Key Payload BucketSize m) (i : Fin m) (j : Fin BucketSize)
    (key : Key) (payload : Payload) :
    (t.write i j key payload).slots = Function.update t.slots (i, j) (key, payload) := by
  funext ⟨a, b⟩
  rcases eq_or_ne a i with rfl | ha
  · rcases eq_or_ne b j with rfl | hb
    · simp [slots, write, Bucket.write]
    · have hne : (a, b) ≠ (a, j) := fun h => hb (Prod.mk.inj h).2
      simp [slots, write, Bucket.write, hb]
  · have hne : (a, b) ≠ (i, j) := fun h => ha (Prod.mk.inj h).1
    simp [slots, write, ha]

/-- The keys of a bucket after a write elsewhere or into it. -/
theorem keys_write (t : ProbeTable Key Payload BucketSize m) (i a : Fin m) (j : Fin BucketSize)
    (key : Key) (payload : Payload) :
    ((t.write i j key payload).buckets a).keys
      = if a = i then Function.update (t.buckets i).keys j key else (t.buckets a).keys := by
  rcases eq_or_ne a i with rfl | ha
  · simp [write, Bucket.write]
  · simp [write, ha]

theorem keys_write_self (t : ProbeTable Key Payload BucketSize m) (i : Fin m) (j : Fin BucketSize)
    (key : Key) (payload : Payload) :
    ((t.write i j key payload).buckets i).keys j = key := by
  rw [keys_write, if_pos rfl, Function.update_self]

/-- A write leaves the keys of all other slots. -/
theorem keys_write_of_ne {t : ProbeTable Key Payload BucketSize m} {i a : Fin m}
    {j b : Fin BucketSize} {key : Key} {payload : Payload} (h : ¬ (a = i ∧ b = j)) :
    ((t.write i j key payload).buckets a).keys b = (t.buckets a).keys b := by
  rw [keys_write]
  split_ifs with ha
  · subst ha
    rw [Function.update_of_ne fun hb => h ⟨rfl, hb⟩]
  · rfl

/-- A bucket that passes for `k` still does after a write at the place where the walk of `key`
    stopped. -/
theorem passes_write {Sentinel key k : Key} {payload : Payload}
    {t : ProbeTable Key Payload BucketSize m} {i a : Fin m} {j : Fin BucketSize}
    (hstop : (t.buckets i).StopsAt Sentinel key j)
    (hpass : (t.buckets a).Passes Sentinel k) :
    ((t.write i j key payload).buckets a).Passes Sentinel k := by
  rw [Bucket.Passes, keys_write]
  split_ifs with ha
  · subst ha
    rcases hstop.1 with hfree | hhit
    · exact absurd hfree (hpass.1 j)
    · rw [← hhit, Function.update_eq_self]; exact hpass
  · exact hpass

variable [NeZero m]

/-- The bucket that the walk of a key looks at after `d` steps. -/
def walk (home : Key → UInt64) (m : ℕ) [NeZero m] (key : Key) (d : ℕ) : Fin m :=
  Fin.ofNat m ((home key).toNat % m + d)

/-- A loop that counts `index` up passes every step of its budget and gives `last`, or it stops at
    the first step it does not pass. -/
theorem loop_cases {R : Type*} {P : ℕ → Prop} {S : ℕ → R → Prop} {f : ℕ → ℕ → R} {last : R}
    (hzero : ∀ index, f 0 index = last)
    (hsucc : ∀ budget index, (P index ∧ f (budget + 1) index = f budget (index + 1)) ∨
      S index (f (budget + 1) index)) (budget index : ℕ) :
    ((∀ d < budget, P (index + d)) ∧ f budget index = last) ∨
    ∃ d < budget, (∀ d' < d, P (index + d')) ∧ S (index + d) (f budget index) := by
  induction budget generalizing index with
  | zero => exact Or.inl ⟨fun d hd => absurd hd (Nat.not_lt_zero d), hzero index⟩
  | succ budget ih =>
    rcases hsucc budget index with ⟨hpass, hloop⟩ | hstop
    · -- one step passed, and then the loop from the next one
      have hshift : ∀ d, index + 1 + d = index + (d + 1) := fun d => by omega
      have hpassed : ∀ d, (∀ d' < d, P (index + 1 + d')) → ∀ d' < d + 1, P (index + d') := by
        rintro d h (_ | d') hd'
        · exact hpass
        · rw [← hshift]; exact h d' (Nat.lt_of_succ_lt_succ hd')
      rw [hloop]
      rcases ih (index + 1) with ⟨hall, hlast⟩ | ⟨d, hd, hbefore, hstop⟩
      · exact Or.inl ⟨hpassed budget hall, hlast⟩
      · rw [hshift] at hstop
        exact Or.inr ⟨d + 1, Nat.succ_lt_succ hd, hpassed d hbefore, hstop⟩
    · exact Or.inr ⟨0, Nat.succ_pos budget, fun d' hd' => absurd hd' (Nat.not_lt_zero d'), hstop⟩

variable [DecidableEq Key]

/-- What the insert loop does within its budget: it passes every bucket and throws, or it stops at
    the first bucket that does not pass and writes there. -/
theorem insertLoop_cases (Sentinel key : Key) (payload : Payload) (what : String)
    (t : ProbeTable Key Payload BucketSize m) (budget index : ℕ) :
    ((∀ d < budget, (t.buckets (Fin.ofNat m (index + d))).Passes Sentinel key) ∧
      insertLoop Sentinel key payload what budget index t = .threw (.runtime_error what) t) ∨
    ∃ d < budget, (∀ d' < d, (t.buckets (Fin.ofNat m (index + d'))).Passes Sentinel key) ∧
      ∃ j, (t.buckets (Fin.ofNat m (index + d))).StopsAt Sentinel key j ∧
        insertLoop Sentinel key payload what budget index t
          = .returned (t.write (Fin.ofNat m (index + d)) j key payload) := by
  refine loop_cases (P := fun i => (t.buckets (Fin.ofNat m i)).Passes Sentinel key)
    (S := fun i r => ∃ j, (t.buckets (Fin.ofNat m i)).StopsAt Sentinel key j ∧
      r = .returned (t.write (Fin.ofNat m i) j key payload))
    (f := fun budget index => insertLoop Sentinel key payload what budget index t)
    (fun _ => rfl) (fun budget index => ?_) budget index
  rw [insertLoop]
  rcases (t.buckets (Fin.ofNat m index)).insert_cases Sentinel key payload with
    ⟨hpass, hins⟩ | ⟨j, hstop, hins⟩
  · rw [hins]; exact Or.inl ⟨hpass, rfl⟩
  · rw [hins]; exact Or.inr ⟨j, hstop, rfl⟩

/-- What the lookup loop returns within its budget. -/
theorem lookupLoop_cases {Sentinel key : Key} (hkey : key ≠ Sentinel)
    (t : ProbeTable Key Payload BucketSize m) (budget index : ℕ) :
    ((∀ d < budget, (t.buckets (Fin.ofNat m (index + d))).Passes Sentinel key) ∧
      lookupLoop Sentinel key t budget index = 0) ∨
    ∃ d < budget, (∀ d' < d, (t.buckets (Fin.ofNat m (index + d'))).Passes Sentinel key) ∧
      ∃ j, (t.buckets (Fin.ofNat m (index + d))).StopsAt Sentinel key j ∧
        lookupLoop Sentinel key t budget index
          = if (t.buckets (Fin.ofNat m (index + d))).keys j = key then 1 else 0 := by
  refine loop_cases (P := fun i => (t.buckets (Fin.ofNat m i)).Passes Sentinel key)
    (S := fun i r => ∃ j, (t.buckets (Fin.ofNat m i)).StopsAt Sentinel key j ∧
      r = if (t.buckets (Fin.ofNat m i)).keys j = key then 1 else 0)
    (f := lookupLoop Sentinel key t) (fun _ => rfl) (fun budget index => ?_) budget index
  rw [lookupLoop]
  rcases (t.buckets (Fin.ofNat m index)).probe_cases Sentinel hkey with
    ⟨hpass, hprobe⟩ | ⟨j, hstop, hprobe⟩
  · rw [hprobe]; exact Or.inl ⟨hpass, rfl⟩
  · rw [hprobe]; exact Or.inr ⟨j, hstop, rfl⟩

/-- What an insert that returns did: it wrote where the walk of the key stopped. -/
theorem insert_returned {Sentinel : Key} {home : Key → UInt64} {limit : ℕ} {name : String}
    {key : Key} {payload : Payload} {t t' : ProbeTable Key Payload BucketSize m}
    (hins : ProbeTable.insert Sentinel home limit name key payload t = .returned t') :
    ∃ s < limit, (∀ d' < s, (t.buckets (walk home m key d')).Passes Sentinel key) ∧
      ∃ j, (t.buckets (walk home m key s)).StopsAt Sentinel key j ∧
        t' = t.write (walk home m key s) j key payload := by
  rcases insertLoop_cases Sentinel key payload _ t limit ((home key).toNat % m) with
    ⟨-, hthrow⟩ | ⟨s, hs, hbefore, j, hstop, hret⟩
  · rw [ProbeTable.insert, hthrow] at hins; cases hins
  · rw [ProbeTable.insert, hret, Outcome.returned.injEq] at hins
    exact ⟨s, hs, hbefore, j, hstop, hins.symm⟩

/-! ### The invariant -/

/-- What the inserts `done` have built, with `limit` the step limit of the inserts. -/
structure Built (Sentinel : Key) (home : Key → UInt64) (limit : ℕ) (done : List (Key × Payload))
    (t : ProbeTable Key Payload BucketSize m) : Prop where
  prefixes : ∀ i, FilledPrefix Sentinel (t.buckets i).keys
  represents : Represents Sentinel t.slots (lastWrite done)
  onWalk : ∀ i j, (t.buckets i).keys j ≠ Sentinel → ∃ d < limit,
    walk home m ((t.buckets i).keys j) d = i ∧
    ∀ d' < d, (t.buckets (walk home m ((t.buckets i).keys j) d')).Passes Sentinel
      ((t.buckets i).keys j)

theorem built_empty [Inhabited Payload] (Sentinel : Key) (home : Key → UInt64) (limit : ℕ) :
    Built Sentinel home limit [] (empty Sentinel : ProbeTable Key Payload BucketSize m) :=
  ⟨fun _ => filledPrefix_const Sentinel, Represents.empty fun _ => rfl, fun _ _ h => absurd rfl h⟩

/-- Where a stored key is, seen from its own walk. -/
theorem Built.stored_onWalk {Sentinel : Key} {home : Key → UInt64} {limit : ℕ}
    {done : List (Key × Payload)} {t : ProbeTable Key Payload BucketSize m}
    (h : Built Sentinel home limit done t) {k : Key} (hk : k ≠ Sentinel) {i : Fin m}
    {j : Fin BucketSize} (hj : (t.buckets i).keys j = k) :
    ∃ d < limit, walk home m k d = i ∧
      ∀ d' < d, (t.buckets (walk home m k d')).Passes Sentinel k := by
  subst hj; exact h.onWalk i j hk

/-- A walk that stops at a free slot has passed every place where the key could be. -/
theorem Built.notStored {Sentinel : Key} {home : Key → UInt64} {limit : ℕ}
    {done : List (Key × Payload)} {t : ProbeTable Key Payload BucketSize m}
    (h : Built Sentinel home limit done t) {key : Key} (hkey : key ≠ Sentinel) {d : ℕ}
    {j : Fin BucketSize}
    (hbefore : ∀ d' < d, (t.buckets (walk home m key d')).Passes Sentinel key)
    (hstop : (t.buckets (walk home m key d)).StopsAt Sentinel key j)
    (hfree : (t.buckets (walk home m key d)).keys j = Sentinel) :
    ∀ a b, (t.buckets a).keys b ≠ key := by
  intro a b hab
  obtain ⟨e, -, hwalk, hpass⟩ := h.stored_onWalk hkey hab
  rcases lt_trichotomy e d with hlt | rfl | hgt
  · have := hbefore e hlt
    rw [hwalk] at this; exact this.2 b hab
  · -- the key would be in the bucket of the free slot, but in front of it there is no copy
    rw [hwalk] at hstop hfree
    rcases lt_or_ge b j with hbj | hjb
    · exact (hstop.2 b hbj).2 hab
    · exact hkey (hab.symm.trans (h.prefixes a j b hjb hfree))
  · exact (hpass d hgt).1 j hfree

/-- Step lemma: one returning insert keeps the invariant. -/
theorem Built.insert {Sentinel : Key} {home : Key → UInt64} {limit : ℕ} {name : String}
    {done : List (Key × Payload)} {t t' : ProbeTable Key Payload BucketSize m}
    (h : Built Sentinel home limit done t) {d : Key × Payload} (hkey : d.1 ≠ Sentinel)
    (hins : ProbeTable.insert Sentinel home limit name d.1 d.2 t = .returned t') :
    Built Sentinel home limit (done ++ [d]) t' := by
  obtain ⟨key, payload⟩ := d
  obtain ⟨s, hs, hbefore, j, hstop, rfl⟩ := insert_returned hins
  refine ⟨?_, ?_, ?_⟩
  · intro a
    rw [keys_write]
    split_ifs with ha
    · exact (h.prefixes _).write hkey fun j' hj' => (hstop.2 j' hj').1
    · exact h.prefixes a
  · rw [slots_write, lastWrite_snoc]
    rcases hstop.1 with hfree | hhit
    · refine h.represents.fill hkey hfree ?_
      rw [h.represents.notStored_iff hkey]
      exact fun p => h.notStored hkey hbefore hstop hfree p.1 p.2
    · exact h.represents.overwrite hkey hhit
  · intro a b hab
    by_cases hp : a = walk home m key s ∧ b = j
    · -- the slot just written
      obtain ⟨rfl, rfl⟩ := hp
      rw [keys_write_self]
      exact ⟨s, hs, rfl, fun d' hd' => passes_write hstop (hbefore d' hd')⟩
    · -- any other slot keeps its key
      rw [keys_write_of_ne hp] at hab ⊢
      obtain ⟨e, he, hwalk, hpass⟩ := h.onWalk a b hab
      exact ⟨e, he, hwalk, fun d' hd' => passes_write hstop (hpass d' hd')⟩

/-- Run lemma: the invariant holds after every run of inserts that returns. -/
theorem built_of_insertAll [Inhabited Payload] {Sentinel : Key} {home : Key → UInt64} {limit : ℕ}
    {name : String} {data : List (Key × Payload)} {t : ProbeTable Key Payload BucketSize m}
    (hdata : ∀ d ∈ data, d.1 ≠ Sentinel)
    (hrun : insertAll (ProbeTable.insert Sentinel home limit name) data (empty Sentinel)
      = .returned t) :
    Built Sentinel home limit data t := by
  refine Outcome.runAll_induction (built_empty Sentinel home limit) ?_ hrun
  intro done d u v hpre hu hv
  exact hu.insert (hdata d (hpre.subset (by simp))) hv

/-! ### Lookups -/

/-- The lookup answers 1 exactly for a stored key that is less than `limit` steps from its home. -/
theorem Built.lookup_eq_one_iff {Sentinel : Key} {home : Key → UInt64} {limit : ℕ}
    {done : List (Key × Payload)} {t : ProbeTable Key Payload BucketSize m}
    (h : Built Sentinel home limit done t) {q : Key} (hq : q ≠ Sentinel) (reach : ℕ) :
    t.operatorSubscript Sentinel home reach q = 1 ↔
      ∃ d < reach, ∃ j, (t.buckets (walk home m q d)).keys j = q := by
  rcases lookupLoop_cases hq t reach ((home q).toNat % m) with
    ⟨hall, hzero⟩ | ⟨s, hs, hbefore, j, hstop, hret⟩
  · rw [operatorSubscript, hzero]
    refine ⟨fun h0 => absurd h0 (by decide), ?_⟩
    rintro ⟨d, hd, j, hj⟩
    exact absurd hj ((hall d hd).2 j)
  · change (t.buckets (walk home m q s)).StopsAt Sentinel q j at hstop
    rw [operatorSubscript, hret]
    change (if (t.buckets (walk home m q s)).keys j = q then 1 else 0) = 1 ↔ _
    constructor
    · intro h1
      split_ifs at h1 with hhit
      exact ⟨s, hs, j, hhit⟩
    · rintro ⟨d, hd, b, hb⟩
      rcases hstop.1 with hfree | hhit
      · exact absurd hb (h.notStored hq hbefore hstop hfree _ b)
      · rw [if_pos hhit]

/-- A lookup returns 0 or 1. -/
theorem operatorSubscript_le_one {Sentinel q : Key} (hq : q ≠ Sentinel) (home : Key → UInt64)
    (reach : ℕ) (t : ProbeTable Key Payload BucketSize m) :
    t.operatorSubscript Sentinel home reach q ≤ 1 := by
  rcases lookupLoop_cases hq t reach ((home q).toNat % m) with ⟨-, hr⟩ | ⟨_, -, -, _, -, hr⟩
  · rw [operatorSubscript, hr]; exact Nat.zero_le 1
  · rw [operatorSubscript, hr]; split_ifs <;> omega

/-- With a lookup limit no smaller than the insert limit the lookup is membership. -/
theorem Built.lookup_eq_one_iff_mem {Sentinel : Key} {home : Key → UInt64} {limit reach : ℕ}
    {done : List (Key × Payload)} {t : ProbeTable Key Payload BucketSize m}
    (h : Built Sentinel home limit done t) (hreach : limit ≤ reach) {q : Key} (hq : q ≠ Sentinel) :
    t.operatorSubscript Sentinel home reach q = 1 ↔ ∃ d ∈ done, d.1 = q := by
  rw [h.lookup_eq_one_iff hq, ← lastWrite_isSome_iff, h.represents.stored_iff hq]
  constructor
  · rintro ⟨d, -, j, hj⟩; exact ⟨(walk home m q d, j), hj⟩
  · rintro ⟨⟨i, j⟩, hj⟩
    obtain ⟨d, hd, hwalk, -⟩ := h.stored_onWalk hq (i := i) (j := j) hj
    exact ⟨d, by omega, j, by rw [hwalk]; exact hj⟩

end ProbeTable
end HashingBenchmark

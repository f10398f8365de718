import Mathlib.Data.Int.CardIntervalMod
import Mathlib.Data.Fintype.Prod

/-! Keys spread over buckets.

    Every key has a home among the buckets. If no bucket is the home of more keys than it has slots
    (`Spread`), each key can be at home, in whatever order they come: in front of a new key its home
    has a free slot (`Spread.lt_of_snoc`). The values of a minimal perfect hash, modulo the number of
    buckets, spread as evenly as possible, so there this holds exactly if there are slots for all keys
    (`MinimalPerfect.spread_iff`), which is necessary for any table with one key per slot
    (`length_le_of_slots`). -/

variable {K ι : Type*}

/-- No bucket is the home of more than `B` of the keys. -/
def Spread [DecidableEq ι] (home : K → ι) (B : ℕ) (keys : List K) : Prop :=
  ∀ i, keys.countP (fun k => home k = i) ≤ B

/-- A key of a list of distinct ones is not among those in front of it. -/
theorem notMem_of_snoc {done keys : List K} {k : K} (h : keys.Nodup) (hp : done ++ [k] <+: keys) :
    k ∉ done := by
  have hsub := hp.sublist.nodup h
  rw [List.nodup_append] at hsub
  exact fun hmem => hsub.2.2 _ hmem _ (List.mem_singleton_self _) rfl

namespace Spread
variable [DecidableEq ι] {home : K → ι} {B : ℕ} {keys keys' : List K}

theorem perm (h : Spread home B keys) (hp : keys'.Perm keys) : Spread home B keys' := fun i => by
  rw [hp.countP_eq]
  exact h i

/-- The keys in front of another one leave a slot of its home free. -/
theorem lt_of_snoc (h : Spread home B keys) {done : List K} {k : K} (hp : done ++ [k] <+: keys) :
    done.countP (fun k' => home k' = home k) < B := by
  have hle := (hp.sublist.countP_le (p := fun k' => decide (home k' = home k))).trans (h (home k))
  rw [List.countP_append, List.countP_singleton, if_pos (decide_eq_true rfl)] at hle
  exact Nat.lt_of_succ_le hle

end Spread

/-- The numbers below `n` with remainder `i`. -/
theorem countP_range_mod {m i : ℕ} (hi : i < m) (n : ℕ) :
    (List.range n).countP (fun r => r % m = i) = n / m + if i < n % m then 1 else 0 := by
  have hcount := Nat.count_modEq_card n (Nat.zero_lt_of_lt hi) i
  rw [Nat.mod_eq_of_lt hi] at hcount
  rw [← hcount, Nat.count]
  refine List.countP_congr fun r _ => ?_
  simp [Nat.ModEq, Nat.mod_eq_of_lt hi]

/-- The hash values of the keys are the numbers below their count, each once. -/
def MinimalPerfect (hash : K → ℕ) (keys : List K) : Prop :=
  (keys.map hash).Perm (List.range keys.length)

instance (hash : K → ℕ) (keys : List K) : Decidable (MinimalPerfect hash keys) :=
  inferInstanceAs (Decidable (List.Perm _ _))

namespace MinimalPerfect
variable {hash : K → ℕ} {keys keys' : List K}

theorem nodup (h : MinimalPerfect hash keys) : keys.Nodup :=
  List.Nodup.of_map hash (h.nodup_iff.mpr List.nodup_range)

theorem perm (h : MinimalPerfect hash keys) (hp : keys'.Perm keys) : MinimalPerfect hash keys' := by
  rw [MinimalPerfect, hp.length_eq]
  exact (hp.map hash).trans h

/-- Modulo `m` no hash value comes more than `B` times, exactly if there are `m * B` slots or more. -/
theorem spread_iff {m B : ℕ} [NeZero m] (h : MinimalPerfect hash keys) :
    Spread (fun k => Fin.ofNat m (hash k)) B keys ↔ keys.length ≤ m * B := by
  have hpos := NeZero.pos m
  have hcount : ∀ i : Fin m, keys.countP (fun k => Fin.ofNat m (hash k) = i)
      = keys.length / m + if i.val < keys.length % m then 1 else 0 := by
    intro i
    rw [← countP_range_mod i.isLt keys.length, ← h.countP_eq, List.countP_map]
    refine List.countP_congr fun k _ => ?_
    simp [Fin.ext_iff]
  have hdiv := Nat.div_add_mod keys.length m
  have hmod := Nat.mod_lt keys.length hpos
  constructor
  · intro h
    have hzero := h 0
    rw [hcount] at hzero
    have hle : m * (keys.length / m + if 0 < keys.length % m then 1 else 0) ≤ m * B :=
      Nat.mul_le_mul_left m hzero
    rw [Nat.mul_add] at hle
    split_ifs at hle <;> omega
  · intro h i
    rw [hcount]
    have hle : keys.length / m ≤ B := Nat.div_le_of_le_mul h
    split_ifs with hlt
    · refine Nat.lt_of_le_of_ne hle fun heq => ?_
      rw [heq] at hdiv
      omega
    · exact hle

end MinimalPerfect

/-- Distinct keys that are all in slots of a table are no more than its slots. -/
theorem length_le_of_slots {m B : ℕ} {keys : List K} (hnodup : keys.Nodup)
    (slot : Fin m → Fin B → K) (hstored : ∀ k ∈ keys, ∃ i j, slot i j = k) :
    keys.length ≤ m * B := by
  choose i j hslot using fun x : Fin keys.length => hstored keys[x] (List.getElem_mem x.isLt)
  have hinj : Function.Injective fun x => (i x, j x) := by
    intro x y hxy
    obtain ⟨hi, hj⟩ := Prod.mk.inj hxy
    have heq : keys[x] = keys[y] := by rw [← hslot x, ← hslot y, hi, hj]
    exact Fin.ext ((List.Nodup.getElem_inj_iff hnodup).mp heq)
  have hcard := Fintype.card_le_of_injective _ hinj
  simpa using hcard

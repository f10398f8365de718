import HashingBenchmark.Join.Size
import HashingBenchmark.Lib.PrefixCount
import HashingBenchmark.Lib.UIntOrder

/-! Counting a join with an index over the sorted keys of R, tuple of S by tuple of S.

    The probes of `npj_join_runner.cpp` over an index differ in how they find the keys of R that are
    equal to the key of a tuple of S; the loop over S is the same, and `matches` runs through it. Such
    a loop returns the size of the join exactly if no probe in it misses a pair
    (`probeRelS_iff`). -/

namespace HashingBenchmark
namespace Inlj
open Join
open scoped UIntOrder

/-- `INT_MAX`. -/
def intMax : ℕ := 2147483647

/-- `sorted_relation_r_keys_only`: the keys of a relation R, in ascending order. -/
structure KeyArray where
  keys : List UInt32
  sorted : keys.Pairwise (· ≤ ·)
  nonempty : keys ≠ []
  fits : keys.length < 2 ^ 63

theorem KeyArray.length_pos (r : KeyArray) : 0 < r.keys.length :=
  List.length_pos_of_ne_nil r.nonempty

/-- The number of pairs of a key and a tuple with this key. -/
def pairs (keys : List UInt32) (S : List Tuple) : ℕ :=
  ((keys ×ˢ S).filter fun p => p.1 = p.2.key).length

theorem pairs_nil (keys : List UInt32) : pairs keys [] = 0 := by
  simp [pairs]

theorem pairs_cons (keys : List UInt32) (t : Tuple) (S : List Tuple) :
    pairs keys (t :: S) = keys.countP (· = t.key) + pairs keys S := by
  simp [pairs, length_filter_product]

/-- The loop over S; `probe` is the body of the loop, for a key and `matches`. -/
def probeRelS {ε : Type} (probe : UInt32 → UInt64 → Except ε UInt64) :
    List Tuple → UInt64 → Except ε UInt64
  | [], matches' => .ok matches'
  | t :: rel_s, matches' =>
    match probe t.key matches' with
    | .error fault => .error fault
    | .ok matches'' => probeRelS probe rel_s matches''

/-- The probe of a key adds all pairs of the key where `good` holds, and otherwise, if it returns,
    fewer. -/
def CountsWhen {ε : Type} (probe : UInt32 → UInt64 → Except ε UInt64) (keys : List UInt32)
    (good : UInt32 → Prop) : Prop :=
  ∀ key matches',
    (good key ∧ probe key matches' = .ok (matches' + UInt64.ofNat (keys.countP (· = key)))) ∨
    (¬ good key ∧ ∀ out, probe key matches' = .ok out →
      ∃ count < keys.countP (· = key), out = matches' + UInt64.ofNat count)

theorem add_ofNat_succ (x : UInt64) (n : ℕ) : x + UInt64.ofNat (n + 1) = x + 1 + UInt64.ofNat n := by
  have hsplit : UInt64.ofNat (n + 1) = 1 + UInt64.ofNat n := by
    rw [Nat.add_comm, UInt64.ofNat_add]; rfl
  rw [hsplit, UInt64.add_assoc]

/-! ### One probe -/

/-- What `CountsWhen` says of one probe: `run` adds `total` where `good` holds, and otherwise, if it
    returns, less. -/
def Adds {ε : Type} (run : Except ε UInt64) (matches' : UInt64) (total : ℕ) (good : Prop) : Prop :=
  (good ∧ run = .ok (matches' + UInt64.ofNat total)) ∨
  (¬ good ∧ ∀ out, run = .ok out → ∃ count < total, out = matches' + UInt64.ofNat count)

namespace Adds
variable {ε : Type} {run : Except ε UInt64} {matches' : UInt64} {total : ℕ} {good : Prop}

theorem all (hgood : good) (hrun : run = .ok (matches' + UInt64.ofNat total)) :
    Adds run matches' total good := .inl ⟨hgood, hrun⟩

theorem fails {e : ε} (hbad : ¬ good) (hrun : run = .error e) :
    Adds run matches' total good := by
  refine .inr ⟨hbad, fun out hout => ?_⟩
  rw [hrun] at hout
  cases hout

theorem less {count : ℕ} (hbad : ¬ good) (hlt : count < total)
    (hrun : run = .ok (matches' + UInt64.ofNat count)) : Adds run matches' total good := by
  refine .inr ⟨hbad, fun out hout => ⟨count, hlt, ?_⟩⟩
  rw [hrun, Except.ok.injEq] at hout
  exact hout.symm

end Adds

/-! ### The loop over S -/

variable {ε : Type} {probe : UInt32 → UInt64 → Except ε UInt64} {keys : List UInt32}
  {good : UInt32 → Prop}

theorem CountsWhen.probeRelS_eq (h : CountsWhen probe keys good) {S : List Tuple}
    (hgood : ∀ t ∈ S, good t.key) (matches' : UInt64) :
    probeRelS probe S matches' = .ok (matches' + UInt64.ofNat (pairs keys S)) := by
  induction S generalizing matches' with
  | nil => simp [probeRelS, pairs_nil]
  | cons t S ih =>
    have hrest : ∀ t' ∈ S, good t'.key := fun t' ht => hgood t' (List.mem_cons_of_mem t ht)
    rcases h t.key matches' with ⟨-, hok⟩ | ⟨hnot, -⟩
    · rw [probeRelS, hok]
      simp only
      rw [ih hrest, pairs_cons, UInt64.ofNat_add, UInt64.add_assoc]
    · exact absurd (hgood t List.mem_cons_self) hnot

/-- A run adds at most all pairs, and less if one of its probes is not good. -/
theorem CountsWhen.le_of_probeRelS (h : CountsWhen probe keys good) {S : List Tuple}
    {matches' out : UInt64} (hrun : probeRelS probe S matches' = .ok out) :
    ∃ count ≤ pairs keys S, out = matches' + UInt64.ofNat count ∧
      (count = pairs keys S → ∀ t ∈ S, good t.key) := by
  induction S generalizing matches' with
  | nil =>
    rw [probeRelS, Except.ok.injEq] at hrun
    exact ⟨0, Nat.zero_le _, by simp [hrun], by simp⟩
  | cons t S ih =>
    rw [probeRelS] at hrun
    cases hprobe : probe t.key matches' with
    | error fault => rw [hprobe] at hrun; cases hrun
    | ok matches'' =>
      rw [hprobe] at hrun
      obtain ⟨count, hle, hout, hall⟩ := ih hrun
      rw [pairs_cons]
      rcases h t.key matches' with ⟨hgood, hok⟩ | ⟨-, hless⟩
      · obtain rfl := Except.ok.inj (hok.symm.trans hprobe)
        refine ⟨keys.countP (· = t.key) + count, by omega, ?_, ?_⟩
        · rw [hout, UInt64.ofNat_add, UInt64.add_assoc]
        · intro heq t' ht'
          rcases List.mem_cons.mp ht' with rfl | ht'
          · exact hgood
          · exact hall (by omega) t' ht'
      · obtain ⟨c, hc, rfl⟩ := hless matches'' hprobe
        refine ⟨c + count, by omega, ?_, by omega⟩
        rw [hout, UInt64.ofNat_add, UInt64.add_assoc]

/-- The loop returns the number of pairs exactly if the number fits in 64 bits and every probe of the
    loop is good. -/
theorem CountsWhen.probeRelS_iff (h : CountsWhen probe keys good) (S : List Tuple) :
    (∃ out, probeRelS probe S 0 = .ok out ∧ out.toNat = pairs keys S) ↔
      pairs keys S < UInt64.size ∧ ∀ t ∈ S, good t.key := by
  constructor
  · rintro ⟨out, hrun, hnat⟩
    have hlt : pairs keys S < UInt64.size := by
      rw [← hnat]; exact out.toNat_lt
    obtain ⟨count, hle, hout, hall⟩ := h.le_of_probeRelS hrun
    refine ⟨hlt, hall ?_⟩
    rw [hout, UInt64.zero_add, UInt64.toNat_ofNat_of_lt' (hle.trans_lt hlt)] at hnat
    exact hnat
  · rintro ⟨hlt, hgood⟩
    refine ⟨_, h.probeRelS_eq hgood 0, ?_⟩
    rw [UInt64.zero_add, UInt64.toNat_ofNat_of_lt' hlt]

end Inlj
end HashingBenchmark

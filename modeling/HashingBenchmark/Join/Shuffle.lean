import HashingBenchmark.Join.Generate
import Mathlib.Logic.Equiv.Fin.Rotate
import Mathlib.Order.Fin.Basic

/-! Which orders `knuth_shuffle` can produce.

    The macro's comment promises a number in `[0, N]`, but its quotient is below 1: the index drawn at
    position `i` is below `i`, and no tuple can be exchanged with itself. The orders that can come out
    are those that move all the tuples in one cycle (`knuth_shuffle_reaches_iff`), one in `n`. -/

namespace HashingBenchmark
namespace Join
open Equiv CycleShuffle

/-- The tuples in the order `σ`: position `p` holds the tuple at position `σ p` of the relation. -/
def Relation.reordered (relation : Relation) (σ : Perm (Fin relation.tuples.length)) :
    List Tuple :=
  List.ofFn fun p => relation.tuples.get (σ p)

/-- `knuth_shuffle` on the whole relation, with the outcomes of `rand()`. -/
def knuthShuffleWith (RAND_MAX : ℕ) (rand : ℕ → Fin (RAND_MAX + 1)) (relation : Relation) :
    Option (List Tuple) :=
  knuthShuffle (Draws.ofRand RAND_MAX rand) ⟨0, relation.tuples.length⟩ relation.tuples

/-- Some outcome of `rand()` draws `d` at the index `i`. -/
def CanDraw (RAND_MAX i d : ℕ) : Prop := ∃ r ≤ RAND_MAX, ⌊RAND_RANGE RAND_MAX r i⌋₊ = d

/-- Up to index `RAND_MAX + 1` everything below the index can be drawn. -/
theorem canDraw_of_lt {RAND_MAX i d : ℕ} (hi : i ≤ RAND_MAX + 1) (hd : d < i) :
    CanDraw RAND_MAX i d := by
  -- the least `r` with `d * (RAND_MAX + 1) ≤ r * i`
  have hle : d * (RAND_MAX + 1) ≤ (d * (RAND_MAX + 1) + (i - 1)) / i * i := by
    have hdiv := Nat.div_add_mod (d * (RAND_MAX + 1) + (i - 1)) i
    have hmod := Nat.mod_lt (d * (RAND_MAX + 1) + (i - 1)) (show 0 < i by omega)
    rw [Nat.mul_comm] at hdiv
    omega
  have hge : (d * (RAND_MAX + 1) + (i - 1)) / i * i ≤ d * (RAND_MAX + 1) + (i - 1) :=
    Nat.div_mul_le_self _ i
  have hsucc : (d + 1) * (RAND_MAX + 1) = d * (RAND_MAX + 1) + (RAND_MAX + 1) := Nat.succ_mul _ _
  refine ⟨(d * (RAND_MAX + 1) + (i - 1)) / i, Nat.lt_succ_iff.1 ?_, ?_⟩
  · rw [Nat.div_lt_iff_lt_mul (by omega)]
    calc d * (RAND_MAX + 1) + (i - 1) < (d + 1) * (RAND_MAX + 1) := by omega
      _ ≤ i * (RAND_MAX + 1) := Nat.mul_le_mul_right _ hd
      _ = (RAND_MAX + 1) * i := Nat.mul_comm _ _
  · rw [floor_RAND_RANGE]
    refine Nat.div_eq_of_lt_le hle ?_
    omega

variable {RAND_MAX : ℕ} {relation : Relation}

theorem knuthShuffleWith_eq (rand : ℕ → Fin (RAND_MAX + 1)) (hpos : 0 < relation.tuples.length) :
    knuthShuffleWith RAND_MAX rand relation
      = some (shuffle (Draws.ofRand RAND_MAX rand).j (relation.tuples.length - 1)
          relation.tuples) := by
  have hlen : relation.tuples.length < 2 ^ 64 := lt_trans relation.fits (by decide)
  have hwindow := knuthShuffle_window (Draws.ofRand RAND_MAX rand) [] [] hpos hlen
  rwa [List.nil_append, List.append_nil, List.nil_append, List.append_nil] at hwindow

theorem getElem?_reordered (σ : Perm (Fin relation.tuples.length))
    (p : Fin relation.tuples.length) :
    (relation.reordered σ)[(p : ℕ)]? = relation.tuples[(σ p : ℕ)]? := by
  have hp : (p : ℕ) < (relation.reordered σ).length := by
    rw [Relation.reordered, List.length_ofFn]
    exact p.isLt
  rw [List.getElem?_eq_getElem hp, List.getElem?_eq_getElem (σ p).isLt]
  simp [Relation.reordered]

/-- A shuffle gives the order `σ` exactly if its exchanges compose to `σ`. -/
theorem knuthShuffleWith_eq_reordered_iff (rand : ℕ → Fin (RAND_MAX + 1))
    (hpos : 0 < relation.tuples.length) (hkeys : (relation.tuples.map (·.key)).Nodup)
    (σ : Perm (Fin relation.tuples.length)) :
    knuthShuffleWith RAND_MAX rand relation = some (relation.reordered σ) ↔
      composed (Draws.ofRand RAND_MAX rand).j (relation.tuples.length - 1) = onPositions σ := by
  have hget := getElem?_shuffle (Draws.ofRand RAND_MAX rand).lt
    (show relation.tuples.length - 1 < relation.tuples.length by omega)
  rw [knuthShuffleWith_eq rand hpos, Option.some.injEq]
  constructor
  · intro heq
    refine Equiv.ext fun p => ?_
    by_cases hp : p < relation.tuples.length
    · have hentry := getElem?_reordered σ ⟨p, hp⟩
      rw [← heq, hget] at hentry
      rw [onPositions_val σ ⟨p, hp⟩]
      exact ((List.getElem?_inj (σ ⟨p, hp⟩).isLt (hkeys.of_map _)).1 hentry.symm).symm
    · rw [onPositions_of_le σ (by omega),
        composed_apply_of_gt (Draws.ofRand RAND_MAX rand).lt (by omega)]
  · intro hcomp
    refine List.ext_getElem? fun k => ?_
    by_cases hk : k < relation.tuples.length
    · rw [hget, hcomp, onPositions_val σ ⟨k, hk⟩]
      exact (getElem?_reordered σ ⟨k, hk⟩).symm
    · rw [List.getElem?_eq_none, List.getElem?_eq_none]
      · rw [Relation.reordered, List.length_ofFn]
        omega
      · rw [(shuffle_perm _ _ _).length_eq]
        omega

/-- The outcomes of `rand()` give all sequences of indices that can be drawn one by one. -/
theorem exists_rand_iff (n : ℕ) (ρ : Perm ℕ) :
    (∃ rand : ℕ → Fin (RAND_MAX + 1), composed (Draws.ofRand RAND_MAX rand).j (n - 1) = ρ) ↔
      ∃ j : ℕ → ℕ, (∀ i, 0 < i → j i < i) ∧ (∀ i, 0 < i → i < n → CanDraw RAND_MAX i (j i)) ∧
        composed j (n - 1) = ρ := by
  constructor
  · rintro ⟨rand, hcomp⟩
    refine ⟨(Draws.ofRand RAND_MAX rand).j, (Draws.ofRand RAND_MAX rand).lt, fun i _ _ => ?_, hcomp⟩
    exact ⟨rand i, Nat.lt_succ_iff.1 (rand i).isLt, rfl⟩
  · rintro ⟨j, -, hdraw, hcomp⟩
    have hr : ∀ i, ∃ r : Fin (RAND_MAX + 1), 0 < i → i < n → ⌊RAND_RANGE RAND_MAX r i⌋₊ = j i := by
      intro i
      by_cases hi : 0 < i ∧ i < n
      · obtain ⟨r, hle, hfloor⟩ := hdraw i hi.1 hi.2
        exact ⟨⟨r, Nat.lt_succ_of_le hle⟩, fun _ _ => hfloor⟩
      · exact ⟨0, fun h h' => absurd ⟨h, h'⟩ hi⟩
    choose rand hrand using hr
    refine ⟨rand, (composed_congr fun i hi him => ?_).trans hcomp⟩
    exact hrand i hi (by omega)

theorem reaches_iff (hpos : 0 < relation.tuples.length)
    (hkeys : (relation.tuples.map (·.key)).Nodup) (σ : Perm (Fin relation.tuples.length)) :
    (∃ rand : ℕ → Fin (RAND_MAX + 1),
        knuthShuffleWith RAND_MAX rand relation = some (relation.reordered σ)) ↔
      (∀ p q, σ.SameCycle p q) ∧ ∀ i d, FirstBelow σ i (σ i) d → CanDraw RAND_MAX i d := by
  simp only [knuthShuffleWith_eq_reordered_iff _ hpos hkeys]
  rw [exists_rand_iff, exists_composed_iff _ hpos]

/-- CORRECT: the orders a shuffle can produce are the single cycles through all positions; for more
    than `RAND_MAX + 2` tuples, those that ask for no index that cannot be drawn. -/
theorem knuth_shuffle_reaches_iff (relation : Relation) (hpos : 1 ≤ relation.tuples.length)
    (hkeys : (relation.tuples.map (·.key)).Nodup) (σ : Perm (Fin relation.tuples.length)) :
    (∃ rand : ℕ → Fin (RAND_MAX + 1),
        knuthShuffleWith RAND_MAX rand relation = some (relation.reordered σ)) ↔
      (∀ p q, σ.SameCycle p q) ∧
        (RAND_MAX + 2 < relation.tuples.length →
          ∀ i d, FirstBelow σ i (σ i) d → CanDraw RAND_MAX i d) := by
  rw [reaches_iff hpos hkeys]
  refine and_congr_right fun _ => ⟨fun h _ => h, fun h i d hd => ?_⟩
  by_cases hlen : RAND_MAX + 2 < relation.tuples.length
  · exact h hlen i d hd
  · exact canDraw_of_lt (by omega) hd.lt

def twoTuples : Relation := ⟨[⟨1, 0⟩, ⟨2, 0⟩], by decide⟩

theorem knuth_shuffle_reaches_swap :
    ∃ rand : ℕ → Fin (2147483647 + 1), knuthShuffleWith 2147483647 rand twoTuples
      = some (twoTuples.reordered (finRotate 2)) := by
  have hkeys : (twoTuples.tuples.map (·.key)).Nodup := by decide
  have hnext : ∀ p q : Fin 2, q = p ∨ q = finRotate 2 p := by decide
  refine (knuth_shuffle_reaches_iff twoTuples (by decide) hkeys (finRotate 2)).2
    ⟨fun p q => ?_, fun hlen => absurd hlen (by decide)⟩
  rcases hnext p q with rfl | rfl
  · exact Perm.SameCycle.rfl
  · exact Perm.SameCycle.rfl.apply_right

/-- Two tuples never keep their order. -/
theorem knuth_shuffle_misses_identity :
    (twoTuples.tuples.map (·.key)).Nodup ∧
      ¬ ∃ rand : ℕ → Fin (2147483647 + 1), knuthShuffleWith 2147483647 rand twoTuples
        = some (twoTuples.reordered 1) := by
  have hkeys : (twoTuples.tuples.map (·.key)).Nodup := by decide
  refine ⟨hkeys, fun hreach => ?_⟩
  have hcycle := ((reaches_iff (by decide) hkeys 1).1 hreach).1 (0 : Fin 2) (1 : Fin 2)
  have hne : (0 : Fin 2) ≠ 1 := by decide
  exact hne (Perm.sameCycle_one.1 hcycle)

end Join
end HashingBenchmark

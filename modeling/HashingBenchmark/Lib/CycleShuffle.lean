import Mathlib.Data.List.Range
import Mathlib.GroupTheory.Perm.Cycle.Basic
import Mathlib.Logic.Equiv.Fin.Basic

/-! The shuffle that exchanges the entry at each position `i`, from the last one down, with the entry
    at a position `j i` below `i`.

    As `j i` is never `i` itself, each exchange hangs position `i` into the cycle of the positions
    below: what such a shuffle makes of a list is one cycle through all its positions
    (`sameCycle_composed`). Each such cycle is made in exactly one way: `j i` is the first position
    below `i` that comes behind `i` on it (`eq_composed`, `firstBelow_composed`). -/

namespace CycleShuffle
open Equiv Equiv.Perm

variable {α β : Type*}

/-- What the exchanges at the positions `m`, …, 1 do: entry `p` of the result is the entry at
    position `composed j m p` before. -/
def composed (j : ℕ → ℕ) : ℕ → Perm ℕ
  | 0 => 1
  | m + 1 => swap (m + 1) (j (m + 1)) * composed j m

/-- Exchange two entries. -/
def exchange (p q : ℕ) (l : List α) : List α :=
  match l[p]?, l[q]? with
  | some a, some b => (l.set p b).set q a
  | _, _ => l

/-- The exchanges at the positions `m`, …, 1. -/
def shuffle (j : ℕ → ℕ) : ℕ → List α → List α
  | 0, l => l
  | m + 1, l => shuffle j m (exchange (m + 1) (j (m + 1)) l)

/-- From `p` on, the cycle of `σ` first comes below `i` at `d`. -/
inductive FirstBelow [LinearOrder α] (σ : Perm α) (i : α) : α → α → Prop
  | here {p : α} : p < i → FirstBelow σ i p p
  | next {p d : α} : i ≤ p → FirstBelow σ i (σ p) d → FirstBelow σ i p d

/-! ### Exchanges -/

theorem exchange_eq {l : List α} {p q : ℕ} {a b : α} (ha : l[p]? = some a) (hb : l[q]? = some b) :
    exchange p q l = (l.set p b).set q a := by
  rw [exchange, ha, hb]

theorem exchange_perm (p q : ℕ) (l : List α) : (exchange p q l).Perm l := by
  rw [exchange]
  split
  case h_1 a b ha hb =>
    obtain ⟨hp, rfl⟩ := List.getElem?_eq_some_iff.1 ha
    obtain ⟨hq, rfl⟩ := List.getElem?_eq_some_iff.1 hb
    exact List.set_set_perm hp hq
  case h_2 => exact List.Perm.refl l

theorem getElem?_exchange {l : List α} {p q : ℕ} (hp : p < l.length) (hq : q < l.length) (k : ℕ) :
    (exchange p q l)[k]? = l[swap p q k]? := by
  rw [exchange_eq (List.getElem?_eq_getElem hp) (List.getElem?_eq_getElem hq),
    List.getElem?_set, List.length_set, List.getElem?_set]
  by_cases hkq : q = k
  · rw [if_pos hkq, if_pos hq, ← hkq, swap_apply_right, List.getElem?_eq_getElem hp]
  · rw [if_neg hkq]
    by_cases hkp : p = k
    · rw [if_pos hkp, if_pos hp, ← hkp, swap_apply_left, List.getElem?_eq_getElem hq]
    · rw [if_neg hkp, swap_apply_of_ne_of_ne (Ne.symm hkp) (Ne.symm hkq)]

theorem shuffle_perm (j : ℕ → ℕ) (m : ℕ) (l : List α) : (shuffle j m l).Perm l := by
  induction m generalizing l with
  | zero => exact List.Perm.refl l
  | succ m ih => exact (ih _).trans (exchange_perm _ _ l)

theorem getElem?_shuffle {j : ℕ → ℕ} (hj : ∀ i, 0 < i → j i < i) {m : ℕ} {l : List α}
    (hm : m < l.length) (k : ℕ) : (shuffle j m l)[k]? = l[composed j m k]? := by
  induction m generalizing l with
  | zero => rfl
  | succ m ih =>
    have hlt : j (m + 1) < m + 1 := hj (m + 1) m.succ_pos
    have hlen : (exchange (m + 1) (j (m + 1)) l).length = l.length :=
      (exchange_perm _ _ l).length_eq
    rw [shuffle, ih (by omega), getElem?_exchange hm (by omega), composed, Perm.mul_apply]

/-! ### Cycles -/

/-- A map that takes each step of `σ` into one cycle of `ρ` takes the cycles of `σ` into cycles of
    `ρ`. -/
theorem sameCycle_map {σ : Perm α} {ρ : Perm β} (r : α → β)
    (hstep : ∀ z, ρ.SameCycle (r z) (r (σ z))) {x y : α} (h : σ.SameCycle x y) :
    ρ.SameCycle (r x) (r y) := by
  obtain ⟨i, rfl⟩ := h
  induction i using Int.induction_on with
  | zero => exact SameCycle.rfl
  | succ i ih =>
    have hsucc := hstep ((σ ^ (i : ℤ)) x)
    rw [← Perm.mul_apply, ← zpow_one_add, add_comm] at hsucc
    exact ih.trans hsucc
  | pred i ih =>
    have hpred := hstep ((σ ^ (-(i : ℤ) - 1)) x)
    rw [← Perm.mul_apply, ← zpow_one_add, add_sub_cancel] at hpred
    exact ih.trans hpred.symm

section Insert
variable [DecidableEq α] {ρ : Perm α} {m d : α}

theorem swap_mul_apply_self (hm : ρ m = m) : (swap m d * ρ) m = d := by
  rw [Perm.mul_apply, hm, swap_apply_left]

theorem swap_mul_apply_of_eq {p : α} (hp : ρ p = d) : (swap m d * ρ) p = m := by
  rw [Perm.mul_apply, hp, swap_apply_right]

theorem swap_mul_apply_of_ne {p : α} (hm : ρ m = m) (hpm : p ≠ m) (hp : ρ p ≠ d) :
    (swap m d * ρ) p = ρ p := by
  have hne : ρ p ≠ m := fun h => hpm (ρ.injective (h.trans hm.symm))
  rw [Perm.mul_apply, swap_apply_of_ne_of_ne hne hp]

/-- Hanging `m` in before `d` keeps the cycles. -/
theorem SameCycle.insert (hm : ρ m = m) {x y : α} (h : ρ.SameCycle x y) :
    (swap m d * ρ).SameCycle x y := by
  refine sameCycle_map id (fun z => ?_) h
  rw [id, id]
  by_cases hzm : z = m
  · rw [hzm, hm]
  · by_cases hz : ρ z = d
    · have htwo : (swap m d * ρ) ((swap m d * ρ) z) = ρ z := by
        rw [swap_mul_apply_of_eq hz, swap_mul_apply_self hm, hz]
      rw [← htwo]
      exact SameCycle.rfl.apply_right.apply_right
    · rw [← swap_mul_apply_of_ne hm hzm hz]
      exact SameCycle.rfl.apply_right

/-- Taking `m` out keeps the cycles of the others. -/
theorem SameCycle.remove (hm : ρ m = m) {x y : α} (hx : x ≠ m) (hy : y ≠ m)
    (h : (swap m d * ρ).SameCycle x y) : ρ.SameCycle x y := by
  have hmap : ρ.SameCycle (if x = m then d else x) (if y = m then d else y) := by
    refine sameCycle_map (fun z => if z = m then d else z) (fun z => ?_) h
    by_cases hzm : z = m
    · rw [hzm, swap_mul_apply_self hm, if_pos rfl, ite_self]
    · by_cases hz : ρ z = d
      · rw [swap_mul_apply_of_eq hz, if_neg hzm, if_pos rfl, ← hz]
        exact SameCycle.rfl.apply_right
      · have hne : ρ z ≠ m := fun h => hzm (ρ.injective (h.trans hm.symm))
        rw [swap_mul_apply_of_ne hm hzm hz, if_neg hzm, if_neg hne]
        exact SameCycle.rfl.apply_right
  rwa [if_neg hx, if_neg hy] at hmap

end Insert

/-! ### The first position below -/

theorem FirstBelow.lt [LinearOrder α] {σ : Perm α} {i p d : α} (h : FirstBelow σ i p d) :
    d < i := by
  induction h with
  | here hlt => exact hlt
  | next _ _ ih => exact ih

theorem FirstBelow.unique [LinearOrder α] {σ : Perm α} {i p d e : α} (h : FirstBelow σ i p d)
    (h' : FirstBelow σ i p e) : d = e := by
  induction h with
  | here hlt =>
    cases h' with
    | here => rfl
    | next hle => exact absurd hlt hle.not_gt
  | next hle _ ih =>
    cases h' with
    | here hlt => exact absurd hlt hle.not_gt
    | next _ h' => exact ih h'

theorem FirstBelow.next_iff [LinearOrder α] {σ : Perm α} {i p d : α} (hle : i ≤ p) :
    FirstBelow σ i p d ↔ FirstBelow σ i (σ p) d := by
  constructor
  · intro h
    cases h with
    | here hlt => exact absurd hlt hle.not_gt
    | next _ h => exact h
  · exact .next hle

/-- Hanging `m` in does not change where the cycle comes below an `i` below `m`. -/
theorem FirstBelow.insert [LinearOrder α] {ρ : Perm α} {m i p e : α} (d : α) (hm : ρ m = m)
    (him : i < m) (hpm : p ≠ m) (h : FirstBelow ρ i p e) : FirstBelow (swap m d * ρ) i p e := by
  induction h with
  | here hlt => exact .here hlt
  | @next p e hle _ ih =>
    have hne : ρ p ≠ m := fun h => hpm (ρ.injective (h.trans hm.symm))
    refine .next hle ?_
    by_cases hp : ρ p = d
    · rw [swap_mul_apply_of_eq hp]
      refine .next him.le ?_
      have hback : (swap m d * ρ) m = ρ p := (swap_mul_apply_self hm).trans hp.symm
      rw [hback]
      exact ih hne
    · rw [swap_mul_apply_of_ne hm hpm hp]
      exact ih hne

/-! ### What is composed -/

variable {j : ℕ → ℕ}

theorem composed_congr {j' : ℕ → ℕ} {m : ℕ} (h : ∀ i, 0 < i → i ≤ m → j i = j' i) :
    composed j m = composed j' m := by
  induction m with
  | zero => rfl
  | succ m ih =>
    rw [composed, composed, h (m + 1) m.succ_pos le_rfl, ih fun i hi him => h i hi (by omega)]

/-- The positions above `m` keep their entries. -/
theorem composed_apply_of_gt (hj : ∀ i, 0 < i → j i < i) {m p : ℕ} (hp : m < p) :
    composed j m p = p := by
  induction m with
  | zero => rfl
  | succ m ih =>
    have hlt : j (m + 1) < m + 1 := hj (m + 1) m.succ_pos
    rw [composed, Perm.mul_apply, ih (by omega), swap_apply_of_ne_of_ne (by omega) (by omega)]

/-- All positions are on one cycle. -/
theorem sameCycle_composed (hj : ∀ i, 0 < i → j i < i) {m p : ℕ} (hp : p ≤ m) :
    (composed j m).SameCycle 0 p := by
  induction m generalizing p with
  | zero =>
    obtain rfl : p = 0 := by omega
    exact SameCycle.rfl
  | succ m ih =>
    have hlt : j (m + 1) < m + 1 := hj (m + 1) m.succ_pos
    have hfix : composed j m (m + 1) = m + 1 := composed_apply_of_gt hj m.lt_succ_self
    rcases Nat.lt_succ_iff_lt_or_eq.1 (Nat.lt_succ_of_le hp) with hpm | rfl
    · exact SameCycle.insert hfix (ih (by omega))
    · have hd : (composed j (m + 1)).SameCycle 0 (j (m + 1)) :=
        SameCycle.insert hfix (ih (by omega))
      have hnext : composed j (m + 1) (m + 1) = j (m + 1) := swap_mul_apply_self hfix
      rw [← hnext] at hd
      exact hd.trans SameCycle.rfl.apply_left

/-- Each exchange is with the first position below that the cycle comes to. -/
theorem firstBelow_composed (hj : ∀ i, 0 < i → j i < i) {m i : ℕ} (hpos : 0 < i) (him : i ≤ m) :
    FirstBelow (composed j m) i (composed j m i) (j i) := by
  induction m with
  | zero => omega
  | succ m ih =>
    have hfix : composed j m (m + 1) = m + 1 := composed_apply_of_gt hj m.lt_succ_self
    rcases Nat.lt_succ_iff_lt_or_eq.1 (Nat.lt_succ_of_le him) with hlt | rfl
    · have hbefore : FirstBelow (composed j m) i i (j i) := .next le_rfl (ih (by omega))
      have hafter : FirstBelow (composed j (m + 1)) i i (j i) :=
        hbefore.insert _ hfix (by omega) (by omega)
      exact (FirstBelow.next_iff le_rfl).1 hafter
    · have hnext : composed j (m + 1) (m + 1) = j (m + 1) := swap_mul_apply_self hfix
      rw [hnext]
      exact .here (hj (m + 1) hpos)

section Top
variable {m : ℕ} {σ : Perm ℕ}

/-- On a cycle through all positions up to `m + 1` a position below comes behind the last one. -/
theorem apply_last_lt (hfix : ∀ p, m + 1 < p → σ p = p) (hcycle : σ.SameCycle 0 (m + 1)) :
    σ (m + 1) < m + 1 := by
  have hne : σ (m + 1) ≠ m + 1 := fun h => absurd (hcycle.eq_of_right h) (Nat.succ_ne_zero m).symm
  by_contra hge
  have hgt : m + 1 < σ (m + 1) := by omega
  exact hne (σ.injective (hfix (σ (m + 1)) hgt))

/-- Without the last position, `σ` fixes it too. -/
theorem swap_mul_apply_of_gt (hfix : ∀ p, m + 1 < p → σ p = p) (hlt : σ (m + 1) < m + 1) {p : ℕ}
    (hp : m < p) : (swap (m + 1) (σ (m + 1)) * σ) p = p := by
  rw [Perm.mul_apply]
  rcases Nat.lt_or_eq_of_le (Nat.succ_le_of_lt hp) with hgt | rfl
  · rw [hfix p hgt, swap_apply_of_ne_of_ne (Nat.ne_of_gt hgt) (by omega)]
  · exact swap_apply_right (m + 1) (σ (m + 1))

/-- Every cycle through all positions up to `m` is composed of such exchanges. -/
theorem eq_composed (hfix : ∀ p, m < p → σ p = p) (hcycle : ∀ p, p ≤ m → σ.SameCycle 0 p) :
    ∃ j : ℕ → ℕ, (∀ i, 0 < i → j i < i) ∧ σ = composed j m := by
  induction m generalizing σ with
  | zero =>
    refine ⟨fun _ => 0, fun i hi => hi, Equiv.ext fun p => ?_⟩
    rcases Nat.eq_zero_or_pos p with rfl | hp
    · by_contra hne
      have hpos : 0 < σ 0 := Nat.pos_of_ne_zero hne
      exact hne (σ.injective (hfix (σ 0) hpos))
    · exact hfix p hp
  | succ m ih =>
    have hlt : σ (m + 1) < m + 1 := apply_last_lt hfix (hcycle (m + 1) le_rfl)
    -- `σ` without the position `m + 1`
    let ρ : Perm ℕ := swap (m + 1) (σ (m + 1)) * σ
    have hσ : swap (m + 1) (σ (m + 1)) * ρ = σ := swap_mul_self_mul _ _ σ
    have hρ : ∀ p, m < p → ρ p = p := fun p hp => swap_mul_apply_of_gt hfix hlt hp
    have hρcycle : ∀ p, p ≤ m → ρ.SameCycle 0 p := by
      intro p hp
      have hbig : (swap (m + 1) (σ (m + 1)) * ρ).SameCycle 0 p := by
        rw [hσ]
        exact hcycle p (by omega)
      exact SameCycle.remove (hρ (m + 1) m.lt_succ_self) (by omega) (by omega) hbig
    obtain ⟨j, hj, hcomp⟩ := ih hρ hρcycle
    refine ⟨Function.update j (m + 1) (σ (m + 1)), fun i hi => ?_, ?_⟩
    · by_cases him : i = m + 1
      · rw [him, Function.update_self]
        exact hlt
      · rw [Function.update_of_ne him]
        exact hj i hi
    · have hbelow : composed (Function.update j (m + 1) (σ (m + 1))) m = composed j m :=
        composed_congr fun i _ him => Function.update_of_ne (by omega) _ _
      rw [composed, Function.update_self, hbelow, ← hcomp, hσ]

end Top

/-! ### Permutations of the first positions -/

/-- A permutation of the first `n` positions, as one of all positions. -/
def onPositions {n : ℕ} (σ : Perm (Fin n)) : Perm ℕ := σ.extendDomain Fin.equivSubtype

section OnPositions
variable {n : ℕ} {σ : Perm (Fin n)}

theorem onPositions_val (σ : Perm (Fin n)) (p : Fin n) : onPositions σ p = σ p :=
  extendDomain_apply_image σ Fin.equivSubtype p

theorem onPositions_of_le (σ : Perm (Fin n)) {p : ℕ} (hp : n ≤ p) : onPositions σ p = p :=
  extendDomain_apply_not_subtype σ Fin.equivSubtype hp.not_gt

theorem sameCycle_onPositions {p q : Fin n} :
    (onPositions σ).SameCycle p q ↔ σ.SameCycle p q :=
  sameCycle_extendDomain (f := Fin.equivSubtype)

theorem FirstBelow.onPositions {i p d : Fin n} (h : FirstBelow σ i p d) :
    FirstBelow (onPositions σ) (i : ℕ) p d := by
  induction h with
  | here hlt => exact .here hlt
  | next hle _ ih =>
    rw [← onPositions_val] at ih
    exact .next hle ih

theorem FirstBelow.of_onPositions {i p : Fin n} {q d : ℕ}
    (h : FirstBelow (CycleShuffle.onPositions σ) (i : ℕ) q d) (hq : q = p) :
    ∃ e : Fin n, d = e ∧ FirstBelow σ i p e := by
  induction h generalizing p with
  | here hlt =>
    rw [hq] at hlt
    exact ⟨p, hq, .here hlt⟩
  | next hle _ ih =>
    rw [hq] at hle
    obtain ⟨e, rfl, h⟩ := ih (hq ▸ onPositions_val σ p)
    exact ⟨e, rfl, .next hle h⟩

/-- The permutations composed of exchanges with positions that `P` allows: the single cycles that
    come below each position first at one that `P` allows. -/
theorem exists_composed_iff (P : ℕ → ℕ → Prop) (hpos : 0 < n) :
    (∃ j : ℕ → ℕ, (∀ i, 0 < i → j i < i) ∧ (∀ i, 0 < i → i < n → P i (j i)) ∧
        composed j (n - 1) = onPositions σ) ↔
      (∀ p q, σ.SameCycle p q) ∧ ∀ i d : Fin n, FirstBelow σ i (σ i) d → P i d := by
  constructor
  · rintro ⟨j, hj, hP, hcomp⟩
    have hfrom : ∀ p : Fin n, σ.SameCycle ⟨0, hpos⟩ p := by
      intro p
      have hp : (composed j (n - 1)).SameCycle 0 p := sameCycle_composed hj (by omega)
      rw [hcomp] at hp
      exact sameCycle_onPositions.1 hp
    refine ⟨fun p q => (hfrom p).symm.trans (hfrom q), fun i d hd => ?_⟩
    have hi : 0 < (i : ℕ) := Nat.zero_lt_of_lt hd.lt
    have hfirst : FirstBelow (composed j (n - 1)) i (composed j (n - 1) i) (j i) :=
      firstBelow_composed hj hi (by omega)
    rw [hcomp, onPositions_val] at hfirst
    rw [hd.onPositions.unique hfirst]
    exact hP i hi i.isLt
  · rintro ⟨hcycle, hP⟩
    have hfix : ∀ p, n - 1 < p → onPositions σ p = p :=
      fun p hp => onPositions_of_le σ (by omega)
    have hsame : ∀ p, p ≤ n - 1 → (onPositions σ).SameCycle 0 p := by
      intro p hp
      have hlt : p < n := by omega
      exact sameCycle_onPositions.2 (hcycle ⟨0, hpos⟩ ⟨p, hlt⟩)
    obtain ⟨j, hj, hcomp⟩ := eq_composed hfix hsame
    refine ⟨j, hj, fun i hi hin => ?_, hcomp.symm⟩
    have hfirst : FirstBelow (composed j (n - 1)) i (composed j (n - 1) i) (j i) :=
      firstBelow_composed hj hi (by omega)
    rw [← hcomp] at hfirst
    obtain ⟨e, heq, he⟩ := hfirst.of_onPositions (i := ⟨i, hin⟩) (onPositions_val σ ⟨i, hin⟩)
    rw [heq]
    exact hP ⟨i, hin⟩ e he

end OnPositions

end CycleShuffle

import Mathlib.Data.Set.Lattice
import Mathlib.Order.CompletePartialOrder
import Mathlib.Logic.Function.Iterate
import Mathlib.Logic.Function.Basic

/-! Critical sections under spin locks, and when they are atomic.

    Threads with private registers `R` share a memory of cells `A → B` and locks `ι`. A thread that
    is outside of its critical sections tries to take the lock that its registers name, by a test and
    set; inside, every turn of it is one step of the section's body, and the last turn gives the lock
    back. A `schedule` is the list of the threads whose turns come one after the other.

    An invariant of the states between sections makes the sections atomic (`Atomic`) if each of them
    ends, stays in a footprint of cells, and sections under different locks have disjoint footprints.
    Then every interleaving simulates a run of whole sections, in the order in which the locks are
    given back (`Atomic.simulates`), at most one thread is inside a section of a lock
    (`Simulates.exclusive`), and no thread waits forever (`Atomic.exists_section`). -/

namespace SpinLock
variable {Tid ι A B R : Type*}

/-- What the threads do: the lock of the next section, if there is one, the body of a section step
    by step, where it ends, and how the registers look behind it. -/
structure Program (Tid ι A B R : Type*) where
  lockOf : Tid → R → Option ι
  body : Tid → R → (A → B) → R × (A → B)
  atEnd : R → Bool
  leave : R → R

structure Machine (Tid ι A B R : Type*) where
  latch : ι → Bool
  memory : A → B
  inside : Tid → Bool
  regs : Tid → R

section Turn
variable [DecidableEq Tid] [DecidableEq ι]

/-- `tas`: the old value of the lock, which is set now. -/
def tas (i : ι) (s : Machine Tid ι A B R) : Bool × Machine Tid ι A B R :=
  (s.latch i, { s with latch := Function.update s.latch i true })

/-- One turn of a thread: an attempt to take its lock, a step of the body, or the unlock. -/
def turn (P : Program Tid ι A B R) (t : Tid) (s : Machine Tid ι A B R) : Machine Tid ι A B R :=
  match P.lockOf t (s.regs t) with
  | none => s
  | some i =>
    if s.inside t then
      if P.atEnd (s.regs t) then
        { s with latch := Function.update s.latch i false,
                 inside := Function.update s.inside t false,
                 regs := Function.update s.regs t (P.leave (s.regs t)) }
      else
        let (r, memory) := P.body t (s.regs t) s.memory
        { s with regs := Function.update s.regs t r, memory := memory }
    else
      let (res, s) := tas i s
      { s with inside := Function.update s.inside t (!res) }

/-- The turns of a schedule. -/
def turns (P : Program Tid ι A B R) (schedule : List Tid) (s : Machine Tid ι A B R) :
    Machine Tid ι A B R := schedule.foldl (fun s t => turn P t s) s

theorem turns_append (P : Program Tid ι A B R) (l l' : List Tid) (s : Machine Tid ι A B R) :
    turns P (l ++ l') s = turns P l' (turns P l s) := List.foldl_append

end Turn

/-! ### One section -/

/-- So many steps of the body. -/
def steps (P : Program Tid ι A B R) (t : Tid) (k : ℕ) (x : R × (A → B)) : R × (A → B) :=
  (fun x => P.body t x.1 x.2)^[k] x

/-- The first steps of a section do not reach its end. -/
def Within (P : Program Tid ι A B R) (t : Tid) (k : ℕ) (x : R × (A → B)) : Prop :=
  ∀ j < k, P.atEnd (steps P t j x).1 = false

/-- The section that starts with the registers and the memory `x` ends after `k` steps. -/
def EndsAfter (P : Program Tid ι A B R) (t : Tid) (k : ℕ) (x : R × (A → B)) : Prop :=
  Within P t k x ∧ P.atEnd (steps P t k x).1 = true

/-- The section that starts with `x` ends with the registers and the memory `y`. -/
def Ends (P : Program Tid ι A B R) (t : Tid) (x y : R × (A → B)) : Prop :=
  ∃ k, EndsAfter P t k x ∧ steps P t k x = y

section Steps
variable {P : Program Tid ι A B R} {t : Tid} {k l : ℕ} {x : R × (A → B)}

@[simp] theorem steps_zero : steps P t 0 x = x := rfl

theorem steps_succ : steps P t (k + 1) x = P.body t (steps P t k x).1 (steps P t k x).2 :=
  Function.iterate_succ_apply' _ k x

theorem Within.zero : Within P t 0 x := fun _ hj => absurd hj (Nat.not_lt_zero _)

theorem Within.succ (h : Within P t k x) (hend : P.atEnd (steps P t k x).1 = false) :
    Within P t (k + 1) x := by
  intro j hj
  rcases Nat.lt_succ_iff_lt_or_eq.mp hj with hlt | rfl
  · exact h j hlt
  · exact hend

theorem Within.mono (h : Within P t k x) (hl : l ≤ k) : Within P t l x :=
  fun j hj => h j (hj.trans_le hl)

/-- The end of a section comes after its steps so far. -/
theorem Within.le (h : Within P t k x) (hend : EndsAfter P t l x) : k ≤ l := by
  by_contra hlt
  have hfalse := h l (not_le.mp hlt)
  rw [hend.2] at hfalse
  cases hfalse

theorem Ends.refl (h : P.atEnd x.1 = true) : Ends P t x x := ⟨0, ⟨.zero, h⟩, rfl⟩

/-- A section is one step and the rest of it. -/
theorem Ends.step {y : R × (A → B)} (hx : P.atEnd x.1 = false) (h : Ends P t (P.body t x.1 x.2) y) :
    Ends P t x y := by
  obtain ⟨k, ⟨hk, hend⟩, rfl⟩ := h
  refine ⟨k + 1, ⟨fun j hj => ?_, hend⟩, rfl⟩
  cases j with
  | zero => exact hx
  | succ j => exact hk j (Nat.lt_of_succ_lt_succ hj)

theorem EndsAfter.unique (h : EndsAfter P t k x) (h' : EndsAfter P t l x) : k = l :=
  Nat.le_antisymm (h.1.le h') (h'.1.le h)

end Steps

/-! ### Atomicity -/

/-- The invariant `Inv` of the states between sections, with the list of the sections so far, makes
    sections with the footprints `foot` atomic. -/
structure Atomic [DecidableEq Tid] (P : Program Tid ι A B R)
    (Inv : List Tid → (A → B) → (Tid → R) → Prop) (foot : Tid → R → (A → B) → Set A) : Prop where
  lockOf_body : ∀ t r m, P.lockOf t (P.body t r m).1 = P.lockOf t r
  foot_congr : ∀ {t r m m'}, (∀ a ∈ foot t r m, m' a = m a) → foot t r m' = foot t r m
  disjoint : ∀ {done m rs t u i j}, Inv done m rs → P.lockOf t (rs t) = some i →
    P.lockOf u (rs u) = some j → t ≠ u → i ≠ j → Disjoint (foot t (rs t) m) (foot u (rs u) m)
  ends : ∀ {done m rs t}, Inv done m rs → (P.lockOf t (rs t)).isSome → ∃ y,
    Ends P t (rs t, m) y ∧ Inv (done ++ [t]) y.2 (Function.update rs t (P.leave y.1))
  stays : ∀ {done m rs t k}, Inv done m rs → (P.lockOf t (rs t)).isSome →
    Within P t (k + 1) (rs t, m) → ∀ m₁,
    (∀ a ∈ foot t (rs t) m, m₁ a = (steps P t k (rs t, m)).2 a) →
    (P.body t (steps P t k (rs t, m)).1 m₁).1 = (steps P t (k + 1) (rs t, m)).1 ∧
    (∀ a ∈ foot t (rs t) m, (P.body t (steps P t k (rs t, m)).1 m₁).2 a
      = (steps P t (k + 1) (rs t, m)).2 a) ∧
    ∀ a ∉ foot t (rs t) m, (P.body t (steps P t k (rs t, m)).1 m₁).2 a = m₁ a

/-- The state `s` in the middle of sections, and the memory `m` and the registers `rs` from which
    these sections have started. -/
structure Simulates (P : Program Tid ι A B R) (foot : Tid → R → (A → B) → Set A) (m : A → B)
    (rs : Tid → R) (s : Machine Tid ι A B R) : Prop where
  outside : ∀ t, s.inside t = false → s.regs t = rs t
  inside : ∀ t, s.inside t = true → ∃ k, Within P t k (rs t, m) ∧
    s.regs t = (steps P t k (rs t, m)).1 ∧
    ∀ a ∈ foot t (rs t) m, s.memory a = (steps P t k (rs t, m)).2 a
  rest : ∀ a, (∀ t, s.inside t = true → a ∉ foot t (rs t) m) → s.memory a = m a
  latched : ∀ i, s.latch i = true ↔ ∃ t, s.inside t = true ∧ P.lockOf t (rs t) = some i
  locked : ∀ t, s.inside t = true → (P.lockOf t (rs t)).isSome
  exclusive : ∀ t u i, s.inside t = true → s.inside u = true → P.lockOf t (rs t) = some i →
    P.lockOf u (rs u) = some i → t = u

theorem simulates_outside (P : Program Tid ι A B R) (foot : Tid → R → (A → B) → Set A) (m : A → B)
    (rs : Tid → R) : Simulates P foot m rs ⟨fun _ => false, m, fun _ => false, rs⟩ :=
  have hnot : ∀ {p : Prop}, false = true → p := fun h => absurd h Bool.false_ne_true
  ⟨fun _ _ => rfl, fun _ h => hnot h, fun _ _ => rfl,
    fun _ => ⟨fun h => hnot h, fun ⟨_, h, _⟩ => hnot h⟩, fun _ h => hnot h, fun _ _ _ h => hnot h⟩

section Runs
variable [DecidableEq Tid] {P : Program Tid ι A B R}
  {Inv : List Tid → (A → B) → (Tid → R) → Prop} {foot : Tid → R → (A → B) → Set A}
  {done : List Tid} {m : A → B} {rs : Tid → R}

namespace Atomic
variable (h : Atomic P Inv foot)
include h

theorem lockOf_steps (t : Tid) (k : ℕ) (x : R × (A → B)) :
    P.lockOf t (steps P t k x).1 = P.lockOf t x.1 := by
  induction k with
  | zero => rfl
  | succ k ih => rw [steps_succ, h.lockOf_body, ih]

/-- A section changes its footprint only. -/
theorem steps_of_notMem (hinv : Inv done m rs) {t : Tid} (hlock : (P.lockOf t (rs t)).isSome) {k : ℕ}
    (hk : Within P t k (rs t, m)) {a : A} (ha : a ∉ foot t (rs t) m) :
    (steps P t k (rs t, m)).2 a = m a := by
  induction k with
  | zero => rfl
  | succ k ih =>
    rw [steps_succ, (h.stays hinv hlock hk _ fun _ _ => rfl).2.2 a ha, ih (hk.mono (Nat.le_succ k))]

/-- A section does the same from a memory that agrees on its footprint. -/
theorem steps_congr (hinv : Inv done m rs) {t : Tid} (hlock : (P.lockOf t (rs t)).isSome)
    {m' : A → B} (hsame : ∀ a ∈ foot t (rs t) m, m' a = m a) {k : ℕ}
    (hk : Within P t k (rs t, m)) :
    (steps P t k (rs t, m')).1 = (steps P t k (rs t, m)).1 ∧
    ∀ a ∈ foot t (rs t) m, (steps P t k (rs t, m')).2 a = (steps P t k (rs t, m)).2 a := by
  induction k with
  | zero => exact ⟨rfl, hsame⟩
  | succ k ih =>
    obtain ⟨hregs, hmem⟩ := ih (hk.mono (Nat.le_succ k))
    obtain ⟨hregs', hmem', -⟩ := h.stays hinv hlock hk _ hmem
    rw [steps_succ, hregs]
    exact ⟨hregs', hmem'⟩

/-! ### The three kinds of turns -/

variable {s : Machine Tid ι A B R}

/-- One more step of a section in the middle of the others. -/
theorem body_eq (hinv : Inv done m rs) {t : Tid} (hlock : (P.lockOf t (rs t)).isSome) {k : ℕ}
    (hk : Within P t k (rs t, m)) (hregs : s.regs t = (steps P t k (rs t, m)).1)
    (hmem : ∀ a ∈ foot t (rs t) m, s.memory a = (steps P t k (rs t, m)).2 a)
    (hend : P.atEnd (s.regs t) = false) :
    Within P t (k + 1) (rs t, m) ∧
    (P.body t (s.regs t) s.memory).1 = (steps P t (k + 1) (rs t, m)).1 ∧
    (∀ a ∈ foot t (rs t) m,
      (P.body t (s.regs t) s.memory).2 a = (steps P t (k + 1) (rs t, m)).2 a) ∧
    ∀ a ∉ foot t (rs t) m, (P.body t (s.regs t) s.memory).2 a = s.memory a := by
  rw [hregs] at hend ⊢
  have hk' := hk.succ hend
  exact ⟨hk', h.stays hinv hlock hk' _ hmem⟩

/-- A step of the body. -/
theorem simulates_body (hinv : Inv done m rs) (hs : Simulates P foot m rs s) {t : Tid}
    (ht : s.inside t = true) (hend : P.atEnd (s.regs t) = false) :
    Simulates P foot m rs
      { s with regs := Function.update s.regs t (P.body t (s.regs t) s.memory).1,
               memory := (P.body t (s.regs t) s.memory).2 } := by
  have hlock := hs.locked t ht
  obtain ⟨k, hk, hregs, hmem⟩ := hs.inside t ht
  obtain ⟨hk', hstep, hfoot, hframe⟩ := h.body_eq hinv hlock hk hregs hmem hend
  refine ⟨fun u hu => ?_, fun u hu => ?_, fun a ha => ?_, hs.latched, hs.locked, hs.exclusive⟩
  · have hne : u ≠ t := by
      rintro rfl
      exact absurd (ht.symm.trans hu) (by simp)
    simp only [Function.update_of_ne hne]
    exact hs.outside u hu
  · rcases eq_or_ne u t with rfl | hne
    · refine ⟨k + 1, hk', ?_, hfoot⟩
      simp only [Function.update_self]
      exact hstep
    · obtain ⟨l, hl, hregs', hmem'⟩ := hs.inside u hu
      refine ⟨l, hl, ?_, fun a ha => ?_⟩
      · simp only [Function.update_of_ne hne]
        exact hregs'
      · obtain ⟨i, hi⟩ := Option.isSome_iff_exists.mp hlock
        obtain ⟨j, hj⟩ := Option.isSome_iff_exists.mp (hs.locked u hu)
        have hij : i ≠ j := by
          rintro rfl
          exact hne (hs.exclusive u t i hu ht hj hi)
        have hdisj := h.disjoint hinv hi hj hne.symm hij
        exact (hframe a (Set.disjoint_right.mp hdisj ha)).trans (hmem' a ha)
  · exact (hframe a (ha t ht)).trans (hs.rest a ha)

/-- An attempt to take a lock: it fails, or the thread is inside now. -/
theorem simulates_tas [DecidableEq ι] (hinv : Inv done m rs) (hs : Simulates P foot m rs s) {t : Tid} {i : ι}
    (ht : s.inside t = false) (hi : P.lockOf t (s.regs t) = some i) :
    Simulates P foot m rs { (tas i s).2 with inside := Function.update s.inside t (!(tas i s).1) } := by
  have hregs := hs.outside t ht
  rw [hregs] at hi
  cases hlatch : s.latch i with
  | true =>
    have hsame : Function.update s.latch i true = s.latch := by
      rw [← hlatch, Function.update_eq_self]
    have hin : Function.update s.inside t false = s.inside := by
      rw [← ht, Function.update_eq_self]
    simp only [tas, hlatch, hsame, Bool.not_true, hin]
    exact hs
  | false =>
    -- nobody is inside of a section under this lock
    have hfree : ∀ u, s.inside u = true → P.lockOf u (rs u) ≠ some i := fun u hu hui =>
      absurd ((hs.latched i).mpr ⟨u, hu, hui⟩) (by simp [hlatch])
    simp only [tas, hlatch, Bool.not_false]
    have hmem : ∀ u, Function.update s.inside t true u = true ↔ u = t ∨ s.inside u = true := by
      intro u
      rcases eq_or_ne u t with rfl | hne
      · simp
      · simp [hne]
    refine ⟨fun u hu => ?_, fun u hu => ?_, fun a ha => ?_, fun j => ?_, fun u hu => ?_,
      fun u v j hu hv hju hjv => ?_⟩
    · have hne : u ≠ t := by
        rintro rfl
        simp at hu
      simp only [Function.update_of_ne hne] at hu
      exact hs.outside u hu
    · rcases eq_or_ne u t with rfl | hne
      · refine ⟨0, Within.zero, hregs, fun a ha => hs.rest a fun v hv hav => ?_⟩
        obtain ⟨j, hj⟩ := Option.isSome_iff_exists.mp (hs.locked v hv)
        have hji : j ≠ i := by
          rintro rfl
          exact hfree v hv hj
        have hvu : v ≠ u := by
          rintro rfl
          exact absurd (ht.symm.trans hv) (by simp)
        exact Set.disjoint_left.mp (h.disjoint hinv hj hi hvu hji) hav ha
      · exact hs.inside u (((hmem u).mp hu).resolve_left hne)
    · exact hs.rest a fun u hu => ha u ((hmem u).mpr (.inr hu))
    · rcases eq_or_ne j i with rfl | hne
      · simp only [Function.update_self, true_iff]
        exact ⟨t, by simp, hi⟩
      · simp only [Function.update_of_ne hne]
        rw [hs.latched j]
        refine exists_congr fun u => ⟨fun ⟨hu, hj⟩ => ⟨(hmem u).mpr (.inr hu), hj⟩, fun ⟨hu, hj⟩ => ?_⟩
        rcases (hmem u).mp hu with rfl | hu
        · exact absurd (Option.some.inj (hj.symm.trans hi)) hne
        · exact ⟨hu, hj⟩
    · rcases (hmem u).mp hu with rfl | hu
      · exact Option.isSome_of_eq_some hi
      · exact hs.locked u hu
    · rcases (hmem u).mp hu with hut | hu <;> rcases (hmem v).mp hv with hvt | hv
      · rw [hut, hvt]
      · rw [hut, hi, Option.some.injEq] at hju
        exact absurd hjv (hju ▸ hfree v hv)
      · rw [hvt, hi, Option.some.injEq] at hjv
        exact absurd hju (hjv ▸ hfree u hu)
      · exact hs.exclusive u v j hu hv hju hjv

/-- The unlock completes the section. -/
theorem simulates_unlock [DecidableEq ι] (hinv : Inv done m rs) (hs : Simulates P foot m rs s)
    {t : Tid} {i : ι} (ht : s.inside t = true) (hi : P.lockOf t (rs t) = some i)
    (hend : P.atEnd (s.regs t) = true) :
    ∃ m' rs', Inv (done ++ [t]) m' rs' ∧ Simulates P foot m' rs'
      { s with latch := Function.update s.latch i false,
               inside := Function.update s.inside t false,
               regs := Function.update s.regs t (P.leave (s.regs t)) } := by
  have hlock := hs.locked t ht
  obtain ⟨k, hk, hregs, hmem⟩ := hs.inside t ht
  obtain ⟨_, ⟨l, hl, rfl⟩, hinv'⟩ := h.ends hinv hlock
  rw [hregs] at hend
  obtain rfl := EndsAfter.unique hl ⟨hk, hend⟩
  rw [hregs]
  -- another section has not seen the cells that this one has changed
  have hother : ∀ u, u ≠ t → s.inside u = true →
      ∀ a ∈ foot u (rs u) m, (steps P t l (rs t, m)).2 a = m a := by
    intro u hne hu a ha
    obtain ⟨j, hj⟩ := Option.isSome_iff_exists.mp (hs.locked u hu)
    have hji : j ≠ i := by
      rintro rfl
      exact hne (hs.exclusive u t j hu ht hj hi)
    exact h.steps_of_notMem hinv hlock hk
      (Set.disjoint_left.mp (h.disjoint hinv hj hi hne hji) ha)
  have hin : ∀ u, Function.update s.inside t false u = true ↔ u ≠ t ∧ s.inside u = true := by
    intro u
    rcases eq_or_ne u t with rfl | hne
    · simp
    · simp [hne]
  refine ⟨_, _, hinv', fun u hu => ?_, fun u hu => ?_, fun a ha => ?_, fun j => ?_, fun u hu => ?_,
    fun u v j hu hv hju hjv => ?_⟩
  · rcases eq_or_ne u t with rfl | hne
    · simp
    · simp only [Function.update_of_ne hne] at hu ⊢
      exact hs.outside u hu
  · obtain ⟨hne, hu⟩ := (hin u).mp hu
    obtain ⟨j, hj, hregs', hmem'⟩ := hs.inside u hu
    have hsame := hother u hne hu
    obtain ⟨hregs₁, -⟩ := h.steps_congr hinv (hs.locked u hu) hsame hj
    simp only [Function.update_of_ne hne]
    refine ⟨j, fun l' hl' => ?_, hregs'.trans hregs₁.symm, fun a ha => ?_⟩
    · rw [(h.steps_congr hinv (hs.locked u hu) hsame (hj.mono hl'.le)).1]
      exact hj l' hl'
    · rw [h.foot_congr hsame] at ha
      exact (hmem' a ha).trans
        ((h.steps_congr hinv (hs.locked u hu) hsame hj).2 a ha).symm
  · by_cases hat : a ∈ foot t (rs t) m
    · exact hmem a hat
    · rw [h.steps_of_notMem hinv hlock hk hat]
      refine hs.rest a fun u hu hau => ?_
      rcases eq_or_ne u t with rfl | hne
      · exact hat hau
      · have hau' := ha u ((hin u).mpr ⟨hne, hu⟩)
        simp only [Function.update_of_ne hne] at hau'
        rw [h.foot_congr (hother u hne hu)] at hau'
        exact hau' hau
  · rcases eq_or_ne j i with rfl | hne
    · simp only [Function.update_self]
      refine iff_of_false Bool.false_ne_true ?_
      rintro ⟨u, hu, huj⟩
      obtain ⟨hut, hu⟩ := (hin u).mp hu
      rw [Function.update_of_ne hut] at huj
      exact hut (hs.exclusive u t j hu ht huj hi)
    · simp only [Function.update_of_ne hne]
      rw [hs.latched j]
      refine exists_congr fun u => ?_
      rcases eq_or_ne u t with rfl | hut
      · simp only [hin, ne_eq, not_true_eq_false, false_and, iff_false, not_and]
        intro _ hj
        exact hne (Option.some.inj (hj.symm.trans hi))
      · simp [hut]
  · obtain ⟨hne, hu⟩ := (hin u).mp hu
    simp only [Function.update_of_ne hne]
    exact hs.locked u hu
  · obtain ⟨hut, hu⟩ := (hin u).mp hu
    obtain ⟨hvt, hv⟩ := (hin v).mp hv
    rw [Function.update_of_ne hut] at hju
    rw [Function.update_of_ne hvt] at hjv
    exact hs.exclusive u v j hu hv hju hjv

variable [DecidableEq ι]

/-- Step lemma: a turn leaves the sections so far as they are, or completes one more. -/
theorem simulates_turn (hinv : Inv done m rs) (hs : Simulates P foot m rs s) (t : Tid) :
    ∃ done' m' rs', Inv done' m' rs' ∧ Simulates P foot m' rs' (turn P t s) := by
  rw [turn]
  cases hi : P.lockOf t (s.regs t) with
  | none => exact ⟨done, m, rs, hinv, hs⟩
  | some i =>
    cases ht : s.inside t with
    | false => exact ⟨done, m, rs, hinv, h.simulates_tas hinv hs ht hi⟩
    | true =>
      cases hend : P.atEnd (s.regs t) with
      | false => exact ⟨done, m, rs, hinv, h.simulates_body hinv hs ht hend⟩
      | true =>
        obtain ⟨k, -, hregs, -⟩ := hs.inside t ht
        rw [hregs, h.lockOf_steps] at hi
        exact ⟨done ++ [t], h.simulates_unlock hinv hs ht hi hend⟩

/-- Run lemma: every interleaving simulates a run of whole sections. -/
theorem simulates_turns (hinv : Inv done m rs) (hs : Simulates P foot m rs s) (schedule : List Tid) :
    ∃ done' m' rs', Inv done' m' rs' ∧ Simulates P foot m' rs' (turns P schedule s) := by
  induction schedule generalizing done m rs s with
  | nil => exact ⟨done, m, rs, hinv, hs⟩
  | cons t schedule ih =>
    obtain ⟨done', m', rs', hinv', hs'⟩ := h.simulates_turn hinv hs t
    exact ih hinv' hs'

omit [DecidableEq ι] in
/-- At most one thread is inside of a section under a lock. -/
theorem exclusive (hs : Simulates P foot m rs s) {t u : Tid} (ht : s.inside t = true)
    (hu : s.inside u = true) (hlock : P.lockOf t (s.regs t) = P.lockOf u (s.regs u)) : t = u := by
  obtain ⟨k, -, hk, -⟩ := hs.inside t ht
  obtain ⟨l, -, hl, -⟩ := hs.inside u hu
  rw [hk, hl, h.lockOf_steps, h.lockOf_steps] at hlock
  obtain ⟨i, hi⟩ := Option.isSome_iff_exists.mp (hs.locked t ht)
  exact hs.exclusive t u i ht hu hi (hlock ▸ hi)

omit [DecidableEq ι] in
/-- No thread is where a section would never end. -/
theorem not_stuck (hinv : Inv done m rs) (hs : Simulates P foot m rs s) (stuck : R → Prop)
    (hout : ∀ t, ¬ stuck (rs t)) (hend : ∀ r, stuck r → P.atEnd r = false)
    (hbody : ∀ t r m, stuck r → stuck (P.body t r m).1) (t : Tid) : ¬ stuck (s.regs t) := by
  cases ht : s.inside t with
  | false =>
    rw [hs.outside t ht]
    exact hout t
  | true =>
    obtain ⟨k, hk, hregs, -⟩ := hs.inside t ht
    obtain ⟨_, ⟨l, hl, -⟩, -⟩ := h.ends hinv (hs.locked t ht)
    intro hstuck
    have hlater : ∀ d, stuck (steps P t (k + d) (rs t, m)).1 := by
      intro d
      induction d with
      | zero => exact hregs ▸ hstuck
      | succ d ih =>
        rw [← Nat.add_assoc, steps_succ]
        exact hbody t _ _ ih
    have hlast := hlater (l - k)
    rw [Nat.add_sub_cancel' (hk.le hl)] at hlast
    have hfalse := hend _ hlast
    rw [hl.2] at hfalse
    cases hfalse

/-! ### Progress -/

/-- A thread inside of its section completes it by its own turns. -/
theorem exists_unlock (hinv : Inv done m rs) (hs : Simulates P foot m rs s) {t : Tid}
    (ht : s.inside t = true) : ∃ schedule m' rs', Inv (done ++ [t]) m' rs' ∧
      Simulates P foot m' rs' (turns P schedule s) := by
  have hlock := hs.locked t ht
  obtain ⟨i, hi⟩ := Option.isSome_iff_exists.mp hlock
  obtain ⟨_, ⟨l, hl, -⟩, -⟩ := h.ends hinv hlock
  obtain ⟨k, hk, hregs, hmem⟩ := hs.inside t ht
  -- by induction on the steps that are left
  obtain ⟨d, hd⟩ := Nat.exists_eq_add_of_le (hk.le hl)
  induction d generalizing s k with
  | zero =>
    have hend : P.atEnd (s.regs t) = true := by
      rw [hregs, show k = l by omega]
      exact hl.2
    have hturn : P.lockOf t (s.regs t) = some i := by rw [hregs, h.lockOf_steps, hi]
    obtain ⟨m', rs', hinv', hs'⟩ := h.simulates_unlock hinv hs ht hi hend
    refine ⟨[t], m', rs', hinv', ?_⟩
    rw [turns, List.foldl_cons, List.foldl_nil, turn, hturn]
    simp only [ht, hend, if_true]
    exact hs'
  | succ d ih =>
    have hend : P.atEnd (s.regs t) = false := by
      rw [hregs]
      exact hl.1 k (by omega)
    have hturn : P.lockOf t (s.regs t) = some i := by rw [hregs, h.lockOf_steps, hi]
    obtain ⟨hk', hstep, hfoot, -⟩ := h.body_eq hinv hlock hk hregs hmem hend
    have hbody : turn P t s = { s with
        regs := Function.update s.regs t (P.body t (s.regs t) s.memory).1,
        memory := (P.body t (s.regs t) s.memory).2 } := by
      rw [turn, hturn]
      simp only [ht, hend, if_true, Bool.false_eq_true, if_false]
    have hs' := h.simulates_body hinv hs ht hend
    rw [← hbody] at hs'
    obtain ⟨schedule, m', rs', hinv', hs''⟩ := ih (s := turn P t s) hs' (by rw [hbody]; exact ht)
      (k + 1) hk' (by rw [hbody]; simp only [Function.update_self]; exact hstep)
      (by rw [hbody]; exact hfoot) (by omega)
    exact ⟨t :: schedule, m', rs', hinv', hs''⟩

/-- No deadlock: as long as a thread has a section to run, some section can be completed. -/
theorem exists_section (hinv : Inv done m rs) (hs : Simulates P foot m rs s) {t : Tid}
    (ht : (P.lockOf t (s.regs t)).isSome) : ∃ schedule u m' rs', Inv (done ++ [u]) m' rs' ∧
      Simulates P foot m' rs' (turns P schedule s) := by
  by_cases hin : ∃ u, s.inside u = true
  · obtain ⟨u, hu⟩ := hin
    obtain ⟨schedule, m', rs', hdone⟩ := h.exists_unlock hinv hs hu
    exact ⟨schedule, u, m', rs', hdone⟩
  · push Not at hin
    obtain ⟨i, hi⟩ := Option.isSome_iff_exists.mp ht
    have hout : s.inside t = false := Bool.eq_false_iff.mpr (hin t)
    have hfree : s.latch i = false := by
      rw [← Bool.not_eq_true, hs.latched]
      rintro ⟨u, hu, -⟩
      exact hin u hu
    have hturn : turn P t s
        = { (tas i s).2 with inside := Function.update s.inside t (!(tas i s).1) } := by
      rw [turn, hi]
      simp only [hout, Bool.false_eq_true, if_false]
      rfl
    have hs' := h.simulates_tas hinv hs hout hi
    rw [← hturn] at hs'
    have hu : (turn P t s).inside t = true := by
      rw [hturn]
      simp [tas, hfree]
    obtain ⟨schedule, m', rs', hdone⟩ := h.exists_unlock hinv hs' hu
    exact ⟨t :: schedule, t, m', rs', hdone⟩

end Atomic
end Runs
end SpinLock

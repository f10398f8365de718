import HashingBenchmark.Npj.Barrier
import Mathlib.Algebra.BigOperators.Fin
import Mathlib.Algebra.Order.BigOperators.Group.Finset

/-! Both barriers are safe, the one of `barrier.h` as long as no thread wakes up without a broadcast,
    and that one never hangs then.

    The invariant of `barrier_wait` is about one round: every thread is in front of it, has been
    counted in it and not woken up, or has to leave the last one (`Place`). `called` is the number of
    the counted ones, except between `called = 0` and the broadcast, when all others are asleep
    (`Round`). So the call that is counted last finds all others asleep and wakes them all up. A
    single spurious wakeup lets its thread return alone (`spurious_wakeup_breaks_step`). -/

namespace HashingBenchmark
namespace Npj
open Phased

/-! ### How many threads -/

section HowMany
variable {T : ℕ} {γ : Type} (q : γ → Bool)

/-- How many threads `q` holds of. -/
def howMany (f : Fin T → γ) : ℕ := ∑ t, if q (f t) then 1 else 0

theorem howMany_update (f : Fin T → γ) (t : Fin T) (x : γ) :
    howMany q (Function.update f t x) + (if q (f t) then 1 else 0)
      = howMany q f + if q x then 1 else 0 := by
  have hrest : ∑ u ∈ Finset.univ.erase t, (if q (Function.update f t x u) then 1 else 0)
      = ∑ u ∈ Finset.univ.erase t, if q (f u) then 1 else 0 :=
    Finset.sum_congr rfl fun u hu => by rw [Function.update_of_ne (Finset.ne_of_mem_erase hu)]
  rw [howMany, howMany, ← Finset.add_sum_erase _ _ (Finset.mem_univ t),
    ← Finset.add_sum_erase _ _ (Finset.mem_univ t), hrest, Function.update_self]
  omega

theorem howMany_eq_zero_iff (f : Fin T → γ) : howMany q f = 0 ↔ ∀ t, q (f t) = false := by
  simp [howMany]

/-- The number is that of all threads only if `q` holds of all. -/
theorem howMany_eq_iff (f : Fin T → γ) : howMany q f = T ↔ ∀ t, q (f t) = true := by
  have hsum : howMany q f + ∑ t, (if q (f t) then 0 else 1) = T := by
    rw [howMany, ← Finset.sum_add_distrib]
    have hone : ∀ t, (if q (f t) then 1 else 0) + (if q (f t) then 0 else 1) = 1 := fun t => by
      split_ifs <;> rfl
    rw [Finset.sum_congr rfl fun t _ => hone t]
    simp
  constructor
  · intro h t
    have hzero : ∑ t, (if q (f t) then 0 else 1) = 0 := by omega
    by_contra hnot
    have ht := (Finset.sum_eq_zero_iff.mp hzero) t (Finset.mem_univ t)
    simp [hnot] at ht
  · intro h
    have hzero : ∑ t, (if q (f t) then 0 else 1) = 0 := Finset.sum_eq_zero fun t _ => by simp [h t]
    omega

end HowMany

/-! ### `pthread_barrier_wait` -/

namespace PthreadBarrier
variable {T : ℕ}

/-- Each thread is in front of the round that is going on, in it, or has to leave the one before. -/
structure Round (x : PthreadBarrier T) (arrived returned : Fin T → ℕ) : Prop where
  place : ∀ t, arrived t = x.generation ∧ returned t = x.generation ∨
    arrived t = x.generation + 1 ∧ returned t = x.generation ∧ x.round t = x.generation ∨
    arrived t = x.generation ∧ returned t + 1 = x.generation ∧ x.round t + 1 = x.generation
  count : x.count = howMany (fun a => a = x.generation + 1) arrived

/-- No thread is let go before all have arrived. -/
theorem safe_pthreadBarrier (T : ℕ) : Safe (pthreadBarrier T) Round where
  init := ⟨fun _ => .inl ⟨rfl, rfl⟩, by simp [pthreadBarrier, howMany]⟩
  arrive {x arrived returned t} h ht := by
    have hplace : arrived t = x.generation ∧ returned t = x.generation := by
      rcases h.place t with h1 | h2 | h3
      · exact h1
      · omega
      · omega
    have hcount := howMany_update (fun a => a = x.generation + 1) arrived t (arrived t + 1)
    simp only [hplace.1, decide_true, if_true] at hcount
    rw [← h.count, if_neg (by simp), Nat.add_zero] at hcount
    have hin : ∀ u, Function.update arrived t (x.generation + 1) u = x.generation + 1 →
        returned u = x.generation ∧ Function.update x.round t x.generation u = x.generation := by
      intro u hu
      rcases eq_or_ne u t with rfl | hne
      · exact ⟨hplace.2, by simp⟩
      · rw [Function.update_of_ne hne] at hu ⊢
        rcases h.place u with h1 | h2 | h3 <;> omega
    rw [hplace.1]
    simp only [pthreadBarrier]
    split_ifs with hlast
    · -- the round ends, and all have arrived in it
      have hall := (howMany_eq_iff _ _).mp (hcount.trans hlast)
      simp only [decide_eq_true_eq] at hall
      refine ⟨fun u => .inr (.inr ?_), ?_⟩
      · obtain ⟨hreturned, hround⟩ := hin u (hall u)
        simp [hall u, hreturned, hround]
      · refine ((howMany_eq_zero_iff _ _).mpr fun u => ?_).symm
        simp [hall u]
    · refine ⟨fun u => ?_, hcount.symm⟩
      rcases eq_or_ne u t with rfl | hne
      · exact .inr (.inl (by simp [hplace.2]))
      · simpa [hne] using h.place u
  turn {x arrived returned t} h ht := by
    simp only [pthreadBarrier]
    by_cases hround : x.round t = x.generation
    · simpa [hround] using h
    · simp only [ne_eq, hround, not_false_eq_true, decide_true, if_true]
      refine ⟨fun u => ?_, h.count⟩
      rcases eq_or_ne u t with rfl | hne
      · rcases h.place u with h1 | h2 | h3
        · omega
        · exact absurd h2.2.2 hround
        · exact .inl (by simp [h3])
      · simpa [hne] using h.place u
  le {x arrived returned} h t u := by
    rcases h.place t with ht | ht | ht <;> rcases h.place u with hu | hu | hu <;> omega

end PthreadBarrier

/-! ### `barrier_wait` -/

namespace BarrierT
variable {T : ℕ}

/-- A thread that has been counted and not been woken up. -/
def Pc.counted : Pc → Bool
  | .test | .reset | .wait | .asleep => true
  | _ => false

/-- A thread that holds the mutex. -/
def Pc.holds : Pc → Bool
  | .inc | .test | .reset | .broadcast | .wait | .unlock => true
  | _ => false

/-- Where a thread can be when `generation` rounds have ended. -/
def Place (generation : ℕ) (pc : Pc) (arrived returned : ℕ) : Prop :=
  match pc with
  | .outside => arrived = generation ∧ returned = generation
  | .relock | .unlock => arrived = generation ∧ returned + 1 = generation
  | _ => arrived = generation + 1 ∧ returned = generation

/-- The invariant of a round. -/
structure Round (generation : ℕ) (b : BarrierT T) (arrived returned : Fin T → ℕ) : Prop where
  needed : b.needed = T
  place : ∀ t, Place generation (b.pc t) (arrived t) (returned t)
  mutex : ∀ t, b.mutex = some t ↔ (b.pc t).holds = true
  called : (∀ t, b.pc t ≠ .broadcast) → b.called = howMany Pc.counted b.pc
  full : ∀ t, b.pc t = .reset → b.called = T
  alone : ∀ t, b.pc t = .broadcast → b.called = 0 ∧ ∀ u ≠ t, b.pc u = .asleep
  last : b.called = T → 0 < T → ∃ t, b.pc t = .test ∨ b.pc t = .reset

theorem Pc.eq_asleep {pc : Pc} (hcounted : pc.counted = true) (hholds : pc.holds = false) :
    pc = .asleep := by
  cases pc <;> simp_all [Pc.counted, Pc.holds]

namespace Round
variable {generation : ℕ} {b : BarrierT T} {arrived returned : Fin T → ℕ}

/-- The holder of the mutex is alone with it. -/
theorem eq_of_holds (h : Round generation b arrived returned) {t u : Fin T}
    (ht : (b.pc t).holds = true) (hu : (b.pc u).holds = true) : t = u :=
  Option.some.inj (((h.mutex t).mpr ht).symm.trans ((h.mutex u).mpr hu))

/-- The step of one thread to `p`, under the mutex or on its way to it. -/
theorem goto (h : Round generation b arrived returned) (t : Fin T) (p : Pc) {b' : BarrierT T}
    {arrived' returned' : Fin T → ℕ}
    (hpc : b'.pc = Function.update b.pc t p) (hneeded : b'.needed = b.needed)
    (hothers : ∀ u ≠ t, arrived' u = arrived u ∧ returned' u = returned u)
    (hplace : Place generation p (arrived' t) (returned' t))
    (hmutex : ∀ u, b'.mutex = some u ↔ if u = t then p.holds = true else (b.pc u).holds = true)
    (hbroadcast : ∀ u ≠ t, b.pc u ≠ .broadcast)
    (hcalled : (p ≠ .broadcast → b'.called = howMany Pc.counted b'.pc))
    (hfull : p = .reset → b'.called = T) (hreset : ∀ u ≠ t, b.pc u ≠ .reset)
    (halone : p = .broadcast → b'.called = 0 ∧ ∀ u ≠ t, b.pc u = .asleep)
    (hlast : b'.called = T → ∃ u, b'.pc u = .test ∨ b'.pc u = .reset) :
    Round generation b' arrived' returned' := by
  have hself : b'.pc t = p := by rw [hpc, Function.update_self]
  have hother : ∀ u ≠ t, b'.pc u = b.pc u := fun u hu => by rw [hpc, Function.update_of_ne hu]
  refine ⟨hneeded.trans h.needed, fun u => ?_, fun u => ?_, fun hnot => ?_, fun u hu => ?_,
    fun u hu => ?_, fun hcalled' _ => hlast hcalled'⟩
  · rcases eq_or_ne u t with rfl | hne
    · rw [hself]
      exact hplace
    · rw [hother u hne, (hothers u hne).1, (hothers u hne).2]
      exact h.place u
  · rw [hmutex]
    rcases eq_or_ne u t with rfl | hne
    · rw [if_pos rfl, hself]
    · rw [if_neg hne, hother u hne]
  · exact hcalled fun hp => hnot t (hself.trans hp)
  · rcases eq_or_ne u t with rfl | hne
    · exact hfull (hself.symm.trans hu)
    · exact absurd ((hother u hne).symm.trans hu) (hreset u hne)
  · rcases eq_or_ne u t with rfl | hne
    · obtain ⟨hzero, hasleep⟩ := halone (hself.symm.trans hu)
      exact ⟨hzero, fun v hv => by rw [hother v hv, hasleep v hv]⟩
    · exact absurd ((hother u hne).symm.trans hu) (hbroadcast u hne)

/-- Beside a holder of the mutex no thread resets the count or broadcasts. -/
theorem others_of_holds (h : Round generation b arrived returned) {t : Fin T}
    (ht : (b.pc t).holds = true) :
    ∀ u ≠ t, (b.pc u).holds = false ∧ b.pc u ≠ .broadcast ∧ b.pc u ≠ .reset := by
  intro u hne
  have hu : (b.pc u).holds = false := by
    by_contra hnot
    exact hne (h.eq_of_holds (Bool.not_eq_false _ ▸ hnot) ht)
  exact ⟨hu, fun heq => by simp [heq, Pc.holds] at hu, fun heq => by simp [heq, Pc.holds] at hu⟩

/-- While the mutex is free no thread resets the count or broadcasts. -/
theorem others_of_free (h : Round generation b arrived returned) (hfree : b.mutex = none) (u : Fin T) :
    (b.pc u).holds = false ∧ b.pc u ≠ .broadcast ∧ b.pc u ≠ .reset := by
  have hu : (b.pc u).holds = false := by
    rw [← Bool.not_eq_true, ← h.mutex, hfree]
    exact nofun
  exact ⟨hu, fun heq => by simp [heq, Pc.holds] at hu, fun heq => by simp [heq, Pc.holds] at hu⟩

/-- A thread that has not been counted is told by the count. -/
theorem others_of_not_counted (h : Round generation b arrived returned) {t : Fin T}
    (ht : (b.pc t).counted = false) (hnot : b.pc t ≠ .broadcast) (u : Fin T) :
    b.pc u ≠ .broadcast ∧ b.pc u ≠ .reset := by
  have hbroadcast : ∀ v, b.pc v ≠ .broadcast := by
    intro v hv
    have hasleep := (h.alone v hv).2 t fun heq => hnot (heq ▸ hv)
    simp [hasleep, Pc.counted] at ht
  refine ⟨hbroadcast u, fun hu => ?_⟩
  have hall := (howMany_eq_iff Pc.counted b.pc).mp ((h.called hbroadcast).symm.trans (h.full u hu))
  rw [hall t] at ht
  cases ht

theorem not_broadcast (h : Round generation b arrived returned) {t : Fin T}
    (ht : (b.pc t).holds = true) (hnot : b.pc t ≠ .broadcast) (u : Fin T) :
    b.pc u ≠ .broadcast := by
  rcases eq_or_ne u t with rfl | hne
  · exact hnot
  · exact (h.others_of_holds ht u hne).2.1

theorem called_goto (h : Round generation b arrived returned) (hnot : ∀ u, b.pc u ≠ .broadcast)
    {t : Fin T} {p : Pc} (hp : p.counted = (b.pc t).counted) :
    b.called = howMany Pc.counted (Function.update b.pc t p) := by
  have hcount := howMany_update Pc.counted b.pc t p
  rw [hp] at hcount
  rw [h.called hnot]
  omega

theorem last_goto (h : Round generation b arrived returned) {t : Fin T} {p : Pc}
    (htest : b.pc t ≠ .test) (hreset : b.pc t ≠ .reset) (hcalled : b.called = T) :
    ∃ u, Function.update b.pc t p u = .test ∨ Function.update b.pc t p u = .reset := by
  obtain ⟨u, hu⟩ := h.last hcalled t.pos
  have hne : u ≠ t := by
    rintro rfl
    exact hu.elim htest hreset
  exact ⟨u, by rwa [Function.update_of_ne hne]⟩

theorem arrive (h : Round generation b arrived returned) {t : Fin T} (ht : arrived t = returned t) :
    Round generation (b.goto t .lock) (Function.update arrived t (arrived t + 1)) returned := by
  have hplace := h.place t
  have hpc : b.pc t = .outside := by
    cases hpc : b.pc t <;> rw [hpc] at hplace <;> simp only [Place] at hplace <;> first | rfl | omega
  rw [hpc] at hplace
  have hothers := h.others_of_not_counted (t := t) (by rw [hpc]; rfl) (by rw [hpc]; exact nofun)
  refine h.goto t .lock rfl rfl (fun u hu => ⟨by simp [hu], rfl⟩) ?_ (fun u => ?_)
    (fun u _ => (hothers u).1) (fun _ => ?_) nofun (fun u _ => (hothers u).2) nofun
    (h.last_goto (by rw [hpc]; exact nofun) (by rw [hpc]; exact nofun))
  · simp [Place, hplace.1, hplace.2]
  · refine (h.mutex u).trans ?_
    rcases eq_or_ne u t with rfl | hne
    · simp [hpc, Pc.holds]
    · simp [hne]
  · exact h.called_goto (fun u => (hothers u).1) (by rw [hpc]; rfl)

/-- The last call wakes all other threads up. -/
theorem broadcast (h : Round generation b arrived returned) {t : Fin T} (ht : b.pc t = .broadcast) :
    Round (generation + 1) (b.broadcast.goto t .unlock) arrived returned := by
  obtain ⟨hzero, hasleep⟩ := h.alone t ht
  have hself : (b.broadcast.goto t .unlock).pc t = .unlock := by simp [BarrierT.goto]
  have hother : ∀ u ≠ t, (b.broadcast.goto t .unlock).pc u = .relock := fun u hu => by
    simp [BarrierT.goto, hu, BarrierT.broadcast, hasleep u hu]
  have hpcs : ∀ u, (b.broadcast.goto t .unlock).pc u = .unlock ∨
      (b.broadcast.goto t .unlock).pc u = .relock := fun u => by
    rcases eq_or_ne u t with rfl | hne
    · exact .inl hself
    · exact .inr (hother u hne)
  refine ⟨h.needed, fun u => ?_, fun u => ?_, fun _ => ?_, fun u hu => ?_, fun u hu => ?_,
    fun hcalled hpos => absurd (hzero.symm.trans hcalled) hpos.ne⟩
  · have hplace := h.place u
    rcases eq_or_ne u t with rfl | hne
    · rw [ht] at hplace
      rw [hself]
      exact ⟨hplace.1, by rw [hplace.2]⟩
    · rw [hasleep u hne] at hplace
      rw [hother u hne]
      exact ⟨hplace.1, by rw [hplace.2]⟩
  · refine (h.mutex u).trans ?_
    rcases eq_or_ne u t with rfl | hne
    · simp [hself, ht, Pc.holds]
    · simp [hother u hne, hasleep u hne, Pc.holds]
  · refine hzero.trans ((howMany_eq_zero_iff _ _).mpr fun u => ?_).symm
    rcases hpcs u with hu | hu <;> rw [hu] <;> rfl
  · rcases hpcs u with hu' | hu' <;> rw [hu'] at hu <;> cases hu
  · rcases hpcs u with hu' | hu' <;> rw [hu'] at hu <;> cases hu

/-- The mutex of a thread that keeps it, gives it back, or takes it. -/
theorem mutex_keep (h : Round generation b arrived returned) {t : Fin T} {p : Pc}
    (ht : (b.pc t).holds = true) (hp : p.holds = true) (u : Fin T) :
    b.mutex = some u ↔ if u = t then p.holds = true else (b.pc u).holds = true := by
  rcases eq_or_ne u t with rfl | hne
  · rw [if_pos rfl, h.mutex, ht, hp]
  · rw [if_neg hne, h.mutex]

theorem mutex_free (h : Round generation b arrived returned) {t : Fin T} {p : Pc}
    (ht : (b.pc t).holds = true) (hp : p.holds = false) (u : Fin T) :
    (none : Option (Fin T)) = some u ↔ if u = t then p.holds = true else (b.pc u).holds = true := by
  rcases eq_or_ne u t with rfl | hne
  · simp [hp]
  · simp [hne, (h.others_of_holds ht u hne).1]

theorem mutex_take (h : Round generation b arrived returned) {t : Fin T} {p : Pc}
    (hfree : b.mutex = none) (hp : p.holds = true) (u : Fin T) :
    some t = some u ↔ if u = t then p.holds = true else (b.pc u).holds = true := by
  rcases eq_or_ne u t with rfl | hne
  · simp [hp]
  · simp [hne, hne.symm, (h.others_of_free hfree u).1]

/-- The step of a thread that takes the free mutex. -/
theorem take (h : Round generation b arrived returned) {t : Fin T} {p : Pc} (hfree : b.mutex = none)
    (hp : p.holds = true) (hcounted : p.counted = (b.pc t).counted) (hbroadcast : p ≠ .broadcast)
    (hreset : p ≠ .reset) (hplace : Place generation p (arrived t) (returned t)) :
    Round generation ({ b with mutex := some t }.goto t p) arrived returned := by
  have hothers := h.others_of_free hfree
  have htest : b.pc t ≠ .test := fun heq => by
    have hholds := (hothers t).1
    rw [heq] at hholds
    cases hholds
  exact h.goto t p rfl rfl (fun _ _ => ⟨rfl, rfl⟩) hplace (h.mutex_take hfree hp)
    (fun u _ => (hothers u).2.1) (fun _ => h.called_goto (fun u => (hothers u).2.1) hcounted)
    (fun heq => absurd heq hreset) (fun u _ => (hothers u).2.2) (fun heq => absurd heq hbroadcast)
    (h.last_goto htest (hothers t).2.2)

/-- The step of a thread that gives the mutex back. -/
theorem release (h : Round generation b arrived returned) {t : Fin T} {p : Pc}
    {returned' : Fin T → ℕ} (hpc : b.pc t = .wait ∨ b.pc t = .unlock) (hp : p.holds = false)
    (hcounted : p.counted = (b.pc t).counted) (hothers : ∀ u ≠ t, returned' u = returned u)
    (hplace : Place generation p (arrived t) (returned' t)) :
    Round generation ({ b with mutex := none }.goto t p) arrived returned' := by
  have hholds : (b.pc t).holds = true := by rcases hpc with hpc | hpc <;> rw [hpc] <;> rfl
  have hbroadcast : b.pc t ≠ .broadcast := by rcases hpc with hpc | hpc <;> rw [hpc] <;> exact nofun
  have htest : b.pc t ≠ .test := by rcases hpc with hpc | hpc <;> rw [hpc] <;> exact nofun
  have hreset : b.pc t ≠ .reset := by rcases hpc with hpc | hpc <;> rw [hpc] <;> exact nofun
  have hrest := h.others_of_holds hholds
  exact h.goto t p rfl rfl (fun u hu => ⟨rfl, hothers u hu⟩) hplace (h.mutex_free hholds hp)
    (fun u hu => (hrest u hu).2.1)
    (fun _ => h.called_goto (h.not_broadcast hholds hbroadcast) hcounted)
    (fun heq => by rw [heq] at hp; cases hp) (fun u hu => (hrest u hu).2.2)
    (fun heq => by rw [heq] at hp; cases hp) (h.last_goto htest hreset)

/-- The call is counted. -/
theorem inc (h : Round generation b arrived returned) {t : Fin T} (hpc : b.pc t = .inc) :
    Round generation ({ b with called := b.called + 1 }.goto t .test) arrived returned := by
  have hplace := h.place t
  rw [hpc] at hplace
  have hholds : (b.pc t).holds = true := by rw [hpc]; rfl
  have hothers := h.others_of_holds hholds
  have hnot := h.not_broadcast hholds (by rw [hpc]; exact nofun)
  have hcount := howMany_update Pc.counted b.pc t .test
  rw [hpc, ← h.called hnot] at hcount
  exact h.goto t .test rfl rfl (fun _ _ => ⟨rfl, rfl⟩) hplace (h.mutex_keep hholds rfl)
    (fun u hu => (hothers u hu).2.1) (fun _ => hcount.symm) nofun (fun u hu => (hothers u hu).2.2)
    nofun fun _ => ⟨t, .inl (by simp [BarrierT.goto])⟩

/-- The call that is counted last is the one that resets the count. -/
theorem test (h : Round generation b arrived returned) {t : Fin T} (hpc : b.pc t = .test) :
    Round generation (b.goto t (if b.called = b.needed then .reset else .wait)) arrived returned := by
  have hplace := h.place t
  rw [hpc] at hplace
  have hholds : (b.pc t).holds = true := by rw [hpc]; rfl
  have hothers := h.others_of_holds hholds
  have hnot := h.not_broadcast hholds (by rw [hpc]; exact nofun)
  split_ifs with hlast
  · exact h.goto t .reset rfl rfl (fun _ _ => ⟨rfl, rfl⟩) hplace (h.mutex_keep hholds rfl)
      (fun u hu => (hothers u hu).2.1) (fun _ => h.called_goto hnot (by rw [hpc]; rfl))
      (fun _ => hlast.trans h.needed) (fun u hu => (hothers u hu).2.2) nofun
      fun _ => ⟨t, .inr (by simp [BarrierT.goto])⟩
  · exact h.goto t .wait rfl rfl (fun _ _ => ⟨rfl, rfl⟩) hplace (h.mutex_keep hholds rfl)
      (fun u hu => (hothers u hu).2.1) (fun _ => h.called_goto hnot (by rw [hpc]; rfl)) nofun
      (fun u hu => (hothers u hu).2.2) nofun
      fun hcalled => absurd (hcalled.trans h.needed.symm) hlast

/-- While the count is reset all other threads are asleep: all have been counted, and only this one
    holds the mutex. -/
theorem reset (h : Round generation b arrived returned) {t : Fin T} (hpc : b.pc t = .reset) :
    Round generation ({ b with called := 0 }.goto t .broadcast) arrived returned := by
  have hplace := h.place t
  rw [hpc] at hplace
  have hholds : (b.pc t).holds = true := by rw [hpc]; rfl
  have hothers := h.others_of_holds hholds
  have hnot := h.not_broadcast hholds (by rw [hpc]; exact nofun)
  have hall := (howMany_eq_iff Pc.counted b.pc).mp ((h.called hnot).symm.trans (h.full t hpc))
  exact h.goto t .broadcast rfl rfl (fun _ _ => ⟨rfl, rfl⟩) hplace (h.mutex_keep hholds rfl)
    (fun u hu => (hothers u hu).2.1) (fun hne => absurd rfl hne) nofun
    (fun u hu => (hothers u hu).2.2)
    (fun _ => ⟨rfl, fun u hu => Pc.eq_asleep (hall u) (hothers u hu).1⟩)
    fun hzero => absurd hzero t.pos.ne

/-- Step lemma: a turn in `barrier_wait` that is no spurious wakeup. -/
theorem step (h : Round generation b arrived returned) {t : Fin T}
    (ht : arrived t = returned t + 1) (hquiet : b.spurious.head = false) :
    ∃ generation', Round generation' (BarrierT.step t b).1 arrived
      (if (BarrierT.step t b).2 then Function.update returned t (returned t + 1) else returned) := by
  have hplace := h.place t
  rw [BarrierT.step]
  cases hpc : b.pc t with
  | outside =>
    rw [hpc] at hplace
    exact absurd ht (by simp only [Place] at hplace; omega)
  | lock =>
    rw [hpc] at hplace
    by_cases hfree : b.mutex = none
    · simp only [hfree, if_true]
      exact ⟨generation, h.take hfree rfl (by rw [hpc]; rfl) nofun nofun hplace⟩
    · simp only [hfree, if_false]
      exact ⟨generation, h⟩
  | relock =>
    rw [hpc] at hplace
    by_cases hfree : b.mutex = none
    · simp only [hfree, if_true]
      exact ⟨generation, h.take hfree rfl (by rw [hpc]; rfl) nofun nofun hplace⟩
    · simp only [hfree, if_false]
      exact ⟨generation, h⟩
  | asleep =>
    have hstay : Function.update b.pc t .asleep = b.pc := by rw [← hpc, Function.update_eq_self]
    refine ⟨generation, ?_⟩
    simp only [hquiet, BarrierT.goto, Bool.false_eq_true, if_false, hstay]
    exact ⟨h.needed, h.place, h.mutex, h.called, h.full, h.alone, h.last⟩
  | broadcast => exact ⟨generation + 1, h.broadcast hpc⟩
  | inc => exact ⟨generation, h.inc hpc⟩
  | test => exact ⟨generation, h.test hpc⟩
  | reset => exact ⟨generation, h.reset hpc⟩
  | wait =>
    rw [hpc] at hplace
    exact ⟨generation, h.release (.inl hpc) rfl (by rw [hpc]; rfl) (fun _ _ => rfl) hplace⟩
  | unlock =>
    rw [hpc] at hplace
    simp only [if_true]
    refine ⟨generation, h.release (.inr hpc) rfl (by rw [hpc]; rfl) (fun u hu => by simp [hu]) ?_⟩
    simp [Place, hplace.1, hplace.2]

end Round

theorem quiet_step {b : BarrierT T} (h : b.spurious = Stream'.const false) (t : Fin T) :
    (step t b).1.spurious = Stream'.const false := by
  have htail : b.spurious.tail = Stream'.const false := by rw [h]; rfl
  rw [step]
  cases b.pc t with
  | asleep => exact htail
  | lock => simp only; split_ifs <;> exact h
  | relock => simp only; split_ifs <;> exact h
  | outside => exact h
  | inc => exact h
  | test => exact h
  | reset => exact h
  | broadcast => exact h
  | wait => exact h
  | unlock => exact h

/-- Without spurious wakeups no thread leaves `barrier_wait` before all have called it. -/
theorem safe_barrier (T : ℕ) :
    Safe (barrier T T (Stream'.const false)) fun b arrived returned =>
      b.spurious = Stream'.const false ∧ ∃ generation, Round generation b arrived returned where
  init := ⟨rfl, 0, rfl, fun _ => ⟨rfl, rfl⟩, fun _ => ⟨nofun, nofun⟩,
    fun _ => ((howMany_eq_zero_iff _ _).mpr fun _ => rfl).symm, fun _ => nofun, fun _ => nofun,
    fun hcalled hpos => absurd hcalled hpos.ne⟩
  arrive h ht := by
    obtain ⟨hquiet, generation, h⟩ := h
    exact ⟨hquiet, generation, h.arrive ht⟩
  turn h ht := by
    obtain ⟨hquiet, generation, h⟩ := h
    exact ⟨quiet_step hquiet _, h.step ht (by rw [hquiet]; rfl)⟩
  le h t u := by
    obtain ⟨-, generation, h⟩ := h
    have ht := h.place t
    have hu := h.place u
    have hle : ∀ pc arrived returned, Place generation pc arrived returned →
        returned ≤ generation ∧ generation ≤ arrived := by
      intro pc a r hplace
      cases pc <;> simp only [Place] at hplace <;> omega
    exact (hle _ _ _ ht).1.trans (hle _ _ _ hu).2

/-! ### Progress -/

/-- What a thread has left to do before it sleeps or returns. -/
def Pc.weight : Pc → ℕ
  | .lock => 6
  | .inc => 5
  | .test => 4
  | .reset => 3
  | .wait => 3
  | .broadcast => 2
  | .relock => 2
  | .unlock => 1
  | .asleep => 0
  | .outside => 0

def weight (pc : Fin T → Pc) : ℕ := ∑ t, (pc t).weight

theorem weight_update_lt {pc : Fin T → Pc} {t : Fin T} {p : Pc} (h : p.weight < (pc t).weight) :
    weight (Function.update pc t p) < weight pc := by
  refine Finset.sum_lt_sum (fun u _ => ?_) ⟨t, Finset.mem_univ t, by rwa [Function.update_self]⟩
  rcases eq_or_ne u t with rfl | hne
  · rw [Function.update_self]
    exact h.le
  · rw [Function.update_of_ne hne]

/-- All threads are never asleep: then all have been counted, and the last one was not put to sleep. -/
theorem Round.exists_awake {generation : ℕ} {b : BarrierT T} {arrived returned : Fin T → ℕ}
    (h : Round generation b arrived returned) (hpos : 0 < T) : ∃ t, b.pc t ≠ .asleep := by
  by_contra hnot
  push Not at hnot
  have hall : b.called = T := by
    rw [h.called fun t => by rw [hnot t]; exact nofun]
    exact (howMany_eq_iff _ _).mpr fun t => by rw [hnot t]; rfl
  obtain ⟨t, ht⟩ := h.last hall hpos
  rw [hnot t] at ht
  exact absurd ht nofun

/-- Some thread is awake and need not wait for the mutex. -/
theorem Round.exists_running {generation : ℕ} {b : BarrierT T} {arrived returned : Fin T → ℕ}
    (h : Round generation b arrived returned) (hpos : 0 < T) :
    ∃ t, b.pc t ≠ .asleep ∧ ((b.pc t).holds = true ∨ b.mutex = none) := by
  cases hmutex : b.mutex with
  | none =>
    obtain ⟨t, ht⟩ := h.exists_awake hpos
    exact ⟨t, ht, .inr rfl⟩
  | some t =>
    have hholds := (h.mutex t).mp hmutex
    have hawake : b.pc t ≠ .asleep := by
      intro heq
      rw [heq] at hholds
      cases hholds
    exact ⟨t, hawake, .inl hholds⟩

/-- A turn of such a thread that is not yet to leave brings it closer to its sleep or its return. -/
theorem step_closer {b : BarrierT T} {t : Fin T} (hasleep : b.pc t ≠ .asleep)
    (hmutex : (b.pc t).holds = true ∨ b.mutex = none) (hout : b.pc t ≠ .outside)
    (hunlock : b.pc t ≠ .unlock) (hbroadcast : b.pc t ≠ .broadcast) :
    ∃ p ≠ .outside, (step t b).1.pc = Function.update b.pc t p ∧ p.weight < (b.pc t).weight := by
  rw [step]
  cases hpc : b.pc t with
  | outside => exact absurd hpc hout
  | asleep => exact absurd hpc hasleep
  | unlock => exact absurd hpc hunlock
  | broadcast => exact absurd hpc hbroadcast
  | lock =>
    have hfree : b.mutex = none := hmutex.resolve_left (by rw [hpc]; exact nofun)
    exact ⟨.inc, nofun, by simp only [hfree, if_true]; rfl, by decide⟩
  | relock =>
    have hfree : b.mutex = none := hmutex.resolve_left (by rw [hpc]; exact nofun)
    exact ⟨.unlock, nofun, by simp only [hfree, if_true]; rfl, by decide⟩
  | inc => exact ⟨.test, nofun, rfl, by decide⟩
  | test =>
    by_cases hlast : b.called = b.needed
    · exact ⟨.reset, nofun, by simp only [hlast, if_true]; rfl, by decide⟩
    · exact ⟨.wait, nofun, by simp only [hlast, if_false]; rfl, by decide⟩
  | reset => exact ⟨.broadcast, nofun, rfl, by decide⟩
  | wait => exact ⟨.asleep, nofun, rfl, by decide⟩

/-- While no thread is outside some thread can be brought to return. -/
theorem exists_return {generation : ℕ} {b : BarrierT T} {arrived returned : Fin T → ℕ}
    (h : Round generation b arrived returned) (hquiet : b.spurious = Stream'.const false)
    (hpos : 0 < T) (hin : ∀ t, b.pc t ≠ .outside) (spurious : Stream' Bool) :
    ∃ schedule, LetsGo (barrier T T spurious) schedule b := by
  obtain ⟨n, hn⟩ : ∃ n, weight b.pc = n := ⟨_, rfl⟩
  induction n using Nat.strongRecOn generalizing generation b arrived returned with
  | ind n ih =>
    obtain ⟨t, hawake, hmutex⟩ := h.exists_running hpos
    by_cases hunlock : b.pc t = .unlock
    · exact ⟨[t], .inl (by simp only [barrier, step, hunlock])⟩
    by_cases hbroadcast : b.pc t = .broadcast
    · have hnext : (step t b).1.pc t = .unlock := by
        rw [step, hbroadcast]
        simp [BarrierT.goto]
      refine ⟨[t, t], .inr (.inl ?_)⟩
      change (step t (step t b).1).2 = true
      rw [step, hnext]
    obtain ⟨p, hp, hpc, hlt⟩ := step_closer hawake hmutex (hin t) hunlock hbroadcast
    have hround : arrived t = returned t + 1 := by
      have hplace := h.place t
      have hout := hin t
      cases hpc : b.pc t <;> rw [hpc] at hplace hout <;> simp only [Place] at hplace <;>
        first | exact absurd rfl hout | omega
    obtain ⟨generation', h'⟩ := h.step hround (by rw [hquiet]; rfl)
    have hin' : ∀ u, (step t b).1.pc u ≠ .outside := by
      intro u
      rw [hpc]
      rcases eq_or_ne u t with rfl | hne
      · rwa [Function.update_self]
      · rw [Function.update_of_ne hne]
        exact hin u
    obtain ⟨schedule, hgo⟩ := ih _ (by rw [← hn, hpc]; exact weight_update_lt hlt) h'
      (quiet_step hquiet t) hin' rfl
    exact ⟨t :: schedule, .inr hgo⟩

/-- CORRECT while no thread wakes up without a broadcast: whatever the threads do between their calls
    of `barrier_wait`, no one has returned more often than any other one has called; and when all are in
    it, one of them can be brought to return. -/
theorem barrier_wait_keeps_step {σ : Type} (T : ℕ) (spurious : Stream' Bool)
    (hquiet : ∀ n, spurious.get n = false) (w : Work (Fin T) σ) (d : σ) (schedule : List (Fin T)) :
    let b := barrier T T spurious
    let s := turns b w schedule (start b d)
    (∀ t u, s.returned t ≤ s.arrived u) ∧
    (0 < T → (∀ t, s.arrived t ≠ s.returned t) →
      ∃ rest t, (turns b w rest s).returned = Function.update s.returned t (s.returned t + 1)) := by
  obtain rfl : spurious = Stream'.const false := funext hquiet
  intro b s
  have hb := safe_barrier T
  have hs : InStep _ s := inStep_turns hb (inStep_start hb d) schedule
  refine ⟨hb.le hs.safe, fun hpos hall => ?_⟩
  obtain ⟨hquiet, generation, hround⟩ := hs.safe
  have hin : ∀ t, s.barrier.pc t ≠ .outside := by
    intro t hout
    have hplace := hround.place t
    rw [hout] at hplace
    exact hall t (hplace.1.trans hplace.2.symm)
  obtain ⟨schedule', hgo⟩ := exists_return hround hquiet hpos hin (Stream'.const false)
  exact exists_returned hgo hall

/-- Phases with nothing to do. -/
def idle (T : ℕ) : Work (Fin T) Unit := ⟨fun _ _ d => d, fun _ _ _ => true⟩

/-- Two threads, up to the return of the first one, and when the second one has just called. -/
theorem barrier_wait_keeps_step_two_threads :
    let b := barrier 2 2 (Stream'.const false)
    let s := turns b (idle 2) [0, 0, 0, 0, 0, 0, 1, 1, 1, 1, 1, 1, 1, 0, 0] (start b ())
    let s' := turns b (idle 2) [0, 0, 0, 0, 0, 0, 1] (start b ())
    s.returned 0 = 1 ∧ (∀ t u, s.returned t ≤ s.arrived u) ∧
    ∃ rest t, (turns b (idle 2) rest s').returned
      = Function.update s'.returned t (s'.returned t + 1) :=
  ⟨by decide, (barrier_wait_keeps_step 2 (Stream'.const false) (fun _ => rfl) (idle 2) ()
    [0, 0, 0, 0, 0, 0, 1, 1, 1, 1, 1, 1, 1, 0, 0]).1,
    (barrier_wait_keeps_step 2 (Stream'.const false) (fun _ => rfl) (idle 2) ()
      [0, 0, 0, 0, 0, 0, 1]).2 (by decide) (by decide)⟩

/-! ### Spurious wakeups -/

section Spurious
variable {σ : Type} {w : Work (Fin T) σ} {spurious : Stream' Bool} {s : State (Fin T) (BarrierT T) σ}
  {t : Fin T}

/-- A thread that sleeps and wakes up returns, if the mutex is free. -/
theorem turns_of_wakeup (hpc : s.barrier.pc t = .asleep) (hmutex : s.barrier.mutex = none)
    (hin : s.arrived t ≠ s.returned t) (hhead : s.barrier.spurious.head = true) :
    (turns (barrier T T spurious) w [t, t, t] s).returned t = s.returned t + 1 ∧
      (turns (barrier T T spurious) w [t, t, t] s).arrived = s.arrived := by
  simp [turns, turn, barrier, step, BarrierT.goto, hpc, hmutex, hin, hhead]

/-- A thread that sleeps returns after its next spurious wakeup. -/
theorem exists_return_of_wakeup {n : ℕ} (hpc : s.barrier.pc t = .asleep)
    (hmutex : s.barrier.mutex = none) (hin : s.arrived t ≠ s.returned t)
    (hn : s.barrier.spurious.get n = true) :
    ∃ schedule, (turns (barrier T T spurious) w schedule s).returned t = s.returned t + 1 ∧
      (turns (barrier T T spurious) w schedule s).arrived = s.arrived := by
  induction n generalizing s with
  | zero => exact ⟨[t, t, t], turns_of_wakeup hpc hmutex hin hn⟩
  | succ n ih =>
    cases hhead : s.barrier.spurious.head with
    | true => exact ⟨[t, t, t], turns_of_wakeup hpc hmutex hin hhead⟩
    | false =>
      -- the thread sleeps on
      have hturn : turn (barrier T T spurious) w t s
          = { s with barrier := { s.barrier with spurious := s.barrier.spurious.tail } } := by
        have hstay : Function.update s.barrier.pc t .asleep = s.barrier.pc := by
          rw [← hpc, Function.update_eq_self]
        simp [turn, barrier, step, BarrierT.goto, hpc, hin, hhead, hstay]
      obtain ⟨schedule, hreturned, harrived⟩ := ih
        (s := { s with barrier := { s.barrier with spurious := s.barrier.spurious.tail } })
        hpc hmutex hin hn
      refine ⟨t :: schedule, ?_⟩
      rw [turns, List.foldl_cons, hturn]
      exact ⟨hreturned, harrived⟩

/-- A spurious wakeup lets a thread through that others have not caught up with: the first thread calls
    `barrier_wait`, sleeps and returns, before any other one has called it. -/
theorem spurious_wakeup_breaks_step {n : ℕ} (hn : spurious.get n = true) {u : Fin T} (hne : t ≠ u) :
    ∃ schedule, (turns (barrier T T spurious) (idle T) schedule
        (start (barrier T T spurious) ())).arrived u
      < (turns (barrier T T spurious) (idle T) schedule
        (start (barrier T T spurious) ())).returned t := by
  have hneeded : ¬ 1 = T := by
    have := Fin.val_ne_of_ne hne
    omega
  -- the call of the thread, up to its sleep
  have hsleep : turns (barrier T T spurious) (idle T) [t, t, t, t, t]
      (start (barrier T T spurious) ()) = ⟨Function.update (fun _ => 0) t 1, fun _ => 0,
        ⟨T, 1, none, Function.update (fun _ => .outside) t .asleep, spurious⟩, ()⟩ := by
    simp [turns, turn, start, barrier, init, step, BarrierT.goto, idle, hneeded]
  have hreturn : ∃ schedule,
      (turns (barrier T T spurious) (idle T) ([t, t, t, t, t] ++ schedule)
        (start (barrier T T spurious) ())).returned t = 1 ∧
      (turns (barrier T T spurious) (idle T) ([t, t, t, t, t] ++ schedule)
        (start (barrier T T spurious) ())).arrived = Function.update (fun _ => 0) t 1 := by
    simp only [turns, List.foldl_append]
    rw [← turns, hsleep]
    exact exists_return_of_wakeup (by simp) rfl (by simp) hn
  obtain ⟨schedule, hreturned, harrived⟩ := hreturn
  refine ⟨[t, t, t, t, t] ++ schedule, ?_⟩
  rw [hreturned, harrived, Function.update_of_ne hne.symm]
  exact Nat.one_pos

end Spurious

end BarrierT
end Npj
end HashingBenchmark

import Mathlib.Logic.Function.Basic
import Mathlib.Data.Nat.Basic

/-! Threads that work in phases, with a barrier between one phase and the next.

    A thread whose part of a phase is finished arrives at the barrier and takes turns there, until one
    of them lets it go into its next phase. The barrier is `Safe` if it lets no thread go before all
    have arrived as often. Then the phases come one after the other although the threads do not run
    in step, and an invariant of the data can be chosen for each phase (`phases`): within phase `k`
    the steps of phase `k` keep it, and the one of phase `k + 1` follows when all threads have
    finished phase `k`. -/

namespace Phased
variable {Tid β σ : Type*}

/-- A barrier with the states `β`: the arrival of a thread, and a turn of a thread that has arrived,
    with whether the thread goes on. -/
structure Barrier (Tid β : Type*) where
  init : β
  arrive : Tid → β → β
  turn : Tid → β → β × Bool

/-- What the threads do in each phase, and when their part of it is finished. -/
structure Work (Tid σ : Type*) where
  step : ℕ → Tid → σ → σ
  finished : ℕ → Tid → σ → Bool

/-- How often each thread has arrived at the barrier and has been let go, and the rest. -/
structure State (Tid β σ : Type*) where
  arrived : Tid → ℕ
  returned : Tid → ℕ
  barrier : β
  data : σ

variable [DecidableEq Tid]

def start (b : Barrier Tid β) (data : σ) : State Tid β σ := ⟨fun _ => 0, fun _ => 0, b.init, data⟩

/-- One turn of a thread, in its phase or at the barrier. -/
def turn (b : Barrier Tid β) (w : Work Tid σ) (t : Tid) (s : State Tid β σ) : State Tid β σ :=
  if s.arrived t = s.returned t then
    if w.finished (s.returned t) t s.data then
      { s with arrived := Function.update s.arrived t (s.arrived t + 1),
               barrier := b.arrive t s.barrier }
    else { s with data := w.step (s.returned t) t s.data }
  else
    let (barrier, goes) := b.turn t s.barrier
    { s with barrier := barrier,
             returned := if goes then Function.update s.returned t (s.returned t + 1)
               else s.returned }

def turns (b : Barrier Tid β) (w : Work Tid σ) (schedule : List Tid) (s : State Tid β σ) :
    State Tid β σ := schedule.foldl (fun s t => turn b w t s) s

/-- With the invariant `J` the barrier lets no thread go before all have arrived. -/
structure Safe (b : Barrier Tid β) (J : β → (Tid → ℕ) → (Tid → ℕ) → Prop) : Prop where
  init : J b.init (fun _ => 0) (fun _ => 0)
  arrive : ∀ {x arrived returned t}, J x arrived returned → arrived t = returned t →
    J (b.arrive t x) (Function.update arrived t (arrived t + 1)) returned
  turn : ∀ {x arrived returned t}, J x arrived returned → arrived t = returned t + 1 →
    J (b.turn t x).1 arrived
      (if (b.turn t x).2 then Function.update returned t (returned t + 1) else returned)
  le : ∀ {x arrived returned}, J x arrived returned → ∀ t u, returned t ≤ arrived u

/-- `I k` is an invariant of phase `k`. -/
structure Invariant (w : Work Tid σ) (I : ℕ → σ → Prop) : Prop where
  step : ∀ {k t d}, I k d → w.finished k t d = false → I k (w.step k t d)
  stable : ∀ {k t u d}, I k d → w.finished k t d = false → w.finished k u d = true →
    w.finished k u (w.step k t d) = true
  next : ∀ {k d}, I k d → (∀ t, w.finished k t d = true) → I (k + 1) d

/-- The threads are in their phases or at the barrier behind them. -/
structure InStep (J : β → (Tid → ℕ) → (Tid → ℕ) → Prop) (s : State Tid β σ) : Prop where
  safe : J s.barrier s.arrived s.returned
  between : ∀ t, s.arrived t = s.returned t ∨ s.arrived t = s.returned t + 1

/-- Phase `k` is going on: the threads are in it, at the barrier before or at the one behind it. -/
structure InPhase (w : Work Tid σ) (J : β → (Tid → ℕ) → (Tid → ℕ) → Prop) (I : ℕ → σ → Prop)
    (k : ℕ) (s : State Tid β σ) : Prop extends InStep J s where
  returned_le : ∀ t, s.returned t ≤ k
  le_arrived : ∀ t, k ≤ s.arrived t
  data : I k s.data
  finished : ∀ t, k < s.arrived t → w.finished k t s.data = true

variable {b : Barrier Tid β} {w : Work Tid σ} {J : β → (Tid → ℕ) → (Tid → ℕ) → Prop}
  {I : ℕ → σ → Prop} {k : ℕ} {s : State Tid β σ}

theorem inStep_start (hb : Safe b J) (d : σ) : InStep J (start b d) := ⟨hb.init, fun _ => .inl rfl⟩

theorem InStep.turn (hb : Safe b J) (h : InStep J s) (t : Tid) : InStep J (Phased.turn b w t s) := by
  rw [Phased.turn]
  by_cases hout : s.arrived t = s.returned t
  · rw [if_pos hout]
    split_ifs
    · refine ⟨hb.arrive h.safe hout, fun u => ?_⟩
      rcases eq_or_ne u t with rfl | hne
      · exact .inr (by simp [hout])
      · simpa [hne] using h.between u
    · exact ⟨h.safe, h.between⟩
  · have hin := (h.between t).resolve_left hout
    rw [if_neg hout]
    refine ⟨hb.turn h.safe hin, fun u => ?_⟩
    cases hgoes : (b.turn t s.barrier).2 with
    | false => simpa [hgoes] using h.between u
    | true =>
      rcases eq_or_ne u t with rfl | hne
      · exact .inl (by simp [hgoes, hin])
      · simpa [hgoes, hne] using h.between u

/-- No thread is let go before all have arrived, whatever the threads do in their phases. -/
theorem inStep_turns (hb : Safe b J) (h : InStep J s) (schedule : List Tid) :
    InStep J (turns b w schedule s) := by
  induction schedule generalizing s with
  | nil => exact h
  | cons t schedule ih => exact ih (h.turn hb t)

omit [DecidableEq Tid] in
/-- A thread that is not at the barrier is in the phase that is going on. -/
theorem InPhase.eq (h : InPhase w J I k s) {t : Tid} (ht : s.arrived t = s.returned t) :
    s.returned t = k := le_antisymm (h.returned_le t) (ht ▸ h.le_arrived t)

/-- Step lemma: a turn stays in the phase, or is the first one behind the barrier. -/
theorem InPhase.turn (hb : Safe b J) (hI : Invariant w I) (h : InPhase w J I k s) (t : Tid) :
    ∃ k', InPhase w J I k' (Phased.turn b w t s) := by
  have hstep : InStep J (Phased.turn b w t s) := h.toInStep.turn hb t
  have hbetween := h.between
  rw [Phased.turn] at hstep ⊢
  by_cases hout : s.arrived t = s.returned t
  · have hk := h.eq hout
    rw [if_pos hout, hk] at hstep ⊢
    cases hfin : w.finished k t s.data with
    | true =>
      rw [hfin] at hstep
      refine ⟨k, hstep, h.returned_le, fun u => ?_, h.data, fun u hu => ?_⟩
      · rcases eq_or_ne u t with rfl | hne
        · simpa using Nat.le_succ_of_le (h.le_arrived u)
        · simpa [hne] using h.le_arrived u
      · rcases eq_or_ne u t with rfl | hne
        · exact hfin
        · exact h.finished u (by simpa [hne] using hu)
    | false =>
      rw [hfin] at hstep
      exact ⟨k, hstep, h.returned_le, h.le_arrived, hI.step h.data hfin,
        fun u hu => hI.stable h.data hfin (h.finished u hu)⟩
  · rw [if_neg hout] at hstep ⊢
    rcases hturn : b.turn t s.barrier with ⟨barrier, goes⟩
    rw [hturn] at hstep
    cases goes with
    | false => exact ⟨k, hstep, h.returned_le, h.le_arrived, h.data, h.finished⟩
    | true =>
      have hle := h.returned_le t
      rcases Nat.lt_or_eq_of_le hle with hlt | heq
      · -- the thread comes late into a phase that is going on
        refine ⟨k, hstep, fun u => ?_, h.le_arrived, h.data, h.finished⟩
        rcases eq_or_ne u t with rfl | hne
        · simpa using Nat.succ_le_of_lt hlt
        · simpa [hne] using h.returned_le u
      · -- the first thread behind the barrier: all have arrived
        have hall : ∀ u, k < s.arrived u := by
          intro u
          have hreturned := hb.le hstep.safe t u
          simp only [if_true, Function.update_self, heq] at hreturned
          exact hreturned
        refine ⟨k + 1, hstep, fun u => ?_, hall,
          hI.next h.data fun u => h.finished u (hall u), fun u hu => ?_⟩
        · rcases eq_or_ne u t with rfl | hne
          · simp [heq]
          · simpa [hne] using Nat.le_succ_of_le (h.returned_le u)
        · have hle' := h.returned_le u
          have hu' : k + 1 < s.arrived u := hu
          rcases hbetween u with h' | h' <;> omega

/-- Run lemma: in every interleaving some phase is going on, with its invariant. -/
theorem inPhase_turns (hb : Safe b J) (hI : Invariant w I) (h : InPhase w J I k s)
    (schedule : List Tid) : ∃ k', InPhase w J I k' (turns b w schedule s) := by
  induction schedule generalizing k s with
  | nil => exact ⟨k, h⟩
  | cons t schedule ih =>
    obtain ⟨k', h'⟩ := h.turn hb hI t
    exact ih h'

theorem inPhase_start (hb : Safe b J) {d : σ} (hd : I 0 d) : InPhase w J I 0 (start b d) :=
  ⟨inStep_start hb d, fun _ => Nat.le_refl 0, fun _ => Nat.le_refl 0, hd,
    fun _ hlt => absurd hlt (Nat.lt_irrefl 0)⟩

/-! ### Progress -/

/-- Some turn of the schedule at the barrier lets its thread go. -/
def LetsGo (b : Barrier Tid β) : List Tid → β → Prop
  | [], _ => False
  | t :: schedule, x => (b.turn t x).2 = true ∨ LetsGo b schedule (b.turn t x).1

/-- When all threads are at the barrier, such a schedule brings one of them into its next phase. -/
theorem exists_returned {schedule : List Tid} {s : State Tid β σ}
    (hgo : LetsGo b schedule s.barrier) (hall : ∀ t, s.arrived t ≠ s.returned t) :
    ∃ rest t, (turns b w rest s).returned = Function.update s.returned t (s.returned t + 1) := by
  induction schedule generalizing s with
  | nil => exact hgo.elim
  | cons t schedule ih =>
    have hturn : turn b w t s = { s with
        barrier := (b.turn t s.barrier).1,
        returned := if (b.turn t s.barrier).2 then
          Function.update s.returned t (s.returned t + 1) else s.returned } := by
      rw [turn, if_neg (hall t)]
    cases hgoes : (b.turn t s.barrier).2 with
    | true => exact ⟨[t], t, by rw [turns, List.foldl_cons, List.foldl_nil, hturn, hgoes]; rfl⟩
    | false =>
      rw [hgoes] at hturn
      have hgo' : LetsGo b schedule (turn b w t s).barrier := by
        rw [hturn]
        exact hgo.resolve_left (by rw [hgoes]; exact Bool.false_ne_true)
      obtain ⟨rest, u, hu⟩ := ih hgo' (by rw [hturn]; exact hall)
      refine ⟨t :: rest, u, ?_⟩
      rw [turns, List.foldl_cons]
      rw [turns] at hu
      rw [hu, hturn]
      rfl

end Phased

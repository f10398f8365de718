import Mathlib.Data.List.Basic

/-! Calls on a mutable object that either return or throw, and finite runs of such calls.

    A call takes the object's state and leaves a new state behind in both cases: an exception does
    not roll anything back. `runAll` is a loop of calls that stops at the first exception. The two
    rules below reduce a statement about a whole run to one about a single call: what a call keeps
    is kept by every run that returns (`runAll_induction`), and where the calls always return, so
    does the run (`runAll_returns`). -/

/-- How a call on a state ended: normally, or with the exception `e`; the state is what is left. -/
inductive Outcome (ε σ : Type*) where
  | returned (s : σ)
  | threw (e : ε) (s : σ)
  deriving DecidableEq

namespace Outcome
variable {ε σ α : Type*}

/-- The state a call leaves behind, however it ended. -/
def state : Outcome ε σ → σ
  | .returned s => s
  | .threw _ s => s

/-- Whether the call returned. -/
def isReturned : Outcome ε σ → Bool
  | .returned _ => true
  | .threw _ _ => false

theorem eq_returned_state {o : Outcome ε σ} (h : o.isReturned = true) : o = .returned o.state := by
  cases o with
  | returned s => rfl
  | threw e s => cases h

/-- Continue with `f` after a normal return; an exception propagates. -/
def andThen (o : Outcome ε σ) (f : σ → Outcome ε σ) : Outcome ε σ :=
  match o with
  | .returned s => f s
  | .threw e s => .threw e s

/-- One call per element of the list, in order, up to the first exception. -/
def runAll (call : α → σ → Outcome ε σ) : List α → σ → Outcome ε σ
  | [], s => .returned s
  | a :: l, s => (call a s).andThen (runAll call l)

@[simp] theorem andThen_returned (s : σ) (f : σ → Outcome ε σ) :
    (returned s : Outcome ε σ).andThen f = f s := rfl

@[simp] theorem andThen_threw (e : ε) (s : σ) (f : σ → Outcome ε σ) :
    (threw e s).andThen f = threw e s := rfl

theorem andThen_eq_returned {o : Outcome ε σ} {f : σ → Outcome ε σ} {t : σ} :
    o.andThen f = .returned t ↔ ∃ u, o = .returned u ∧ f u = .returned t := by
  cases o <;> simp

theorem forall_split_nil {P : List α → α → Prop} :
    ∀ pre t post, [] = pre ++ t :: post → P pre t := by
  intro pre t post heq
  cases pre <;> cases heq

/-- What holds at each place of a list, of the part before it and the entry there. -/
theorem forall_split_cons {P : List α → α → Prop} {a : α} {l : List α} :
    (∀ pre t post, a :: l = pre ++ t :: post → P pre t) ↔
      P [] a ∧ ∀ pre t post, l = pre ++ t :: post → P (a :: pre) t := by
  constructor
  · intro h
    exact ⟨h [] a l rfl, fun pre t post heq => h (a :: pre) t post (by rw [heq]; rfl)⟩
  · rintro ⟨hhead, hrest⟩ pre t post heq
    cases pre with
    | nil =>
      obtain ⟨rfl, rfl⟩ := List.cons.inj heq
      exact hhead
    | cons b pre =>
      rw [List.cons_append, List.cons.injEq] at heq
      obtain ⟨rfl, rfl⟩ := heq
      exact hrest pre t post rfl

@[simp] theorem runAll_nil (call : α → σ → Outcome ε σ) (s : σ) :
    runAll call [] s = .returned s := rfl

@[simp] theorem runAll_cons (call : α → σ → Outcome ε σ) (a : α) (l : List α) (s : σ) :
    runAll call (a :: l) s = (call a s).andThen (runAll call l) := rfl

/-- A run over a concatenation is the one run followed by the other. -/
theorem runAll_append (call : α → σ → Outcome ε σ) (l l' : List α) (s : σ) :
    runAll call (l ++ l') s = (runAll call l s).andThen (runAll call l') := by
  induction l generalizing s with
  | nil => rfl
  | cons a l ih =>
    rw [List.cons_append, runAll_cons, runAll_cons]
    cases call a s with
    | returned u => exact ih u
    | threw e u => rfl

/-- Every prefix of a run that returns returns. -/
theorem runAll_append_eq_returned {call : α → σ → Outcome ε σ} {l l' : List α} {s t : σ} :
    runAll call (l ++ l') s = .returned t ↔
      ∃ u, runAll call l s = .returned u ∧ runAll call l' u = .returned t := by
  rw [runAll_append, andThen_eq_returned]

/-- A run that returns, one call longer. -/
theorem runAll_snoc_eq_returned {call : α → σ → Outcome ε σ} {l : List α} {a : α} {s t : σ} :
    runAll call (l ++ [a]) s = .returned t ↔
      ∃ u, runAll call l s = .returned u ∧ call a u = .returned t := by
  rw [runAll_append_eq_returned]
  refine exists_congr fun u => and_congr_right fun _ => ?_
  rw [runAll_cons]
  cases call a u <;> simp

/-- Run rule: an invariant over the calls made so far that one returning call keeps holds after
    every run that returns. -/
theorem runAll_induction {call : α → σ → Outcome ε σ} {I : List α → σ → Prop} {l : List α}
    {s t : σ} (init : I [] s)
    (step : ∀ done a u v, done ++ [a] <+: l → I done u → call a u = .returned v →
      I (done ++ [a]) v)
    (run : runAll call l s = .returned t) : I l t := by
  suffices h : ∀ (rest done : List α) (u : σ), done ++ rest = l → I done u →
      runAll call rest u = .returned t → I l t by
    exact h l [] s rfl init run
  intro rest
  induction rest with
  | nil =>
    intro done u hl hu hrun
    rw [runAll_nil, Outcome.returned.injEq] at hrun
    subst hrun; simpa [← hl] using hu
  | cons a rest ih =>
    intro done u hl hu hrun
    rw [runAll_cons, andThen_eq_returned] at hrun
    obtain ⟨v, hv, hrun⟩ := hrun
    have hpre : done ++ [a] <+: l := ⟨rest, by simpa using hl⟩
    exact ih (done ++ [a]) v (by simpa using hl) (step done a u v hpre hu hv) hrun

/-- Where the invariant makes each next call return, the whole run returns. -/
theorem runAll_returns {call : α → σ → Outcome ε σ} {I : List α → σ → Prop} {l : List α}
    {s : σ} (init : I [] s)
    (step : ∀ done a u, done ++ [a] <+: l → I done u →
      ∃ v, call a u = .returned v ∧ I (done ++ [a]) v) :
    ∃ t, runAll call l s = .returned t ∧ I l t := by
  suffices h : ∀ (rest done : List α) (u : σ), done ++ rest = l → I done u →
      ∃ t, runAll call rest u = .returned t ∧ I l t by
    exact h l [] s rfl init
  intro rest
  induction rest with
  | nil => intro done u hl hu; exact ⟨u, rfl, by simpa [← hl] using hu⟩
  | cons a rest ih =>
    intro done u hl hu
    obtain ⟨v, hv, hinv⟩ := step done a u ⟨rest, by simpa using hl⟩ hu
    obtain ⟨t, ht, hl'⟩ := ih (done ++ [a]) v (by simpa using hl) hinv
    exact ⟨t, by rw [runAll_cons, hv, andThen_returned, ht], hl'⟩

end Outcome

import Mathlib.Data.List.Basic
import Mathlib.Logic.Function.Basic
import Mathlib.Tactic.SplitIfs

/-! Memo tables, and runs of calls that share one.

    `TwoLevel` is a map of maps in which an insert makes the inner map if there is none and never
    replaces a value. A call on a state with a memo table (`Memoises`) returns what is stored under
    its key, and otherwise stores nothing, or what it returns, under its own key. In a run of such
    calls a stored value stays (`keep_after`), is what every later call with its key returns
    (`returns_again`), and was returned by a call with that key that had found nothing (`origin`). -/

namespace TwoLevel
variable {K L V : Type} [DecidableEq K] [DecidableEq L]

/-- The value stored under the two keys. -/
def find (m : K → Option (L → Option V)) (k : K) (l : L) : Option V := (m k).bind (· l)

/-- Store a value where there is none. -/
def insert (m : K → Option (L → Option V)) (k : K) (l : L) (v : V) : K → Option (L → Option V) :=
  match m k with
  | none => Function.update m k (some (Function.update (fun _ => none) l (some v)))
  | some inner =>
    match inner l with
    | some _ => m
    | none => Function.update m k (some (Function.update inner l (some v)))

theorem find_insert {m : K → Option (L → Option V)} {k : K} {l : L} (h : find m k l = none) (v : V)
    (k' : K) (l' : L) :
    find (insert m k l v) k' l' = if k' = k ∧ l' = l then some v else find m k' l' := by
  cases hm : m k with
  | none =>
    rcases eq_or_ne k' k with rfl | hk
    · rcases eq_or_ne l' l with rfl | hl
      · simp [find, insert, hm]
      · simp [find, insert, hm, hl]
    · simp [find, insert, hm, hk]
  | some inner =>
    have hl : inner l = none := by simpa [find, hm] using h
    rcases eq_or_ne k' k with rfl | hk
    · rcases eq_or_ne l' l with rfl | hl'
      · simp [find, insert, hm, hl]
      · simp [find, insert, hm, hl, hl']
    · simp [find, insert, hm, hl, hk]

end TwoLevel

namespace Memo
variable {C K V R S : Type} {key : C → K} {lookup : S → K → Option V} {ret : V → R}
  {step : C → S → R × S}

/-- The state after a run of calls. -/
def after (step : C → S → R × S) (calls : List C) (s : S) : S :=
  calls.foldl (fun s c => (step c s).2) s

@[simp] theorem after_nil (s : S) : after step [] s = s := rfl

@[simp] theorem after_cons (c : C) (calls : List C) (s : S) :
    after step (c :: calls) s = after step calls (step c s).2 := rfl

theorem after_append (calls calls' : List C) (s : S) :
    after step (calls ++ calls') s = after step calls' (after step calls s) := List.foldl_append

/-- What the calls keep holds after the run. -/
theorem after_induction {P : S → Prop} (hstep : ∀ c s, P s → P (step c s).2) (calls : List C) {s : S}
    (h : P s) : P (after step calls s) := by
  induction calls generalizing s with
  | nil => exact h
  | cons c calls ih => exact ih (hstep c s h)

/-- The calls share a memo table: `lookup` reads it and `ret` returns a value from it. -/
structure Memoises (key : C → K) (lookup : S → K → Option V) (ret : V → R)
    (step : C → S → R × S) : Prop where
  hit : ∀ c s v, lookup s (key c) = some v → step c s = (ret v, s)
  miss : ∀ c s, lookup s (key c) = none → (∀ k, lookup (step c s).2 k = lookup s k) ∨
    ∃ v, (step c s).1 = ret v ∧ lookup (step c s).2 (key c) = some v ∧
      ∀ k ≠ key c, lookup (step c s).2 k = lookup s k

namespace Memoises

/-- A call replaces and removes nothing. -/
theorem keep (h : Memoises key lookup ret step) (c : C) {s : S} {k : K} {v : V}
    (hk : lookup s k = some v) : lookup (step c s).2 k = some v := by
  cases hc : lookup s (key c) with
  | some w => rw [h.hit c s w hc]; exact hk
  | none =>
    rcases h.miss c s hc with hsame | ⟨w, -, -, hsame⟩
    · rw [hsame]; exact hk
    · rw [hsame k]
      · exact hk
      · rintro rfl
        cases hc.symm.trans hk

/-- What a run finds stays as it is. -/
theorem keep_after (h : Memoises key lookup ret step) (calls : List C) {s : S} {k : K} {v : V}
    (hk : lookup s k = some v) : lookup (after step calls s) k = some v :=
  after_induction (P := fun s => lookup s k = some v) (fun c _ => h.keep c) calls hk

/-- What a call has stored is what every later call with its key returns. -/
theorem returns_again (h : Memoises key lookup ret step) {c : C} {s : S} {v : V}
    (hstored : lookup (step c s).2 (key c) = some v) (mid : List C) {c' : C} (hkey : key c' = key c) :
    (step c' (after step mid (step c s).2)).1 = ret v := by
  have hfound := h.keep_after mid hstored
  rw [← hkey] at hfound
  rw [h.hit c' _ v hfound]

/-- What a single call adds to the table it returns. -/
theorem of_new (h : Memoises key lookup ret step) {c : C} {s : S} {k : K} {v : V}
    (hnone : lookup s k = none) (hsome : lookup (step c s).2 k = some v) :
    key c = k ∧ (step c s).1 = ret v := by
  cases hc : lookup s (key c) with
  | some w =>
    rw [h.hit c s w hc] at hsome
    cases hnone.symm.trans hsome
  | none =>
    rcases h.miss c s hc with hsame | ⟨w, hret, hstored, hsame⟩
    · rw [hsame] at hsome
      cases hnone.symm.trans hsome
    · by_cases hk : key c = k
      · subst hk
        exact ⟨rfl, by rw [hret, Option.some.inj (hstored.symm.trans hsome)]⟩
      · rw [hsame k (Ne.symm hk)] at hsome
        cases hnone.symm.trans hsome

/-- What a run has added to the table was returned by one of its calls, with that key, which had
    found nothing. -/
theorem origin (h : Memoises key lookup ret step) {calls : List C} {s : S} {k : K} {v : V}
    (hnone : lookup s k = none) (hsome : lookup (after step calls s) k = some v) :
    ∃ pre c post, calls = pre ++ c :: post ∧ key c = k ∧ lookup (after step pre s) k = none ∧
      (step c (after step pre s)).1 = ret v := by
  induction calls generalizing s with
  | nil => cases hnone.symm.trans hsome
  | cons c calls ih =>
    cases hc : lookup (step c s).2 k with
    | some w =>
      obtain rfl : w = v := Option.some.inj ((h.keep_after calls hc).symm.trans hsome)
      obtain ⟨hkey, hret⟩ := h.of_new hnone hc
      exact ⟨[], c, calls, rfl, hkey, hnone, hret⟩
    | none =>
      obtain ⟨pre, d, post, rfl, hrest⟩ := ih hc hsome
      exact ⟨c :: pre, d, post, rfl, hrest⟩

end Memoises
end Memo

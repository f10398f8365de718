/-! Filling a table by a loop whose steps may fail.

    A step changes the entries that are its own. So an entry that belongs to no step keeps its value
    (`keeps`), and one that belongs to a single step has the value that this step gives it
    (`entry`). If it does not depend on the table whether a step fails, the loop does not fail if and
    only if none of its steps does (`foldlM_ok_iff`). -/

namespace TableFill
variable {α ι β ε : Type} {step : (ι → β) → α → Except ε (ι → β)} {k : ι} {t t' : ι → β}

theorem bind_eq_ok {σ τ : Type} {x : Except ε σ} {f : σ → Except ε τ} {b : τ} :
    x >>= f = .ok b ↔ ∃ a, x = .ok a ∧ f a = .ok b := by
  cases x with
  | error e => simp [bind, Except.bind]
  | ok a => simp [bind, Except.bind]

/-- The step for `a` leaves entry `k` as it is. -/
def Keeps (step : (ι → β) → α → Except ε (ι → β)) (k : ι) (a : α) : Prop :=
  ∀ t t', step t a = .ok t' → t' k = t k

theorem keeps {l : List α} (hkeep : ∀ a ∈ l, Keeps step k a) (hrun : l.foldlM step t = .ok t') :
    t' k = t k := by
  induction l generalizing t with
  | nil =>
    rw [List.foldlM_nil] at hrun
    rw [Except.ok.inj hrun]
  | cons a l ih =>
    rw [List.foldlM_cons, bind_eq_ok] at hrun
    obtain ⟨s, hstep, hrest⟩ := hrun
    rw [ih (fun b hb => hkeep b (List.mem_cons_of_mem a hb)) hrest]
    exact hkeep a List.mem_cons_self t s hstep

/-- The entry of `a` alone. -/
theorem entry {l l' : List α} {a : α} (hkeep : ∀ b ∈ l, Keeps step k b)
    (hkeep' : ∀ b ∈ l', Keeps step k b) (hrun : (l ++ a :: l').foldlM step t = .ok t') :
    ∃ s s', step s a = .ok s' ∧ s k = t k ∧ t' k = s' k := by
  induction l generalizing t with
  | nil =>
    rw [List.nil_append, List.foldlM_cons, bind_eq_ok] at hrun
    obtain ⟨s', hstep, hrest⟩ := hrun
    exact ⟨t, s', hstep, rfl, keeps hkeep' hrest⟩
  | cons b l ih =>
    rw [List.cons_append, List.foldlM_cons, bind_eq_ok] at hrun
    obtain ⟨r, hstep, hrest⟩ := hrun
    obtain ⟨s, s', hs, hbefore, hafter⟩ := ih (fun c hc => hkeep c (List.mem_cons_of_mem b hc)) hrest
    exact ⟨s, s', hs, hbefore.trans (hkeep b List.mem_cons_self t r hstep), hafter⟩

/-- A loop fails if and only if one of its steps does, when that does not depend on the table. -/
theorem foldlM_ok_iff {S : α → Prop} {l : List α}
    (hstep : ∀ a ∈ l, ∀ t, (∃ t', step t a = .ok t') ↔ S a) (t : ι → β) :
    (∃ t', l.foldlM step t = .ok t') ↔ ∀ a ∈ l, S a := by
  induction l generalizing t with
  | nil => exact iff_of_true ⟨t, rfl⟩ fun a ha => absurd ha List.not_mem_nil
  | cons a l ih =>
    have hrest := ih fun b hb => hstep b (List.mem_cons_of_mem a hb)
    rw [List.forall_mem_cons, ← hstep a List.mem_cons_self t]
    simp only [List.foldlM_cons, bind_eq_ok]
    constructor
    · rintro ⟨t', s, hs, hrun⟩
      exact ⟨⟨s, hs⟩, (hrest s).mp ⟨t', hrun⟩⟩
    · rintro ⟨⟨s, hs⟩, hall⟩
      obtain ⟨t', hrun⟩ := (hrest s).mpr hall
      exact ⟨t', s, hs, hrun⟩

end TableFill

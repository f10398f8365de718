import Mathlib.Data.List.Induction

/-! Maximal runs of a list between occurrences of a separator.

    A list is a sequence of runs that a separator ends, and a last run that the end of the list ends:
    `closed c runs ++ last`. The maximal runs of such a list are the nonempty ones among them
    (`maximalRun_closed_iff`). So a pass that changes the runs and leaves the separators where they
    are is described by what it does to each run (`forall_maximalRun_iff`). -/

namespace Runs
variable {α : Type*} {c : α}

/-- `run` is a longest nonempty part of `l` without `c`, between `pre` and `post`. -/
structure MaximalRun (c : α) (l pre run post : List α) : Prop where
  split : l = pre ++ run ++ post
  ne_nil : run ≠ []
  notMem : c ∉ run
  left : pre ≠ [] → pre.getLast? = some c
  right : post ≠ [] → post.head? = some c

/-- The runs one after the other, each of them followed by `c`. -/
def closed (c : α) (runs : List (List α)) : List α := runs.flatMap (· ++ [c])

@[simp] theorem closed_nil : closed c [] = [] := rfl

@[simp] theorem closed_cons (r : List α) (runs : List (List α)) :
    closed c (r :: runs) = r ++ c :: closed c runs := by simp [closed]

@[simp] theorem closed_append (runs runs' : List (List α)) :
    closed c (runs ++ runs') = closed c runs ++ closed c runs' := by simp [closed]

theorem length_closed_map {f : List α → List α} (hf : ∀ r, (f r).length = r.length)
    (runs : List (List α)) : (closed c (runs.map f)).length = (closed c runs).length := by
  induction runs with
  | nil => rfl
  | cons r runs ih => simp [ih, hf]

/-- The part of a list up to the first `c`, and what comes after it. -/
theorem append_cons_inj {r r' l l' : List α} (hr : c ∉ r) (hr' : c ∉ r')
    (h : r ++ c :: l = r' ++ c :: l') : r = r' ∧ l = l' := by
  rcases List.append_eq_append_iff.mp h with ⟨d, rfl, hd⟩ | ⟨d, rfl, hd⟩
  · cases d with
    | nil => simpa using hd
    | cons a d =>
      rw [List.cons_append, List.cons.injEq] at hd
      exact absurd (by rw [hd.1]; simp) hr'
  · cases d with
    | nil => simpa [eq_comm] using hd
    | cons a d =>
      rw [List.cons_append, List.cons.injEq] at hd
      exact absurd (by rw [hd.1]; simp) hr

/-- A maximal run of `r ++ c :: l` is `r` or one of `l`. -/
theorem maximalRun_append_cons {r l pre run post : List α} (hr : c ∉ r)
    (h : MaximalRun c (r ++ c :: l) pre run post) :
    (pre = [] ∧ run = r ∧ post = c :: l) ∨ ∃ pre', pre = r ++ c :: pre' ∧
      MaximalRun c l pre' run post := by
  by_cases hpre : pre = []
  · left
    subst hpre
    cases post with
    | nil =>
      have hmem : c ∈ run := by
        have hsplit := h.split
        rw [List.nil_append, List.append_nil] at hsplit
        rw [← hsplit]; simp
      exact absurd hmem h.notMem
    | cons a post =>
      obtain rfl : a = c := by simpa using h.right (List.cons_ne_nil a post)
      obtain ⟨rfl, rfl⟩ := append_cons_inj hr h.notMem h.split
      exact ⟨rfl, rfl, rfl⟩
  · right
    obtain ⟨q, rfl⟩ := List.getLast?_eq_some_iff.mp (h.left hpre)
    have hsplit : r ++ c :: l = q ++ (c :: (run ++ post)) := by rw [h.split]; simp
    rcases List.append_eq_append_iff.mp hsplit with ⟨d, rfl, hd⟩ | ⟨d, rfl, hd⟩
    · cases d with
      | nil =>
        rw [List.nil_append, List.cons.injEq] at hd
        exact ⟨[], by simp, by simpa using hd.2, h.ne_nil, h.notMem, by simp, h.right⟩
      | cons a d =>
        rw [List.cons_append, List.cons.injEq] at hd
        obtain ⟨rfl, rfl⟩ := hd
        refine ⟨d ++ [c], by simp, by simp, h.ne_nil, h.notMem, by simp, h.right⟩
    · cases d with
      | nil =>
        rw [List.nil_append, List.cons.injEq] at hd
        exact ⟨[], by simp, by simpa using hd.2.symm, h.ne_nil, h.notMem, by simp, h.right⟩
      | cons a d =>
        rw [List.cons_append, List.cons.injEq] at hd
        exact absurd (by rw [hd.1]; simp) hr

/-- The maximal runs are the nonempty ones of the runs that the list was put together from. -/
theorem maximalRun_closed_iff {runs : List (List α)} {last pre run post : List α}
    (hruns : ∀ r ∈ runs, c ∉ r) (hlast : c ∉ last) :
    MaximalRun c (closed c runs ++ last) pre run post ↔
      (∃ before after, runs = before ++ run :: after ∧ run ≠ [] ∧ pre = closed c before ∧
        post = c :: (closed c after ++ last)) ∨
      (run = last ∧ last ≠ [] ∧ pre = closed c runs ∧ post = []) := by
  constructor
  · intro h
    induction runs generalizing pre with
    | nil =>
      right
      have hsplit : last = pre ++ run ++ post := by simpa using h.split
      have hpre : pre = [] := by
        by_contra hne
        obtain ⟨q, rfl⟩ := List.getLast?_eq_some_iff.mp (h.left hne)
        exact hlast (by rw [hsplit]; simp)
      have hpost : post = [] := by
        by_contra hne
        obtain ⟨t, rfl⟩ := List.head?_eq_some_iff.mp (h.right hne)
        exact hlast (by rw [hsplit]; simp)
      subst hpre hpost
      rw [List.nil_append, List.append_nil] at hsplit
      exact ⟨hsplit.symm, by rw [hsplit]; exact h.ne_nil, rfl, rfl⟩
    | cons r runs ih =>
      rw [closed_cons, List.append_assoc, List.cons_append] at h
      rcases maximalRun_append_cons (hruns r List.mem_cons_self) h with
        ⟨rfl, rfl, rfl⟩ | ⟨pre', rfl, h'⟩
      · exact .inl ⟨[], runs, rfl, h.ne_nil, rfl, rfl⟩
      · rcases ih (fun r' hr' => hruns r' (List.mem_cons_of_mem r hr')) h' with
          ⟨before, after, rfl, hne, rfl, rfl⟩ | ⟨rfl, hne, rfl, rfl⟩
        · exact .inl ⟨r :: before, after, rfl, hne, by simp, rfl⟩
        · exact .inr ⟨rfl, hne, by simp, rfl⟩
  · have hleft : ∀ runs : List (List α), closed c runs ≠ [] → (closed c runs).getLast? = some c := by
      intro runs
      induction runs using List.reverseRecOn with
      | nil => intro h; exact absurd rfl h
      | append_singleton runs r _ => intro _; simp
    rintro (⟨before, after, rfl, hne, rfl, rfl⟩ | ⟨rfl, hne, rfl, rfl⟩)
    · exact ⟨by simp, hne, hruns run (by simp), hleft before, by simp⟩
    · exact ⟨by simp, hne, hlast, hleft runs, fun h => absurd rfl h⟩

/-- A pass that replaces every closed run by `f` of it, and keeps the last one: what holds of every
    maximal run and the part of the result at its place is what holds of `f`, and of the last run
    and itself. -/
theorem forall_maximalRun_iff {runs : List (List α)} {last : List α} {f : List α → List α}
    (hruns : ∀ r ∈ runs, c ∉ r) (hlast : c ∉ last) (hf : ∀ r, (f r).length = r.length)
    (P : List α → List α → Prop) :
    (∀ pre run post, MaximalRun c (closed c runs ++ last) pre run post →
      P run (((closed c (runs.map f) ++ last).drop pre.length).take run.length)) ↔
    (∀ r ∈ runs, r ≠ [] → P r (f r)) ∧ (last ≠ [] → P last last) := by
  have hinner : ∀ before run after, ((closed c ((before ++ run :: after).map f) ++ last).drop
      (closed c before).length).take run.length = f run := by
    intro before run after
    rw [← length_closed_map hf before, ← hf run]
    simp
  have houter : ((closed c (runs.map f) ++ last).drop (closed c runs).length).take last.length
      = last := by
    rw [← length_closed_map hf runs]
    simp
  constructor
  · intro h
    refine ⟨?_, ?_⟩
    · intro r hr hne
      obtain ⟨before, after, rfl⟩ := List.append_of_mem hr
      have hP := h _ r _
        ((maximalRun_closed_iff hruns hlast).mpr (.inl ⟨before, after, rfl, hne, rfl, rfl⟩))
      rwa [hinner] at hP
    · intro hne
      have hP := h _ last _ ((maximalRun_closed_iff hruns hlast).mpr (.inr ⟨rfl, hne, rfl, rfl⟩))
      rwa [houter] at hP
  · rintro ⟨hall, hend⟩ pre run post h
    rcases (maximalRun_closed_iff hruns hlast).mp h with
      ⟨before, after, rfl, hne, rfl, rfl⟩ | ⟨rfl, hne, rfl, rfl⟩
    · rw [hinner]
      exact hall run (by simp) hne
    · rw [houter]
      exact hend hne

end Runs

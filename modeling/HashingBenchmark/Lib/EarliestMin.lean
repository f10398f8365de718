import Mathlib.Data.List.Basic
import Mathlib.Data.List.Induction
import Mathlib.Order.Basic
import Mathlib.Order.Lattice

/-! The earliest element of least cost among those of a list with one key.

    `EarliestMin key cost l e`: before `e` the elements with its key cost more, after it they do not
    cost less. An element added at the end either leaves it or takes its place (`snoc_iff`). A table of
    the earliest minima of all keys (`Table`) is kept up by looking at the one entry of the new
    element's key (`Table.replace`, `Table.leave`). -/

variable {α ν κ : Type} {key : α → ν} {cost : α → κ} [LinearOrder κ]

/-- `e` has the least cost of the elements of `l` with its key, and is the first with that cost. -/
def EarliestMin (key : α → ν) (cost : α → κ) (l : List α) (e : α) : Prop :=
  ∃ before after, l = before ++ e :: after ∧ (∀ d ∈ before, key d = key e → cost e < cost d) ∧
    ∀ d ∈ after, key d = key e → cost e ≤ cost d

namespace EarliestMin

theorem mem {l : List α} {e : α} (h : EarliestMin key cost l e) : e ∈ l := by
  obtain ⟨before, after, rfl, -, -⟩ := h
  exact List.mem_append_right before List.mem_cons_self

theorem le {l : List α} {e d : α} (h : EarliestMin key cost l e) (hd : d ∈ l)
    (hkey : key d = key e) : cost e ≤ cost d := by
  obtain ⟨before, after, rfl, hbefore, hafter⟩ := h
  rcases List.mem_append.mp hd with hd | hd
  · exact (hbefore d hd hkey).le
  · rcases List.mem_cons.mp hd with rfl | hd
    · exact le_rfl
    · exact hafter d hd hkey

theorem not_nil {e : α} : ¬ EarliestMin key cost [] e := fun h => List.not_mem_nil h.mem

/-- One more element: `e` stays unless the new one has its key and costs less, and the new one is it
    if it costs less than all others with its key. -/
theorem snoc_iff {l : List α} {d e : α} : EarliestMin key cost (l ++ [d]) e ↔
    EarliestMin key cost l e ∧ (key d = key e → cost e ≤ cost d) ∨
      e = d ∧ ∀ c ∈ l, key c = key d → cost d < cost c := by
  constructor
  · rintro ⟨before, after, heq, hbefore, hafter⟩
    rcases List.eq_nil_or_concat after with rfl | ⟨init, last, rfl⟩
    · have hinj := List.append_inj' heq rfl
      obtain ⟨rfl, hed⟩ := hinj
      obtain rfl : d = e := List.singleton_inj.mp hed
      exact Or.inr ⟨rfl, hbefore⟩
    · rw [List.concat_eq_append, ← List.cons_append, ← List.append_assoc] at heq
      obtain ⟨hl, hd⟩ := List.append_inj' heq rfl
      obtain rfl : d = last := List.singleton_inj.mp hd
      rw [List.concat_eq_append] at hafter
      refine Or.inl ⟨⟨before, init, hl, hbefore, fun c hc => ?_⟩, ?_⟩
      · exact hafter c (List.mem_append_left _ hc)
      · exact hafter d (List.mem_append_right _ List.mem_cons_self)
  · rintro (⟨⟨before, after, rfl, hbefore, hafter⟩, hd⟩ | ⟨rfl, hless⟩)
    · refine ⟨before, after ++ [d], by simp, hbefore, fun c hc => ?_⟩
      rcases List.mem_append.mp hc with hc | hc
      · exact hafter c hc
      · rw [List.mem_singleton.mp hc]
        exact hd
    · exact ⟨l, [], rfl, hless, fun c hc => absurd hc List.not_mem_nil⟩

/-- Every key of the list has an earliest minimum. -/
theorem exists_of_mem {l : List α} {d : α} (hd : d ∈ l) :
    ∃ e, EarliestMin key cost l e ∧ key e = key d := by
  induction l using List.reverseRecOn generalizing d with
  | nil => exact absurd hd List.not_mem_nil
  | append_singleton l c ih =>
    by_cases hold : ∃ b ∈ l, key b = key d
    · obtain ⟨b, hb, hbd⟩ := hold
      obtain ⟨e, he, heb⟩ := ih hb
      by_cases hless : key c = key e ∧ cost c < cost e
      · obtain ⟨hce, hcost⟩ := hless
        refine ⟨c, snoc_iff.mpr (Or.inr ⟨rfl, fun a ha hac => ?_⟩), hce.trans (heb.trans hbd)⟩
        exact hcost.trans_le (he.le ha (hac.trans hce))
      · refine ⟨e, snoc_iff.mpr (Or.inl ⟨he, fun hce => ?_⟩), heb.trans hbd⟩
        exact not_lt.mp fun hcost => hless ⟨hce, hcost⟩
    · rcases List.mem_append.mp hd with hd | hd
      · exact absurd ⟨d, hd, rfl⟩ hold
      · obtain rfl : d = c := List.mem_singleton.mp hd
        exact ⟨d, snoc_iff.mpr (Or.inr ⟨rfl, fun b hb hbd => absurd ⟨b, hb, hbd⟩ hold⟩), rfl⟩

/-- A key has one earliest minimum. -/
theorem unique {l : List α} {e e' : α} (h : EarliestMin key cost l e)
    (h' : EarliestMin key cost l e') (hkey : key e = key e') : e = e' := by
  induction l using List.reverseRecOn with
  | nil => exact absurd h not_nil
  | append_singleton l d ih =>
    rcases snoc_iff.mp h with ⟨hl, hd⟩ | ⟨rfl, hless⟩
    · rcases snoc_iff.mp h' with ⟨hl', -⟩ | ⟨rfl, hless'⟩
      · exact ih hl hl'
      · exact absurd (hless' e hl.mem hkey) (hd hkey.symm).not_gt
    · rcases snoc_iff.mp h' with ⟨hl', hd'⟩ | ⟨rfl, -⟩
      · exact absurd (hless e' hl'.mem hkey.symm) (hd' hkey).not_gt
      · rfl

/-- Where no key occurs twice every element is the earliest minimum of its key. -/
theorem of_nodup {l : List α} (hl : (l.map key).Nodup) {e : α} (he : e ∈ l) :
    EarliestMin key cost l e := by
  obtain ⟨before, after, rfl⟩ := List.append_of_mem he
  rw [List.map_append, List.map_cons, List.nodup_append, List.nodup_cons] at hl
  obtain ⟨-, ⟨hafter, -⟩, hbefore⟩ := hl
  refine ⟨before, after, rfl, fun d hd hde => ?_, fun d hd hde => ?_⟩
  · exact absurd hde (hbefore _ (List.mem_map_of_mem hd) _ List.mem_cons_self)
  · exact absurd (hde ▸ List.mem_map_of_mem hd) hafter

/-- The least cost itself does not depend on the order. -/
theorem exists_iff_le {l : List α} {k : ν} {c : κ} :
    (∃ e, EarliestMin key cost l e ∧ key e = k ∧ cost e = c) ↔
      (∃ d ∈ l, key d = k ∧ cost d = c) ∧ ∀ d ∈ l, key d = k → c ≤ cost d := by
  constructor
  · rintro ⟨e, he, rfl, rfl⟩
    exact ⟨⟨e, he.mem, rfl, rfl⟩, fun d hd hkey => he.le hd hkey⟩
  · rintro ⟨⟨d, hd, rfl, rfl⟩, hle⟩
    obtain ⟨e, he, hkey⟩ : ∃ e, EarliestMin key cost l e ∧ key e = key d := exists_of_mem hd
    exact ⟨e, he, hkey, le_antisymm (he.le hd hkey.symm) (hle e he.mem hkey)⟩

/-- `f` has the earliest minimum of each key. -/
def Table (key : α → ν) (cost : α → κ) (l : List α) (f : ν → Option α) : Prop :=
  ∀ k e, f k = some e ↔ EarliestMin key cost l e ∧ key e = k

theorem Table.nil : Table key cost [] fun _ => none := by
  intro k e
  simp [not_nil]

/-- The new element takes the place of a more expensive one, or has a new key. -/
theorem Table.replace [DecidableEq ν] {l : List α} {f : ν → Option α} (h : Table key cost l f) {d : α}
    (hless : ∀ e, f (key d) = some e → cost d < cost e) :
    Table key cost (l ++ [d]) fun k => if key d = k then some d else f k := by
  have hall : ∀ c ∈ l, key c = key d → cost d < cost c := by
    intro c hc hkey
    obtain ⟨b, hb, hbc⟩ : ∃ b, EarliestMin key cost l b ∧ key b = key c := exists_of_mem hc
    exact (hless b ((h (key d) b).mpr ⟨hb, hbc.trans hkey⟩)).trans_le (hb.le hc hbc.symm)
  intro k e
  rw [snoc_iff]
  simp only
  by_cases hk : key d = k
  · rw [if_pos hk, Option.some_inj]
    constructor
    · rintro rfl
      exact ⟨Or.inr ⟨rfl, hall⟩, hk⟩
    · rintro ⟨⟨he, hle⟩ | ⟨rfl, -⟩, hek⟩
      · have hkey : key e = key d := hek.trans hk.symm
        exact absurd (hall e he.mem hkey) (hle hkey.symm).not_gt
      · rfl
  · rw [if_neg hk, h k e]
    constructor
    · rintro ⟨he, hek⟩
      exact ⟨Or.inl ⟨he, fun hkey => absurd (hkey.trans hek) hk⟩, hek⟩
    · rintro ⟨⟨he, -⟩ | ⟨rfl, -⟩, hek⟩
      · exact ⟨he, hek⟩
      · exact absurd hek hk

/-- The new element does not cost less than the one of its key. -/
theorem Table.leave {l : List α} {f : ν → Option α} (h : Table key cost l f) {d b : α}
    (hb : f (key d) = some b) (hle : cost b ≤ cost d) : Table key cost (l ++ [d]) f := by
  obtain ⟨hmin, hkey⟩ := (h (key d) b).mp hb
  intro k e
  rw [h k e, snoc_iff]
  constructor
  · rintro ⟨he, hek⟩
    refine ⟨Or.inl ⟨he, fun hde => ?_⟩, hek⟩
    rw [← hmin.unique he (hkey.trans hde)]
    exact hle
  · rintro ⟨⟨he, -⟩ | ⟨rfl, hless⟩, hek⟩
    · exact ⟨he, hek⟩
    · exact absurd (hless b hmin.mem hkey) hle.not_gt

end EarliestMin

import Mathlib.Data.List.Basic
import Mathlib.Order.Nat
import Mathlib.Tactic.SplitIfs

/-! The bucket allocator `Tape` of `support.hpp`.

    A tape hands out the cells of its last segment one after the other and starts a new segment when
    they are used up. A pointer into the tape is a segment number and an offset, and it is valid
    only if the segment has such a cell: with a segment size of zero `alloc` still returns a pointer,
    to a cell that does not exist. `Valid` says that every cell not handed out yet is as the
    constructor left it; with a positive segment size `alloc` then returns a valid pointer to a
    fresh cell that nobody holds (`alloc_get?_self`, `not_handed_alloc`). So a run of calls returns
    valid pointers only and no cell twice (`alloc_distinct`). -/

namespace HashingBenchmark
namespace support

/-- A pointer into a tape. -/
structure Cell where
  segment : ℕ
  offset : ℕ
  deriving DecidableEq

/-- `Tape<T>`: the segments with their contents, and the members `index` and `size`. -/
structure Tape (T : Type) where
  begins : List (List T)
  index : ℕ
  size : ℕ

namespace Tape
variable {T : Type}

/-- `Tape()`, value-initialised by `std::make_unique`. -/
def empty : Tape T := ⟨[], 0, 0⟩

/-- The default argument of `alloc`. -/
def nextTapeSegmentSize (sizeofT : ℕ) : ℕ := (4 * 1024 * 1024) / sizeofT

/-- `alloc`, for elements that the default constructor makes `new`; `new[]` throws rather than
    return null, so no entry of `begins` is null. -/
def alloc (new : T) (next_tape_segment_size : ℕ) (t : Tape T) : Cell × Tape T :=
  let t' : Tape T :=
    if t.index = t.size ∨ t.begins.length = 0 then
      ⟨t.begins ++ [List.replicate next_tape_segment_size new], 0, next_tape_segment_size⟩
    else t
  (⟨t'.begins.length - 1, t'.index⟩, { t' with index := t'.index + 1 })

/-- `*c`, if the pointer is valid. -/
def get? (t : Tape T) (c : Cell) : Option T := (t.begins[c.segment]?).bind (·[c.offset]?)

/-- `*c = v`, for a valid pointer. -/
def set (t : Tape T) (c : Cell) (v : T) : Tape T :=
  { t with begins := t.begins.modify c.segment (·.set c.offset v) }

/-- All valid pointers into the tape. -/
def cells (t : Tape T) : List Cell :=
  (List.range t.begins.length).flatMap fun s =>
    (List.range (t.begins.getD s []).length).map fun o => ⟨s, o⟩

theorem alloc_cases (new : T) (n : ℕ) (t : Tape T) :
    ((t.index = t.size ∨ t.begins.length = 0) ∧ t.alloc new n
      = (⟨t.begins.length, 0⟩, ⟨t.begins ++ [List.replicate n new], 1, n⟩)) ∨
    ((t.index ≠ t.size ∧ t.begins.length ≠ 0) ∧ t.alloc new n
      = (⟨t.begins.length - 1, t.index⟩, { t with index := t.index + 1 })) := by
  by_cases h : t.index = t.size ∨ t.begins.length = 0
  · left
    refine ⟨h, ?_⟩
    simp only [alloc, if_pos h, List.length_append, List.length_singleton, Nat.add_sub_cancel]
  · right
    refine ⟨not_or.mp h, ?_⟩
    simp only [alloc, if_neg h]

theorem mem_cells {t : Tape T} {c : Cell} : c ∈ t.cells ↔ (t.get? c).isSome := by
  obtain ⟨s, o⟩ := c
  by_cases hs : s < t.begins.length
  · simp [cells, get?, hs]
  · simp [cells, get?, hs]

/-! ### Writing a cell -/

theorem get?_set {t : Tape T} {c : Cell} (hc : (t.get? c).isSome) (v : T) (c' : Cell) :
    (t.set c v).get? c' = if c' = c then some v else t.get? c' := by
  obtain ⟨s, o⟩ := c
  obtain ⟨s', o'⟩ := c'
  have hs : s < t.begins.length := by
    by_contra hge
    simp [get?, List.getElem?_eq_none (Nat.not_lt.mp hge)] at hc
  have ho : o < t.begins[s].length := by simpa [get?, hs] using hc
  rcases eq_or_ne s' s with rfl | hne
  · rcases eq_or_ne o' o with rfl | hne'
    · simp [get?, set, hs, ho]
    · simp [get?, set, hs, hne', Ne.symm hne']
  · simp [get?, set, hne, Ne.symm hne]

/-! ### Cells handed out -/

/-- The cell belongs to the part of the last segment that `alloc` has not reached yet. -/
def Unused (t : Tape T) (c : Cell) : Prop := c.segment + 1 = t.begins.length ∧ t.index ≤ c.offset

/-- The cell exists and `alloc` has returned it. -/
def Handed (t : Tape T) (c : Cell) : Prop := (t.get? c).isSome ∧ ¬ t.Unused c

/-- What `alloc` relies on; before the first call nothing is said about `index` and `size`. -/
structure Valid (new : T) (t : Tape T) : Prop where
  size_eq : ∀ seg, t.begins.getLast? = some seg → seg.length = t.size
  index_le : t.begins.length ≠ 0 → t.index ≤ t.size
  fresh : ∀ c v, t.get? c = some v → t.Unused c → v = new

theorem valid_of_begins_eq_nil {new : T} {t : Tape T} (h : t.begins = []) : Valid new t := by
  refine ⟨fun seg hseg => ?_, fun hne => ?_, fun c v hc _ => ?_⟩
  · rw [h] at hseg; cases hseg
  · simp [h] at hne
  · simp [get?, h] at hc

/-- `*c` in a tape with one more segment. -/
theorem get?_push (t : Tape T) (seg : List T) (index size : ℕ) (c : Cell) :
    (⟨t.begins ++ [seg], index, size⟩ : Tape T).get? c
      = if c.segment = t.begins.length then seg[c.offset]? else t.get? c := by
  rcases lt_trichotomy c.segment t.begins.length with h | h | h
  · simp [get?, List.getElem?_append_left h, h.ne]
  · simp [get?, h]
  · have hge : (t.begins ++ [seg]).length ≤ c.segment := by simp; omega
    simp [get?, List.getElem?_eq_none hge, List.getElem?_eq_none h.le, h.ne']

theorem segment_lt_of_valid {t : Tape T} {c : Cell} (h : (t.get? c).isSome) :
    c.segment < t.begins.length := by
  by_contra hge
  simp [get?, List.getElem?_eq_none (Nat.not_lt.mp hge)] at h

/-- The cell `alloc` takes from the last segment exists. -/
theorem Valid.get?_index {new : T} {t : Tape T} (h : Valid new t) (hne : t.index ≠ t.size)
    (hbegins : t.begins.length ≠ 0) :
    t.get? ⟨t.begins.length - 1, t.index⟩ = some new := by
  have hle := h.index_le hbegins
  obtain ⟨seg, hseg⟩ : ∃ seg, t.begins[t.begins.length - 1]? = some seg :=
    ⟨t.begins[t.begins.length - 1], List.getElem?_eq_getElem (by omega)⟩
  have hlen := h.size_eq seg (by rw [List.getLast?_eq_getElem?, hseg])
  have hlt : t.index < seg.length := by omega
  have hval : t.get? ⟨t.begins.length - 1, t.index⟩ = some seg[t.index] := by
    simp only [get?, hseg, Option.bind_some]
    exact List.getElem?_eq_getElem hlt
  rw [hval, h.fresh _ _ hval ⟨by simp only; omega, le_refl _⟩]

/-- `alloc` returns a pointer to a cell as the default constructor leaves it. -/
theorem Valid.alloc_get?_self {new : T} {t : Tape T} (h : Valid new t) {n : ℕ} (hn : 0 < n) :
    (t.alloc new n).2.get? (t.alloc new n).1 = some new := by
  rcases t.alloc_cases new n with ⟨-, halloc⟩ | ⟨⟨hne, hbegins⟩, halloc⟩
  · rw [halloc, get?_push]; simp [hn]
  · rw [halloc]; exact h.get?_index hne hbegins

/-- With a segment size of zero the first pointer that `alloc` returns is not valid. -/
theorem alloc_zero_get?_self (new : T) {t : Tape T} (h : t.begins = []) :
    (t.alloc new 0).2.get? (t.alloc new 0).1 = none := by
  rcases t.alloc_cases new 0 with ⟨-, halloc⟩ | ⟨⟨-, hbegins⟩, -⟩
  · rw [halloc, get?_push, if_pos rfl]; rfl
  · simp [h] at hbegins

/-- `alloc` leaves what is on the tape alone. -/
theorem alloc_get?_of_valid (new : T) (n : ℕ) {t : Tape T} {c : Cell} (hc : (t.get? c).isSome) :
    (t.alloc new n).2.get? c = t.get? c := by
  rcases t.alloc_cases new n with ⟨-, halloc⟩ | ⟨-, halloc⟩
  · rw [halloc, get?_push, if_neg (segment_lt_of_valid hc).ne]
  · rw [halloc]; rfl

/-- The cell `alloc` returns was not handed out before. -/
theorem not_handed_alloc (new : T) (n : ℕ) (t : Tape T) : ¬ t.Handed (t.alloc new n).1 := by
  rintro ⟨hvalid, hused⟩
  rcases t.alloc_cases new n with ⟨-, halloc⟩ | ⟨⟨-, hbegins⟩, halloc⟩
  · rw [halloc] at hvalid
    exact lt_irrefl _ (segment_lt_of_valid hvalid)
  · rw [halloc] at hused
    exact hused ⟨by simp only; omega, le_refl _⟩

/-- A cell that was handed out stays so. -/
theorem Handed.alloc {new : T} {n : ℕ} {t : Tape T} {c : Cell} (h : t.Handed c) :
    (t.alloc new n).2.Handed c := by
  refine ⟨by rw [alloc_get?_of_valid new n h.1]; exact h.1, fun hunused => ?_⟩
  rcases t.alloc_cases new n with ⟨-, halloc⟩ | ⟨-, halloc⟩
  · rw [halloc] at hunused
    have := segment_lt_of_valid h.1
    have hseg := hunused.1
    simp only [List.length_append, List.length_singleton] at hseg; omega
  · rw [halloc] at hunused
    exact h.2 ⟨hunused.1, Nat.le_of_succ_le hunused.2⟩

/-- The cell `alloc` returns is handed out. -/
theorem Valid.handed_alloc {new : T} {t : Tape T} (h : Valid new t) {n : ℕ} (hn : 0 < n) :
    (t.alloc new n).2.Handed (t.alloc new n).1 := by
  refine ⟨by rw [h.alloc_get?_self hn]; rfl, fun hunused => ?_⟩
  have hoff := hunused.2
  rcases t.alloc_cases new n with ⟨-, halloc⟩ | ⟨-, halloc⟩
  · rw [halloc] at hoff; simp at hoff
  · rw [halloc] at hoff; exact absurd hoff (Nat.not_succ_le_self _)

/-- `alloc` keeps the tape valid. -/
theorem Valid.alloc {new : T} {t : Tape T} (h : Valid new t) {n : ℕ} (hn : 0 < n) :
    Valid new (t.alloc new n).2 := by
  rcases t.alloc_cases new n with ⟨-, halloc⟩ | ⟨⟨hne, hbegins⟩, halloc⟩
  · rw [halloc]
    refine ⟨fun seg hseg => ?_, fun _ => hn, fun c v hc hunused => ?_⟩
    · simp only [List.getLast?_append, List.getLast?_singleton, Option.some_or,
        Option.some.injEq] at hseg
      subst hseg; simp
    · have hseg := hunused.1
      simp only [List.length_append, List.length_singleton] at hseg
      rw [get?_push, if_pos (by omega), List.getElem?_replicate] at hc
      split_ifs at hc with hlt
      exact (Option.some.inj hc).symm
  · rw [halloc]
    have hle := h.index_le hbegins
    exact ⟨h.size_eq, fun _ => by simp only; omega,
      fun c v hc hunused => h.fresh c v hc ⟨hunused.1, Nat.le_of_succ_le hunused.2⟩⟩

/-- Where the pointer returned is valid, whatever the segment size, so is the tape. -/
theorem Valid.alloc_of_isSome {new : T} {t : Tape T} (h : Valid new t) {n : ℕ}
    (hc : ((t.alloc new n).2.get? (t.alloc new n).1).isSome) :
    Valid new (t.alloc new n).2 ∧ (t.alloc new n).2.Handed (t.alloc new n).1 := by
  rcases Nat.eq_zero_or_pos n with rfl | hn
  · rcases t.alloc_cases new 0 with ⟨-, halloc⟩ | ⟨⟨hne, hbegins⟩, halloc⟩
    · rw [halloc, get?_push, if_pos rfl] at hc
      cases hc
    · -- the segment size is not looked at
      have hsame : t.alloc new 0 = t.alloc new 1 := by
        rcases t.alloc_cases new 1 with ⟨hnew, -⟩ | ⟨-, halloc'⟩
        · exact absurd hnew (not_or.2 ⟨hne, hbegins⟩)
        · rw [halloc, halloc']
      rw [hsame]
      exact ⟨h.alloc Nat.one_pos, h.handed_alloc Nat.one_pos⟩
  · exact ⟨h.alloc hn, h.handed_alloc hn⟩

/-! ### Writing keeps the tape valid -/

theorem handed_set {t : Tape T} {c : Cell} (hc : (t.get? c).isSome) (v : T) (c' : Cell) :
    (t.set c v).Handed c' ↔ t.Handed c' := by
  have hunused : (t.set c v).Unused c' ↔ t.Unused c' := by simp [Unused, set]
  have hsome : ((t.set c v).get? c').isSome ↔ (t.get? c').isSome := by
    rw [get?_set hc]
    rcases eq_or_ne c' c with rfl | hne
    · simp [hc]
    · simp [hne]
  exact and_congr hsome (not_congr hunused)

/-- Writing a cell that was handed out keeps the tape valid. -/
theorem Valid.set {new : T} {t : Tape T} (h : Valid new t) {c : Cell} (hc : t.Handed c) (v : T) :
    Valid new (t.set c v) := by
  refine ⟨fun seg hseg => ?_, fun hne => h.index_le (by simpa [Tape.set] using hne),
    fun c' w hw hunused => ?_⟩
  · rw [List.getLast?_eq_getElem?, Tape.set] at hseg
    simp only [List.length_modify, List.getElem?_modify] at hseg
    cases hlast : t.begins[t.begins.length - 1]? with
    | none => rw [hlast] at hseg; cases hseg
    | some seg' =>
      have hlen := h.size_eq seg' (by rw [List.getLast?_eq_getElem?, hlast])
      rw [hlast] at hseg
      obtain rfl := Option.some.inj hseg
      split_ifs <;> simp [Tape.set, hlen]
  · have hunused' : t.Unused c' := by simpa [Unused, Tape.set] using hunused
    have hne : c' ≠ c := by rintro rfl; exact hc.2 hunused'
    rw [get?_set hc.1, if_neg hne] at hw
    exact h.fresh c' w hw hunused'

/-! ### Runs of `alloc` -/

/-- One call of `alloc` per segment size: the pointers returned, and the tape behind the calls. -/
def allocAll (new : T) : List ℕ → Tape T → List Cell × Tape T
  | [], t => ([], t)
  | n :: sizes, t =>
    let (c, t') := t.alloc new n
    let (cs, t'') := allocAll new sizes t'
    (c :: cs, t'')

theorem allocAll_cons (new : T) (n : ℕ) (sizes : List ℕ) (t : Tape T) :
    allocAll new (n :: sizes) t
      = ((t.alloc new n).1 :: (allocAll new sizes (t.alloc new n).2).1,
          (allocAll new sizes (t.alloc new n).2).2) := rfl

theorem Handed.allocAll {new : T} {sizes : List ℕ} {t : Tape T} {c : Cell} (h : t.Handed c) :
    (allocAll new sizes t).2.Handed c := by
  induction sizes generalizing t with
  | nil => exact h
  | cons n sizes ih => exact ih h.alloc

/-- A run returns cells that were not handed out before it and are handed out behind it, no cell
    twice. -/
theorem Valid.allocAll {new : T} {sizes : List ℕ} {t : Tape T} (h : Valid new t)
    (hsizes : ∀ n ∈ sizes, 0 < n) :
    (∀ c ∈ (Tape.allocAll new sizes t).1,
      ¬ t.Handed c ∧ (Tape.allocAll new sizes t).2.Handed c) ∧
    (Tape.allocAll new sizes t).1.Nodup := by
  induction sizes generalizing t with
  | nil => exact ⟨fun c hc => absurd hc List.not_mem_nil, List.nodup_nil⟩
  | cons n sizes ih =>
    obtain ⟨hn, hrest⟩ := List.forall_mem_cons.1 hsizes
    have hhanded : (t.alloc new n).2.Handed (t.alloc new n).1 := h.handed_alloc hn
    obtain ⟨hcells, hnodup⟩ := ih (h.alloc hn) hrest
    rw [allocAll_cons]
    refine ⟨List.forall_mem_cons.2 ⟨⟨not_handed_alloc new n t, hhanded.allocAll⟩, ?_⟩, ?_⟩
    · intro c hc
      obtain ⟨hnew, hlater⟩ := hcells c hc
      exact ⟨fun hold => hnew hold.alloc, hlater⟩
    · exact List.nodup_cons.2 ⟨fun hmem => (hcells _ hmem).1 hhanded, hnodup⟩

/-- CORRECT: from a fresh tape on, whatever `index` and `size` are, every pointer returned is a cell
    of a segment, and no cell is returned twice. -/
theorem alloc_distinct (new : T) (index size : ℕ) {sizes : List ℕ} (hsizes : ∀ n ∈ sizes, 1 ≤ n) :
    (∀ c ∈ (allocAll new sizes ⟨[], index, size⟩).1,
      ((allocAll new sizes ⟨[], index, size⟩).2.get? c).isSome) ∧
    (allocAll new sizes ⟨[], index, size⟩).1.Nodup := by
  have hfresh : Valid new (⟨[], index, size⟩ : Tape T) := valid_of_begins_eq_nil rfl
  obtain ⟨hcells, hnodup⟩ := hfresh.allocAll hsizes
  exact ⟨fun c hc => (hcells c hc).2.1, hnodup⟩

theorem alloc_distinct_three :
    (∀ c ∈ (allocAll () [2, 1, 3] ⟨[], 5, 7⟩).1,
      ((allocAll () [2, 1, 3] ⟨[], 5, 7⟩).2.get? c).isSome) ∧
    (allocAll () [2, 1, 3] ⟨[], 5, 7⟩).1.Nodup :=
  alloc_distinct () 5 7 (by decide)

end Tape
end support
end HashingBenchmark

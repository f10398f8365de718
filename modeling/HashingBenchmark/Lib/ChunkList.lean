import Mathlib.Data.List.Basic
import Mathlib.Data.List.Induction
import Mathlib.Data.List.Zip
import Mathlib.Algebra.Ring.Nat
import Mathlib.Tactic.Ring

/-! Lists kept in chunks of at most `size` elements.

    A new element goes to the first chunk while that has room, then to the chunk behind it, and into
    a new chunk between the two when both are full (`place`). So the first chunk keeps the first
    `size` elements, and the chunks behind it are full but for the newest. `layout l` is what comes
    of the elements of `l` one after the other: the same elements (`layout_perm`), and each chunk
    starts with an element whose position in `l` is a multiple of `size` (`heads_perm`). -/

namespace ChunkList
variable {α : Type*} {size : ℕ}

/-- Add an element to a list of chunks. -/
def place (size : ℕ) (x : α) : List (List α) → List (List α)
  | [] => [[x]]
  | [h] => if h.length = size then [h, [x]] else [h ++ [x]]
  | h :: f :: r =>
    if h.length = size then
      if f.length = size then h :: [x] :: f :: r else h :: (f ++ [x]) :: r
    else (h ++ [x]) :: f :: r

/-- The chunks after adding the elements of a list in order. -/
def layout (size : ℕ) (l : List α) : List (List α) := l.foldl (fun c x => place size x c) [[]]

/-- The elements whose position is a multiple of `size`. -/
def leaders (size : ℕ) (l : List α) : List α :=
  (l.zipIdx.filter fun p => p.2 % size = 0).map Prod.fst

/-- The elements whose position is not a multiple of `size`. -/
def followers (size : ℕ) (l : List α) : List α :=
  (l.zipIdx.filter fun p => p.2 % size ≠ 0).map Prod.fst

@[simp] theorem layout_nil (size : ℕ) : layout size ([] : List α) = [[]] := rfl

theorem layout_snoc (size : ℕ) (l : List α) (x : α) :
    layout size (l ++ [x]) = place size x (layout size l) := by
  rw [layout, List.foldl_append]; rfl

theorem leaders_snoc (size : ℕ) (l : List α) (x : α) :
    leaders size (l ++ [x]) = leaders size l ++ if l.length % size = 0 then [x] else [] := by
  rw [leaders, List.zipIdx_append, List.filter_append, List.map_append, leaders]
  by_cases h : l.length % size = 0
  · simp [h]
  · simp [h]

/-- Every element is a leader or a follower. -/
theorem leaders_append_followers_perm (size : ℕ) (l : List α) :
    (leaders size l ++ followers size l).Perm l := by
  have hsplit := List.filter_append_perm (fun p : α × ℕ => decide (p.2 % size = 0)) l.zipIdx
  have hmap := hsplit.map Prod.fst
  rw [List.map_append, List.zipIdx_map_fst] at hmap
  simpa [leaders, followers] using hmap

theorem place_perm (x : α) (c : List (List α)) :
    (place size x c).flatten.Perm (x :: c.flatten) := by
  match c with
  | [] => exact List.Perm.refl _
  | [h] =>
    rw [place]
    split_ifs
    · simp
    · simp
  | h :: f :: r =>
    rw [place]
    split_ifs
    · simp
    · simpa using (List.perm_middle : ((h ++ f) ++ x :: r.flatten).Perm _)
    · simp

/-- The chunks hold the elements of the list. -/
theorem layout_perm (size : ℕ) (l : List α) : (layout size l).flatten.Perm l := by
  induction l using List.reverseRecOn with
  | nil => exact List.Perm.refl _
  | append_singleton l x ih =>
    rw [layout_snoc]
    exact ((place_perm x _).trans (ih.cons x)).trans (List.perm_append_singleton x l).symm

/-- One chunk while that is enough; then a full chunk, the newest chunk, and full chunks. -/
theorem layout_cases (hsize : 0 < size) (l : List α) :
    (l.length ≤ size ∧ layout size l = [l]) ∨
    ∃ h f r, layout size l = h :: f :: r ∧ h.length = size ∧ 0 < f.length ∧ f.length ≤ size ∧
      (∀ g ∈ r, g.length = size) ∧ l.length = size + f.length + r.length * size := by
  induction l using List.reverseRecOn with
  | nil => exact Or.inl ⟨Nat.zero_le _, rfl⟩
  | append_singleton l x ih =>
    rw [layout_snoc, List.length_append, List.length_singleton]
    rcases ih with ⟨hle, hl⟩ | ⟨h, f, r, hl, hh, hpos, hf, hr, hlen⟩
    · rw [hl, place]
      split_ifs with hfull
      · refine Or.inr ⟨l, [x], [], rfl, hfull, Nat.one_pos, hsize, by simp, ?_⟩
        simp [hfull]
      · exact Or.inl ⟨by omega, rfl⟩
    · rw [hl, place, if_pos hh]
      right
      split_ifs with hfull
      · refine ⟨h, [x], f :: r, rfl, hh, Nat.one_pos, hsize, fun g hg => ?_, ?_⟩
        · rcases List.mem_cons.mp hg with rfl | hg
          · exact hfull
          · exact hr g hg
        · rw [hlen, hfull, List.length_cons, List.length_cons, List.length_nil]; ring
      · refine ⟨h, f ++ [x], r, rfl, hh, by simp, ?_, hr, ?_⟩
        · rw [List.length_append, List.length_singleton]; omega
        · rw [hlen, List.length_append, List.length_singleton]; ring

/-- Only the empty list has an empty chunk. -/
theorem length_pos_of_mem_layout (hsize : 0 < size) {l g : List α} (hl : l ≠ [])
    (hg : g ∈ layout size l) : 0 < g.length := by
  rcases layout_cases hsize l with ⟨-, hlayout⟩ | ⟨h, f, r, hlayout, hh, hpos, -, hr, -⟩
  · rw [hlayout, List.mem_singleton] at hg
    rw [hg]; exact List.length_pos_of_ne_nil hl
  · rw [hlayout, List.mem_cons, List.mem_cons] at hg
    rcases hg with rfl | rfl | hg
    · rw [hh]; exact hsize
    · exact hpos
    · rw [hr g hg]; exact hsize

/-- The chunks start with the leaders. -/
theorem heads_perm (hsize : 0 < size) (l : List α) :
    ((layout size l).filterMap List.head?).Perm (leaders size l) := by
  induction l using List.reverseRecOn with
  | nil => exact List.Perm.refl _
  | append_singleton l x ih =>
    rw [layout_snoc, leaders_snoc]
    rcases layout_cases hsize l with ⟨hle, hl⟩ | ⟨h, f, r, hl, hh, hpos, hf, hr, hlen⟩
    · rw [hl] at ih ⊢
      rw [place]
      split_ifs with hfull hzero hzero
      · -- the head is full: a second chunk
        have hne : l ≠ [] := List.ne_nil_of_length_pos (by omega)
        obtain ⟨a, l', rfl⟩ := List.exists_cons_of_ne_nil hne
        exact (ih.append_right [x])
      · exact absurd (by rw [hfull, Nat.mod_self]) hzero
      · -- the very first element
        have hnil : l = [] := by
          rcases Nat.eq_zero_or_pos l.length with h0 | h0
          · exact List.eq_nil_of_length_eq_zero h0
          · rw [Nat.mod_eq_of_lt (by omega)] at hzero; omega
        subst hnil; exact List.Perm.refl _
      · have hne : l ≠ [] := by rintro rfl; exact hzero (Nat.zero_mod _)
        obtain ⟨a, l', rfl⟩ := List.exists_cons_of_ne_nil hne
        rw [List.append_nil]; exact ih
    · rw [hl] at ih ⊢
      have hmod : l.length % size = f.length % size := by
        rw [hlen, Nat.add_mul_mod_self_right, Nat.add_mod_left]
      obtain ⟨a, h', rfl⟩ : ∃ a h', h = a :: h' :=
        List.exists_cons_of_ne_nil (List.ne_nil_of_length_pos (by omega))
      obtain ⟨b, f', rfl⟩ : ∃ b f', f = b :: f' :=
        List.exists_cons_of_ne_nil (List.ne_nil_of_length_pos hpos)
      rw [place, if_pos hh, hmod]
      split_ifs with hfull hzero hzero
      · -- both are full: a new chunk between them
        refine List.Perm.trans ?_ (ih.append_right [x])
        exact (List.Perm.swap x a _).trans (List.perm_append_singleton x _).symm
      · exact absurd (by rw [hfull, Nat.mod_self]) hzero
      · exact absurd hzero (by rw [Nat.mod_eq_of_lt (by omega)]; omega)
      · rw [List.append_nil]; exact ih

end ChunkList

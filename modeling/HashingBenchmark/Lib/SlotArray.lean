import Mathlib.Algebra.BigOperators.Fin
import Mathlib.Algebra.Order.BigOperators.Group.Finset
import Mathlib.Data.List.FinRange

/-! Fixed arrays of slots that are filled from the front.

    An array of `n` keys is a function `Fin n → K`, a distinguished key `e` marks an empty slot, and
    a `for` loop that returns early is `Fin.findSome?`. In an array that is only ever appended to,
    the empty slots come last (`FilledPrefix`). Then the number of occupied slots is the index of
    the first empty one (`ne_iff_lt_occupied`), and reading up to the first empty slot (`entries`)
    reads everything that was stored, in the order in which it was appended. -/

namespace SlotArray
variable {n : ℕ} {K V : Type*}

/-- The empty slots of the array come after the occupied ones. -/
def FilledPrefix (e : K) (keys : Fin n → K) : Prop := ∀ i j, i ≤ j → keys i = e → keys j = e

/-- No slot of the array is empty. -/
def Full (e : K) (keys : Fin n → K) : Prop := ∀ i, keys i ≠ e

theorem filledPrefix_const (e : K) : FilledPrefix e (fun _ : Fin n => e) := fun _ _ _ _ => rfl

/-- Writing a key into a slot with no empty slot before it keeps the occupied slots in front. -/
theorem FilledPrefix.write {e k : K} {keys : Fin n → K} (h : FilledPrefix e keys) (hk : k ≠ e)
    {i : Fin n} (hi : ∀ j < i, keys j ≠ e) : FilledPrefix e (Function.update keys i k) := by
  intro a b hab ha
  have hai : a ≠ i := by rintro rfl; rw [Function.update_self] at ha; exact hk ha
  rw [Function.update_of_ne hai] at ha
  have hib : i < b := by
    rcases lt_trichotomy a i with hlt | heq | hgt
    · exact absurd ha (hi a hlt)
    · exact absurd heq hai
    · exact lt_of_lt_of_le hgt hab
  rw [Function.update_of_ne hib.ne']; exact h a b hab ha

/-- Before an occupied slot every slot is occupied. -/
theorem FilledPrefix.ne_of_le {e : K} {keys : Fin n → K} (h : FilledPrefix e keys) {i j : Fin n}
    (hj : keys j ≠ e) (hij : i ≤ j) : keys i ≠ e := fun hi => hj (h i j hij hi)

/-- A key that is not before an empty slot is nowhere. -/
theorem FilledPrefix.ne_of_empty {e k : K} {keys : Fin n → K} (h : FilledPrefix e keys)
    (hk : k ≠ e) {i : Fin n} (hi : keys i = e) (hbefore : ∀ j < i, keys j ≠ k) (j : Fin n) :
    keys j ≠ k := by
  rintro rfl
  have hji : j < i := not_le.mp fun hij => hk (h i j hij hi)
  exact hbefore j hji rfl

section Search
variable [DecidableEq K]

/-- What a loop over the slots that returns at the first empty one and at the key does. -/
theorem search_cases {B : Type*} (e k : K) (keys : Fin n → K) (free hit : Fin n → B) :
    (∃ i, keys i = e ∧ (∀ j < i, keys j ≠ e ∧ keys j ≠ k) ∧ (Fin.findSome? fun i =>
      if keys i = e then some (free i) else if keys i = k then some (hit i) else none)
        = some (free i)) ∨
    (∃ i, keys i ≠ e ∧ keys i = k ∧ (∀ j < i, keys j ≠ e ∧ keys j ≠ k) ∧ (Fin.findSome? fun i =>
      if keys i = e then some (free i) else if keys i = k then some (hit i) else none)
        = some (hit i)) ∨
    ((∀ i, keys i ≠ e ∧ keys i ≠ k) ∧ (Fin.findSome? fun i =>
      if keys i = e then some (free i) else if keys i = k then some (hit i) else none) = none) := by
  have hpass : ∀ i, (if keys i = e then some (free i) else if keys i = k then some (hit i)
      else none) = none → keys i ≠ e ∧ keys i ≠ k := by
    intro i hnone
    split_ifs at hnone with he hk
    exact ⟨he, hk⟩
  generalize hfind : (Fin.findSome? fun i =>
    if keys i = e then some (free i) else if keys i = k then some (hit i) else none) = r
  cases r with
  | none => exact Or.inr (Or.inr ⟨fun i => hpass i (Fin.findSome?_eq_none_iff.mp hfind i), rfl⟩)
  | some r =>
    obtain ⟨i, hi, hbefore⟩ := Fin.findSome?_eq_some_iff.mp hfind
    have hbefore' : ∀ j < i, keys j ≠ e ∧ keys j ≠ k := fun j hj => hpass j (hbefore j hj)
    split_ifs at hi with he hk
    · exact Or.inl ⟨i, he, hbefore', hi.symm⟩
    · exact Or.inr (Or.inl ⟨i, he, hk, hbefore', hi.symm⟩)

end Search

section Occupied
variable [DecidableEq K]

/-- The number of occupied slots, counted slot by slot. -/
def occupied (e : K) (keys : Fin n → K) : ℕ := ∑ i, if keys i = e then 0 else 1

theorem occupied_le (e : K) (keys : Fin n → K) : occupied e keys ≤ n := by
  have h : occupied e keys ≤ ∑ _i : Fin n, 1 :=
    Finset.sum_le_sum fun i _ => by split_ifs <;> omega
  simpa using h

/-- In an array filled from the front the slots below `occupied` are the occupied ones. -/
theorem ne_iff_lt_occupied {e : K} : ∀ {n : ℕ} {keys : Fin n → K}, FilledPrefix e keys →
    ∀ i, keys i ≠ e ↔ i.val < occupied e keys
  | 0, _, _, i => i.elim0
  | n + 1, keys, h, i => by
    have htail : FilledPrefix e (fun j : Fin n => keys j.succ) := fun a b hab ha =>
      h a.succ b.succ (Fin.succ_le_succ_iff.mpr hab) ha
    have hsum : occupied e keys
        = (if keys 0 = e then 0 else 1) + occupied e (fun j : Fin n => keys j.succ) := by
      rw [occupied, Fin.sum_univ_succ, occupied]
    by_cases h0 : keys 0 = e
    · -- the first slot is empty, so all of them are
      have hall : ∀ j, keys j = e := fun j => h 0 j (Fin.zero_le j) h0
      have hzero : occupied e keys = 0 := by simp [occupied, hall]
      simp [hall i, hzero]
    · rw [hsum, if_neg h0]
      refine Fin.cases ?_ (fun j => ?_) i
      · simp only [ne_eq, h0, not_false_eq_true, Fin.val_zero, true_iff]; omega
      · rw [ne_iff_lt_occupied htail j, Fin.val_succ]; omega

theorem occupied_eq_zero_iff {e : K} {keys : Fin n → K} :
    occupied e keys = 0 ↔ ∀ i, keys i = e := by
  simp [occupied, Finset.sum_eq_zero_iff]

/-- Slot number `occupied` of an array filled from the front is empty. -/
theorem eq_of_val_eq_occupied {e : K} {keys : Fin n → K} (h : FilledPrefix e keys) {i : Fin n}
    (hi : i.val = occupied e keys) : keys i = e := by
  by_contra hne
  have := (ne_iff_lt_occupied h i).mp hne
  omega

theorem full_iff_occupied_eq {e : K} {keys : Fin n → K} :
    Full e keys ↔ occupied e keys = n := by
  constructor
  · intro hfull
    have hne : ∀ i, keys i ≠ e := hfull
    simp [occupied, hne]
  · intro heq i hi
    have hlt : occupied e keys < ∑ _i : Fin n, 1 :=
      Finset.sum_lt_sum (fun j _ => by split_ifs <;> omega)
        ⟨i, Finset.mem_univ i, by rw [if_pos hi]; exact one_pos⟩
    simp only [Finset.sum_const, Finset.card_univ, Fintype.card_fin, smul_eq_mul, mul_one] at hlt
    omega

theorem full_of_le_occupied {e : K} {keys : Fin n → K} (hle : n ≤ occupied e keys) :
    Full e keys := full_iff_occupied_eq.mpr (le_antisymm (occupied_le e keys) hle)

end Occupied

/-! ### Reading an array up to its first empty slot -/

theorem takeWhile_eq_take {α : Type*} {p : α → Bool} : ∀ {l : List α} {c : ℕ},
    (∀ i (h : i < l.length), p l[i] = true ↔ i < c) → l.takeWhile p = l.take c
  | [], _, _ => by simp
  | a :: l, 0, h => by
    have ha := h 0 (Nat.zero_lt_succ _)
    rw [List.getElem_cons_zero] at ha
    simp [Bool.eq_false_iff.mpr fun hp => absurd (ha.mp hp) (lt_irrefl 0)]
  | a :: l, c + 1, h => by
    have ha := h 0 (Nat.zero_lt_succ _)
    rw [List.getElem_cons_zero, iff_true_right (Nat.zero_lt_succ c)] at ha
    have hl : ∀ i (hi : i < l.length), p l[i] = true ↔ i < c := fun i hi => by
      have := h (i + 1) (Nat.succ_lt_succ hi)
      rwa [List.getElem_cons_succ, Nat.add_lt_add_iff_right] at this
    rw [List.takeWhile_cons_of_pos ha, takeWhile_eq_take hl, List.take_succ_cons]

variable [DecidableEq K]

/-- The pairs read slot by slot up to the first empty slot. -/
def entries (e : K) (keys : Fin n → K) (vals : Fin n → V) : List (K × V) :=
  ((List.finRange n).takeWhile fun i => keys i ≠ e).map fun i => (keys i, vals i)

theorem entries_eq_take {e : K} {keys : Fin n → K} (vals : Fin n → V) (h : FilledPrefix e keys) :
    entries e keys vals
      = ((List.finRange n).take (occupied e keys)).map fun i => (keys i, vals i) := by
  rw [entries, takeWhile_eq_take]
  intro i hi
  have hlt : i < n := by simpa using hi
  simpa using ne_iff_lt_occupied h ⟨i, hlt⟩

theorem entries_empty {e : K} {keys : Fin n → K} (vals : Fin n → V) (h : ∀ i, keys i = e) :
    entries e keys vals = [] := by
  have hp : FilledPrefix e keys := fun _ j _ _ => h j
  rw [entries_eq_take vals hp, occupied_eq_zero_iff.mpr h]; simp

theorem length_entries {e : K} {keys : Fin n → K} (vals : Fin n → V) (h : FilledPrefix e keys) :
    (entries e keys vals).length = occupied e keys := by
  have := occupied_le e keys
  rw [entries_eq_take vals h]; simpa using this

/-- The pairs read are those of the occupied slots. -/
theorem mem_entries {e : K} {keys : Fin n → K} {vals : Fin n → V} (h : FilledPrefix e keys)
    {d : K × V} : d ∈ entries e keys vals ↔ ∃ i, keys i ≠ e ∧ (keys i, vals i) = d := by
  rw [entries_eq_take vals h]
  constructor
  · intro hd
    obtain ⟨i, hi, rfl⟩ := List.mem_map.mp hd
    obtain ⟨j, hj, rfl⟩ := List.getElem_of_mem hi
    refine ⟨_, (ne_iff_lt_occupied h _).mpr ?_, rfl⟩
    simp only [List.length_take, List.length_finRange] at hj
    simp only [List.getElem_take, List.getElem_finRange]
    simp only [Fin.val_cast]; omega
  · rintro ⟨i, hi, rfl⟩
    refine List.mem_map.mpr ⟨i, ?_, rfl⟩
    have hlt := (ne_iff_lt_occupied h i).mp hi
    rw [List.mem_take_iff_getElem]
    exact ⟨i.val, by simp [hlt], by simp⟩

/-- What is read from an occupied slot on starts with that slot's pair. -/
theorem drop_entries {e : K} {keys : Fin n → K} {vals : Fin n → V} (h : FilledPrefix e keys)
    {i : Fin n} (hi : keys i ≠ e) :
    (entries e keys vals).drop i = (keys i, vals i) :: (entries e keys vals).drop (i + 1) := by
  have hlt : i.val < (entries e keys vals).length := by
    rw [length_entries vals h]; exact (ne_iff_lt_occupied h i).mp hi
  have hget : (entries e keys vals)[i.val] = (keys i, vals i) := by
    simp only [entries_eq_take vals h, List.getElem_map, List.getElem_take, List.getElem_finRange]
    rfl
  rw [List.drop_eq_getElem_cons hlt, hget]

/-- Writing into the first empty slot appends to what is read. -/
theorem entries_write {e k : K} {keys : Fin n → K} {vals : Fin n → V} (h : FilledPrefix e keys)
    (hk : k ≠ e) {i : Fin n} (hi : keys i = e) (hbefore : ∀ j < i, keys j ≠ e) (v : V) :
    entries e (Function.update keys i k) (Function.update vals i v)
      = entries e keys vals ++ [(k, v)] := by
  have hocc : occupied e keys = i.val := by
    refine le_antisymm ?_ ?_
    · exact not_lt.mp fun hlt => (ne_iff_lt_occupied h i).mpr hlt hi
    · by_contra hlt
      have hlt' : occupied e keys < i.val := not_le.mp hlt
      exact hbefore ⟨occupied e keys, by omega⟩ hlt' (eq_of_val_eq_occupied h rfl)
  have h' : FilledPrefix e (Function.update keys i k) := h.write hk hbefore
  have hocc' : occupied e (Function.update keys i k) = i.val + 1 := by
    have hge : i.val < occupied e (Function.update keys i k) :=
      (ne_iff_lt_occupied h' i).mp (by rwa [Function.update_self])
    by_contra hne
    have hlt : i.val + 1 < occupied e (Function.update keys i k) := by omega
    have hn := occupied_le e (Function.update keys i k)
    have hocc1 := (ne_iff_lt_occupied h' ⟨i.val + 1, by omega⟩).mpr hlt
    have hne1 : (⟨i.val + 1, by omega⟩ : Fin n) ≠ i := by
      intro heq; have := congrArg Fin.val heq; simp at this
    rw [Function.update_of_ne hne1] at hocc1
    have := (ne_iff_lt_occupied h _).mp hocc1
    simp only at this; omega
  rw [entries_eq_take _ h', entries_eq_take _ h, hocc, hocc']
  have hin : i.val < (List.finRange n).length := by simp
  have hsnoc : (List.finRange n).take (i.val + 1) = (List.finRange n).take i.val ++ [i] := by
    rw [List.take_add_one, List.getElem?_eq_getElem hin]; simp
  rw [hsnoc, List.map_append, List.map_singleton, Function.update_self, Function.update_self]
  congr 1
  refine List.map_congr_left fun j hj => ?_
  have hji : j ≠ i := by
    rintro rfl
    obtain ⟨a, ha, haj⟩ := List.mem_take_iff_getElem.mp hj
    have := congrArg Fin.val haj
    simp at this; omega
  rw [Function.update_of_ne hji, Function.update_of_ne hji]

/-- Writing into the first empty slot makes one more slot occupied. -/
theorem occupied_write {e k : K} {keys : Fin n → K} (h : FilledPrefix e keys) (hk : k ≠ e)
    {i : Fin n} (hi : keys i = e) (hbefore : ∀ j < i, keys j ≠ e) :
    occupied e (Function.update keys i k) = occupied e keys + 1 := by
  have hread : (entries e (Function.update keys i k) (Function.update (fun _ => ()) i ())).length
      = (entries e keys (fun _ => ()) ++ [(k, ())]).length :=
    congrArg List.length (entries_write h hk hi hbefore ())
  rwa [length_entries _ (h.write hk hbefore), List.length_append, List.length_singleton,
    length_entries _ h] at hread

/-! ### Reading several arrays -/

variable {m : ℕ}

/-- The slots read from arrays in order, each up to its first empty slot. -/
def visited (e : K) (keys : Fin m → Fin n → K) : List (Fin m × Fin n) :=
  (List.finRange m).flatMap fun i =>
    ((List.finRange n).takeWhile fun j => keys i j ≠ e).map fun j => (i, j)

theorem nodup_visited (e : K) (keys : Fin m → Fin n → K) : (visited e keys).Nodup := by
  refine List.nodup_flatMap.mpr ⟨fun i _ => ?_, ?_⟩
  · refine List.Nodup.map (fun _ _ h => (Prod.mk.inj h).2) ?_
    exact (List.nodup_finRange n).sublist (List.takeWhile_sublist _)
  · refine (List.nodup_finRange m).imp fun {a b} hab p ha hb => hab ?_
    obtain ⟨i, -, rfl⟩ := List.mem_map.mp ha
    obtain ⟨j, -, h⟩ := List.mem_map.mp hb
    exact (Prod.mk.inj h).1.symm

/-- In arrays filled from the front these are the occupied slots. -/
theorem mem_visited {e : K} {keys : Fin m → Fin n → K} (h : ∀ i, FilledPrefix e (keys i))
    {p : Fin m × Fin n} : p ∈ visited e keys ↔ keys p.1 p.2 ≠ e := by
  obtain ⟨i, j⟩ := p
  have hentries : (keys i j, j) ∈ entries e (keys i) id ↔ _ := mem_entries (h i)
  rw [visited, List.mem_flatMap]
  constructor
  · rintro ⟨a, -, hmem⟩
    obtain ⟨b, hb, heq⟩ := List.mem_map.mp hmem
    obtain ⟨rfl, rfl⟩ := Prod.mk.inj heq
    obtain ⟨b', hb', heq'⟩ := hentries.mp (List.mem_map.mpr ⟨b, hb, rfl⟩)
    rw [show b' = b from (Prod.mk.inj heq').2] at hb'
    exact hb'
  · intro hj
    obtain ⟨b, hb, heq⟩ := List.mem_map.mp (hentries.mpr ⟨j, hj, rfl⟩)
    rw [show b = j from (Prod.mk.inj heq).2] at hb
    exact ⟨i, List.mem_finRange i, List.mem_map.mpr ⟨j, hb, rfl⟩⟩

end SlotArray

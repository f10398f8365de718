import Mathlib.Data.List.Sort

/-! Lists of pairs in the order of their first components.

    With different first components the sorted list is strictly ascending, whatever the sort does
    with equal ones, and the pairs from an index on are those from that pair's key on. -/

namespace SortedPairs
variable {K V : Type*} [LinearOrder K]

/-- Sorting pairs with different keys makes the keys strictly ascending. -/
theorem pairwise_insertionSort {l : List (K × V)} (h : (l.map Prod.fst).Nodup) :
    (l.insertionSort fun a b => a.1 ≤ b.1).Pairwise fun a b => a.1 < b.1 := by
  have htotal : Std.Total fun a b : K × V => a.1 ≤ b.1 := ⟨fun a b => le_total a.1 b.1⟩
  have htrans : IsTrans (K × V) fun a b => a.1 ≤ b.1 := ⟨fun _ _ _ => le_trans⟩
  have hle := List.pairwise_insertionSort (fun a b : K × V => a.1 ≤ b.1) l
  have hperm := List.perm_insertionSort (fun a b : K × V => a.1 ≤ b.1) l
  have hne : (l.insertionSort fun a b => a.1 ≤ b.1).Pairwise fun a b => a.1 ≠ b.1 :=
    List.pairwise_map.mp ((hperm.map Prod.fst).nodup_iff.mpr h)
  exact hle.imp₂ (fun _ _ hle hne => lt_of_le_of_ne hle hne) hne

/-- The pairs from index `i` on are those with a key from there on. -/
theorem mem_drop_iff {l : List (K × V)} (h : l.Pairwise fun a b => a.1 < b.1) {i : ℕ}
    (hi : i < l.length) {d : K × V} : d ∈ l.drop i ↔ d ∈ l ∧ l[i].1 ≤ d.1 := by
  have hsplit : l.take i ++ l.drop i = l := List.take_append_drop i l
  have hhead : l.drop i = l[i] :: l.drop (i + 1) := List.drop_eq_getElem_cons hi
  have hpair := h
  rw [← hsplit, List.pairwise_append, hhead, List.pairwise_cons] at hpair
  obtain ⟨-, ⟨htail, -⟩, hbefore⟩ := hpair
  constructor
  · intro hd
    refine ⟨List.mem_of_mem_drop hd, ?_⟩
    rw [hhead] at hd
    rcases List.mem_cons.mp hd with rfl | hd
    · exact le_rfl
    · exact (htail d hd).le
  · rintro ⟨hd, hle⟩
    rw [← hsplit, List.mem_append] at hd
    rcases hd with hd | hd
    · exact absurd (hbefore d hd l[i] List.mem_cons_self) (not_lt.mpr hle)
    · exact hd

end SortedPairs

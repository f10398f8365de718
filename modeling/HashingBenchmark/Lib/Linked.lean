import Mathlib.Data.List.Nodup

/-! Singly linked lists in a store.

    A store is a partial function `load` from addresses to nodes, and `next` is the pointer of a
    node. `Linked load next p l` says that following pointers from `p` visits the nodes `l` and then
    reaches the null pointer. The list is determined by `p` (`Linked.unique`), so no address occurs
    in it twice (`Linked.nodup`). A change of the store outside the list leaves it alone
    (`Linked.frame`), a change of a node that keeps its pointer changes only that node
    (`Linked.replace_node`), and a change at its end replaces its end (`Linked.replace_tail`). -/

variable {A N : Type*}

/-- The nodes, with their addresses, from the pointer `p` up to the null pointer. -/
def Linked (load : A → Option N) (next : N → Option A) : Option A → List (A × N) → Prop
  | p, [] => p = none
  | p, (a, n) :: l => p = some a ∧ load a = some n ∧ Linked load next (next n) l

namespace Linked
variable {load load' : A → Option N} {next : N → Option A} {p : Option A} {l l' : List (A × N)}

/-- The addresses of a list of nodes. -/
def addresses (l : List (A × N)) : List A := l.map Prod.fst

@[simp] theorem addresses_cons (x : A × N) (l : List (A × N)) :
    addresses (x :: l) = x.1 :: addresses l := rfl

@[simp] theorem addresses_append (l l' : List (A × N)) :
    addresses (l ++ l') = addresses l ++ addresses l' := List.map_append

/-- Following pointers is deterministic. -/
theorem unique (h : Linked load next p l) (h' : Linked load next p l') : l = l' := by
  induction l generalizing p l' with
  | nil =>
    cases l' with
    | nil => rfl
    | cons y l' => rw [h] at h'; cases h'.1
  | cons x l ih =>
    cases l' with
    | nil => rw [h'] at h; cases h.1
    | cons y l' =>
      obtain ⟨hp, hload, hrest⟩ := h
      obtain ⟨hp', hload', hrest'⟩ := h'
      have haddr : x.1 = y.1 := Option.some.inj (hp.symm.trans hp')
      rw [haddr] at hload
      have hnode : x.2 = y.2 := Option.some.inj (hload.symm.trans hload')
      rw [hnode] at hrest
      rw [Prod.ext haddr hnode, ih hrest hrest']

/-- From every node of the list the rest of the list is linked. -/
theorem suffix {r : List (A × N)} {x : A × N} (h : Linked load next p (l ++ x :: r)) :
    Linked load next (some x.1) (x :: r) := by
  induction l generalizing p with
  | nil => exact ⟨rfl, h.2.1, h.2.2⟩
  | cons y l ih => exact ih h.2.2

/-- A list that ends at the null pointer has no cycle. -/
theorem nodup (h : Linked load next p l) : (addresses l).Nodup := by
  induction l generalizing p with
  | nil => exact List.nodup_nil
  | cons x l ih =>
    rw [addresses_cons, List.nodup_cons]
    refine ⟨fun hmem => ?_, ih h.2.2⟩
    -- a second node at the head's address would start the same list once more
    obtain ⟨y, hy, hyx⟩ := List.mem_map.mp hmem
    obtain ⟨s, t, rfl⟩ := List.append_of_mem hy
    have hself : Linked load next (some x.1) (x :: (s ++ y :: t)) := ⟨rfl, h.2.1, h.2.2⟩
    have htail : Linked load next (some x.1) (y :: t) := by rw [← hyx]; exact suffix h.2.2
    have hlen := congrArg List.length (unique hself htail)
    simp only [List.length_cons, List.length_append] at hlen; omega

/-- The nodes of the list are in the store. -/
theorem load_eq (h : Linked load next p l) {x : A × N} (hx : x ∈ l) : load x.1 = some x.2 := by
  obtain ⟨s, t, rfl⟩ := List.append_of_mem hx
  exact (suffix h).2.1

/-- Every address of the list is where it starts or the pointer of one of its nodes. -/
theorem mem_addresses (h : Linked load next p l) {a : A} (ha : a ∈ addresses l) :
    p = some a ∨ ∃ x ∈ l, next x.2 = some a := by
  induction l generalizing p with
  | nil => cases ha
  | cons y l ih =>
    rcases List.mem_cons.mp ha with rfl | ha
    · exact Or.inl h.1
    · rcases ih h.2.2 ha with hn | ⟨x, hx, hn⟩
      · exact Or.inr ⟨y, List.mem_cons_self, hn⟩
      · exact Or.inr ⟨x, List.mem_cons_of_mem _ hx, hn⟩

/-- A change of the store outside the list leaves the list alone. -/
theorem frame (h : Linked load next p l) (hsame : ∀ a ∈ addresses l, load' a = load a) :
    Linked load' next p l := by
  induction l generalizing p with
  | nil => exact h
  | cons x l ih =>
    obtain ⟨hp, hload, hrest⟩ := h
    have hx : load' x.1 = load x.1 := hsame x.1 (by simp)
    exact ⟨hp, hx.trans hload, ih hrest fun a ha => hsame a (by simp [ha])⟩

/-- A change of one node of the list that keeps its pointer. -/
theorem replace_node {a : A} {n n' : N} {r : List (A × N)}
    (h : Linked load next p (l ++ (a, n) :: r)) (ha : load' a = some n') (hnext : next n' = next n)
    (hsame : ∀ b ≠ a, load' b = load b) : Linked load' next p (l ++ (a, n') :: r) := by
  have hnodup := h.nodup
  rw [addresses_append, addresses_cons, List.nodup_append, List.nodup_cons] at hnodup
  obtain ⟨-, ⟨har, -⟩, hal⟩ := hnodup
  induction l generalizing p with
  | nil =>
    obtain ⟨hp, -, hrest⟩ := h
    refine ⟨hp, ha, ?_⟩
    rw [hnext]
    exact hrest.frame fun b hb => hsame b fun heq => har (heq ▸ hb)
  | cons y l ih =>
    obtain ⟨hp, hload, hrest⟩ := h
    have hy : y.1 ≠ a := hal y.1 List.mem_cons_self a List.mem_cons_self
    exact ⟨hp, (hsame y.1 hy).trans hload,
      ih hrest fun b hb => hal b (List.mem_cons_of_mem _ hb)⟩

/-- A change of all nodes that keeps their pointers changes the nodes of the list. -/
theorem map {M : Type*} {load' : A → Option M} {next' : M → Option A} {g : N → M}
    (h : Linked load next p l) (hload : ∀ a, load' a = (load a).map g)
    (hnext : ∀ n, next' (g n) = next n) :
    Linked load' next' p (l.map fun x => (x.1, g x.2)) := by
  induction l generalizing p with
  | nil => exact h
  | cons x l ih =>
    obtain ⟨hp, hx, hrest⟩ := h
    refine ⟨hp, by rw [hload, hx, Option.map_some], ?_⟩
    rw [hnext]; exact ih hrest

/-- A change of the store at the end of the list replaces the end of the list. -/
theorem replace_tail {x : A × N} {r : List (A × N)} (h : Linked load next p (l ++ [x]))
    (hsame : ∀ a ∈ addresses l, load' a = load a) (hr : Linked load' next (some x.1) r) :
    Linked load' next p (l ++ r) := by
  induction l generalizing p with
  | nil => rw [h.1]; exact hr
  | cons y l ih =>
    obtain ⟨hp, hload, hrest⟩ := h
    have hy : load' y.1 = load y.1 := hsame y.1 (by simp)
    exact ⟨hp, hy.trans hload, ih hrest fun a ha => hsame a (by simp [ha])⟩

end Linked

import Mathlib.Data.List.Nodup
import Mathlib.Tactic.SplitIfs

/-! A dictionary that remembers the order of its keys: an assignment replaces the value of a key where
    the key stands, and a new key goes to the end. -/

/-- A list of items no two of which have the same key. -/
structure Dict (K V : Type) where
  items : List (K × V)
  nodup : (items.map Prod.fst).Nodup

namespace Dict
variable {K V : Type}

def keys (d : Dict K V) : List K := d.items.map Prod.fst

theorem nodup_keys (d : Dict K V) : d.keys.Nodup := d.nodup

variable [DecidableEq K]

/-- The value of a key in a list of items. -/
def find (k : K) : List (K × V) → Option V
  | [] => none
  | (k', v) :: rest => if k' = k then some v else find k rest

/-- Assign a value to a key in a list of items. -/
def put (k : K) (v : V) : List (K × V) → List (K × V)
  | [] => [(k, v)]
  | (k', v') :: rest => if k' = k then (k', v) :: rest else (k', v') :: put k v rest

theorem find_put (k : K) (v : V) (items : List (K × V)) (k' : K) :
    find k' (put k v items) = if k = k' then some v else find k' items := by
  induction items with
  | nil => rfl
  | cons item rest ih =>
    obtain ⟨k'', v''⟩ := item
    rw [put]
    by_cases hk : k'' = k
    · rw [if_pos hk, find, find, hk]
      split_ifs <;> rfl
    · rw [if_neg hk, find, find, ih]
      by_cases hk' : k'' = k'
      · rw [if_pos hk', if_pos hk', if_neg fun h => hk (hk'.trans h.symm)]
      · rw [if_neg hk', if_neg hk']

theorem mem_map_fst_put {k : K} {v : V} {items : List (K × V)} {k' : K} :
    k' ∈ (put k v items).map Prod.fst ↔ k' = k ∨ k' ∈ items.map Prod.fst := by
  induction items with
  | nil => simp [put]
  | cons item rest ih =>
    obtain ⟨k'', v''⟩ := item
    rw [put]
    by_cases hk : k'' = k
    · rw [if_pos hk, List.map_cons, List.map_cons, List.mem_cons, hk]
      tauto
    · rw [if_neg hk, List.map_cons, List.map_cons, List.mem_cons, List.mem_cons, ih]
      tauto

theorem nodup_put {k : K} {v : V} {items : List (K × V)} (h : (items.map Prod.fst).Nodup) :
    ((put k v items).map Prod.fst).Nodup := by
  induction items with
  | nil => simp [put]
  | cons item rest ih =>
    obtain ⟨k', v'⟩ := item
    rw [put]
    rw [List.map_cons, List.nodup_cons] at h
    by_cases hk : k' = k
    · rw [if_pos hk, List.map_cons, List.nodup_cons]
      exact h
    · rw [if_neg hk, List.map_cons, List.nodup_cons, mem_map_fst_put]
      exact ⟨fun hmem => hmem.elim hk h.1, ih h.2⟩

theorem mem_map_fst_iff {items : List (K × V)} {k : K} :
    k ∈ items.map Prod.fst ↔ (find k items).isSome := by
  induction items with
  | nil => simp [find]
  | cons item rest ih =>
    obtain ⟨k', v⟩ := item
    rw [List.map_cons, List.mem_cons, ih, find]
    by_cases hk : k' = k
    · rw [if_pos hk]
      simp [hk]
    · rw [if_neg hk]
      simp [Ne.symm hk]

/-- The dictionary without a key. -/
def empty : Dict K V := ⟨[], List.nodup_nil⟩

def get? (d : Dict K V) (k : K) : Option V := find k d.items

def set (d : Dict K V) (k : K) (v : V) : Dict K V := ⟨put k v d.items, nodup_put d.nodup⟩

@[simp] theorem get?_empty (k : K) : (empty : Dict K V).get? k = none := rfl

theorem get?_set (d : Dict K V) (k : K) (v : V) (k' : K) :
    (d.set k v).get? k' = if k = k' then some v else d.get? k' := find_put k v d.items k'

theorem mem_keys_iff (d : Dict K V) (k : K) : k ∈ d.keys ↔ (d.get? k).isSome := mem_map_fst_iff

end Dict

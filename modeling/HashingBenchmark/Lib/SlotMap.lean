import Mathlib.Data.List.Nodup
import Mathlib.Logic.Function.Basic

/-! Finite maps kept in slots, and the map a list of writes leaves behind.

    A table of slots `s : ι → K × V` holds at most one pair per slot; the key `e` marks a slot as
    empty. `Represents e s M` says that such a table is the map `M`: no key but `e` is in two slots,
    and `M k = some v` exactly when some slot holds `(k, v)`. One rule covers every way of writing
    a slot (`Represents.write`): the pair that was there goes, the new one comes. Filling an empty
    slot, overwriting a payload and evicting a victim are its three uses.

    `lastWrite ws` is the abstract map: the value last written under each key. -/

section LastWrite
variable {K V : Type*} [DecidableEq K]

/-- The value of the last write under the key `k`, if there is one. -/
def lastWrite (ws : List (K × V)) (k : K) : Option V :=
  ((ws.filter (fun w => w.1 = k)).getLast?).map Prod.snd

/-- One more write updates the map at its key. -/
theorem lastWrite_snoc (ws : List (K × V)) (w : K × V) :
    lastWrite (ws ++ [w]) = Function.update (lastWrite ws) w.1 (some w.2) := by
  funext k
  rcases eq_or_ne k w.1 with rfl | hk
  · simp [lastWrite, List.filter_append]
  · simp [lastWrite, List.filter_append, hk, hk.symm]

theorem lastWrite_eq_none_iff {ws : List (K × V)} {k : K} :
    lastWrite ws k = none ↔ ∀ w ∈ ws, w.1 ≠ k := by
  simp [lastWrite]

/-- A key has a value exactly when it was written. -/
theorem lastWrite_isSome_iff {ws : List (K × V)} {k : K} :
    (lastWrite ws k).isSome ↔ ∃ w ∈ ws, w.1 = k := by
  rw [← Option.ne_none_iff_isSome, Ne, lastWrite_eq_none_iff]
  push Not
  rfl

/-- Of distinct keys every pair is the last write of its key. -/
theorem lastWrite_of_nodup {ws : List (K × V)} (h : (ws.map Prod.fst).Nodup) {w : K × V}
    (hw : w ∈ ws) : lastWrite ws w.1 = some w.2 := by
  obtain ⟨v, hv⟩ := Option.isSome_iff_exists.mp (lastWrite_isSome_iff.mpr ⟨w, hw, rfl⟩)
  have hlast := hv
  rw [lastWrite, Option.map_eq_some_iff] at hlast
  obtain ⟨u, hu, rfl⟩ := hlast
  have hmem := List.mem_filter.mp (List.mem_of_getLast? hu)
  rw [hv, List.inj_on_of_nodup_map h hmem.1 hw (of_decide_eq_true hmem.2)]

end LastWrite

/-- Taking a key out of a map, adding another one and putting the first back adds the other one. -/
theorem update_restore {K V : Type*} [DecidableEq K] {M : K → Option V} {victim k : K}
    (hne : victim ≠ k) (v : Option V) :
    Function.update (Function.update (Function.update M victim none) k v) victim (M victim)
      = Function.update M k v := by
  rw [Function.update_comm hne.symm, Function.update_idem, Function.update_eq_self]

section Represents
variable {ι K V : Type*}

/-- The table of slots `s`, with `e` for an empty slot, is the map `M`. -/
structure Represents (e : K) (s : ι → K × V) (M : K → Option V) : Prop where
  unique : ∀ i j, (s i).1 = (s j).1 → (s i).1 ≠ e → i = j
  stored : ∀ k v, k ≠ e → (M k = some v ↔ ∃ i, s i = (k, v))

namespace Represents
variable {e : K} {s : ι → K × V} {M : K → Option V}

/-- A table of empty slots is the empty map. -/
theorem empty (h : ∀ i, (s i).1 = e) : Represents e s (fun _ => none) := by
  refine ⟨fun i j _ hi => absurd (h i) hi, fun k w hk => ?_⟩
  refine iff_of_false (Option.some_ne_none w).symm ?_
  rintro ⟨i, hi⟩
  exact hk (by rw [← h i, hi])

theorem congr {M' : K → Option V} (h : Represents e s M) (heq : ∀ k, k ≠ e → M' k = M k) :
    Represents e s M' :=
  ⟨h.unique, fun k v hk => by rw [heq k hk]; exact h.stored k v hk⟩

/-- The map's value at the key of an occupied slot. -/
theorem lookup (h : Represents e s M) {i : ι} (hi : (s i).1 ≠ e) : M (s i).1 = some (s i).2 :=
  (h.stored _ _ hi).mpr ⟨i, rfl⟩

/-- A key outside the map is in no slot. -/
theorem notStored_iff (h : Represents e s M) {k : K} (hk : k ≠ e) :
    M k = none ↔ ∀ i, (s i).1 ≠ k := by
  constructor
  · rintro hM i rfl
    rw [h.lookup hk] at hM; exact Option.some_ne_none _ hM
  · intro hs
    by_contra hM
    obtain ⟨v, hv⟩ := Option.ne_none_iff_exists'.mp hM
    obtain ⟨i, hi⟩ := (h.stored k v hk).mp hv
    exact hs i (by rw [hi])

theorem stored_iff (h : Represents e s M) {k : K} (hk : k ≠ e) :
    (M k).isSome ↔ ∃ i, (s i).1 = k := by
  rw [← Option.ne_none_iff_isSome, Ne, h.notStored_iff hk]
  push Not
  rfl

/-- A key of the map is in exactly one slot, next to its value. -/
theorem existsUnique (h : Represents e s M) {k : K} {v : V} (hk : k ≠ e) (hM : M k = some v) :
    ∃ i, s i = (k, v) ∧ ∀ j, (s j).1 = k → j = i := by
  obtain ⟨i, hi⟩ := (h.stored k v hk).mp hM
  refine ⟨i, hi, fun j hj => h.unique j i (by rw [hj, hi]) (by rw [hj]; exact hk)⟩

variable [DecidableEq ι] [DecidableEq K]

/-- Writing the pair `(k, v)` into slot `i`, where `k` is in no other slot: the old pair of the
    slot leaves the map and the new one enters. -/
theorem write (h : Represents e s M) {i : ι} {k : K} {v : V} (hk : k ≠ e)
    (hother : ∀ j, j ≠ i → (s j).1 ≠ k) :
    Represents e (Function.update s i (k, v))
      (Function.update (Function.update M (s i).1 none) k (some v)) := by
  refine ⟨?_, ?_⟩
  · intro a b hab hne
    rcases eq_or_ne a i with ha | ha <;> rcases eq_or_ne b i with hb | hb
    · rw [ha, hb]
    · rw [ha, Function.update_self, Function.update_of_ne hb] at hab
      exact absurd hab.symm (hother b hb)
    · rw [hb, Function.update_self, Function.update_of_ne ha] at hab
      exact absurd hab (hother a ha)
    · rw [Function.update_of_ne ha] at hab hne
      rw [Function.update_of_ne hb] at hab
      exact h.unique a b hab hne
  · intro q w hq
    rcases eq_or_ne q k with rfl | hqk
    · rw [Function.update_self]
      constructor
      · intro hw; exact ⟨i, by rw [Function.update_self, Option.some.inj hw]⟩
      · rintro ⟨j, hj⟩
        rcases eq_or_ne j i with rfl | hji
        · rw [Function.update_self] at hj; rw [(Prod.mk.inj hj).2]
        · rw [Function.update_of_ne hji] at hj
          exact absurd (by rw [hj]) (hother j hji)
    · rw [Function.update_of_ne hqk]
      rcases eq_or_ne q (s i).1 with rfl | hqi
      · -- the key that was in the slot: gone, and nowhere else
        rw [Function.update_self]
        refine ⟨fun hw => by simp at hw, ?_⟩
        rintro ⟨j, hj⟩
        rcases eq_or_ne j i with rfl | hji
        · rw [Function.update_self] at hj; exact absurd (Prod.mk.inj hj).1.symm hqk
        · rw [Function.update_of_ne hji] at hj
          exact absurd (h.unique j i (by rw [hj]) (by rw [hj]; exact hq)) hji
      · rw [Function.update_of_ne hqi, h.stored q w hq]
        constructor
        · rintro ⟨j, hj⟩
          have hji : j ≠ i := by rintro rfl; exact hqi (by rw [hj])
          exact ⟨j, by rw [Function.update_of_ne hji]; exact hj⟩
        · rintro ⟨j, hj⟩
          have hji : j ≠ i := by
            rintro rfl; rw [Function.update_self] at hj; exact hqk (Prod.mk.inj hj).1.symm
          exact ⟨j, by rw [Function.update_of_ne hji] at hj; exact hj⟩

/-- Filling an empty slot with a new key. -/
theorem fill (h : Represents e s M) {i : ι} {k : K} {v : V} (hk : k ≠ e) (hi : (s i).1 = e)
    (hM : M k = none) :
    Represents e (Function.update s i (k, v)) (Function.update M k (some v)) := by
  have hother : ∀ j, j ≠ i → (s j).1 ≠ k := fun j _ => (h.notStored_iff hk).mp hM j
  refine (h.write hk hother).congr fun q hq => ?_
  rcases eq_or_ne q k with rfl | hqk
  · simp
  · rw [Function.update_of_ne hqk, Function.update_of_ne hqk, hi, Function.update_of_ne hq]

/-- Overwriting the value next to a stored key. -/
theorem overwrite (h : Represents e s M) {i : ι} {k : K} {v : V} (hk : k ≠ e)
    (hi : (s i).1 = k) :
    Represents e (Function.update s i (k, v)) (Function.update M k (some v)) := by
  have hother : ∀ j, j ≠ i → (s j).1 ≠ k := fun j hj hjk =>
    hj (h.unique j i (by rw [hjk, hi]) (by rw [hjk]; exact hk))
  refine (h.write hk hother).congr fun q _ => ?_
  rcases eq_or_ne q k with rfl | hqk
  · simp
  · rw [Function.update_of_ne hqk, Function.update_of_ne hqk, hi, Function.update_of_ne hqk]

/-- Replacing the pair of a slot by a new key evicts the key that was there. -/
theorem evict (h : Represents e s M) {i : ι} {k : K} {v : V} (hk : k ≠ e) (hM : M k = none) :
    Represents e (Function.update s i (k, v))
      (Function.update (Function.update M (s i).1 none) k (some v)) :=
  h.write hk fun j _ => (h.notStored_iff hk).mp hM j

/-- Marking a slot as empty takes the key that was there out of the map. -/
theorem erase (h : Represents e s M) {i : ι} {v : V} :
    Represents e (Function.update s i (e, v)) (Function.update M (s i).1 none) := by
  refine ⟨?_, ?_⟩
  · intro a b hab hne
    have ha : a ≠ i := by rintro rfl; rw [Function.update_self] at hne; exact hne rfl
    have hb : b ≠ i := by rintro rfl; rw [hab, Function.update_self] at hne; exact hne rfl
    rw [Function.update_of_ne ha] at hab hne
    rw [Function.update_of_ne hb] at hab
    exact h.unique a b hab hne
  · intro q w hq
    have hother : ∀ {j}, Function.update s i (e, v) j = (q, w) → j ≠ i ∧ s j = (q, w) := by
      intro j hj
      have hji : j ≠ i := by
        rintro rfl; rw [Function.update_self] at hj; exact hq (Prod.mk.inj hj).1.symm
      exact ⟨hji, by rwa [Function.update_of_ne hji] at hj⟩
    rcases eq_or_ne q (s i).1 with rfl | hqi
    · -- the key that was in the slot is in no other
      rw [Function.update_self]
      refine iff_of_false (Option.some_ne_none w).symm ?_
      rintro ⟨j, hj⟩
      obtain ⟨hji, hsj⟩ := hother hj
      exact hji (h.unique j i (by rw [hsj]) (by rw [hsj]; exact hq))
    · rw [Function.update_of_ne hqi, h.stored q w hq]
      constructor
      · rintro ⟨j, hj⟩
        have hji : j ≠ i := by rintro rfl; exact hqi (by rw [hj])
        exact ⟨j, by rw [Function.update_of_ne hji]; exact hj⟩
      · rintro ⟨j, hj⟩
        exact ⟨j, (hother hj).2⟩

end Represents
end Represents

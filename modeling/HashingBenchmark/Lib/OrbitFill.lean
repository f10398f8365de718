import Mathlib.Data.List.Basic
import Mathlib.Data.Nat.Find
import Mathlib.Logic.Function.Iterate

/-! Putting items into buckets along a successor function.

    An item starts at its home bucket and goes from each bucket to the one behind it, `next`, until
    it comes to one that has room. With `room` buckets of `B` items each, only the number of items
    in a bucket matters for where the next one goes: `place` is one such step on these numbers.

    Two placements commute (`place_comm`). Items that go to different buckets do not meet. Of two
    items that want the same bucket, whichever is second goes on from there, and from there its home
    no longer matters. So the final numbers do not depend on the order (`foldl_place_perm`). -/

namespace OrbitFill
variable {κ : Type*} {next : κ → κ} {room room' : κ → Prop} {h h' i j : κ}

/-- The first bucket with room on the way from `h` is `i`. -/
def Stops (next : κ → κ) (room : κ → Prop) (h i : κ) : Prop :=
  ∃ d, next^[d] h = i ∧ room i ∧ ∀ d' < d, ¬ room (next^[d'] h)

theorem Stops.unique (hi : Stops next room h i) (hj : Stops next room h j) : i = j := by
  obtain ⟨d, rfl, hroom, hbefore⟩ := hi
  obtain ⟨e, rfl, hroom', hbefore'⟩ := hj
  rcases lt_trichotomy d e with hlt | rfl | hgt
  · exact absurd hroom (hbefore' d hlt)
  · rfl
  · exact absurd hroom' (hbefore e hgt)

theorem exists_stops_iff : (∃ i, Stops next room h i) ↔ ∃ d, room (next^[d] h) := by
  classical
  constructor
  · rintro ⟨i, d, rfl, hroom, -⟩
    exact ⟨d, hroom⟩
  · intro hex
    exact ⟨_, Nat.find hex, rfl, Nat.find_spec hex, fun d' hd' => Nat.find_min hex hd'⟩

/-- With less room, an item that still finds room in its bucket goes there. -/
theorem Stops.mono (hs : Stops next room h i) (hsub : ∀ k, room' k → room k) (hi : room' i) :
    Stops next room' h i := by
  obtain ⟨d, hd, -, hbefore⟩ := hs
  exact ⟨d, hd, hi, fun d' hd' hroom => hbefore d' hd' (hsub _ hroom)⟩

/-- With less room, an item that goes past its bucket goes on as one whose home is that bucket. -/
theorem Stops.congr_home (hs : Stops next room h i) (hsub : ∀ k, room' k → room k) :
    Stops next room' h j ↔ Stops next room' i j := by
  obtain ⟨d, rfl, -, hbefore⟩ := hs
  have hnone : ∀ d' < d, ¬ room' (next^[d'] h) := fun d' hd' hr => hbefore d' hd' (hsub _ hr)
  constructor
  · rintro ⟨e, rfl, hroom, hbefore'⟩
    have hde : d ≤ e := not_lt.mp fun hlt => hnone e hlt hroom
    refine ⟨e - d, ?_, hroom, fun d' hd' => ?_⟩
    · rw [← Function.iterate_add_apply, Nat.sub_add_cancel hde]
    · rw [← Function.iterate_add_apply]
      exact hbefore' _ (by omega)
  · rintro ⟨e, rfl, hroom, hbefore'⟩
    refine ⟨e + d, Function.iterate_add_apply .., hroom, fun d' hd' => ?_⟩
    rcases lt_or_ge d' d with hlt | hge
    · exact hnone d' hlt
    · have := hbefore' (d' - d) (by omega)
      rwa [← Function.iterate_add_apply, Nat.sub_add_cancel hge] at this

section Place
variable [DecidableEq κ] {B : ℕ} {c c' : κ → ℕ}

open Classical in
/-- One item with the home bucket `h`; where no bucket on its way has room it is dropped. -/
noncomputable def place (next : κ → κ) (B : ℕ) (c : κ → ℕ) (h : κ) : κ → ℕ :=
  if hex : ∃ i, Stops next (fun k => c k < B) h i then
    Function.update c hex.choose (c hex.choose + 1)
  else c

theorem place_of_stops (hs : Stops next (fun k => c k < B) h i) :
    place next B c h = Function.update c i (c i + 1) := by
  have hex : ∃ i, Stops next (fun k => c k < B) h i := ⟨i, hs⟩
  rw [place, dif_pos hex, hs.unique hex.choose_spec]

theorem place_of_not_exists (hno : ¬ ∃ i, Stops next (fun k => c k < B) h i) :
    place next B c h = c := by
  rw [place, dif_neg hno]

/-- Homes with the same first bucket with room. -/
theorem place_congr
    (hiff : ∀ j, Stops next (fun k => c k < B) h j ↔ Stops next (fun k => c k < B) h' j) :
    place next B c h = place next B c h' := by
  by_cases hex : ∃ i, Stops next (fun k => c k < B) h i
  · obtain ⟨i, hi⟩ := hex
    rw [place_of_stops hi, place_of_stops ((hiff i).mp hi)]
  · rw [place_of_not_exists hex, place_of_not_exists]
    rintro ⟨i, hi⟩
    exact hex ⟨i, (hiff i).mpr hi⟩

/-- A placement takes no item out. -/
theorem le_place (k : κ) : c k ≤ place next B c h k := by
  by_cases hex : ∃ i, Stops next (fun k => c k < B) h i
  · obtain ⟨i, hi⟩ := hex
    rw [place_of_stops hi]
    rcases eq_or_ne k i with rfl | hk
    · rw [Function.update_self]; exact Nat.le_succ _
    · rw [Function.update_of_ne hk]
  · rw [place_of_not_exists hex]

/-- An item that finds no room finds none after further placements. -/
theorem place_place_of_not_exists (hno : ¬ ∃ i, Stops next (fun k => c k < B) h i) :
    place next B (place next B c h') h = place next B c h' := by
  refine place_of_not_exists fun hex => hno (exists_stops_iff.mpr ?_)
  obtain ⟨d, hd⟩ := exists_stops_iff.mp hex
  exact ⟨d, lt_of_le_of_lt (le_place _) hd⟩

/-- Two items can be placed in either order. -/
theorem place_comm (c : κ → ℕ) (h h' : κ) :
    place next B (place next B c h) h' = place next B (place next B c h') h := by
  by_cases hex : ∃ i, Stops next (fun k => c k < B) h i
  · by_cases hex' : ∃ j, Stops next (fun k => c k < B) h' j
    · obtain ⟨i, hi⟩ := hex
      obtain ⟨j, hj⟩ := hex'
      have hsub : ∀ (g k : κ), place next B c g k < B → c k < B := fun g k hk =>
        lt_of_le_of_lt (le_place k) hk
      rcases eq_or_ne i j with rfl | hij
      · -- both want bucket `i`; the second one goes on as if that were its home
        have hsame : place next B c h = place next B c h' := by
          rw [place_of_stops hi, place_of_stops hj]
        rw [hsame]
        exact place_congr fun k => (hj.congr_home (hsub h')).trans (hi.congr_home (hsub h')).symm
      · have hi' : Stops next (fun k => place next B c h' k < B) h i := by
          refine hi.mono (hsub h') ?_
          rw [place_of_stops hj, Function.update_of_ne hij]
          exact hi.choose_spec.2.1
        have hj' : Stops next (fun k => place next B c h k < B) h' j := by
          refine hj.mono (hsub h) ?_
          rw [place_of_stops hi, Function.update_of_ne hij.symm]
          exact hj.choose_spec.2.1
        rw [place_of_stops hj', place_of_stops hi', place_of_stops hi, place_of_stops hj,
          Function.update_of_ne hij.symm, Function.update_of_ne hij, Function.update_comm hij]
    · rw [place_place_of_not_exists hex', place_of_not_exists hex']
  · rw [place_place_of_not_exists hex, place_of_not_exists hex]

/-- The number of items in each bucket does not depend on the order of the placements. -/
theorem foldl_place_perm {l l' : List κ} (hperm : l.Perm l') (c : κ → ℕ) :
    l.foldl (place next B) c = l'.foldl (place next B) c :=
  hperm.foldl_eq' (fun h _ h' _ c => place_comm c h h') c

end Place
end OrbitFill

import HashingBenchmark.Gapped.Probe
import HashingBenchmark.Lib.UIntOrder

/-! When the probe of the gapped array decides membership.

    A probe looks for the key in a window and finds it exactly if the window has the key's slot in it
    and no comparison on the way there was with a gap on its right (`searchWindow_cases`). The window
    depends on the bound that the probes before it left. A key larger than all that it is compared
    with runs off the end of the array. No probe counts a key that is not in the array, so the count
    of a whole run is right exactly if every probe is. -/

namespace HashingBenchmark
namespace Gapped
open Join Bisect
open scoped UIntOrder

section Window
variable {v : List UInt32} {key : UInt32}

theorem lt_of_ascending (hasc : (entries v).Pairwise (· < ·)) {i j : ℕ} {x y : UInt32}
    (hij : i < j) (hi : v[i]? = some x) (hj : v[j]? = some y) (hx : x ≠ 0) (hy : y ≠ 0) : x < y := by
  rw [entries, List.pairwise_filter, List.pairwise_iff_getElem] at hasc
  obtain ⟨hilt, rfl⟩ := List.getElem?_eq_some_iff.mp hi
  obtain ⟨hjlt, rfl⟩ := List.getElem?_eq_some_iff.mp hj
  exact hasc i j hilt hjlt hij (by simpa using hx) (by simpa using hy)

/-- A key is in at most one slot. -/
theorem slot_unique (hasc : (entries v).Pairwise (· < ·)) (hkey : key ≠ 0) {i j : ℕ}
    (hi : v[i]? = some key) (hj : v[j]? = some key) : i = j := by
  rcases Nat.lt_trichotomy i j with hlt | heq | hlt
  · exact absurd (lt_of_ascending hasc hlt hi hj hkey hkey) (lt_irrefl key)
  · exact heq
  · exact absurd (lt_of_ascending hasc hlt hj hi hkey hkey) (lt_irrefl key)

theorem getElem?_eq_getD {i : ℕ} (h : i < v.length) : v[i]? = some (v.getD i 0) := by
  simp [h]

theorem binarySearch_eq {fuel l r : ℕ} (hr : r ≤ v.length) : binarySearch v key fuel l r
    = .ok (bisect (fun m => decide (key ≤ v.getD m 0)) fuel l r) := by
  induction fuel generalizing l r with
  | zero => rfl
  | succ fuel ih =>
    rw [binarySearch, bisect]
    by_cases hlt : l < r
    · rw [if_pos hlt, if_pos hlt]
      simp only [getElem?_eq_getD (v := v) (i := l + (r - l) / 2) (by omega), decide_eq_true_eq]
      by_cases hle : key ≤ v.getD (l + (r - l) / 2) 0
      · rw [if_pos hle, if_pos hle, ih (by omega)]
      · rw [if_neg hle, if_neg hle, ih hr]
    · rw [if_neg hlt, if_neg hlt]

/-- The comparison with an entry says which side of the key's slot it is on, but for the gaps on the
    right. -/
theorem le_getD_iff (hasc : (entries v).Pairwise (· < ·)) (hkey : key ≠ 0) {p m : ℕ}
    (hp : v[p]? = some key) (hm : m < v.length) :
    (decide (key ≤ v.getD m 0) = true ↔ p ≤ m) ↔ (p < m → v[m]? ≠ some 0) := by
  have hread := getElem?_eq_getD hm
  have hzero : ¬ key ≤ 0 := fun hle => hkey (UInt32.le_zero_iff.mp hle)
  rw [decide_eq_true_eq, hread, ne_eq, Option.some.injEq]
  generalize v.getD m 0 = x at hread ⊢
  rcases Nat.lt_trichotomy m p with hlt | rfl | hlt
  · have hnot : ¬ key ≤ x := by
      by_cases h0 : x = 0
      · rw [h0]; exact hzero
      · exact not_le.mpr (lt_of_ascending hasc hlt hread hp h0 hkey)
    simp [hnot, hlt.le, Nat.not_le.mpr hlt]
  · obtain rfl := Option.some.inj (hp.symm.trans hread)
    simp
  · by_cases h0 : x = 0
    · rw [h0]
      simp [hzero, hlt, hlt.le]
    · simp [h0, (lt_of_ascending hasc hlt hp hread hkey h0).le, hlt.le]

/-- The slot where the search of a window ends. -/
def windowEnd (v : List UInt32) (key : UInt32) (l r : ℕ) : ℕ :=
  bisect (fun m => decide (key ≤ v.getD m 0)) (r - l) l r

theorem windowEnd_of_lt {l r : ℕ} (h : r < l) : windowEnd v key l r = l := by
  rw [windowEnd, Nat.sub_eq_zero_of_le h.le, bisect]

/-- The search ends at the slot of the key exactly if it reaches it. -/
theorem reaches_iff_of_slot (hasc : (entries v).Pairwise (· < ·)) (hkey : key ≠ 0) {l r p : ℕ}
    (hr : r ≤ v.length) (hlr : l ≤ r ∨ r = v.length) (hp : v[p]? = some key) :
    Reaches v key l r ↔ windowEnd v key l r = p := by
  have hmem : key ∈ v := List.mem_iff_getElem?.mpr ⟨p, hp⟩
  have hplt := (List.getElem?_eq_some_iff.mp hp).1
  by_cases hle : l ≤ r
  · rw [windowEnd, bisect_eq_iff (Nat.le_refl _) hle]
    have hmid : ∀ m ∈ midpoints p l r, m < v.length := fun m hm => (mem_midpoints hm).2.trans_le hr
    constructor
    · rintro ⟨hall, -⟩
      obtain ⟨hl, hpr, hgap⟩ := hall p hp
      exact ⟨hl, hpr, fun m hm => (le_getD_iff hasc hkey hp (hmid m hm)).mpr (hgap m hm)⟩
    · rintro ⟨hl, hpr, hall⟩
      refine ⟨?_, fun hnot => absurd hmem hnot⟩
      intro p' hp'
      obtain rfl := slot_unique hasc hkey hp hp'
      exact ⟨hl, hpr, fun m hm => (le_getD_iff hasc hkey hp (hmid m hm)).mp (hall m hm)⟩
  · have hend := hlr.resolve_left hle
    rw [windowEnd_of_lt (Nat.lt_of_not_le hle)]
    constructor
    · rintro ⟨hall, -⟩
      have hl := (hall p hp).1
      omega
    · rintro rfl
      omega

/-- The search for a key that is in no slot ends in the array exactly if it reaches a slot. -/
theorem reaches_iff_of_notMem {l r : ℕ} (hr : r ≤ v.length) (hlr : l ≤ r ∨ r = v.length)
    (hmem : key ∉ v) : Reaches v key l r ↔ windowEnd v key l r < v.length := by
  have hvacuous : ∀ p, v[p]? = some key → l ≤ p ∧ p ≤ r ∧
      ∀ m ∈ midpoints p l r, p < m → v[m]? ≠ some 0 := fun p hp =>
    absurd (List.mem_iff_getElem?.mpr ⟨p, hp⟩) hmem
  rw [Reaches, and_iff_right hvacuous, imp_iff_right hmem]
  rcases Nat.lt_or_ge r v.length with hrlt | hge
  · have hle : l ≤ r := hlr.resolve_right (Nat.ne_of_lt hrlt)
    have hend : windowEnd v key l r ≤ r := (bisect_mem (Nat.le_refl (r - l)) hle).2
    exact ⟨fun _ => hend.trans_lt hrlt, fun _ => .inl hrlt⟩
  obtain rfl : r = v.length := Nat.le_antisymm hr hge
  rw [or_iff_right (Nat.lt_irrefl _)]
  by_cases hle : l ≤ v.length
  · have hmem_end : l ≤ windowEnd v key l v.length ∧ windowEnd v key l v.length ≤ v.length :=
      bisect_mem (Nat.le_refl (v.length - l)) hle
    have hne : windowEnd v key l v.length ≠ v.length
        ↔ ∃ m ∈ midpoints v.length l v.length, key < v.getD m 0 := by
      rw [windowEnd, ne_eq, bisect_eq_iff (Nat.le_refl _) hle]
      simp only [hle, Nat.le_refl, true_and, not_forall, exists_prop]
      refine exists_congr fun m => and_congr_right ?_
      intro hm
      have hmlt := (mem_midpoints hm).2
      have hne : key ≠ v.getD m 0 := fun heq =>
        hmem (List.mem_iff_getElem?.mpr ⟨m, heq ▸ getElem?_eq_getD hmlt⟩)
      rw [lt_iff_le_and_ne, and_iff_left hne, decide_eq_true_eq]
      simp [Nat.not_le.mpr hmlt]
    constructor
    · rintro ⟨-, hex⟩
      exact lt_of_le_of_ne hmem_end.2 (hne.mpr hex)
    · intro hlt
      exact ⟨hmem_end.1.trans_lt hlt, hne.mp (Nat.ne_of_lt hlt)⟩
  · rw [windowEnd_of_lt (Nat.lt_of_not_le hle)]
    exact and_iff_left_of_imp fun h => absurd h.le hle

/-- The search of a window counts the tuple exactly if its key is in the array, or else misses a key
    that is, or reads outside. -/
theorem searchWindow_cases (hasc : (entries v).Pairwise (· < ·)) (hkey : key ≠ 0) {l r : ℕ}
    (hr : r ≤ v.length) (hlr : l ≤ r ∨ r = v.length) :
    (Reaches v key l r ∧ searchWindow v key l r = .ok (decide (key ∈ v))) ∨
    (¬ Reaches v key l r ∧ ∀ hit, searchWindow v key l r = .ok hit → hit = false ∧ key ∈ v) := by
  have hsearch : binarySearch v key (r - l) l r = .ok (windowEnd v key l r) := binarySearch_eq hr
  rw [searchWindow, hsearch]
  by_cases hmem : key ∈ v
  · obtain ⟨p, hp⟩ := List.mem_iff_getElem?.mp hmem
    rw [reaches_iff_of_slot hasc hkey hr hlr hp]
    by_cases hend : windowEnd v key l r = p
    · left
      exact ⟨hend, by simp [hend, hp, hmem]⟩
    · right
      refine ⟨hend, ?_⟩
      intro hit hok
      refine ⟨?_, hmem⟩
      cases hread : v[windowEnd v key l r]? with
      | none => simp [hread] at hok
      | some x =>
        have hne : x ≠ key := by
          rintro rfl
          exact hend (slot_unique hasc hkey hread hp)
        simpa [hread, hne, eq_comm] using hok
  · rw [reaches_iff_of_notMem hr hlr hmem]
    rcases Nat.lt_or_ge (windowEnd v key l r) v.length with hlt | hge
    · left
      refine ⟨hlt, ?_⟩
      have hread := getElem?_eq_getD hlt
      have hne : v.getD (windowEnd v key l r) 0 ≠ key := fun heq =>
        hmem (List.mem_iff_getElem?.mpr ⟨_, heq ▸ hread⟩)
      simp only [hread, hmem, hne]
    · right
      refine ⟨Nat.not_lt.mpr hge, ?_⟩
      intro hit hok
      have hnone : v[windowEnd v key l r]? = none := List.getElem?_eq_none_iff.mpr hge
      simp [hnone] at hok

/-- The loop doubles the bound up to where the key is bracketed. -/
theorem boundLoop_eq (size : ℕ) (slot : ℕ → ℕ) (goesOn : UInt32 → Bool) {fuel bound : ℕ}
    (hslot : ∀ b < size, slot b < v.length) (hbound : 0 < bound) (hfuel : size - bound < fuel) :
    ∃ B, boundLoop v size slot goesOn fuel bound = .ok B ∧
      Doubled size (fun b => goesOn (v.getD (slot b) 0) = true) bound B := by
  induction fuel generalizing bound with
  | zero => cases hfuel
  | succ fuel ih =>
    rw [boundLoop]
    by_cases hlt : bound < size
    · simp only [if_pos hlt, getElem?_eq_getD (hslot bound hlt)]
      by_cases hon : goesOn (v.getD (slot bound) 0) = true
      · obtain ⟨B, hloop, hdouble⟩ := ih (Nat.mul_pos hbound (by decide : 0 < 2))
          (by omega)
        exact ⟨B, by rw [if_pos hon, hloop], Doubled.double ⟨hlt, hon⟩ hdouble⟩
      · exact ⟨bound, by rw [if_neg hon], doubled_self fun h => hon h.2⟩
    · exact ⟨bound, by rw [if_neg hlt], doubled_self fun h => hlt h.1⟩

/-- A probe whose search is that of the window `l`, `r` decides exactly if it reaches the slot. -/
theorem decides_iff {i bound l r : ℕ} (hne : v[i]? ≠ some key) (hwindow : Window v i key bound l r)
    (hunique : ∀ l' r', Window v i key bound l' r' → l' = l ∧ r' = r) :
    Decides v i key bound ↔ Reaches v key l r := by
  rw [Decides, or_iff_right hne]
  constructor
  · rintro ⟨l', r', hw, hreach⟩
    obtain ⟨rfl, rfl⟩ := hunique l' r' hw
    exact hreach
  · intro hreach
    exact ⟨l, r, hwindow, hreach⟩

/-- A branch of the probe: after the loop, the search in its window. -/
theorem branch_cases (hasc : (entries v).Pairwise (· < ·)) (hkey : key ≠ 0) {i bound l r B : ℕ}
    (hne : v[i]? ≠ some key) (hwindow : Window v i key bound l r)
    (hunique : ∀ l' r', Window v i key bound l' r' → l' = l ∧ r' = r) (hB : 0 < B)
    (hr : r ≤ v.length) (hlr : l ≤ r ∨ r = v.length) :
    (Decides v i key bound ∧ ∃ B', 0 < B' ∧
      (searchWindow v key l r).map (B, ·) = .ok (B', decide (key ∈ v))) ∨
    (¬ Decides v i key bound ∧ ∀ B' hit, (searchWindow v key l r).map (B, ·) = .ok (B', hit) →
      0 < B' ∧ hit = false ∧ key ∈ v) := by
  rw [decides_iff hne hwindow hunique]
  rcases searchWindow_cases hasc hkey hr hlr with ⟨hreach, hok⟩ | ⟨hnot, hall⟩
  · left
    exact ⟨hreach, B, hB, by rw [hok]; rfl⟩
  · right
    refine ⟨hnot, ?_⟩
    intro B' hit hok
    cases hsearch : searchWindow v key l r with
    | error fault => rw [hsearch] at hok; cases hok
    | ok hit' =>
      rw [hsearch] at hok
      obtain ⟨rfl, rfl⟩ := Prod.mk.inj (Except.ok.inj hok)
      exact ⟨hB, hall hit' hsearch⟩

/-- One probe: it counts the tuple exactly if its key is in the array, or else misses it or reads
    outside the array. -/
theorem probeKey_cases (hasc : (entries v).Pairwise (· < ·)) (hkey : key ≠ 0) {i bound : ℕ}
    (hi : i < v.length) (hbound : 0 < bound) :
    (Decides v i key bound ∧ ∃ B, 0 < B ∧ probeKey v i key bound = .ok (B, decide (key ∈ v))) ∨
    (¬ Decides v i key bound ∧ ∀ B hit, probeKey v i key bound = .ok (B, hit) →
      0 < B ∧ hit = false ∧ key ∈ v) := by
  have hread := getElem?_eq_getD hi
  generalize hx : v.getD i 0 = x at hread
  rw [probeKey, hread]
  by_cases heq : x = key
  · subst heq
    left
    exact ⟨.inl hread, bound, hbound, by simp [List.mem_iff_getElem?.mpr ⟨i, hread⟩]⟩
  have hne : v[i]? ≠ some key := by rw [hread]; simpa using heq
  by_cases hle : key ≤ x
  · have hlt : key < x := lt_of_le_of_ne hle (Ne.symm heq)
    obtain ⟨B, hloop, hdouble⟩ := boundLoop_eq (v := v) i (fun b => i - b)
      (fun y => decide (key ≤ y)) (fun b _ => by omega) hbound
      (Nat.lt_succ_of_le (Nat.sub_le i bound))
    simp only [decide_eq_true_eq] at hdouble
    have hunique : ∀ l r, Window v i key bound l r → l = i - min B i ∧ r = i - B / 2 := by
      rintro l r (⟨y, B', -, -, hdouble'⟩ | ⟨y, B', hy, hylt, -⟩)
      · rw [hdouble.unique hdouble']; exact ⟨rfl, rfl⟩
      · obtain rfl := Option.some.inj (hread.symm.trans hy)
        exact absurd hlt (lt_asymm hylt)
    simp only [if_neg heq, if_pos hle]
    rw [searchLeft]
    simp only [hloop]
    exact branch_cases hasc hkey hne (.left x B hread hlt hdouble) hunique (hdouble.pos hbound)
      (by omega) (by omega)
  · have hlt : x < key := not_le.mp hle
    obtain ⟨B, hloop, hdouble⟩ := boundLoop_eq (v := v) (v.length - i) (fun b => i + b)
      (fun y => decide (y < key)) (fun b hb => by omega) hbound
      (Nat.lt_succ_of_le (Nat.sub_le _ bound))
    simp only [decide_eq_true_eq] at hdouble
    have hunique : ∀ l r, Window v i key bound l r →
        l = i + B / 2 ∧ r = i + min B (v.length - i) := by
      rintro l r (⟨y, B', hy, hylt, -⟩ | ⟨y, B', -, -, hdouble'⟩)
      · obtain rfl := Option.some.inj (hread.symm.trans hy)
        exact absurd hlt (lt_asymm hylt)
      · rw [hdouble.unique hdouble']; exact ⟨rfl, rfl⟩
    simp only [if_neg heq, if_neg hle]
    rw [searchRight]
    simp only [hloop]
    exact branch_cases hasc hkey hne (.right x B hread hlt hdouble) hunique (hdouble.pos hbound)
      (by omega) (by omega)

end Window

section Run
variable {lookup : UInt32 → UInt64} {scaling_factor : UInt64} {v : List UInt32}

/-- A run counts at most the tuples whose key is in the array. -/
theorem probeTuples_le (hasc : (entries v).Pairwise (· < ·)) {S : List Tuple}
    (hkeys : ∀ t ∈ S, t.key ≠ 0)
    (hvalid : ∀ t ∈ S, (lookup t.key * scaling_factor).toNat < v.length) {s u : ℕ × UInt64}
    (hbound : 0 < s.1) (hrun : probeTuples lookup scaling_factor v S s = .ok u) :
    0 < u.1 ∧ ∃ hits ≤ S.countP (·.key ∈ v), u.2 = s.2 + UInt64.ofNat hits := by
  induction S generalizing s with
  | nil =>
    rw [probeTuples, Except.ok.injEq] at hrun
    subst hrun
    exact ⟨hbound, 0, Nat.le_refl 0, by simp⟩
  | cons t S ih =>
    obtain ⟨bound, matches'⟩ := s
    have hstep := probeKey_cases hasc (hkeys t List.mem_cons_self) (hvalid t List.mem_cons_self)
      hbound
    rw [probeTuples] at hrun
    cases hprobe : probeKey v (lookup t.key * scaling_factor).toNat t.key bound with
    | error fault => rw [hprobe] at hrun; cases hrun
    | ok out =>
      obtain ⟨B, hit⟩ := out
      simp only [hprobe] at hrun
      have hout : 0 < B ∧ (hit = true → t.key ∈ v) := by
        rcases hstep with ⟨-, B', hB, hok⟩ | ⟨-, hall⟩
        · obtain ⟨rfl, rfl⟩ := Prod.mk.inj (Except.ok.inj (hprobe.symm.trans hok))
          exact ⟨hB, by simp⟩
        · obtain ⟨hB, rfl, -⟩ := hall B hit hprobe
          exact ⟨hB, by simp⟩
      obtain ⟨hu, hits, hle, hsum⟩ := ih (fun t' h => hkeys t' (List.mem_cons_of_mem t h))
        (fun t' h => hvalid t' (List.mem_cons_of_mem t h)) hout.1 hrun
      refine ⟨hu, hits + hit.toNat, ?_, ?_⟩
      · rw [List.countP_cons]
        refine Nat.add_le_add hle ?_
        cases hit with
        | false => simp
        | true => simp [hout.2 rfl]
      · rw [hsum, UInt64.ofNat_add]
        cases hit with
        | false => simp
        | true =>
          simp only [if_true, Bool.toNat_true]
          rw [UInt64.add_comm (UInt64.ofNat hits), UInt64.add_assoc]
          rfl

/-- A missed tuple is not made up for by the tuples after it. -/
theorem probeTuples_ne_of_missed (hasc : (entries v).Pairwise (· < ·)) {t : Tuple} {S : List Tuple}
    (hlen : (t :: S).length < UInt64.size) (hkeys : ∀ t' ∈ S, t'.key ≠ 0)
    (hvalid : ∀ t' ∈ S, (lookup t'.key * scaling_factor).toNat < v.length) {bound : ℕ}
    (hmissed : ∀ B hit, probeKey v (lookup t.key * scaling_factor).toNat t.key bound = .ok (B, hit) →
      0 < B ∧ hit = false ∧ t.key ∈ v) (matches' : UInt64) (B : ℕ) :
    probeTuples lookup scaling_factor v (t :: S) (bound, matches')
      ≠ .ok (B, matches' + UInt64.ofNat ((t :: S).countP (·.key ∈ v))) := by
  intro hrun
  rw [List.length_cons] at hlen
  rw [probeTuples] at hrun
  cases hprobe : probeKey v (lookup t.key * scaling_factor).toNat t.key bound with
  | error fault => rw [hprobe] at hrun; cases hrun
  | ok out =>
    obtain ⟨B', hit⟩ := out
    obtain ⟨hB', rfl, hmem⟩ := hmissed B' hit hprobe
    simp only [hprobe] at hrun
    obtain ⟨-, hits, hle, hsum⟩ := probeTuples_le hasc hkeys hvalid hB' hrun
    have hcount : S.countP (·.key ∈ v) ≤ S.length := List.countP_le_length
    have heq : UInt64.ofNat ((t :: S).countP (·.key ∈ v)) = UInt64.ofNat hits := by
      simpa using hsum
    rw [List.countP_cons_of_pos (by simpa using hmem)] at heq
    have hnat := congrArg UInt64.toNat heq
    have hhits : hits < UInt64.size := by omega
    have hsucc : S.countP (·.key ∈ v) + 1 < UInt64.size := by omega
    rw [UInt64.toNat_ofNat_of_lt' hhits, UInt64.toNat_ofNat_of_lt' hsucc] at hnat
    omega

/-- The count of a run is right exactly if every probe of it decides. -/
theorem probeTuples_iff (hasc : (entries v).Pairwise (· < ·)) {S : List Tuple}
    (hlen : S.length < UInt64.size) (hkeys : ∀ t ∈ S, t.key ≠ 0)
    (hvalid : ∀ t ∈ S, (lookup t.key * scaling_factor).toNat < v.length) {bound : ℕ}
    (hbound : 0 < bound) (matches' : UInt64) :
    (∃ B, probeTuples lookup scaling_factor v S (bound, matches')
      = .ok (B, matches' + UInt64.ofNat (S.countP (·.key ∈ v)))) ↔
    ∀ pre t post, S = pre ++ t :: post → ∀ u,
      probeTuples lookup scaling_factor v pre (bound, matches') = .ok u →
        Decides v (lookup t.key * scaling_factor).toNat t.key u.1 := by
  induction S generalizing bound matches' with
  | nil => simp [probeTuples]
  | cons t S ih =>
    have hkeys' : ∀ t' ∈ S, t'.key ≠ 0 := fun t' h => hkeys t' (List.mem_cons_of_mem t h)
    have hvalid' : ∀ t' ∈ S, (lookup t'.key * scaling_factor).toNat < v.length :=
      fun t' h => hvalid t' (List.mem_cons_of_mem t h)
    rcases probeKey_cases hasc (hkeys t List.mem_cons_self) (hvalid t List.mem_cons_self) hbound with
      ⟨hdecides, B, hB, hok⟩ | ⟨hnot, hall⟩
    · have hcons : ∀ l, probeTuples lookup scaling_factor v (t :: l) (bound, matches')
          = probeTuples lookup scaling_factor v l
            (B, matches' + UInt64.ofNat (if t.key ∈ v then 1 else 0)) := by
        intro l
        rw [probeTuples, hok]
        by_cases hmem : t.key ∈ v <;> simp [hmem]
      have hcount : matches' + UInt64.ofNat ((t :: S).countP (·.key ∈ v))
          = matches' + UInt64.ofNat (if t.key ∈ v then 1 else 0)
            + UInt64.ofNat (S.countP (·.key ∈ v)) := by
        rw [List.countP_cons, Nat.add_comm, UInt64.ofNat_add, UInt64.add_assoc]
        simp
      have hhead : ∀ u, probeTuples lookup scaling_factor v [] (bound, matches') = .ok u →
          Decides v (lookup t.key * scaling_factor).toNat t.key u.1 := by
        intro u hu
        rw [probeTuples, Except.ok.injEq] at hu
        rw [← hu]; exact hdecides
      rw [Outcome.forall_split_cons, and_iff_right hhead, hcount]
      simp only [hcons]
      exact ih (Nat.lt_of_succ_lt hlen) hkeys' hvalid' hB _
    · constructor
      · rintro ⟨B, hrun⟩
        exact absurd hrun (probeTuples_ne_of_missed hasc hlen hkeys' hvalid' hall matches' B)
      · intro h
        exact absurd (h [] t S rfl (bound, matches') rfl) hnot

end Run

/-- A key behind a gap is missed, a key is missed after another probe has left its bound, and a key
    larger than all others is looked for outside the array. -/
theorem gapped_probe_misses_keys :
    inljWithRmiModelBasedBuildProbeRelSPartition (fun _ => 2) 1 [10, 0, 30] ⟨[⟨10, 0⟩], by decide⟩
      ≠ .ok (UInt64.ofNat (List.countP (fun t : Tuple => t.key ∈ [10, 0, 30]) [⟨10, 0⟩])) ∧
    inljWithRmiModelBasedBuildProbeRelSPartition (fun _ => 3) 1 [1, 2, 3, 4]
        ⟨[⟨1, 0⟩, ⟨3, 0⟩], by decide⟩
      ≠ .ok (UInt64.ofNat
          (List.countP (fun t : Tuple => t.key ∈ [1, 2, 3, 4]) [⟨1, 0⟩, ⟨3, 0⟩])) ∧
    inljWithRmiModelBasedBuildProbeRelSPartition (fun _ => 0) 1 [5] ⟨[⟨7, 0⟩], by decide⟩
      = .error .outOfBounds := by
  decide

/-- CORRECT: the probe stays in the array and counts the tuples whose key is in it exactly if every
    probe of the run decides, with the bound that the probes before it left. -/
theorem gapped_probe_decides_iff (lookup : UInt32 → UInt64) (scaling_factor : UInt64)
    (v : List UInt32) (S : Relation) (hasc : (entries v).Pairwise (· < ·))
    (hvalid : ∀ t ∈ S.tuples, (lookup t.key * scaling_factor).toNat < v.length)
    (hkeys : ∀ t ∈ S.tuples, t.key ≠ 0) :
    inljWithRmiModelBasedBuildProbeRelSPartition lookup scaling_factor v S
      = .ok (UInt64.ofNat (S.tuples.countP (·.key ∈ v))) ↔
    ∀ pre t post, S.tuples = pre ++ t :: post → ∀ u,
      probeTuples lookup scaling_factor v pre (1, 0) = .ok u →
        Decides v (lookup t.key * scaling_factor).toNat t.key u.1 := by
  have hlen : S.tuples.length < UInt64.size := S.fits.trans (by decide)
  rw [← probeTuples_iff hasc hlen hkeys hvalid (by decide : 0 < 1) 0, UInt64.zero_add,
    inljWithRmiModelBasedBuildProbeRelSPartition]
  cases probeTuples lookup scaling_factor v S.tuples (1, 0) with
  | error fault => simp [Except.map]
  | ok u =>
    simp only [Except.map, Except.ok.injEq]
    exact ⟨fun h => ⟨u.1, by rw [← h]⟩, fun ⟨B, h⟩ => by rw [h]⟩

/-- Two keys with a gap between them and one that is in no slot, all probed from the first slot. -/
theorem gapped_probe_decides_iff_two_keys :
    inljWithRmiModelBasedBuildProbeRelSPartition (fun _ => 0) 1 [5, 0, 25]
      ⟨[⟨5, 0⟩, ⟨25, 0⟩, ⟨7, 0⟩], by decide⟩ = .ok 2 := by
  refine (gapped_probe_decides_iff (fun _ => 0) 1 [5, 0, 25]
    ⟨[⟨5, 0⟩, ⟨25, 0⟩, ⟨7, 0⟩], by decide⟩ (by decide) (by decide) (by decide)).mpr ?_
  simp only [Outcome.forall_split_cons]
  refine ⟨fun u hu => ?_, fun u hu => ?_, fun u hu => ?_, Outcome.forall_split_nil⟩
  · exact Or.inl rfl
  · -- the bound doubles to 2, and the window [1, 2) ends at the key
    obtain rfl := Except.ok.inj hu
    refine Or.inr ⟨1, 2, .right 5 2 rfl (by decide) ⟨1, rfl, by decide, by decide⟩, ?_, ?_⟩
    · intro p hp
      obtain ⟨hlt, hget⟩ := List.getElem?_eq_some_iff.mp hp
      obtain rfl : p = 2 := by
        have hkey : ∀ q : Fin 3, [(5 : UInt32), 0, 25][q] = 25 → q = 2 := by decide
        exact congrArg Fin.val (hkey ⟨p, hlt⟩ hget)
      refine ⟨by decide, by decide, fun m hm hlt => ?_⟩
      have hwindow := Bisect.mem_midpoints hm
      omega
    · exact fun hmem => absurd hmem (by decide)
  · -- the next probe starts with this bound
    obtain rfl := Except.ok.inj hu
    refine Or.inr ⟨1, 2, .right 5 2 rfl (by decide) ⟨0, rfl, by decide, by decide⟩, ?_, ?_⟩
    · exact fun p hp => absurd (List.mem_of_getElem? hp) (by decide)
    · exact fun _ => Or.inl (by decide)

end Gapped
end HashingBenchmark

import HashingBenchmark.Inlj.RmiProbe

/-! The branch-free search of the learned-index probe, as arithmetic.

    On sorted keys a comparison of the search only compares its position with the number of keys that
    are at most the key looked for, so where a search ends is a matter of the window and of this
    number (`branchFree_iff`). In a window inside the array it ends next to an equal key, if there is
    one in the window (`ends_of_window`). If the start of the window has wrapped below 0, the first
    positions of the halving must bring the search back into the array (`ends_wrapped_iff`). -/

namespace HashingBenchmark
namespace Inlj
open Join PrefixCount
open scoped UIntOrder

/-- A search with `n` entries left from `lower` on ends at `l` and stays in an array of `size` entries,
    of which the first `upTo` are at most the key. -/
inductive Ends (size upTo : ℕ) : ℤ → UInt64 → UInt64 → Prop where
  | stop {n : ℤ} {lower : UInt64} (hhalf : n.tdiv 2 = 0) : Ends size upTo n lower lower
  | step {n : ℤ} {lower l : UInt64} (hhalf : n.tdiv 2 ≠ 0)
      (hmiddle : (lower + UInt64.ofInt (n.tdiv 2)).toNat < size)
      (hrest : Ends size upTo (n - n.tdiv 2)
        (if (lower + UInt64.ofInt (n.tdiv 2)).toNat < upTo then lower + UInt64.ofInt (n.tdiv 2)
          else lower) l) :
      Ends size upTo n lower l

theorem natAbs_sub_half (n : ℤ) : (n - n.tdiv 2).natAbs = n.natAbs - n.natAbs / 2 := by
  obtain ⟨m, rfl | rfl⟩ := Int.eq_nat_or_neg n
  · have hhalf : (m : ℤ).tdiv 2 = ((m / 2 : ℕ) : ℤ) := rfl
    rw [hhalf]
    omega
  · have hhalf : (-(m : ℤ)).tdiv 2 = -((m / 2 : ℕ) : ℤ) := by rw [Int.neg_tdiv]; rfl
    rw [hhalf]
    omega

theorem half_eq_zero {n : ℤ} (h : n.natAbs ≤ 1) : n.tdiv 2 = 0 := by
  obtain ⟨m, rfl | rfl⟩ := Int.eq_nat_or_neg n
  · have hhalf : (m : ℤ).tdiv 2 = ((m / 2 : ℕ) : ℤ) := rfl
    rw [hhalf]
    omega
  · have hhalf : (-(m : ℤ)).tdiv 2 = -((m / 2 : ℕ) : ℤ) := by rw [Int.neg_tdiv]; rfl
    rw [hhalf]
    omega

/-- The search of the code ends where the arithmetic says. -/
theorem branchFree_iff {keys : List UInt32} (hsorted : keys.Pairwise (· ≤ ·)) (key : UInt32)
    {bits fuel : ℕ} (hfuel : bits < fuel) {n : ℤ} (hn : n.natAbs ≤ 2 ^ bits) (lower l : UInt64) :
    branchFree keys key fuel n lower = .ok l ↔ Ends keys.length (upTo keys key) n lower l := by
  induction fuel generalizing bits n lower with
  | zero => cases hfuel
  | succ fuel ih =>
    rw [branchFree]
    by_cases hhalf : n.tdiv 2 = 0
    · rw [if_pos hhalf, Except.ok.injEq]
      constructor
      · rintro rfl
        exact .stop hhalf
      · rintro (- | ⟨hne, -, -⟩)
        · rfl
        · exact absurd hhalf hne
    · rw [if_neg hhalf]
      cases hread : keys[(lower + UInt64.ofInt (n.tdiv 2)).toNat]? with
      | none =>
        have hge := List.getElem?_eq_none_iff.mp hread
        simp only [hread]
        constructor
        · intro h; cases h
        · rintro (hstop | ⟨-, hmiddle, -⟩)
          · exact absurd hstop hhalf
          · omega
      | some x =>
        obtain ⟨bits, rfl⟩ : ∃ b, bits = b + 1 := by
          cases bits with
          | zero => exact absurd (half_eq_zero hn) hhalf
          | succ b => exact ⟨b, rfl⟩
        have hn' : (n - n.tdiv 2).natAbs ≤ 2 ^ bits := by
          rw [natAbs_sub_half]
          rw [Nat.pow_succ] at hn
          omega
        have hlt := (List.getElem?_eq_some_iff.mp hread).1
        simp only [hread, le_iff_lt_upTo hsorted hread]
        rw [ih (Nat.lt_of_succ_lt_succ hfuel) hn']
        constructor
        · intro h
          exact .step hhalf hlt h
        · rintro (hstop | ⟨-, -, hrest⟩)
          · exact absurd hstop hhalf
          · exact hrest

/-- Where the search must end for the scans to find all of the equal keys. -/
def Lands (keys : List UInt32) (key : UInt32) (l : ℕ) : Prop :=
  (below keys key < l ∧ l ≤ upTo keys key) ∨
    (l < keys.length ∧ (key ∈ keys → l = below keys key))

theorem lands_of_le {keys : List UInt32} {key : UInt32} {l : ℕ} (hl : l < keys.length)
    (h : key ∈ keys → below keys key ≤ l ∧ l ≤ upTo keys key) : Lands keys key l := by
  by_cases hcond : below keys key < l ∧ l ≤ upTo keys key
  · exact .inl hcond
  · refine .inr ⟨hl, fun hmem => ?_⟩
    have hle := h hmem
    omega

section Extend
variable {keys : List UInt32} {key : UInt32}

/-- The scan back has come to the first of the equal keys. -/
theorem extend_at_first (hsorted : keys.Pairwise (· ≤ ·)) {l : ℕ} (hlands : Lands keys key l)
    (hlt : below keys key < upTo keys key)
    (hscroll : scrollBack keys key l = .ok (below keys key)) (matches' : UInt64) :
    Adds (extend keys key l matches') matches' (keys.countP (· = key))
      (Lands keys key l ∧ (key ∈ keys → RunEnds keys key)) := by
  have hmem := (below_lt_upTo_iff keys key).mp hlt
  have hread := getElem?_eq_key hsorted (Nat.le_refl _) hlt
  have hextend : extend keys key l matches'
      = countRun keys key (keys.length + 1) (UInt32.ofNat (below keys key)) matches' := by
    rw [extend, hscroll]
    simp only [hread, if_true]
  rw [hextend, and_iff_right hlands, imp_iff_right hmem]
  exact countRun_cases hsorted hlt matches'

/-- The scan back has stopped at another key. -/
theorem extend_at_other (hsorted : keys.Pairwise (· ≤ ·)) {l : ℕ} {x : UInt32}
    (hnext : ¬ (below keys key < l ∧ l ≤ upTo keys key)) (hscroll : scrollBack keys key l = .ok l)
    (hread : keys[l]? = some x) (hx : x ≠ key) (matches' : UInt64) :
    Adds (extend keys key l matches') matches' (keys.countP (· = key))
      (Lands keys key l ∧ (key ∈ keys → RunEnds keys key)) := by
  have hextend : extend keys key l matches' = .ok (matches' + UInt64.ofNat 0) := by
    rw [extend, hscroll]
    simp [hread, hx]
  by_cases hmem : key ∈ keys
  · have hpos : below keys key < upTo keys key := (below_lt_upTo_iff keys key).mpr hmem
    have hbad : ¬ (Lands keys key l ∧ (key ∈ keys → RunEnds keys key)) := by
      rintro ⟨hcond | ⟨-, heq⟩, -⟩
      · exact hnext hcond
      · have hl := heq hmem
        exact hx ((eq_iff hsorted hread).mpr ⟨by omega, by omega⟩)
    have hsum := below_add_countP keys key
    exact .less hbad (by omega) hextend
  · have hzero : keys.countP (· = key) = 0 := by
      rw [List.countP_eq_zero]
      intro a ha heq
      exact hmem (of_decide_eq_true heq ▸ ha)
    have hlt := (List.getElem?_eq_some_iff.mp hread).1
    exact .all ⟨.inr ⟨hlt, fun h => absurd h hmem⟩, fun h => absurd h hmem⟩ (by rw [hextend, hzero])

/-- The scans count all equal keys exactly if the search has ended next to one of them and the scan
    over them stops well, or there are none. -/
theorem extend_cases (hsorted : keys.Pairwise (· ≤ ·)) (l : ℕ) (matches' : UInt64) :
    Adds (extend keys key l matches') matches' (keys.countP (· = key))
      (Lands keys key l ∧ (key ∈ keys → RunEnds keys key)) := by
  have hlen := upTo_le_length keys key
  rcases Nat.lt_or_ge keys.length l with hout | hle
  · have hbad : ¬ (Lands keys key l ∧ (key ∈ keys → RunEnds keys key)) := by
      rintro ⟨⟨-, hle⟩ | ⟨hlt, -⟩, -⟩
      · omega
      · omega
    obtain ⟨l, rfl⟩ : ∃ j, l = j + 1 := ⟨l - 1, by omega⟩
    have hread : keys[l]? = none := List.getElem?_eq_none (by omega)
    exact .fails hbad (by rw [extend, scrollBack, hread])
  have hscroll : scrollBack keys key l = _ := scrollBack_eq hsorted hle
  by_cases hnext : below keys key < l ∧ l ≤ upTo keys key
  · rw [if_pos hnext] at hscroll
    exact extend_at_first hsorted (.inl hnext) (by omega) hscroll matches'
  rw [if_neg hnext] at hscroll
  cases hread : keys[l]? with
  | none =>
    have hge := List.getElem?_eq_none_iff.mp hread
    have hbad : ¬ (Lands keys key l ∧ (key ∈ keys → RunEnds keys key)) := by
      rintro ⟨hcond | ⟨hlt, -⟩, -⟩
      · exact hnext hcond
      · omega
    refine .fails (e := .outOfBounds) hbad ?_
    rw [extend, hscroll]
    simp only [hread]
  | some x =>
    have hiff : x = key ↔ _ := eq_iff hsorted hread
    by_cases hx : x = key
    · obtain ⟨hge, hupTo⟩ := hiff.mp hx
      have hl : l = below keys key := by omega
      have hlands : Lands keys key l := .inr ⟨(List.getElem?_eq_some_iff.mp hread).1, fun _ => hl⟩
      exact extend_at_first hsorted hlands (by omega) (by rw [hscroll, hl]) matches'
    · exact extend_at_other hsorted hnext hscroll hread hx matches'

end Extend

/-! ### Windows -/

/-- The first positions of the halving of a window of `n` entries. -/
def halves (n : ℕ) : List ℕ := if 2 ≤ n then n / 2 :: halves (n - n / 2) else []
termination_by n
decreasing_by omega

theorem halves_of_le {n : ℕ} (h : 2 ≤ n) : halves n = n / 2 :: halves (n - n / 2) := by
  rw [halves, if_pos h]

theorem halves_of_lt {n : ℕ} (h : n < 2) : halves n = [] := by
  rw [halves, if_neg (by omega)]

theorem le_of_mem_halves {n half : ℕ} (h : half ∈ halves n) : half ≤ n / 2 := by
  induction n using Nat.strong_induction_on with
  | _ n ih =>
    rcases Nat.lt_or_ge n 2 with hlt | hge
    · rw [halves_of_lt hlt] at h
      cases h
    · rw [halves_of_le hge, List.mem_cons] at h
      rcases h with rfl | h
      · exact Nat.le_refl _
      · have hle := ih (n - n / 2) (by omega) h
        omega

theorem tdiv_natCast (n : ℕ) : (n : ℤ).tdiv 2 = ((n / 2 : ℕ) : ℤ) := rfl

theorem ofInt_natCast (n : ℕ) : UInt64.ofInt (n : ℤ) = UInt64.ofNat n := by
  rw [UInt64.ofInt]
  apply UInt64.toNat_inj.mp
  rw [UInt64.toNat_ofNat', UInt64.toNat_ofNat']
  omega

theorem toNat_add_half (lower : UInt64) (half : ℕ) {size : ℕ} (h : lower.toNat + half < size)
    (hsize : size ≤ 2 ^ 63) : (lower + UInt64.ofNat half).toNat = lower.toNat + half := by
  rw [UInt64.toNat_add, UInt64.toNat_ofNat']
  omega

/-- One step in a window of `n` entries. -/
theorem ends_natCast_iff {size upTo n : ℕ} {lower l : UInt64} (hn : 2 ≤ n) :
    Ends size upTo n lower l ↔ (lower + UInt64.ofNat (n / 2)).toNat < size ∧
      Ends size upTo (n - n / 2 : ℕ) (if (lower + UInt64.ofNat (n / 2)).toNat < upTo then
        lower + UInt64.ofNat (n / 2) else lower) l := by
  have hne : (n : ℤ).tdiv 2 ≠ 0 := by rw [tdiv_natCast]; omega
  have hsub : ((n - n / 2 : ℕ) : ℤ) = (n : ℤ) - (n : ℤ).tdiv 2 := by rw [tdiv_natCast]; omega
  rw [hsub, ← ofInt_natCast, ← tdiv_natCast]
  constructor
  · rintro (hstop | ⟨-, hmiddle, hrest⟩)
    · exact absurd hstop hne
    · exact ⟨hmiddle, hrest⟩
  · rintro ⟨hmiddle, hrest⟩
    exact .step hne hmiddle hrest

/-- A search in a window inside the array ends there, and among the entries from `first` to `upTo` if
    the window has one of them. -/
theorem ends_of_window {size first upTo n : ℕ} (lower : UInt64) (hn : 1 ≤ n)
    (hsize : size ≤ 2 ^ 63) (hin : lower.toNat + n ≤ size)
    (htarget : first < upTo → lower.toNat ≤ upTo ∧ first < lower.toNat + n) :
    ∃ l, Ends size upTo n lower l ∧ l.toNat < size ∧
      (first < upTo → first ≤ l.toNat ∧ l.toNat ≤ upTo) := by
  induction n using Nat.strong_induction_on generalizing lower with
  | _ n ih =>
    rcases Nat.lt_or_ge n 2 with hlt | hge
    · obtain rfl : n = 1 := by omega
      refine ⟨lower, .stop (by decide), by omega, ?_⟩
      intro h
      have hle := htarget h
      omega
    · have hmiddle := toNat_add_half lower (n / 2) (by omega) hsize
      by_cases hmove : (lower + UInt64.ofNat (n / 2)).toNat < upTo
      · obtain ⟨l, hends, hl⟩ := ih (n - n / 2) (by omega) (lower + UInt64.ofNat (n / 2))
          (by omega) (by omega) (by omega)
        exact ⟨l, (ends_natCast_iff hge).mpr ⟨by omega, by rw [if_pos hmove]; exact hends⟩, hl⟩
      · obtain ⟨l, hends, hl⟩ := ih (n - n / 2) (by omega) lower (by omega) (by omega) (by omega)
        exact ⟨l, (ends_natCast_iff hge).mpr ⟨by omega, by rw [if_neg hmove]; exact hends⟩, hl⟩

/-- From a position in the array on, with the key's entries still in the window, a search ends well. -/
theorem exists_lands_of_window {keys : List UInt32} {key : UInt32} {n : ℕ} {lower : UInt64}
    (hsize : keys.length ≤ 2 ^ 63) (hn : 1 ≤ n) (hin : lower.toNat + n ≤ keys.length)
    (hle : lower.toNat ≤ upTo keys key) (hkey : key ∈ keys → below keys key < lower.toNat + n) :
    ∃ l, Ends keys.length (upTo keys key) n lower l ∧ Lands keys key l.toNat := by
  have htarget : below keys key < upTo keys key →
      lower.toNat ≤ upTo keys key ∧ below keys key < lower.toNat + n := fun hlt =>
    ⟨hle, hkey ((below_lt_upTo_iff keys key).mp hlt)⟩
  obtain ⟨l, hends, hl, hbetween⟩ := ends_of_window lower hn hsize hin htarget
  exact ⟨l, hends, lands_of_le hl fun hmem => hbetween ((below_lt_upTo_iff keys key).mpr hmem)⟩

/-- A search that starts `d` entries before the array gets into it exactly if it moves before the
    positions of the halving are before the array themselves, and then it ends well. -/
theorem ends_wrapped_iff {keys : List UInt32} {key : UInt32} {n d : ℕ} {lower : UInt64}
    (hsize : keys.length ≤ 2 ^ 63) (hlower : lower.toNat + d = 2 ^ 64) (hpos : 1 ≤ d)
    (hd : d ≤ intMax) (hn : n ≤ keys.length + d) (hkey : key ∈ keys → below keys key + d < n) :
    (∃ l, Ends keys.length (upTo keys key) n lower l ∧ Lands keys key l.toNat) ↔
      ∃ half ∈ halves n, d ≤ half ∧ half - d < upTo keys key := by
  have hlen := upTo_le_length keys key
  have houtside : keys.length < lower.toNat := by
    rw [intMax] at hd
    omega
  induction n using Nat.strong_induction_on with
  | _ n ih =>
    rcases Nat.lt_or_ge n 2 with hlt | hge
    · rw [halves_of_lt hlt]
      have hhalf : (n : ℤ).tdiv 2 = 0 := half_eq_zero (by omega)
      constructor
      · rintro ⟨l, ⟨-⟩ | ⟨hne, -, -⟩, hlands⟩
        · rcases hlands with ⟨-, hle⟩ | ⟨hin, -⟩ <;> omega
        · exact absurd hhalf hne
      · rintro ⟨half, hmem, -⟩
        cases hmem
    simp only [ends_natCast_iff hge]
    rcases Nat.lt_or_ge (n / 2) d with hshort | hreach
    · -- the first position is before the array, and so are all others
      have hmiddle : (lower + UInt64.ofNat (n / 2)).toNat = lower.toNat + n / 2 := by
        rw [UInt64.toNat_add, UInt64.toNat_ofNat']
        omega
      constructor
      · rintro ⟨l, ⟨hin, -⟩, -⟩
        omega
      · rintro ⟨half, hmem, hle, -⟩
        have hhalf := le_of_mem_halves hmem
        omega
    have hmiddle : (lower + UInt64.ofNat (n / 2)).toNat = n / 2 - d := by
      rw [UInt64.toNat_add, UInt64.toNat_ofNat']
      omega
    have hin : (lower + UInt64.ofNat (n / 2)).toNat < keys.length := by omega
    simp only [hin, true_and]
    rw [halves_of_le hge]
    simp only [List.mem_cons, exists_eq_or_imp, hreach, true_and]
    by_cases hmove : (lower + UInt64.ofNat (n / 2)).toNat < upTo keys key
    · rw [if_pos hmove]
      refine iff_of_true ?_ (.inl (by omega))
      refine exists_lands_of_window hsize (by omega) (by omega) hmove.le fun hmem => ?_
      have hbelow := hkey hmem
      omega
    · rw [if_neg hmove]
      have hkey' : key ∈ keys → below keys key + d < n - n / 2 := by
        intro hmem
        have hlt := (below_lt_upTo_iff keys key).mpr hmem
        omega
      refine (ih (n - n / 2) (by omega) (by omega) hkey').trans ?_
      constructor
      · intro h; exact .inr h
      · rintro (h | h)
        · omega
        · exact h

end Inlj
end HashingBenchmark

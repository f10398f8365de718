import Mathlib.Data.Nat.Basic
import Mathlib.Logic.Function.Basic

/-! Radix tries that keep the key of a leaf outside of the tree.

    A key is a function from positions to letters, of which the first `L` positions count. An inner
    node at depth `d` has a compressed path for the positions from `d` up to `stop`, and a child for
    each letter at `stop`. A leaf holds a value, and its key is fetched with `load` when the leaf is
    split (`insert`). So a tree built with a `load` that does not know the keys may have leaves where
    their keys do not lead.

    `reach` follows a key. What an insert does to it is said once for any `load`
    (`reach_of_insert`): the new leaf apart, a key is led to what it was led to before, deeper only if
    `load` knew the letters in between, or to nothing. -/

inductive RadixTrie (β V : Type*) where
  | null
  | leaf (v : V)
  | inner (stop : ℕ) (path : ℕ → β) (child : β → RadixTrie β V)

namespace RadixTrie
variable {β V : Type*}

/-- Two keys have the same letters from position `d` up to `e`. -/
def Agree (k k' : ℕ → β) (d e : ℕ) : Prop := ∀ i, d ≤ i → i < e → k i = k' i

theorem Agree.symm {k k' : ℕ → β} {d e : ℕ} (h : Agree k k' d e) : Agree k' k d e :=
  fun i hd he => (h i hd he).symm

theorem Agree.trans {k k' k'' : ℕ → β} {d e : ℕ} (h : Agree k k' d e) (h' : Agree k' k'' d e) :
    Agree k k'' d e := fun i hd he => (h i hd he).trans (h' i hd he)

theorem Agree.mono {k k' : ℕ → β} {d e d' e' : ℕ} (h : Agree k k' d e) (hd : d ≤ d') (he : e' ≤ e) :
    Agree k k' d' e' := fun i hi hi' => h i (le_trans hd hi) (lt_of_lt_of_le hi' he)

/-- Agreement up to a position, at the position and behind it. -/
theorem Agree.append {k k' : ℕ → β} {d m e : ℕ} (h : Agree k k' d m) (hm : k m = k' m)
    (h' : Agree k k' (m + 1) e) : Agree k k' d e := by
  intro i hd he
  rcases Nat.lt_trichotomy i m with hlt | rfl | hgt
  · exact h i hd hlt
  · exact hm
  · exact h' i hgt he

variable [DecidableEq β]

/-- The first of the `n` positions from `d` on at which two keys differ. -/
def firstDiff (k k' : ℕ → β) : ℕ → ℕ → Option ℕ
  | 0, _ => none
  | n + 1, d => if k d = k' d then firstDiff k k' n (d + 1) else some d

theorem firstDiff_cases (k k' : ℕ → β) (n d : ℕ) :
    (∃ m, d ≤ m ∧ m < d + n ∧ k m ≠ k' m ∧ Agree k k' d m ∧ firstDiff k k' n d = some m) ∨
    (Agree k k' d (d + n) ∧ firstDiff k k' n d = none) := by
  induction n generalizing d with
  | zero => exact Or.inr ⟨fun i hi hi' => by omega, rfl⟩
  | succ n ih =>
    rw [firstDiff]
    by_cases heq : k d = k' d
    · have hempty : Agree k k' d d := fun i hi hi' => by omega
      rw [if_pos heq]
      rcases ih (d + 1) with ⟨m, hle, hlt, hne, hagree, hfirst⟩ | ⟨hagree, hnone⟩
      · exact Or.inl ⟨m, by omega, by omega, hne, hempty.append heq hagree, hfirst⟩
      · exact Or.inr ⟨hempty.append heq (hagree.mono (le_refl _) (by omega)), hnone⟩
    · rw [if_neg heq]
      exact Or.inl ⟨d, le_refl d, by omega, heq, fun i hi hi' => by omega, rfl⟩

/-- A node with two children. -/
def fork (b : β) (t : RadixTrie β V) (c : β) (u : RadixTrie β V) : β → RadixTrie β V :=
  Function.update (Function.update (fun _ => null) b t) c u

@[simp] theorem fork_right (b : β) (t : RadixTrie β V) (c : β) (u : RadixTrie β V) :
    fork b t c u c = u := Function.update_self ..

theorem fork_left {b c : β} (h : b ≠ c) (t u : RadixTrie β V) : fork b t c u b = t := by
  rw [fork, Function.update_of_ne h, Function.update_self]

theorem fork_other {a b c : β} (hb : a ≠ b) (hc : a ≠ c) (t u : RadixTrie β V) :
    fork b t c u a = null := by
  rw [fork, Function.update_of_ne hc, Function.update_of_ne hb]

/-- What holds of every child of a node with two children. -/
theorem forall_fork {P : β → RadixTrie β V → Prop} {b c : β} (h : b ≠ c) {t u : RadixTrie β V}
    (ht : P b t) (hu : P c u) (hnull : ∀ a, P a null) (a : β) : P a (fork b t c u a) := by
  refine (Function.forall_update_iff _ P).mpr ⟨hu, fun a hc => ?_⟩ a
  rcases eq_or_ne a b with rfl | hb
  · rw [Function.update_self]; exact ht
  · rw [Function.update_of_ne hb]; exact hnull a

/-- The leaf that a key leads to from depth `d`, with the depth of the leaf. -/
def reach (q : ℕ → β) : ℕ → RadixTrie β V → Option (V × ℕ)
  | _, null => none
  | d, leaf v => some (v, d)
  | d, inner stop path child =>
    match firstDiff path q (stop - d) d with
    | some _ => none
    | none => reach q (stop + 1) (child (q stop))

/-- Insert a value below depth `d`. A leaf on the way is split where its key, as `load` has it,
    differs from the new one; without such a position, or without a key, the insert fails. -/
def insert (load : V → Option (ℕ → β)) (L : ℕ) (key : ℕ → β) (v : V) :
    ℕ → RadixTrie β V → Option (RadixTrie β V)
  | _, null => some (leaf v)
  | d, leaf w =>
    match load w with
    | none => none
    | some e =>
      match firstDiff e key (L - d) d with
      | none => none
      | some m => some (inner m key (fork (e m) (leaf w) (key m) (leaf v)))
  | d, inner stop path child =>
    match firstDiff path key (stop - d) d with
    | some m => some (inner m path (fork (path m) (inner stop path child) (key m) (leaf v)))
    | none =>
      match insert load L key v (stop + 1) (child (key stop)) with
      | none => none
      | some t => some (inner stop path (Function.update child (key stop) t))

/-- A value at a leaf. -/
def Mem (w : V) : RadixTrie β V → Prop
  | null => False
  | leaf v => v = w
  | inner _ _ child => ∃ c, Mem w (child c)

/-- Every node of a tree at depth `d` branches before position `L` and has a leaf below it. -/
def Fits (L : ℕ) : ℕ → RadixTrie β V → Prop
  | _, null => True
  | d, leaf _ => d ≤ L
  | d, inner stop path child => d ≤ stop ∧ stop < L ∧ (∃ w, Mem w (inner stop path child)) ∧
      ∀ c, Fits L (stop + 1) (child c)

/-- Every leaf of a tree at depth `d` is where its key leads. -/
def Right (keyOf : V → ℕ → β) : ℕ → RadixTrie β V → Prop
  | _, null => True
  | _, leaf _ => True
  | d, inner stop path child => ∀ c, Right keyOf (stop + 1) (child c) ∧
      ∀ w, Mem w (child c) → Agree path (keyOf w) d stop ∧ keyOf w stop = c

/-! ### Following a key -/

section Reach
variable {q : ℕ → β} {d stop : ℕ} {path : ℕ → β} {child : β → RadixTrie β V} {w : V} {f : ℕ}

theorem reach_inner (h : Agree path q d stop) :
    reach q d (inner stop path child) = reach q (stop + 1) (child (q stop)) := by
  rw [reach]
  rcases firstDiff_cases path q (stop - d) d with ⟨m, hle, hlt, hne, -, -⟩ | ⟨-, hnone⟩
  · exact absurd (h m hle (by omega)) hne
  · rw [hnone]

theorem agree_of_reach (hd : d ≤ stop) (h : reach q d (inner stop path child) = some (w, f)) :
    Agree path q d stop := by
  rw [reach] at h
  rcases firstDiff_cases path q (stop - d) d with ⟨m, -, -, -, -, hsome⟩ | ⟨hagree, -⟩
  · rw [hsome] at h; cases h
  · exact hagree.mono (le_refl d) (by omega)

theorem mem_of_reach {t : RadixTrie β V} (h : reach q d t = some (w, f)) : Mem w t := by
  induction t generalizing d with
  | null => cases h
  | leaf v =>
    rw [reach, Option.some.injEq] at h
    exact congrArg Prod.fst h
  | inner stop path child ih =>
    rw [reach] at h
    split at h
    · cases h
    · exact ⟨_, ih _ h⟩

theorem le_of_reach {L : ℕ} {t : RadixTrie β V} (hfits : Fits L d t)
    (h : reach q d t = some (w, f)) : d ≤ f ∧ f ≤ L := by
  induction t generalizing d with
  | null => cases h
  | leaf v =>
    rw [reach, Option.some.injEq] at h
    obtain rfl : d = f := congrArg Prod.snd h
    exact ⟨le_refl d, hfits⟩
  | inner stop path child ih =>
    obtain ⟨hd, -, -, hchild⟩ := hfits
    rw [reach_inner (agree_of_reach hd h)] at h
    have := ih _ (hchild _) h
    omega

/-- Only the letters before the leaf decide which leaf a key leads to. -/
theorem reach_congr {L : ℕ} {q' : ℕ → β} {t : RadixTrie β V} (hfits : Fits L d t)
    (h : reach q d t = some (w, f)) (hagree : Agree q q' d f) : reach q' d t = some (w, f) := by
  induction t generalizing d with
  | null => cases h
  | leaf v => exact h
  | inner stop path child ih =>
    obtain ⟨hd, -, -, hchild⟩ := hfits
    have hpath := agree_of_reach hd h
    rw [reach_inner hpath] at h
    have hf := (le_of_reach (hchild _) h).1
    have hstop : q stop = q' stop := hagree stop hd (by omega)
    rw [reach_inner (hpath.trans (hagree.mono (le_refl d) (by omega))), ← hstop]
    exact ih _ (hchild _) h (hagree.mono (by omega) (le_refl f))

variable {keyOf : V → ℕ → β}

theorem Right.exists_reach {t : RadixTrie β V} (h : Right keyOf d t) (hw : Mem w t) :
    ∃ f, reach (keyOf w) d t = some (w, f) := by
  induction t generalizing d with
  | null => exact hw.elim
  | leaf v =>
    obtain rfl : v = w := hw
    exact ⟨d, rfl⟩
  | inner stop path child ih =>
    obtain ⟨c, hc⟩ := hw
    obtain ⟨hpath, hstop⟩ := (h c).2 w hc
    rw [reach_inner hpath, hstop]
    exact ih c (h c).1 hc

/-- A leaf that some key leads to is where its own key leads. -/
theorem Right.reach_keyOf {L : ℕ} {t : RadixTrie β V} (h : Right keyOf d t) (hfits : Fits L d t)
    (hq : reach q d t = some (w, f)) : reach (keyOf w) d t = some (w, f) := by
  induction t generalizing d with
  | null => cases hq
  | leaf v => exact hq
  | inner stop path child ih =>
    obtain ⟨hd, -, -, hchild⟩ := hfits
    rw [reach_inner (agree_of_reach hd hq)] at hq
    obtain ⟨hpath, hstop⟩ := (h (q stop)).2 w (mem_of_reach hq)
    rw [reach_inner hpath, hstop]
    exact ih _ (h _).1 (hchild _) hq

end Reach

/-! ### One insert -/

section Insert
variable {load : V → Option (ℕ → β)} {L : ℕ} {key : ℕ → β} {v : V} {d : ℕ}

/-- What an insert into a leaf does. -/
theorem insert_leaf {w : V} {t' : RadixTrie β V} (h : insert load L key v d (leaf w) = some t') :
    ∃ e m, load w = some e ∧ d ≤ m ∧ m < L ∧ e m ≠ key m ∧ Agree e key d m ∧
      t' = inner m key (fork (e m) (leaf w) (key m) (leaf v)) := by
  rw [insert] at h
  cases hload : load w with
  | none => rw [hload] at h; cases h
  | some e =>
    simp only [hload] at h
    rcases firstDiff_cases e key (L - d) d with ⟨m, hle, hlt, hne, hagree, hfirst⟩ | ⟨-, hnone⟩
    · rw [hfirst, Option.some.injEq] at h
      exact ⟨e, m, rfl, hle, by omega, hne, hagree, h.symm⟩
    · rw [hnone] at h; cases h

/-- What an insert into an inner node does: it splits the path, or goes on below. -/
theorem insert_inner {stop : ℕ} {path : ℕ → β} {child : β → RadixTrie β V}
    (hd : d ≤ stop) (t' : Option (RadixTrie β V))
    (h : insert load L key v d (inner stop path child) = t') :
    (∃ m, d ≤ m ∧ m < stop ∧ path m ≠ key m ∧ Agree path key d m ∧
      t' = some (inner m path (fork (path m) (inner stop path child) (key m) (leaf v)))) ∨
    (Agree path key d stop ∧ t' = (insert load L key v (stop + 1) (child (key stop))).map
      fun t => inner stop path (Function.update child (key stop) t)) := by
  rw [insert] at h
  rcases firstDiff_cases path key (stop - d) d with ⟨m, hle, hlt, hne, hagree, hfirst⟩ | ⟨hagree, hnone⟩
  · rw [hfirst] at h
    exact Or.inl ⟨m, hle, by omega, hne, hagree, h.symm⟩
  · rw [hnone] at h
    refine Or.inr ⟨hagree.mono (le_refl d) (by omega), ?_⟩
    rw [← h]
    cases insert load L key v (stop + 1) (child (key stop)) <;> rfl

/-- The leaves below a node with two children. -/
theorem mem_fork {w : V} {stop : ℕ} {path : ℕ → β} {b c : β} (h : b ≠ c) {t u : RadixTrie β V} :
    Mem w (inner stop path (fork b t c u)) ↔ Mem w t ∨ Mem w u := by
  constructor
  · rintro ⟨a, ha⟩
    exact forall_fork (P := fun _ x => Mem w x → Mem w t ∨ Mem w u) h Or.inl Or.inr
      (fun _ => False.elim) a ha
  · rintro (ht | hu)
    · exact ⟨b, by rw [fork_left h]; exact ht⟩
    · exact ⟨c, by rw [fork_right]; exact hu⟩

/-- An insert adds its value to the leaves. -/
theorem mem_insert {t t' : RadixTrie β V} (hfits : Fits L d t)
    (h : insert load L key v d t = some t') (w : V) : Mem w t' ↔ Mem w t ∨ v = w := by
  induction t generalizing d t' with
  | null =>
    obtain rfl : leaf v = t' := Option.some.inj h
    simp [Mem]
  | leaf x =>
    obtain ⟨e, m, -, -, -, hne, -, rfl⟩ := insert_leaf h
    exact mem_fork hne
  | inner stop path child ih =>
    obtain ⟨hd, -, -, hchild⟩ := hfits
    rcases insert_inner hd _ h with ⟨m, -, -, hne, -, heq⟩ | ⟨-, heq⟩
    · obtain rfl := Option.some.inj heq
      exact mem_fork hne
    · obtain ⟨u, hu, rfl⟩ := Option.map_eq_some_iff.mp heq.symm
      have hmem := ih _ (hchild _) hu
      constructor
      · rintro ⟨c, hc⟩
        rcases eq_or_ne c (key stop) with rfl | hne
        · rw [Function.update_self, hmem] at hc
          exact hc.imp_left fun hw => ⟨_, hw⟩
        · rw [Function.update_of_ne hne] at hc
          exact Or.inl ⟨c, hc⟩
      · rintro (⟨c, hc⟩ | hv)
        · rcases eq_or_ne c (key stop) with rfl | hne
          · exact ⟨key stop, by rw [Function.update_self]; exact hmem.mpr (Or.inl hc)⟩
          · exact ⟨c, by rw [Function.update_of_ne hne]; exact hc⟩
        · exact ⟨key stop, by rw [Function.update_self]; exact hmem.mpr (Or.inr hv)⟩

/-- Step lemma: an insert keeps the tree within `L` positions. -/
theorem Fits.insert {t t' : RadixTrie β V} (hfits : Fits L d t) (hL : d ≤ L)
    (h : insert load L key v d t = some t') : Fits L d t' := by
  have hmem : Mem v t' := (mem_insert hfits h v).mpr (Or.inr rfl)
  induction t generalizing d t' with
  | null =>
    obtain rfl : leaf v = t' := Option.some.inj h
    exact hL
  | leaf x =>
    obtain ⟨e, m, -, hle, hlt, hne, -, rfl⟩ := insert_leaf h
    exact ⟨hle, hlt, ⟨v, hmem⟩, forall_fork hne hlt hlt fun _ => trivial⟩
  | inner stop path child ih =>
    obtain ⟨hd, hstop, hsome, hchild⟩ := hfits
    rcases insert_inner hd _ h with ⟨m, hle, hlt, hne, -, heq⟩ | ⟨-, heq⟩
    · obtain rfl := Option.some.inj heq
      have hmL : m + 1 ≤ L := by omega
      exact ⟨hle, hmL, ⟨v, hmem⟩,
        forall_fork hne ⟨hlt, hstop, hsome, hchild⟩ hmL fun _ => trivial⟩
    · obtain ⟨u, hu, rfl⟩ := Option.map_eq_some_iff.mp heq.symm
      have hbelow : Fits L (stop + 1) u :=
        ih _ (hchild _) hstop hu ((mem_insert (hchild _) hu v).mpr (Or.inr rfl))
      exact ⟨hd, hstop, ⟨v, hmem⟩,
        (Function.forall_update_iff _ fun _ x => Fits L (stop + 1) x).mpr
          ⟨hbelow, fun c _ => hchild c⟩⟩

/-- What a key leads to after an insert, the new leaf apart, it led to before, and `load` knew the
    letters that the leaf went down by. -/
theorem reach_of_insert {t t' : RadixTrie β V} (hfits : Fits L d t)
    (h : insert load L key v d t = some t') {q : ℕ → β} {w : V} {f : ℕ} (hw : v ≠ w)
    (hq : reach q d t' = some (w, f)) :
    ∃ g ≤ f, reach q d t = some (w, g) ∧ (g < f → ∃ e, load w = some e ∧ Agree e q g f) := by
  induction t generalizing d t' with
  | null =>
    obtain rfl : leaf v = t' := Option.some.inj h
    rw [reach, Option.some.injEq, Prod.mk.injEq] at hq
    exact absurd hq.1 hw
  | leaf x =>
    obtain ⟨e, m, hload, hle, hlt, hne, hagree, rfl⟩ := insert_leaf h
    have hpath := agree_of_reach hle hq
    rw [reach_inner hpath] at hq
    rcases eq_or_ne (q m) (key m) with hkey | hkey
    · rw [hkey, fork_right, reach, Option.some.injEq, Prod.mk.injEq] at hq
      exact absurd hq.1 hw
    · rcases eq_or_ne (q m) (e m) with hold | hold
      · rw [hold, fork_left hne, reach, Option.some.injEq, Prod.mk.injEq] at hq
        obtain ⟨rfl, rfl⟩ := hq
        have hempty : Agree e q (m + 1) (m + 1) := fun i hi hi' => by omega
        exact ⟨d, by omega, rfl, fun _ => ⟨e, hload, (hagree.trans hpath).append hold.symm hempty⟩⟩
      · rw [fork_other hold hkey] at hq; cases hq
  | inner stop path child ih =>
    obtain ⟨hd, hstop, hsome, hchild⟩ := hfits
    rcases insert_inner hd _ h with ⟨m, hle, hlt, hne, -, heq⟩ | ⟨hagree, heq⟩
    · obtain rfl := Option.some.inj heq
      have hpath := agree_of_reach hle hq
      rw [reach_inner hpath] at hq
      rcases eq_or_ne (q m) (key m) with hkey | hkey
      · rw [hkey, fork_right, reach, Option.some.injEq, Prod.mk.injEq] at hq
        exact absurd hq.1 hw
      · rcases eq_or_ne (q m) (path m) with hold | hold
        · -- the node is where it was, only its path is cut
          rw [hold, fork_left hne] at hq
          have hrest := agree_of_reach (by omega) hq
          rw [reach_inner hrest] at hq
          refine ⟨f, le_refl f, ?_, fun hlt => absurd hlt (lt_irrefl f)⟩
          rw [reach_inner (hpath.append hold.symm hrest)]
          exact hq
        · rw [fork_other hold hkey] at hq; cases hq
    · obtain ⟨u, hu, rfl⟩ := Option.map_eq_some_iff.mp heq.symm
      have hpath := agree_of_reach hd hq
      rw [reach_inner hpath] at hq ⊢
      rcases eq_or_ne (q stop) (key stop) with hkey | hkey
      · rw [hkey] at hq ⊢
        rw [Function.update_self] at hq
        exact ih _ (hchild _) hu hq
      · rw [Function.update_of_ne hkey] at hq
        exact ⟨f, le_refl f, hq, fun hlt => absurd hlt (lt_irrefl f)⟩

/-- The new key leads to the new leaf. -/
theorem reach_insert_self {t t' : RadixTrie β V} (hfits : Fits L d t)
    (h : insert load L key v d t = some t') : ∃ f, reach key d t' = some (v, f) := by
  induction t generalizing d t' with
  | null =>
    obtain rfl : leaf v = t' := Option.some.inj h
    exact ⟨d, rfl⟩
  | leaf x =>
    obtain ⟨e, m, -, -, -, -, -, rfl⟩ := insert_leaf h
    rw [reach_inner fun _ _ _ => rfl, fork_right]
    exact ⟨m + 1, rfl⟩
  | inner stop path child ih =>
    obtain ⟨hd, -, -, hchild⟩ := hfits
    rcases insert_inner hd _ h with ⟨m, -, -, -, hagree, heq⟩ | ⟨hagree, heq⟩
    · obtain rfl := Option.some.inj heq
      rw [reach_inner hagree, fork_right]
      exact ⟨m + 1, rfl⟩
    · obtain ⟨u, hu, rfl⟩ := Option.map_eq_some_iff.mp heq.symm
      rw [reach_inner hagree, Function.update_self]
      exact ih _ (hchild _) hu

end Insert

/-! ### Trees with every leaf where its key leads -/

section Right
variable {load : V → Option (ℕ → β)} {L : ℕ} {keyOf : V → ℕ → β} {v : V} {d : ℕ}

/-- Step lemma: an insert that leaves every leaf where its key leads. -/
theorem Right.insert {t t' : RadixTrie β V} (hright : Right keyOf d t) (hfits : Fits L d t)
    (h : insert load L (keyOf v) v d t = some t') (hnew : ¬ Mem v t)
    (hfound : ∀ w, Mem w t → ∃ f, reach (keyOf w) d t' = some (w, f)) : Right keyOf d t' := by
  induction t generalizing d t' with
  | null =>
    obtain rfl : leaf v = t' := Option.some.inj h
    trivial
  | leaf x =>
    obtain ⟨e, m, -, hle, -, hne, -, rfl⟩ := insert_leaf h
    -- the leaf that was split is found, so the letter it was put under is its own
    have hsplit : Agree (keyOf v) (keyOf x) d m ∧ keyOf x m = e m := by
      obtain ⟨f, hf⟩ := hfound x rfl
      have hpath := agree_of_reach hle hf
      rw [reach_inner hpath] at hf
      refine ⟨hpath, ?_⟩
      by_contra hother
      rcases eq_or_ne (keyOf x m) (keyOf v m) with hsame | hdiff
      · rw [hsame, fork_right, reach, Option.some.injEq, Prod.mk.injEq] at hf
        exact hnew hf.1.symm
      · rw [fork_other hother hdiff] at hf; cases hf
    refine forall_fork (P := fun c x => Right keyOf (m + 1) x ∧
      ∀ w, Mem w x → Agree (keyOf v) (keyOf w) d m ∧ keyOf w m = c) hne ⟨trivial, ?_⟩ ⟨trivial, ?_⟩
      fun _ => ⟨trivial, fun w hw => hw.elim⟩
    · rintro w rfl
      exact hsplit
    · rintro w rfl
      exact ⟨fun _ _ _ => rfl, rfl⟩
  | inner stop path child ih =>
    obtain ⟨hd, -, -, hchild⟩ := hfits
    rcases insert_inner hd _ h with ⟨m, hle, hlt, hne, hagree, heq⟩ | ⟨hagree, heq⟩
    · obtain rfl := Option.some.inj heq
      refine forall_fork (P := fun c x => Right keyOf (m + 1) x ∧
        ∀ w, Mem w x → Agree path (keyOf w) d m ∧ keyOf w m = c) hne
        ⟨fun a => ⟨(hright a).1, fun w hw => ?_⟩, ?_⟩ ⟨trivial, ?_⟩
        fun _ => ⟨trivial, fun w hw => hw.elim⟩
      · obtain ⟨hpath, hstop⟩ := (hright a).2 w hw
        exact ⟨hpath.mono (by omega) (le_refl stop), hstop⟩
      · rintro w ⟨a, hw⟩
        obtain ⟨hpath, -⟩ := (hright a).2 w hw
        exact ⟨hpath.mono (le_refl d) (by omega), (hpath m hle hlt).symm⟩
      · rintro w rfl
        exact ⟨hagree, rfl⟩
    · obtain ⟨u, hu, rfl⟩ := Option.map_eq_some_iff.mp heq.symm
      intro c
      rcases eq_or_ne c (keyOf v stop) with rfl | hne
      · rw [Function.update_self]
        refine ⟨ih _ (hright _).1 (hchild _) hu (fun hmem => hnew ⟨_, hmem⟩) fun w hw => ?_, ?_⟩
        · obtain ⟨f, hf⟩ := hfound w ⟨_, hw⟩
          obtain ⟨hpath, hstop⟩ := (hright _).2 w hw
          rw [reach_inner hpath, hstop, Function.update_self] at hf
          exact ⟨f, hf⟩
        · intro w hw
          rcases (mem_insert (hchild _) hu w).mp hw with hw | rfl
          · exact (hright _).2 w hw
          · exact ⟨hagree, rfl⟩
      · rw [Function.update_of_ne hne]
        exact hright c

/-- Where `load` knows the rest of the key of every leaf, a new key can be inserted, and all leaves
    are still found. -/
theorem Right.exists_insert {t : RadixTrie β V} (hright : Right keyOf d t) (hfits : Fits L d t)
    (hL : d ≤ L)
    (hload : ∀ w f, reach (keyOf w) d t = some (w, f) → f < L →
      ∃ e, load w = some e ∧ Agree e (keyOf w) f L)
    (hnew : ∀ w, Mem w t → ¬ Agree (keyOf v) (keyOf w) d L) :
    ∃ t', RadixTrie.insert load L (keyOf v) v d t = some t' ∧
      ∀ w, Mem w t → ∃ f, reach (keyOf w) d t' = some (w, f) := by
  induction t generalizing d with
  | null => exact ⟨leaf v, rfl, fun w hw => hw.elim⟩
  | leaf x =>
    have hdiff := hnew x rfl
    have hlt : d < L := by
      by_contra hge
      exact hdiff fun i hi hi' => by omega
    obtain ⟨e, he, hagree⟩ := hload x d rfl hlt
    rw [RadixTrie.insert, he]
    simp only
    rcases firstDiff_cases e (keyOf v) (L - d) d with
      ⟨m, hle, hm, hne, hpath, hfirst⟩ | ⟨hall, -⟩
    · rw [hfirst]
      refine ⟨_, rfl, ?_⟩
      rintro w rfl
      have hknown : Agree (keyOf v) (keyOf x) d m :=
        hpath.symm.trans (hagree.mono (le_refl d) (by omega))
      rw [reach_inner hknown, ← hagree m hle (by omega), fork_left hne]
      exact ⟨m + 1, rfl⟩
    · exact absurd ((hall.symm.mono (le_refl d) (by omega)).trans hagree) hdiff
  | inner stop path child ih =>
    obtain ⟨hd, hstop, -, hchild⟩ := hfits
    rcases @insert_inner _ _ _ load L (keyOf v) v d stop path child hd _ rfl with
      ⟨m, hle, hlt, hne, -, heq⟩ | ⟨hagree, heq⟩
    · refine ⟨_, heq, ?_⟩
      rintro w ⟨c, hw⟩
      obtain ⟨hpath, hc⟩ := (hright c).2 w hw
      obtain ⟨f, hf⟩ := (hright c).1.exists_reach hw
      refine ⟨f, ?_⟩
      rw [reach_inner (hpath.mono (le_refl d) (by omega)), ← hpath m hle hlt, fork_left hne,
        reach_inner (hpath.mono (by omega) (le_refl stop)), hc]
      exact hf
    · obtain ⟨u, hu, hfound⟩ := ih (keyOf v stop) (hright _).1 (hchild _) (by omega) (by
          intro w f hf hlt
          obtain ⟨hpath, hc⟩ := (hright _).2 w (mem_of_reach hf)
          exact hload w f (by rw [reach_inner hpath, hc]; exact hf) hlt) (by
          intro w hw hrest
          obtain ⟨hpath, hc⟩ := (hright _).2 w hw
          exact hnew w ⟨_, hw⟩ ((hagree.symm.trans hpath).append hc.symm hrest))
      refine ⟨_, by rw [heq, hu, Option.map_some], ?_⟩
      rintro w ⟨c, hw⟩
      obtain ⟨hpath, hc⟩ := (hright c).2 w hw
      rw [reach_inner hpath, hc]
      rcases eq_or_ne c (keyOf v stop) with rfl | hne
      · rw [Function.update_self]; exact hfound w hw
      · rw [Function.update_of_ne hne]; exact (hright c).1.exists_reach hw

/-- The letters before the last position on the way to the new leaf are those of some other key. -/
theorem Right.exists_agree {t t' : RadixTrie β V} (hright : Right keyOf d t)
    (hright' : Right keyOf d t') (hfits : Fits L d t) (hne : t ≠ null)
    (h : RadixTrie.insert load L (keyOf v) v d t = some t') {f : ℕ}
    (hf : reach (keyOf v) d t' = some (v, f)) :
    ∃ w, Mem w t ∧ Agree (keyOf v) (keyOf w) d (f - 1) := by
  induction t generalizing d t' with
  | null => exact absurd rfl hne
  | leaf x =>
    obtain ⟨e, m, -, hle, -, hne', -, rfl⟩ := insert_leaf h
    rw [reach_inner fun _ _ _ => rfl, fork_right, reach, Option.some.injEq, Prod.mk.injEq] at hf
    obtain ⟨-, rfl⟩ := hf
    exact ⟨x, rfl, ((hright' (e m)).2 x (by rw [fork_left hne']; exact rfl)).1⟩
  | inner stop path child ih =>
    obtain ⟨hd, -, ⟨w, c, hw⟩, hchild⟩ := hfits
    rcases insert_inner hd _ h with ⟨m, hle, hlt, -, hagree, heq⟩ | ⟨hagree, heq⟩
    · obtain rfl := Option.some.inj heq
      rw [reach_inner hagree, fork_right, reach, Option.some.injEq, Prod.mk.injEq] at hf
      obtain ⟨-, rfl⟩ := hf
      obtain ⟨hpath, -⟩ := (hright c).2 w hw
      exact ⟨w, ⟨c, hw⟩, hagree.symm.trans (hpath.mono (le_refl d) (by omega))⟩
    · obtain ⟨u, hu, rfl⟩ := Option.map_eq_some_iff.mp heq.symm
      rw [reach_inner hagree, Function.update_self] at hf
      have hright'' := (hright' (keyOf v stop)).1
      rw [Function.update_self] at hright''
      by_cases hnull : child (keyOf v stop) = null
      · -- a new child of the node: any leaf below the node will do
        rw [hnull] at hu
        obtain rfl : leaf v = u := Option.some.inj hu
        rw [reach, Option.some.injEq, Prod.mk.injEq] at hf
        obtain ⟨-, rfl⟩ := hf
        exact ⟨w, ⟨c, hw⟩, hagree.symm.trans ((hright c).2 w hw).1⟩
      · obtain ⟨x, hx, hbelow⟩ := ih _ (hright _).1 hright'' (hchild _) hnull hu hf
        obtain ⟨hpath, hstop⟩ := (hright _).2 x hx
        exact ⟨x, ⟨_, hx⟩, (hagree.symm.trans hpath).append hstop.symm hbelow⟩

end Right

end RadixTrie

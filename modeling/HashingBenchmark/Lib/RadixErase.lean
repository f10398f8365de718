import HashingBenchmark.Lib.RadixBuild

/-! Erasing a key from a radix trie.

    An erase takes out the leaf that the key leads to, if its key is the one to erase. A node that is
    left with one child gives way to it, with both paths and the letter between them in one
    (`prune`). So every inner node keeps two children (`Branching`), and an erase of a tree with every
    leaf where its key leads is the tree of the other leaves (`mem_erase`, `Right.erase`). -/

namespace RadixTrie
variable {β V : Type*}

/-- Every inner node has at least two children. -/
def Branching : RadixTrie β V → Prop
  | null => True
  | leaf _ => True
  | inner _ _ child => (∃ b c, b ≠ c ∧ child b ≠ null ∧ child c ≠ null) ∧ ∀ c, Branching (child c)

/-- There is a child for the letter `c` and for no other one. -/
def Only (child : β → RadixTrie β V) (c : β) : Prop := child c ≠ null ∧ ∀ b ≠ c, child b = null

/-- A child in the place of its parent: its path is that of the parent, the letter of the child and
    its own path. -/
def lift (stop : ℕ) (path : ℕ → β) (c : β) : RadixTrie β V → RadixTrie β V
  | inner stop' path' child =>
    inner stop' (fun i => if i < stop then path i else if i = stop then c else path' i) child
  | t => t

open Classical in
/-- A node, or its child where it has only one. -/
noncomputable def prune (stop : ℕ) (path : ℕ → β) (child : β → RadixTrie β V) : RadixTrie β V :=
  if h : ∃ c, Only child c then lift stop path h.choose (child h.choose) else inner stop path child

/-! ### Nodes with one child -/

section Prune
variable {stop d L : ℕ} {path : ℕ → β} {child : β → RadixTrie β V} {c : β} {keyOf : V → ℕ → β}

theorem Only.eq {b : β} (h : Only child c) (hb : child b ≠ null) : b = c := by
  by_contra hne
  exact hb (h.2 b hne)

theorem prune_of_only (h : Only child c) : prune stop path child = lift stop path c (child c) := by
  have hex : ∃ c, Only child c := ⟨c, h⟩
  rw [prune, dif_pos hex, h.eq hex.choose_spec.1]

theorem prune_of_two {b : β} (hbc : b ≠ c) (hb : child b ≠ null) (hc : child c ≠ null) :
    prune stop path child = inner stop path child := by
  refine dif_neg ?_
  rintro ⟨a, ha⟩
  exact hbc ((ha.eq hb).trans (ha.eq hc).symm)

/-- A node with a child is pruned to its only one, or it has two. -/
theorem prune_cases (hc : child c ≠ null) :
    (Only child c ∧ prune stop path child = lift stop path c (child c)) ∨
    ∃ b, b ≠ c ∧ child b ≠ null ∧ prune stop path child = inner stop path child := by
  by_cases honly : Only child c
  · exact Or.inl ⟨honly, prune_of_only honly⟩
  · obtain ⟨b, hbc, hb⟩ : ∃ b, b ≠ c ∧ child b ≠ null := by
      by_contra hnone
      push Not at hnone
      exact honly ⟨hc, hnone⟩
    exact Or.inr ⟨b, hbc, hb, prune_of_two hbc hb hc⟩

theorem ne_null_of_mem {t : RadixTrie β V} {w : V} (h : Mem w t) : t ≠ null := by
  rintro rfl
  exact h

theorem mem_lift {t : RadixTrie β V} {w : V} : Mem w (lift stop path c t) ↔ Mem w t := by
  cases t <;> rfl

theorem mem_prune {w : V} : Mem w (prune stop path child) ↔ ∃ c, Mem w (child c) := by
  constructor
  · intro h
    by_cases hex : ∃ c, Only child c
    · obtain ⟨c, hc⟩ := hex
      rw [prune_of_only hc, mem_lift] at h
      exact ⟨c, h⟩
    · rw [prune, dif_neg hex] at h
      exact h
  · rintro ⟨c, hw⟩
    rcases @prune_cases _ _ stop path child c (ne_null_of_mem hw) with ⟨-, heq⟩ | ⟨-, -, -, heq⟩
    · rw [heq, mem_lift]
      exact hw
    · rw [heq]
      exact ⟨c, hw⟩

theorem Fits.lift {t : RadixTrie β V} (hd : d ≤ stop) (h : Fits L (stop + 1) t) :
    Fits L d (lift stop path c t) := by
  cases t with
  | null => trivial
  | leaf v => exact le_trans (by omega) (show stop + 1 ≤ L from h)
  | inner stop' path' child' =>
    obtain ⟨hstop, hL, hmem, hchild⟩ := h
    exact ⟨by omega, hL, hmem, hchild⟩

theorem Fits.prune {w : V} (hd : d ≤ stop) (hL : stop < L) (hw : Mem w (child c))
    (h : ∀ b, Fits L (stop + 1) (child b)) : Fits L d (prune stop path child) := by
  rcases @prune_cases _ _ stop path child c (ne_null_of_mem hw) with ⟨-, heq⟩ | ⟨-, -, -, heq⟩
  · rw [heq]
    exact (h c).lift hd
  · rw [heq]
    exact ⟨hd, hL, ⟨w, c, hw⟩, h⟩

/-- The keys below a lifted node agree with both paths and the letter between them. -/
theorem Right.lift {t : RadixTrie β V} (hd : d ≤ stop) (hfits : Fits L (stop + 1) t)
    (h : Right keyOf (stop + 1) t)
    (hpath : ∀ w, Mem w t → Agree path (keyOf w) d stop ∧ keyOf w stop = c) :
    Right keyOf d (lift stop path c t) := by
  cases t with
  | null => trivial
  | leaf v => trivial
  | inner stop' path' child' =>
    intro b
    refine ⟨(h b).1, fun w hw => ⟨?_, ((h b).2 w hw).2⟩⟩
    obtain ⟨hup, hstop⟩ := hpath w ⟨b, hw⟩
    have hdown := ((h b).2 w hw).1
    intro i hi hi'
    beta_reduce
    rcases Nat.lt_trichotomy i stop with hlt | rfl | hgt
    · rw [if_pos hlt]
      exact hup i hi hlt
    · rw [if_neg (lt_irrefl _), if_pos rfl, hstop]
    · rw [if_neg (by omega), if_neg (by omega)]
      exact hdown i hgt hi'

theorem Right.prune (hd : d ≤ stop) (hfits : ∀ b, Fits L (stop + 1) (child b))
    (h : Right keyOf d (inner stop path child)) : Right keyOf d (prune stop path child) := by
  by_cases hex : ∃ c, Only child c
  · obtain ⟨c, hc⟩ := hex
    rw [prune_of_only hc]
    exact (h c).1.lift hd (hfits c) (h c).2
  · rw [RadixTrie.prune, dif_neg hex]
    exact h

theorem Branching.lift {t : RadixTrie β V} (h : Branching t) : Branching (lift stop path c t) := by
  cases t with
  | null => trivial
  | leaf v => trivial
  | inner stop' path' child' => exact h

theorem Branching.prune (hc : child c ≠ null) (h : ∀ b, Branching (child b)) :
    Branching (prune stop path child) := by
  rcases @prune_cases _ _ stop path child c hc with ⟨-, heq⟩ | ⟨b, hbc, hb, heq⟩
  · rw [heq]
    exact (h c).lift
  · rw [heq]
    exact ⟨⟨b, c, hbc, hb, hc⟩, h⟩

end Prune

/-! ### Erasing -/

section Erase
variable [DecidableEq β]

/-- Erase a key below depth `d`. -/
noncomputable def erase (keyOf : V → ℕ → β) (L : ℕ) (key : ℕ → β) :
    ℕ → RadixTrie β V → RadixTrie β V
  | _, null => null
  | d, leaf v =>
    match firstDiff (keyOf v) key (L - d) d with
    | some _ => leaf v
    | none => null
  | d, inner stop path child =>
    match firstDiff path key (stop - d) d with
    | some _ => inner stop path child
    | none => prune stop path
        (Function.update child (key stop) (erase keyOf L key (stop + 1) (child (key stop))))

variable {keyOf : V → ℕ → β} {L : ℕ} {key : ℕ → β} {d : ℕ}

/-- What an erase does to a leaf. -/
theorem erase_leaf (keyOf : V → ℕ → β) (key : ℕ → β) (hd : d ≤ L) (v : V) :
    (Agree (keyOf v) key d L ∧ erase keyOf L key d (leaf v) = null) ∨
    (¬ Agree (keyOf v) key d L ∧ erase keyOf L key d (leaf v) = leaf v) := by
  rw [erase]
  rcases firstDiff_cases (keyOf v) key (L - d) d with ⟨m, hle, hlt, hne, -, hsome⟩ | ⟨hagree, hnone⟩
  · rw [hsome]
    exact Or.inr ⟨fun h => hne (h m hle (by omega)), rfl⟩
  · rw [hnone]
    exact Or.inl ⟨hagree.mono (le_refl d) (by omega), rfl⟩

/-- What an erase does to an inner node: nothing, or it goes on below. -/
theorem erase_inner (keyOf : V → ℕ → β) (L : ℕ) (key : ℕ → β) {stop : ℕ} (hd : d ≤ stop)
    (path : ℕ → β) (child : β → RadixTrie β V) :
    (Agree path key d stop ∧ erase keyOf L key d (inner stop path child) = prune stop path
      (Function.update child (key stop) (erase keyOf L key (stop + 1) (child (key stop))))) ∨
    (¬ Agree path key d stop ∧ erase keyOf L key d (inner stop path child)
      = inner stop path child) := by
  rw [erase]
  rcases firstDiff_cases path key (stop - d) d with ⟨m, hle, hlt, hne, -, hsome⟩ | ⟨hagree, hnone⟩
  · rw [hsome]
    exact Or.inr ⟨fun h => hne (h m hle (by omega)), rfl⟩
  · rw [hnone]
    exact Or.inl ⟨hagree.mono (le_refl d) (by omega), rfl⟩

/-- A node keeps a child through an erase below it. -/
theorem exists_child_ne {child : β → RadixTrie β V}
    (h : ∃ b c, b ≠ c ∧ child b ≠ null ∧ child c ≠ null) (a : β) (t : RadixTrie β V) :
    ∃ c, c ≠ a ∧ Function.update child a t c = child c ∧ child c ≠ null := by
  obtain ⟨b, c, hbc, hb, hc⟩ := h
  rcases eq_or_ne b a with rfl | hba
  · exact ⟨c, hbc.symm, Function.update_of_ne hbc.symm _ _, hc⟩
  · exact ⟨b, hba, Function.update_of_ne hba _ _, hb⟩

/-- A node with two children is not pruned when one of them changes. -/
theorem prune_update {stop : ℕ} {path : ℕ → β} {child : β → RadixTrie β V} {a : β}
    {t : RadixTrie β V} (h : ∃ b c, b ≠ c ∧ child b ≠ null ∧ child c ≠ null) (ht : t ≠ null) :
    prune stop path (Function.update child a t)
      = inner stop path (Function.update child a t) := by
  obtain ⟨c, hca, hsame, hc⟩ := exists_child_ne h a t
  exact prune_of_two hca (hsame ▸ hc) (by rw [Function.update_self]; exact ht)

omit [DecidableEq β] in
theorem exists_mem {t : RadixTrie β V} (hfits : Fits L d t) (hne : t ≠ null) : ∃ w, Mem w t := by
  cases t with
  | null => exact absurd rfl hne
  | leaf v => exact ⟨v, rfl⟩
  | inner stop path child =>
    obtain ⟨-, -, hmem, -⟩ := hfits
    exact hmem

/-- An erase takes out the leaves with this key and no others. -/
theorem mem_erase {t : RadixTrie β V} (hfits : Fits L d t) (hright : Right keyOf d t) (w : V) :
    Mem w (erase keyOf L key d t) ↔ Mem w t ∧ ¬ Agree (keyOf w) key d L := by
  induction t generalizing d with
  | null => exact iff_of_false id fun h => h.1
  | leaf v =>
    rcases erase_leaf keyOf key hfits v with ⟨hagree, heq⟩ | ⟨hagree, heq⟩
    · rw [heq]
      refine iff_of_false id ?_
      rintro ⟨rfl, hnot⟩
      exact hnot hagree
    · rw [heq]
      refine ⟨fun hw => ⟨hw, ?_⟩, fun h => h.1⟩
      obtain rfl : v = w := hw
      exact hagree
  | inner stop path child ih =>
    obtain ⟨hd, hL, -, hchild⟩ := hfits
    rcases erase_inner keyOf L key hd path child with
      ⟨hpath, heq⟩ | ⟨hpath, heq⟩
    · rw [heq, mem_prune]
      have hbelow := ih (key stop) (hchild _) (hright _).1
      constructor
      · rintro ⟨c, hc⟩
        rcases eq_or_ne c (key stop) with rfl | hne
        · rw [Function.update_self, hbelow] at hc
          exact ⟨⟨_, hc.1⟩, fun hagree => hc.2 (hagree.mono (by omega) (le_refl L))⟩
        · rw [Function.update_of_ne hne] at hc
          refine ⟨⟨c, hc⟩, fun hagree => hne ?_⟩
          rw [← ((hright c).2 w hc).2]
          exact hagree stop hd hL
      · rintro ⟨⟨c, hc⟩, hnot⟩
        refine ⟨c, ?_⟩
        rcases eq_or_ne c (key stop) with rfl | hne
        · rw [Function.update_self, hbelow]
          obtain ⟨hup, hstop⟩ := (hright _).2 w hc
          exact ⟨hc, fun hrest => hnot ((hup.symm.trans hpath).append hstop hrest)⟩
        · rw [Function.update_of_ne hne]
          exact hc
    · rw [heq]
      refine ⟨fun hw => ⟨hw, fun hagree => hpath ?_⟩, fun h => h.1⟩
      obtain ⟨c, hc⟩ := hw
      exact ((hright c).2 w hc).1.trans (hagree.mono (le_refl d) (by omega))

/-- Step lemma: an erase keeps the tree within `L` positions, every leaf where its key leads and two
    children at every inner node. -/
theorem erase_keeps {t : RadixTrie β V} (hfits : Fits L d t) (hright : Right keyOf d t)
    (hbranching : Branching t) :
    Fits L d (erase keyOf L key d t) ∧ Right keyOf d (erase keyOf L key d t) ∧
      Branching (erase keyOf L key d t) := by
  induction t generalizing d with
  | null => exact ⟨trivial, trivial, trivial⟩
  | leaf v =>
    rcases erase_leaf keyOf key hfits v with ⟨-, heq⟩ | ⟨-, heq⟩ <;> rw [heq]
    · exact ⟨trivial, trivial, trivial⟩
    · exact ⟨hfits, trivial, trivial⟩
  | inner stop path child ih =>
    have hall : Fits L d (inner stop path child) := hfits
    obtain ⟨hd, hL, -, hchild⟩ := hfits
    rcases erase_inner keyOf L key hd path child with
      ⟨-, heq⟩ | ⟨-, heq⟩
    · obtain ⟨hfits', hright', hbranching'⟩ :=
        ih (key stop) (hchild _) (hright _).1 (hbranching.2 _)
      obtain ⟨c, -, hsame, hc⟩ := exists_child_ne hbranching.1 (key stop)
        (erase keyOf L key (stop + 1) (child (key stop)))
      obtain ⟨w, hw⟩ := exists_mem (hchild c) hc
      have hfitsAll : ∀ b, Fits L (stop + 1) (Function.update child (key stop)
          (erase keyOf L key (stop + 1) (child (key stop))) b) :=
        (Function.forall_update_iff child fun _ x => Fits L (stop + 1) x).mpr
          ⟨hfits', fun b _ => hchild b⟩
      rw [heq]
      refine ⟨Fits.prune hd hL (hsame ▸ hw) hfitsAll, Right.prune hd hfitsAll fun b => ?_,
        Branching.prune (hsame ▸ hc) ?_⟩
      · rcases eq_or_ne b (key stop) with rfl | hne
        · rw [Function.update_self]
          refine ⟨hright', fun w hw => (hright _).2 w ?_⟩
          exact ((mem_erase (hchild _) (hright _).1 w).mp hw).1
        · rw [Function.update_of_ne hne]
          exact hright b
      · exact (Function.forall_update_iff child fun _ x => Branching x).mpr
          ⟨hbranching', fun b _ => hbranching.2 b⟩
    · rw [heq]
      exact ⟨hall, hright, hbranching⟩

/-- Below a node with two children an erase leaves something. -/
theorem erase_ne_null {stop : ℕ} {path : ℕ → β} {child : β → RadixTrie β V}
    (hfits : Fits L d (inner stop path child)) (hbranching : Branching (inner stop path child)) :
    erase keyOf L key d (inner stop path child) ≠ null := by
  obtain ⟨hd, -, -, hchild⟩ := hfits
  rcases erase_inner keyOf L key hd path child with ⟨-, heq⟩ | ⟨-, heq⟩
  · obtain ⟨c, -, hsame, hc⟩ := exists_child_ne hbranching.1 (key stop)
      (erase keyOf L key (stop + 1) (child (key stop)))
    obtain ⟨w, hw⟩ := exists_mem (hchild c) hc
    rw [heq]
    exact ne_null_of_mem (mem_prune.mpr ⟨c, by rw [hsame]; exact hw⟩)
  · rw [heq]
    simp

end Erase

/-! ### Keys and leaves -/

section Keys
variable [DecidableEq β] {load : V → Option (ℕ → β)} {keyOf : V → ℕ → β} {L : ℕ} {key : ℕ → β} {v : V}
  {d : ℕ}

/-- A key agrees with that of the leaf it leads to, up to the depth of the leaf. -/
theorem Right.agree_of_reach {t : RadixTrie β V} (hright : Right keyOf d t) (hfits : Fits L d t)
    {q : ℕ → β} {w : V} {f : ℕ} (hq : reach q d t = some (w, f)) : Agree (keyOf w) q d f := by
  induction t generalizing d with
  | null => cases hq
  | leaf x =>
    rw [reach, Option.some.injEq, Prod.mk.injEq] at hq
    obtain ⟨-, rfl⟩ := hq
    exact fun i hi hi' => by omega
  | inner stop path child ih =>
    obtain ⟨hd, -, -, hchild⟩ := hfits
    have hpath := RadixTrie.agree_of_reach hd hq
    rw [reach_inner hpath] at hq
    obtain ⟨hup, hletter⟩ := (hright _).2 w (mem_of_reach hq)
    exact (hup.symm.trans hpath).append hletter (ih _ (hright _).1 (hchild _) hq)

/-- A key that is in the tree cannot be inserted again. -/
theorem Right.insert_eq_none {t : RadixTrie β V} (hright : Right keyOf d t) (hfits : Fits L d t)
    {w : V} (hw : Mem w t) (hload : load w = some (keyOf w)) (hagree : Agree (keyOf w) key d L) :
    RadixTrie.insert load L key v d t = none := by
  induction t generalizing d with
  | null => exact hw.elim
  | leaf x =>
    obtain rfl : x = w := hw
    rw [RadixTrie.insert, hload]
    simp only
    rcases firstDiff_cases (keyOf x) key (L - d) d with ⟨m, hle, hlt, hne, -, -⟩ | ⟨-, hnone⟩
    · exact absurd (hagree m hle (by omega)) hne
    · rw [hnone]
  | inner stop path child ih =>
    obtain ⟨hd, hstop, -, hchild⟩ := hfits
    obtain ⟨c, hc⟩ := hw
    obtain ⟨hpath, hletter⟩ := (hright c).2 w hc
    obtain rfl : c = key stop := hletter.symm.trans (hagree stop hd hstop)
    rcases @insert_inner _ _ _ load L key v d stop path child hd _ rfl with
      ⟨m, hle, hlt, hne, -, -⟩ | ⟨-, heq⟩
    · exact absurd ((hpath m hle hlt).trans (hagree m hle (by omega))) hne
    · rw [heq, ih _ (hright _).1 (hchild _) hc (hagree.mono (by omega) (le_refl L)), Option.map_none]

end Keys

end RadixTrie

import HashingBenchmark.Lib.RadixTrie
import Mathlib.Data.List.Induction

/-! Building a radix trie one value at a time.

    A tree of the values `vs` is right if each leaf is where its key leads and, where the leaf is
    above depth `L`, `load` knows the rest of its key: then a lookup can check the key (`Finds`).
    Whether the build ends with such a tree depends on `load` alone. A leaf is created one position
    behind the letters that its key has in common with an earlier one (`leafDepth`), and from there on
    `load` has to know its key (`resolves_of_finds`, `Resolves.exists_insertAll`). -/

namespace RadixTrie
variable {β V : Type*} [DecidableEq β]

section Build
variable (load : V → Option (ℕ → β)) (L : ℕ) (keyOf : V → ℕ → β)

/-- Insert the values one after the other into the empty tree. -/
def insertAll (vs : List V) : Option (RadixTrie β V) :=
  vs.foldlM (fun t v => insert load L (keyOf v) v 0 t) null

/-- The number of leading letters that two keys have in common. -/
def commonLength (v w : V) : ℕ := (firstDiff (keyOf v) (keyOf w) L 0).getD L

/-- The depth of the leaf of `v` when it is inserted after the values `before`: one more than the
    number of leading letters in common with one of them. -/
def leafDepth (before : List V) (v : V) : ℕ :=
  before.foldr (fun w d => max (commonLength L keyOf v w + 1) d) 0

/-- `load` knows the key of `v` from depth `d` on. -/
def Knows (v : V) (d : ℕ) : Prop := d < L → ∃ e, load v = some e ∧ Agree e (keyOf v) d L

/-- `load` knows each key from the depth on at which its leaf is created. -/
def Resolves (vs : List V) : Prop :=
  ∀ before v after, vs = before ++ v :: after → Knows load L keyOf v (leafDepth L keyOf before v)

/-- The key of `v` leads to `v`, and `load` knows the rest of it. -/
def Finds (t : RadixTrie β V) (v : V) : Prop :=
  ∃ f, reach (keyOf v) 0 t = some (v, f) ∧ Knows load L keyOf v f

/-- A tree with the leaves `vs`, each of them where its key leads. -/
structure IsTrieOf (vs : List V) (t : RadixTrie β V) : Prop where
  fits : Fits L 0 t
  right : Right keyOf 0 t
  mem : ∀ w, Mem w t ↔ w ∈ vs

variable {load L keyOf} {vs : List V} {v w : V} {t t' : RadixTrie β V}

theorem insertAll_snoc (vs : List V) (v : V) :
    insertAll load L keyOf (vs ++ [v])
      = (insertAll load L keyOf vs).bind (insert load L (keyOf v) v 0) := by
  rw [insertAll, List.foldlM_append]
  refine congrArg _ (funext fun t => ?_)
  simp

theorem commonLength_lt {f : ℕ} (hf : f ≤ L) (h : ¬ Agree (keyOf v) (keyOf w) 0 f) :
    commonLength L keyOf v w < f := by
  rw [commonLength]
  rcases firstDiff_cases (keyOf v) (keyOf w) L 0 with ⟨m, -, -, -, hagree, hfirst⟩ | ⟨hagree, -⟩
  · rw [hfirst, Option.getD_some]
    by_contra hge
    exact h (hagree.mono (le_refl 0) (by omega))
  · exact absurd (hagree.mono (le_refl 0) (by omega)) h

theorem le_commonLength {f : ℕ} (hf : f ≤ L) (h : Agree (keyOf v) (keyOf w) 0 f) :
    f ≤ commonLength L keyOf v w := by
  rw [commonLength]
  rcases firstDiff_cases (keyOf v) (keyOf w) L 0 with ⟨m, -, -, hne, -, hfirst⟩ | ⟨-, hnone⟩
  · rw [hfirst, Option.getD_some]
    by_contra hlt
    exact hne (h m (Nat.zero_le m) (by omega))
  · rw [hnone, Option.getD_none]; exact hf

theorem leafDepth_le {f : ℕ} (h : ∀ w ∈ vs, commonLength L keyOf v w < f) :
    leafDepth L keyOf vs v ≤ f := by
  induction vs with
  | nil => exact Nat.zero_le f
  | cons w vs ih =>
    exact max_le (h w (by simp)) (ih fun x hx => h x (by simp [hx]))

theorem lt_leafDepth (hw : w ∈ vs) : commonLength L keyOf v w < leafDepth L keyOf vs v := by
  induction vs with
  | nil => cases hw
  | cons x vs ih =>
    rcases List.mem_cons.mp hw with rfl | hw
    · exact lt_of_lt_of_le (Nat.lt_succ_self _) (le_max_left _ _)
    · exact lt_of_lt_of_le (ih hw) (le_max_right _ _)

omit [DecidableEq β] in
theorem Knows.mono {d f : ℕ} (h : Knows load L keyOf v d) (hle : d ≤ f) :
    Knows load L keyOf v f := by
  intro hlt
  obtain ⟨e, he, hagree⟩ := h (by omega)
  exact ⟨e, he, hagree.mono hle (le_refl L)⟩

/-- The new leaf of a tree is at the depth `leafDepth`. -/
theorem IsTrieOf.depth_eq (ht : IsTrieOf L keyOf vs t) (ht' : IsTrieOf L keyOf (vs ++ [v]) t')
    (h : insert load L (keyOf v) v 0 t = some t')
    (hdiff : ∀ w ∈ vs, ¬ Agree (keyOf w) (keyOf v) 0 L) {f : ℕ}
    (hf : reach (keyOf v) 0 t' = some (v, f)) : f = leafDepth L keyOf vs v := by
  have hfL := (le_of_reach ht'.fits hf).2
  refine le_antisymm ?_ (leafDepth_le fun w hw => commonLength_lt hfL fun hagree => ?_)
  · by_cases hnull : t = null
    · subst hnull
      obtain rfl : leaf v = t' := Option.some.inj h
      rw [reach, Option.some.injEq, Prod.mk.injEq] at hf
      omega
    · obtain ⟨w, hw, hagree⟩ := ht.right.exists_agree ht'.right ht.fits hnull h hf
      have hlt : commonLength L keyOf v w < leafDepth L keyOf vs v := lt_leafDepth ((ht.mem w).mp hw)
      have hle : f - 1 ≤ commonLength L keyOf v w := le_commonLength (by omega) hagree
      omega
  · -- a key that leads to the new leaf too has no leaf of its own
    obtain ⟨g, hg⟩ := ht'.right.exists_reach ((ht'.mem w).mpr (List.mem_append_left _ hw))
    rw [reach_congr ht'.fits hf hagree, Option.some.injEq, Prod.mk.injEq] at hg
    obtain rfl := hg.1
    exact hdiff v hw fun _ _ _ => rfl

/-- An insert that leaves every leaf where its key leads. -/
theorem IsTrieOf.snoc (ht : IsTrieOf L keyOf vs t) (h : insert load L (keyOf v) v 0 t = some t')
    (hdiff : ∀ w ∈ vs, ¬ Agree (keyOf w) (keyOf v) 0 L)
    (hfound : ∀ w ∈ vs, ∃ f, reach (keyOf w) 0 t' = some (w, f)) :
    IsTrieOf L keyOf (vs ++ [v]) t' := by
  have hnew : ¬ Mem v t := fun hmem => hdiff v ((ht.mem v).mp hmem) fun _ _ _ => rfl
  refine ⟨ht.fits.insert (Nat.zero_le L) h,
    ht.right.insert ht.fits h hnew fun w hw => hfound w ((ht.mem w).mp hw), fun w => ?_⟩
  rw [mem_insert ht.fits h, ht.mem, List.mem_append, List.mem_singleton, eq_comm]

omit [DecidableEq β] in
theorem isTrieOf_nil : IsTrieOf L keyOf [] (null : RadixTrie β V) :=
  ⟨trivial, trivial, fun w => by simp [Mem]⟩

/-- What is found after an insert was found before. -/
theorem Finds.of_insert (hfits : Fits L 0 t) (h : insert load L (keyOf v) v 0 t = some t')
    (hvw : v ≠ w) (hfinds : Finds load L keyOf t' w) : Finds load L keyOf t w := by
  obtain ⟨f, hf, hknows⟩ := hfinds
  obtain ⟨g, hle, hg, hdown⟩ := reach_of_insert hfits h hvw hf
  refine ⟨g, hg, fun hgL => ?_⟩
  rcases Nat.lt_or_ge g f with hlt | hge
  · obtain ⟨e, he, hagree⟩ := hdown hlt
    refine ⟨e, he, fun i hi hiL => ?_⟩
    by_cases hif : i < f
    · exact hagree i hi hif
    · obtain ⟨e', he', hrest⟩ := hknows (by omega)
      obtain rfl : e = e' := Option.some.inj (he.symm.trans he')
      exact hrest i (by omega) hiL
  · obtain rfl : g = f := by omega
    exact hknows hgL

/-- Where `load` knows enough, the tree is built and everything is found. -/
theorem Resolves.exists_insertAll (h : Resolves load L keyOf vs)
    (hdiff : vs.Pairwise fun v w => ¬ Agree (keyOf v) (keyOf w) 0 L) :
    ∃ t, insertAll load L keyOf vs = some t ∧ IsTrieOf L keyOf vs t ∧
      ∀ v ∈ vs, Finds load L keyOf t v := by
  induction vs using List.reverseRecOn with
  | nil => exact ⟨null, rfl, isTrieOf_nil, fun v hv => absurd hv List.not_mem_nil⟩
  | append_singleton vs v ih =>
    obtain ⟨hpair, -, hlast⟩ := List.pairwise_append.mp hdiff
    have hnew : ∀ w ∈ vs, ¬ Agree (keyOf w) (keyOf v) 0 L := fun w hw => hlast w hw v (by simp)
    obtain ⟨t, hbuild, ht, hfinds⟩ := ih (fun before w after heq =>
      h before w (after ++ [v]) (by rw [heq]; simp)) hpair
    have hload : ∀ w f, reach (keyOf w) 0 t = some (w, f) → Knows load L keyOf w f := by
      intro w f hf
      obtain ⟨g, hg, hknows⟩ := hfinds w ((ht.mem w).mp (mem_of_reach hf))
      rw [hf, Option.some.injEq, Prod.mk.injEq] at hg
      rw [hg.2]; exact hknows
    obtain ⟨t', hinsert, hfound⟩ := ht.right.exists_insert ht.fits (Nat.zero_le L) hload
      fun w hw hagree => hnew w ((ht.mem w).mp hw) hagree.symm
    have ht' := ht.snoc hinsert hnew fun w hw => hfound w ((ht.mem w).mpr hw)
    refine ⟨t', by rw [insertAll_snoc, hbuild]; exact hinsert, ht', fun w hw => ?_⟩
    rcases List.mem_append.mp hw with hw | hw
    · have hvw : v ≠ w := by rintro rfl; exact hnew v hw fun _ _ _ => rfl
      obtain ⟨f, hf⟩ := hfound w ((ht.mem w).mpr hw)
      obtain ⟨g, hle, hg, -⟩ := reach_of_insert ht.fits hinsert hvw hf
      exact ⟨f, hf, Knows.mono (hload w g hg) hle⟩
    · obtain rfl := List.mem_singleton.mp hw
      obtain ⟨f, hf⟩ := reach_insert_self ht.fits hinsert
      refine ⟨f, hf, ?_⟩
      rw [ht.depth_eq ht' hinsert hnew hf]
      exact h vs w [] rfl

theorem fits_of_insertAll (h : insertAll load L keyOf vs = some t) : Fits L 0 t := by
  induction vs using List.reverseRecOn generalizing t with
  | nil =>
    obtain rfl : null = t := Option.some.inj h
    trivial
  | append_singleton vs v ih =>
    rw [insertAll_snoc] at h
    obtain ⟨u, hu, hinsert⟩ := Option.bind_eq_some_iff.mp h
    exact (ih hu).insert (Nat.zero_le L) hinsert

theorem mem_of_insertAll (h : insertAll load L keyOf vs = some t) (w : V) : Mem w t ↔ w ∈ vs := by
  induction vs using List.reverseRecOn generalizing t with
  | nil =>
    obtain rfl : null = t := Option.some.inj h
    simp [Mem]
  | append_singleton vs v ih =>
    rw [insertAll_snoc] at h
    obtain ⟨u, hu, hinsert⟩ := Option.bind_eq_some_iff.mp h
    rw [mem_insert (fits_of_insertAll hu) hinsert, ih hu, List.mem_append, List.mem_singleton,
      eq_comm]

/-- And where the tree is built and everything is found, `load` knows that much. -/
theorem resolves_of_finds (hdiff : vs.Pairwise fun v w => ¬ Agree (keyOf v) (keyOf w) 0 L)
    (hbuild : insertAll load L keyOf vs = some t) (hfinds : ∀ v ∈ vs, Finds load L keyOf t v) :
    Resolves load L keyOf vs ∧ IsTrieOf L keyOf vs t := by
  induction vs using List.reverseRecOn generalizing t with
  | nil =>
    obtain rfl : null = t := Option.some.inj hbuild
    exact ⟨fun before v after heq => by simp at heq, isTrieOf_nil⟩
  | append_singleton vs v ih =>
    obtain ⟨hpair, -, hlast⟩ := List.pairwise_append.mp hdiff
    have hnew : ∀ w ∈ vs, ¬ Agree (keyOf w) (keyOf v) 0 L := fun w hw => hlast w hw v (by simp)
    rw [insertAll_snoc] at hbuild
    obtain ⟨u, hu, hinsert⟩ := Option.bind_eq_some_iff.mp hbuild
    obtain ⟨hres, htrie⟩ := ih hpair hu fun w hw => by
      have hvw : v ≠ w := by rintro rfl; exact hnew v hw fun _ _ _ => rfl
      exact (hfinds w (List.mem_append_left _ hw)).of_insert (fits_of_insertAll hu) hinsert hvw
    have htrie' := htrie.snoc hinsert hnew fun w hw => by
      obtain ⟨f, hf, -⟩ := hfinds w (List.mem_append_left _ hw)
      exact ⟨f, hf⟩
    refine ⟨?_, htrie'⟩
    intro before w after heq
    rcases List.eq_nil_or_concat after with rfl | ⟨after, x, rfl⟩
    · obtain ⟨rfl, hvw⟩ := List.append_inj' heq rfl
      obtain rfl : v = w := by simpa using hvw
      obtain ⟨f, hf, hknows⟩ := hfinds v (by simp)
      rw [← htrie.depth_eq htrie' hinsert hnew hf]
      exact hknows
    · have hsplit : vs ++ [v] = (before ++ w :: after) ++ [x] := by rw [heq]; simp
      exact hres before w after (List.append_inj' hsplit rfl).1

end Build

end RadixTrie

import HashingBenchmark.Lib.RadixErase

/-! The first value of a radix trie in the order of the keys.

    Keys are compared letter by letter (`LexLE`), in any relation `r` on the letters, so that the
    last value is the first one in the converse relation. Where every leaf is where its key leads, the
    first value of a node is that of its first child (`isFirst_inner`). -/

namespace RadixTrie
variable {β V : Type*} {r : β → β → Prop} {keyOf : V → ℕ → β} {L d : ℕ}

/-- The letters from position `d` up to `e` are the same, or the first different one is before the
    other. -/
def LexLE (r : β → β → Prop) (k k' : ℕ → β) (d e : ℕ) : Prop :=
  Agree k k' d e ∨ ∃ m, d ≤ m ∧ m < e ∧ Agree k k' d m ∧ r (k m) (k' m)

theorem lexLE_refl (r : β → β → Prop) (k : ℕ → β) (d e : ℕ) : LexLE r k k d e :=
  Or.inl fun _ _ _ => rfl

/-- The last value in a relation is the first one in the converse. -/
theorem LexLE.swap {k k' : ℕ → β} {e : ℕ} (h : LexLE (fun a b => r b a) k k' d e) :
    LexLE r k' k d e := by
  rcases h with hsame | ⟨m, hd, he, hsame, hr⟩
  · exact Or.inl hsame.symm
  · exact Or.inr ⟨m, hd, he, hsame.symm, hr⟩

/-- Only what is behind a common part counts. -/
theorem LexLE.append {k k' : ℕ → β} {m e : ℕ} (hsame : Agree k k' d m) (hm : k m = k' m)
    (hd : d ≤ m) (h : LexLE r k k' (m + 1) e) : LexLE r k k' d e := by
  rcases h with hagree | ⟨j, hj, he, hagree, hr⟩
  · exact Or.inl (hsame.append hm hagree)
  · exact Or.inr ⟨j, by omega, he, hsame.append hm hagree, hr⟩

/-- No other value of the trie has a key before that of `w`. -/
def IsFirst (r : β → β → Prop) (keyOf : V → ℕ → β) (L d : ℕ) (t : RadixTrie β V) (w : V) : Prop :=
  Mem w t ∧ ∀ u, Mem u t → LexLE r (keyOf w) (keyOf u) d L

theorem isFirst_leaf (r : β → β → Prop) (keyOf : V → ℕ → β) (L d : ℕ) (w : V) :
    IsFirst r keyOf L d (leaf w) w := by
  refine ⟨rfl, fun u hu => ?_⟩
  obtain rfl : w = u := hu
  exact lexLE_refl r _ d L

theorem isFirst_inner {stop : ℕ} {path : ℕ → β} {child : β → RadixTrie β V} {c : β} {w : V}
    (hright : Right keyOf d (inner stop path child)) (hd : d ≤ stop) (hL : stop < L)
    (hfirst : ∀ b, child b ≠ null → b = c ∨ r c b) (hw : IsFirst r keyOf L (stop + 1) (child c) w) :
    IsFirst r keyOf L d (inner stop path child) w := by
  obtain ⟨hmem, hle⟩ := hw
  obtain ⟨hpath, hletter⟩ := (hright c).2 w hmem
  refine ⟨⟨c, hmem⟩, ?_⟩
  rintro u ⟨b, hu⟩
  obtain ⟨hpath', hletter'⟩ := (hright b).2 u hu
  have hsame := hpath.symm.trans hpath'
  rcases hfirst b (ne_null_of_mem hu) with rfl | hbefore
  · exact (hle u hu).append hsame (hletter.trans hletter'.symm) hd
  · exact Or.inr ⟨stop, hd, hL, hsame, by rw [hletter, hletter']; exact hbefore⟩

end RadixTrie

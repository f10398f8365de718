import HashingBenchmark.Art.Order
import Mathlib.Tactic.IntervalCases

/-! `minimum` and `maximum` of the adaptive radix tree.

    In a node in order they go on at the child of the least or of the greatest byte with a child
    (`minimum_inner`, `maximum_inner`), so they end at the leaf of the first or the last key. -/

namespace HashingBenchmark
namespace Art
open Join RadixTrie UIntOrder

/-! ### The first and the last child -/

theorem eq_or_lt_byte {a b : UInt8} (h : a ≤ b) : b = a ∨ a < b := by
  rw [UInt8.le_iff_toNat_le] at h
  rw [UInt8.lt_iff_toNat_lt, ← UInt8.toNat_inj]
  omega

/-- The loop up to the first byte that passes. -/
theorem exists_least_byte {q : ℕ → Bool} {b : UInt8} (hb : q b.toNat = true) :
    ∃ c : UInt8, (List.range 256).find? q = some c.toNat ∧ q c.toNat = true ∧
      ∀ b : UInt8, q b.toNat = true → b = c ∨ c < b := by
  cases hfind : (List.range 256).find? q with
  | none => exact absurd hb (List.find?_eq_none.mp hfind _ (List.mem_range.mpr b.toNat_lt))
  | some pos =>
    obtain ⟨hpos, hmem, hbefore⟩ := List.find?_range_eq_some.mp hfind
    have hc : (UInt8.ofNat pos).toNat = pos := by
      rw [UInt8.toNat_ofNat', Nat.mod_eq_of_lt (List.mem_range.mp hmem)]
    refine ⟨UInt8.ofNat pos, by rw [hc], by rwa [hc], fun b hb => eq_or_lt_byte ?_⟩
    rw [UInt8.le_iff_toNat_le, hc]
    by_contra hlt
    simpa [hb] using hbefore b.toNat (by omega)

/-- The loop down to the last byte that passes. -/
theorem exists_greatest_byte {q : ℕ → Bool} {b : UInt8} (hb : q b.toNat = true) :
    ∃ (i : ℕ) (c : UInt8), (List.range 256).find? (fun i => q (255 - i)) = some i ∧
      255 - i = c.toNat ∧ q c.toNat = true ∧ ∀ b : UInt8, q b.toNat = true → b = c ∨ b < c := by
  have hlast : ∀ b : UInt8, 255 - (255 - b.toNat) = b.toNat := fun b => by
    have hb := b.toNat_lt
    omega
  cases hfind : (List.range 256).find? fun i => q (255 - i) with
  | none =>
    have hnone := List.find?_eq_none.mp hfind (255 - b.toNat) (List.mem_range.mpr (by omega))
    rw [hlast] at hnone
    exact absurd hb hnone
  | some i =>
    obtain ⟨hi, hmem, hbefore⟩ := List.find?_range_eq_some.mp hfind
    have hc : (UInt8.ofNat (255 - i)).toNat = 255 - i := by
      rw [UInt8.toNat_ofNat', Nat.mod_eq_of_lt (by omega)]
    refine ⟨i, UInt8.ofNat (255 - i), rfl, hc.symm, by rwa [hc], fun b hb => ?_⟩
    have hle : b ≤ UInt8.ofNat (255 - i) := by
      rw [UInt8.le_iff_toNat_le, hc]
      by_contra hlt
      have hb' := b.toNat_lt
      have hnot := hbefore (255 - b.toNat) (by omega)
      rw [hlast] at hnot
      simp [hb] at hnot
    exact (eq_or_lt_byte hle).imp Eq.symm id

section Extremes
variable {header : Header} {type : NodeType} {child : ℕ → Node} {count : ℕ} {key : ℕ → UInt8}

/-- Every child of a node with a search array is in a slot. -/
theorem exists_slot {b : UInt8} (h : childOf count key child b ≠ .null) : ∃ i < count, key i = b := by
  rcases slotOf_cases count key b with ⟨i, hi, hkey, -, -⟩ | ⟨hnot, -⟩
  · exact ⟨i, hi, hkey⟩
  · exact absurd (childOf_of_forall_ne hnot) h

/-- A `Node16` has the slots of the flipped bytes. -/
theorem slots_flip (hslots : Slots count key child) (hle : count ≤ 16) :
    Slots count (fun i => flipSign (key i)) child ∧
      ∀ b, findChild count (.NodeType16 key) child b
        = childOf count (fun i => flipSign (key i)) child b := by
  obtain ⟨hflipped, hchild⟩ := hslots.map flipSign_injective (fun _ _ => rfl) fun _ _ => rfl
  refine ⟨hflipped, fun b => ?_⟩
  rw [findChild_NodeType16 hle, ← hchild, flipSign_flipSign]

theorem first_slot (hslots : Slots count key child) (hkey : Ascending count key) (hpos : 0 < count) :
    childOf count key child (key 0) = child 0 ∧
      ∀ b, childOf count key child b ≠ .null → b = key 0 ∨ key 0 < b := by
  refine ⟨childOf_of_mem hslots hpos rfl, fun b hb => ?_⟩
  obtain ⟨i, hi, rfl⟩ := exists_slot hb
  exact eq_or_lt_byte (hkey.le (Nat.zero_le i) hi)

theorem last_slot (hslots : Slots count key child) (hkey : Ascending count key) (hpos : 0 < count) :
    childOf count key child (key (count - 1)) = child (count - 1) ∧
      ∀ b, childOf count key child b ≠ .null → b = key (count - 1) ∨ b < key (count - 1) := by
  refine ⟨childOf_of_mem hslots (by omega) rfl, fun b hb => ?_⟩
  obtain ⟨i, hi, rfl⟩ := exists_slot hb
  exact (eq_or_lt_byte (hkey.le (by omega) (by omega))).imp Eq.symm id

/-- The bytes that the loops over a `Node48` stop at. -/
theorem marked_iff {childIndex : UInt8 → UInt8} (h : Sparse childIndex child) (count : ℕ)
    (b : UInt8) : decide (childIndex (UInt8.ofNat b.toNat) ≠ emptyMarker) = true ↔
      findChild count (.NodeType48 childIndex) child b ≠ .null := by
  rw [UInt8.ofNat_toNat, decide_eq_true_eq, findChild_NodeType48]
  split_ifs with hmark
  · exact iff_of_true hmark (h.inUse b hmark).2
  · exact iff_of_false hmark fun hne => hne rfl

/-- The bytes that the loops over a `Node256` stop at. -/
theorem taken_iff (child : ℕ → Node) (count : ℕ) (b : UInt8) :
    decide (¬ (child b.toNat).isNull = true) = true ↔ findChild count .NodeType256 child b ≠ .null := by
  rw [decide_eq_true_eq, isNull_iff]
  rfl

theorem findChild_of_marked {childIndex : UInt8 → UInt8} {c : UInt8}
    (h : findChild count (.NodeType48 childIndex) child c ≠ .null) :
    child (childIndex (UInt8.ofNat c.toNat)).toNat
      = findChild count (.NodeType48 childIndex) child c := by
  rw [findChild_NodeType48] at h ⊢
  rw [UInt8.ofNat_toNat, if_pos]
  by_contra hmark
  exact h (if_neg fun hne => hne hmark)

/-- `minimum` goes on at the child of the least byte. -/
theorem minimum_inner (hlive : Live header type child) (hordered : Ordered header.count type) :
    ∃ c, minimum (.inner header type child) = minimum (findChild header.count type child c) ∧
      findChild header.count type child c ≠ .null ∧
      ∀ b, findChild header.count type child b ≠ .null → b = c ∨ c < b := by
  obtain ⟨b, -, -, hb, -⟩ := hlive.two
  obtain ⟨harrays, -, hleast⟩ := hlive
  cases type with
  | NodeType4 key =>
    have hpos : 0 < header.count := lt_of_lt_of_le Nat.two_pos hleast
    obtain ⟨hfirst, hothers⟩ := first_slot harrays.2 hordered hpos
    refine ⟨key 0, ?_, hfirst.trans_ne (harrays.2.filled 0 hpos), hothers⟩
    exact (congrArg minimum hfirst).symm
  | NodeType16 key =>
    have hpos : 0 < header.count := lt_of_lt_of_le (Nat.zero_lt_succ 3) hleast
    obtain ⟨hslots, hfind⟩ := slots_flip harrays.2 harrays.1
    obtain ⟨hfirst, hothers⟩ := first_slot hslots hordered hpos
    have hchild := (hfind (flipSign (key 0))).trans hfirst
    refine ⟨flipSign (key 0), ?_, hchild.trans_ne (harrays.2.filled 0 hpos), fun b hb => ?_⟩
    · exact (congrArg minimum hchild).symm
    · exact hothers b (hfind b ▸ hb)
  | NodeType48 childIndex =>
    have hmarked := marked_iff harrays.2 header.count
    obtain ⟨c, hfind, hc, hothers⟩ := @exists_least_byte
      (fun pos => decide (childIndex (UInt8.ofNat pos) ≠ emptyMarker)) b ((hmarked b).mpr hb)
    have hne := (hmarked c).mp hc
    refine ⟨c, ?_, hne, fun b hb => hothers b ((hmarked b).mpr hb)⟩
    rw [minimum, hfind, ← findChild_of_marked hne]
  | NodeType256 =>
    have htaken := taken_iff child header.count
    obtain ⟨c, hfind, hc, hothers⟩ := @exists_least_byte
      (fun pos => decide (¬ (child pos).isNull = true)) b ((htaken b).mpr hb)
    refine ⟨c, ?_, (htaken c).mp hc, fun b hb => hothers b ((htaken b).mpr hb)⟩
    rw [minimum, hfind]
    rfl

/-- `maximum` goes on at the child of the greatest byte. -/
theorem maximum_inner (hlive : Live header type child) (hordered : Ordered header.count type) :
    ∃ c, maximum (.inner header type child) = maximum (findChild header.count type child c) ∧
      findChild header.count type child c ≠ .null ∧
      ∀ b, findChild header.count type child b ≠ .null → b = c ∨ b < c := by
  obtain ⟨b, -, -, hb, -⟩ := hlive.two
  obtain ⟨harrays, -, hleast⟩ := hlive
  cases type with
  | NodeType4 key =>
    have hpos : 0 < header.count := lt_of_lt_of_le Nat.two_pos hleast
    obtain ⟨hlast, hothers⟩ := last_slot harrays.2 hordered hpos
    refine ⟨key (header.count - 1), ?_, hlast.trans_ne (harrays.2.filled _ (by omega)), hothers⟩
    exact (congrArg maximum hlast).symm
  | NodeType16 key =>
    have hpos : 0 < header.count := lt_of_lt_of_le (Nat.zero_lt_succ 3) hleast
    obtain ⟨hslots, hfind⟩ := slots_flip harrays.2 harrays.1
    obtain ⟨hlast, hothers⟩ := last_slot hslots hordered hpos
    have hchild := (hfind (flipSign (key (header.count - 1)))).trans hlast
    refine ⟨flipSign (key (header.count - 1)), ?_,
      hchild.trans_ne (harrays.2.filled _ (by omega)), fun b hb => ?_⟩
    · exact (congrArg maximum hchild).symm
    · exact hothers b (hfind b ▸ hb)
  | NodeType48 childIndex =>
    have hmarked := marked_iff harrays.2 header.count
    obtain ⟨i, c, hfind, hi, hc, hothers⟩ := @exists_greatest_byte
      (fun pos => decide (childIndex (UInt8.ofNat pos) ≠ emptyMarker)) b ((hmarked b).mpr hb)
    have hne := (hmarked c).mp hc
    refine ⟨c, ?_, hne, fun b hb => hothers b ((hmarked b).mpr hb)⟩
    rw [maximum, hfind]
    simp only [hi]
    rw [← findChild_of_marked hne]
  | NodeType256 =>
    have htaken := taken_iff child header.count
    obtain ⟨i, c, hfind, hi, hc, hothers⟩ := @exists_greatest_byte
      (fun pos => decide (¬ (child pos).isNull = true)) b ((htaken b).mpr hb)
    refine ⟨c, ?_, (htaken c).mp hc, fun b hb => hothers b ((htaken b).mpr hb)⟩
    rw [maximum, hfind]
    simp only [hi]
    rfl

end Extremes

/-! ### The first and the last key -/

theorem InOrder.findChild {header : Header} {type : NodeType} {child : ℕ → Node}
    (h : ∀ i, InOrder (child i)) (b : UInt8) :
    InOrder (Art.findChild header.count type child b) := by
  rw [Art.findChild]
  cases findSlot header.count b type with
  | none => trivial
  | some i => exact h i

section Stands
variable {bytesOf : ℕ → ℕ → UInt8} {d : ℕ} {node : Node} {t : RadixTrie UInt8 ℕ}

theorem minimum_isFirst (hnode : Stands d node t) (hfits : Fits 4 d t) (hright : Right bytesOf d t)
    (horder : InOrder node) (hne : node ≠ .null) :
    ∃ w, minimum node = .ok w ∧ IsFirst (· < ·) bytesOf 4 d t w := by
  induction hnode with
  | null => exact absurd rfl hne
  | leaf d value => exact ⟨value, rfl, isFirst_leaf ..⟩
  | @inner d stop header type child path tchild hlive hstop hpath hchild ih =>
    obtain ⟨hd, hL, -, hfitsChild⟩ := hfits
    obtain ⟨c, hmin, hc, hothers⟩ := minimum_inner hlive horder.1
    obtain ⟨w, hw, hfirst⟩ := ih c (hfitsChild c) (hright c).1 (InOrder.findChild horder.2 c) hc
    refine ⟨w, hmin.trans hw, isFirst_inner hright hd hL (fun b hb => ?_) hfirst⟩
    exact hothers b fun hnull => hb ((hchild b).null_iff.mp hnull)

theorem maximum_isFirst (hnode : Stands d node t) (hfits : Fits 4 d t) (hright : Right bytesOf d t)
    (horder : InOrder node) (hne : node ≠ .null) :
    ∃ w, maximum node = .ok w ∧ IsFirst (fun a b => b < a) bytesOf 4 d t w := by
  induction hnode with
  | null => exact absurd rfl hne
  | leaf d value => exact ⟨value, rfl, isFirst_leaf ..⟩
  | @inner d stop header type child path tchild hlive hstop hpath hchild ih =>
    obtain ⟨hd, hL, -, hfitsChild⟩ := hfits
    obtain ⟨c, hmax, hc, hothers⟩ := maximum_inner hlive horder.1
    obtain ⟨w, hw, hfirst⟩ := ih c (hfitsChild c) (hright c).1 (InOrder.findChild horder.2 c) hc
    refine ⟨w, hmax.trans hw, isFirst_inner hright hd hL (fun b hb => ?_) hfirst⟩
    exact hothers b fun hnull => hb ((hchild b).null_iff.mp hnull)

end Stands

/-- The order of the bytes, the most significant one first, is that of the keys. -/
theorem le_of_lexLE {a b : UInt32} (h : LexLE (· < ·) (keyByte a) (keyByte b) 0 4) : a ≤ b := by
  rcases h with hsame | ⟨m, -, hm, hsame, hlt⟩
  · rw [eq_of_agree hsame]
  · have hbyte : ∀ i, i < m → (keyByte a i).toNat = (keyByte b i).toNat := fun i hi =>
      congrArg UInt8.toNat (hsame i (Nat.zero_le i) hi)
    have hless := UInt8.lt_iff_toNat_lt.mp hlt
    have ha := a.toNat_lt
    have hb := b.toNat_lt
    have hbytes : ∀ key : UInt32, (keyByte key 0).toNat = key.toNat / 2 ^ 24 % 256 ∧
        (keyByte key 1).toNat = key.toNat / 2 ^ 16 % 256 ∧
        (keyByte key 2).toNat = key.toNat / 2 ^ 8 % 256 ∧ (keyByte key 3).toNat = key.toNat % 256 := by
      intro key
      simp [keyByte, swapBytes, Nat.shiftRight_eq_div_pow]
    obtain ⟨ha0, ha1, ha2, ha3⟩ := hbytes a
    obtain ⟨hb0, hb1, hb2, hb3⟩ := hbytes b
    rw [UInt32.le_iff_toNat_le]
    interval_cases m
    · omega
    · have h0 := hbyte 0 (by omega)
      omega
    · have h0 := hbyte 0 (by omega)
      have h1 := hbyte 1 (by omega)
      omega
    · have h0 := hbyte 0 (by omega)
      have h1 := hbyte 1 (by omega)
      have h2 := hbyte 2 (by omega)
      omega

section Tuples
variable {data tuples : List Tuple} {tree_ : Node}

/-- `minimum` returns the value of the least key. -/
theorem IsMapOf.minimum_least (h : IsMapOf data tuples tree_) (horder : InOrder tree_)
    (hne : tree_ ≠ .null) : ∃ s ∈ tuples, minimum tree_ = .ok s.payload.toNat ∧
      ∀ s' ∈ tuples, s.key ≤ s'.key := by
  obtain ⟨hresolved, t, hstands, ht⟩ := h
  obtain ⟨w, hmin, hmem, hfirst⟩ := minimum_isFirst hstands ht.fits ht.right horder hne
  obtain ⟨s, hs, rfl⟩ := List.mem_map.mp ((ht.mem w).mp hmem)
  refine ⟨s, hs, hmin, fun s' hs' => le_of_lexLE ?_⟩
  have hle := hfirst _ ((ht.mem _).mpr (List.mem_map_of_mem hs'))
  rwa [(hresolved s hs).bytesOf_eq, (hresolved s' hs').bytesOf_eq] at hle

/-- `maximum` returns the value of the greatest key. -/
theorem IsMapOf.maximum_greatest (h : IsMapOf data tuples tree_) (horder : InOrder tree_)
    (hne : tree_ ≠ .null) : ∃ s ∈ tuples, maximum tree_ = .ok s.payload.toNat ∧
      ∀ s' ∈ tuples, s'.key ≤ s.key := by
  obtain ⟨hresolved, t, hstands, ht⟩ := h
  obtain ⟨w, hmax, hmem, hfirst⟩ := maximum_isFirst hstands ht.fits ht.right horder hne
  obtain ⟨s, hs, rfl⟩ := List.mem_map.mp ((ht.mem w).mp hmem)
  refine ⟨s, hs, hmax, fun s' hs' => le_of_lexLE (LexLE.swap ?_)⟩
  have hle := hfirst _ ((ht.mem _).mpr (List.mem_map_of_mem hs'))
  rwa [(hresolved s hs).bytesOf_eq, (hresolved s' hs').bytesOf_eq] at hle

end Tuples

/-- CORRECT: after any run of inserts and erases that returns and leaves a key stored, `minimum` and
    `maximum` return the values of the least and the greatest stored key. -/
theorem art_extremes (data : List Tuple) (calls : List Call)
    (hvalues : ∀ key_value, .insert key_value ∈ calls →
      ∃ t, data[key_value.payload.toNat]? = some t ∧ t.key = key_value.key) (tree_ : Node)
    (hrun : runCalls data calls .null = .ok tree_) (hstored : stored calls ≠ []) :
    (∃ s ∈ stored calls, minimum tree_ = .ok s.payload.toNat ∧
      ∀ s' ∈ stored calls, s.key ≤ s'.key) ∧
    ∃ s ∈ stored calls, maximum tree_ = .ok s.payload.toNat ∧
      ∀ s' ∈ stored calls, s'.key ≤ s.key := by
  have hempty : InOrder .null := trivial
  have horder := runCalls_inOrder hempty hrun
  rcases runCalls_spec fun kv hkv => resolved_of_getElem? (hvalues kv hkv) with
    ⟨-, tree', hok, hmap⟩ | ⟨-, hfault⟩
  · obtain rfl := Except.ok.inj (hok.symm.trans hrun)
    have hne : tree' ≠ .null := fun hnull => hstored (hmap.null_iff.mp hnull)
    exact ⟨hmap.minimum_least horder hne, hmap.maximum_greatest horder hne⟩
  · rw [hfault] at hrun
    cases hrun

/-- The key 5 was the least one until it was erased. -/
theorem art_extremes_three :
    let data : List Tuple := [⟨4000000000, 0⟩, ⟨5, 0⟩, ⟨300, 0⟩]
    ∃ tree_, runCalls data [.insert ⟨4000000000, 0⟩, .insert ⟨5, 1⟩, .insert ⟨300, 2⟩, .erase 5] .null
        = .ok tree_ ∧ minimum tree_ = .ok 2 ∧ maximum tree_ = .ok 0 := by
  intro data
  have hvalues : ∀ kv, .insert kv ∈
      [Call.insert ⟨4000000000, 0⟩, .insert ⟨5, 1⟩, .insert ⟨300, 2⟩, .erase 5] →
      ∃ t, data[kv.payload.toNat]? = some t ∧ t.key = kv.key := by
    intro kv hkv
    simp only [List.mem_cons, Call.insert.injEq, reduceCtorEq, List.not_mem_nil, or_false] at hkv
    rcases hkv with rfl | rfl | rfl
    · exact ⟨⟨4000000000, 0⟩, rfl, rfl⟩
    · exact ⟨⟨5, 0⟩, rfl, rfl⟩
    · exact ⟨⟨300, 0⟩, rfl, rfl⟩
  have hnew : InsertsNewKeys
      [Call.insert ⟨4000000000, 0⟩, .insert ⟨5, 1⟩, .insert ⟨300, 2⟩, .erase 5] := by
    change InsertsNewKeys
      ([] ++ [Call.insert ⟨4000000000, 0⟩] ++ [.insert ⟨5, 1⟩] ++ [.insert ⟨300, 2⟩] ++ [.erase 5])
    simp only [insertsNewKeys_snoc]
    simp [insertsNewKeys_nil, stored, Call.apply]
  obtain ⟨-, tree_, hrun, -⟩ := (runCalls_spec fun kv hkv =>
    resolved_of_getElem? (hvalues kv hkv)).resolve_right fun h => h.1 hnew
  have hstored : stored [Call.insert ⟨4000000000, 0⟩, .insert ⟨5, 1⟩, .insert ⟨300, 2⟩, .erase 5]
      = [⟨4000000000, 0⟩, ⟨300, 2⟩] := by decide
  obtain ⟨⟨least, hleast, hmin, hle⟩, greatest, hgreatest, hmax, hge⟩ :=
    art_extremes data _ hvalues tree_ hrun (by rw [hstored]; exact List.cons_ne_nil _ _)
  rw [hstored] at hleast hle hgreatest hge
  simp only [List.mem_cons, List.not_mem_nil, or_false, forall_eq_or_imp, forall_eq]
    at hleast hle hgreatest hge
  refine ⟨tree_, hrun, ?_, ?_⟩
  · rcases hleast with rfl | rfl
    · exact absurd hle.2 (by decide)
    · exact hmin
  · rcases hgreatest with rfl | rfl
    · exact hmax
    · exact absurd hge.1 (by decide)

end Art
end HashingBenchmark

import HashingBenchmark.Art.Live
import Mathlib.Data.List.GetD

/-! What an erase makes of an inner node.

    Where two children or more are left, it is a live node without the one that was taken out; a
    `Node4` with one child left is replaced by this child, with a longer prefix (`Erased`). -/

namespace HashingBenchmark
namespace Art

/-! ### Slots in order -/

section Slots
variable {count : ℕ} {key key' : ℕ → UInt8} {child child' : ℕ → Node} {x : UInt8} {pos : ℕ}

theorem removeAt_shift {α : Type} (a : ℕ → α) {pos count j : ℕ} (hj : j + 1 < count) :
    removeAt a pos count j = a (shift pos j) := by
  rw [removeAt, shift]
  split_ifs with hmoved hlt hlt
  · omega
  · rfl
  · rfl
  · omega

theorem shift_ne (pos j : ℕ) : shift pos j ≠ pos := by
  rw [shift]
  split_ifs <;> omega

theorem shift_inj {pos i j : ℕ} (h : shift pos i = shift pos j) : i = j := by
  rw [shift, shift] at h
  split_ifs at h <;> omega

theorem exists_shift_of_ne {pos i count : ℕ} (hi : i < count) (hne : i ≠ pos) (hpos : pos < count) :
    ∃ j, j + 1 < count ∧ i = shift pos j := by
  rcases exists_shift (by omega : pos ≤ count - 1) (by omega : i < count - 1 + 1) with heq | ⟨j, hj, heq⟩
  · exact absurd heq hne
  · exact ⟨j, by omega, heq⟩

/-- Taking out the child of the byte `x`. -/
theorem Slots.removeAt (h : Slots count key child) (hpos : pos < count) (hx : key pos = x) :
    Slots (count - 1) (Art.removeAt key pos count) (Art.removeAt child pos count) ∧
      ∀ y, childOf (count - 1) (Art.removeAt key pos count) (Art.removeAt child pos count) y
        = if y = x then .null else childOf count key child y := by
  have hshift : ∀ j, j < count - 1 → shift pos j < count := fun j hj => by
    have hlt := @shift_lt pos (count - 1) j hj
    omega
  have hslots : Slots (count - 1) (Art.removeAt key pos count) (Art.removeAt child pos count) := by
    refine ⟨fun i hi j hj heq => ?_, fun i hi => ?_⟩
    · rw [removeAt_shift key (by omega), removeAt_shift key (by omega)] at heq
      exact shift_inj (h.distinct _ (hshift i hi) _ (hshift j hj) heq)
    · rw [removeAt_shift child (by omega)]
      exact h.filled _ (hshift i hi)
  refine ⟨hslots, fun y => ?_⟩
  rcases slotOf_cases count key y with ⟨i, hi, hkey, -, -⟩ | ⟨hnot, -⟩
  · rcases eq_or_ne i pos with rfl | hne
    · rw [if_pos (hkey.symm.trans hx), childOf_of_forall_ne]
      intro j hj hy
      rw [removeAt_shift key (by omega)] at hy
      exact shift_ne i j (h.distinct _ (hshift j hj) _ hi (hy.trans hkey.symm))
    · obtain ⟨j, hj, rfl⟩ := exists_shift_of_ne hi hne hpos
      have hyx : y ≠ x := fun heq =>
        hne (h.distinct _ hi _ hpos (hkey.trans (heq.trans hx.symm)))
      rw [if_neg hyx, childOf_of_mem h hi hkey, childOf_of_mem hslots (by omega : j < count - 1)
        (by rw [removeAt_shift key hj, hkey]), removeAt_shift child hj]
  · have hyx : y ≠ x := fun heq => hnot pos hpos (hx.trans heq.symm)
    rw [if_neg hyx, childOf_of_forall_ne hnot, childOf_of_forall_ne]
    intro j hj hy
    rw [removeAt_shift key (by omega)] at hy
    exact hnot _ (hshift j hj) hy

/-- The same slots under other bytes. -/
theorem Slots.map {g : UInt8 → UInt8} (hg : Function.Injective g) (h : Slots count key child)
    (hkey : ∀ i < count, key' i = g (key i)) (hchild : ∀ i < count, child' i = child i) :
    Slots count key' child' ∧
      ∀ b, childOf count key' child' (g b) = childOf count key child b := by
  have hslots : Slots count key' child' := by
    refine ⟨fun i hi j hj heq => ?_, fun i hi => ?_⟩
    · rw [hkey i hi, hkey j hj] at heq
      exact h.distinct i hi j hj (hg heq)
    · rw [hchild i hi]
      exact h.filled i hi
  refine ⟨hslots, fun b => ?_⟩
  rcases slotOf_cases count key b with ⟨i, hi, hb, -, -⟩ | ⟨hnot, -⟩
  · rw [childOf_of_mem h hi hb, childOf_of_mem hslots hi (by rw [hkey i hi, hb]), hchild i hi]
  · rw [childOf_of_forall_ne hnot, childOf_of_forall_ne]
    intro i hi heq
    rw [hkey i hi] at heq
    exact hnot i hi (hg heq)

theorem flipSign_injective : Function.Injective flipSign := fun _ _ h => flipSign_inj.mp h

/-- The first four slots with their bytes flipped. -/
theorem Slots.flipped (h : Slots count key child) (hle : count ≤ 4) :
    Slots count (fun i => if i < 4 then flipSign (key i) else 0)
        (fun i => if i < 4 then child i else .null) ∧
      ∀ b, childOf count (fun i => if i < 4 then flipSign (key i) else 0)
          (fun i => if i < 4 then child i else .null) (flipSign b) = childOf count key child b :=
  h.map flipSign_injective (fun i hi => if_pos (by omega)) fun i hi => if_pos (by omega)

/-- Slots that are filled in the order of a list of bytes. -/
theorem slots_of_list {f : UInt8 → Node} {used : List UInt8} (hnodup : used.Nodup)
    (hused : ∀ b, b ∈ used ↔ f b ≠ .null) :
    Slots used.length (fun i => used.getD i 0) (fun i => (used.map f).getD i .null) ∧
      ∀ b, childOf used.length (fun i => used.getD i 0) (fun i => (used.map f).getD i .null) b
        = f b := by
  have hkey : ∀ i (hi : i < used.length), used.getD i 0 = used[i] := fun i hi =>
    List.getD_eq_getElem _ _ hi
  have hchild : ∀ i (hi : i < used.length), (used.map f).getD i .null = f used[i] := by
    intro i hi
    rw [List.getD_eq_getElem _ _ (by rw [List.length_map]; exact hi), List.getElem_map]
  have hslots : Slots used.length (fun i => used.getD i 0) (fun i => (used.map f).getD i .null) := by
    refine ⟨fun i hi j hj heq => ?_, fun i hi => ?_⟩
    · rw [hkey i hi, hkey j hj] at heq
      exact (hnodup.getElem_inj_iff).mp heq
    · rw [hchild i hi]
      exact (hused _).mp (List.getElem_mem hi)
  refine ⟨hslots, fun b => ?_⟩
  by_cases hb : b ∈ used
  · obtain ⟨i, hi, rfl⟩ := List.getElem_of_mem hb
    rw [childOf_of_mem hslots hi (hkey i hi), hchild i hi]
  · rw [childOf_of_forall_ne fun i hi heq => hb ?_]
    · by_contra hne
      exact hb ((hused b).mpr fun h => hne h.symm)
    · rw [← heq, hkey i hi]
      exact List.getElem_mem hi

/-- A `Node48` that is filled in the order of a list of bytes. -/
theorem sparse_of_list {f : UInt8 → Node} {used : List UInt8} (hnodup : used.Nodup)
    (hused : ∀ b, b ∈ used ↔ f b ≠ .null) (hlength : used.length ≤ 48) (count : ℕ) :
    Sparse (fun b => if b ∈ used then UInt8.ofNat (used.idxOf b) else emptyMarker)
        (fun i => (used.map f).getD i .null) ∧
      ∀ b, findChild count
          (.NodeType48 fun b => if b ∈ used then UInt8.ofNat (used.idxOf b) else emptyMarker)
          (fun i => (used.map f).getD i .null) b = f b := by
  have hslot : ∀ b ∈ used, (UInt8.ofNat (used.idxOf b)).toNat = used.idxOf b ∧
      UInt8.ofNat (used.idxOf b) ≠ emptyMarker := fun b hb =>
    toNat_ofNat_slot ((List.idxOf_lt_length_of_mem hb).trans_le hlength)
  have hchild : ∀ b ∈ used, (used.map f).getD (used.idxOf b) .null = f b := by
    intro b hb
    have hlt := List.idxOf_lt_length_of_mem hb
    rw [List.getD_eq_getElem _ _ (by rw [List.length_map]; exact hlt), List.getElem_map,
      List.getElem_idxOf]
  have hmem : ∀ b, (if b ∈ used then UInt8.ofNat (used.idxOf b) else emptyMarker) ≠ emptyMarker ↔
      b ∈ used := by
    intro b
    split_ifs with hb
    · exact iff_of_true (hslot b hb).2 hb
    · exact iff_of_false (fun h => h rfl) hb
  refine ⟨⟨fun b hb => ?_, fun i hi hne => ?_, fun b c hb heq => ?_⟩, fun b => ?_⟩
  · have hb' := (hmem b).mp hb
    rw [if_pos hb', (hslot b hb').1, hchild b hb']
    exact ⟨(List.idxOf_lt_length_of_mem hb').trans_le hlength, (hused b).mp hb'⟩
  · have hlt : i < used.length := by
      by_contra hge
      rw [List.getD_eq_default _ _ (by rw [List.length_map]; omega)] at hne
      exact hne rfl
    have hb := List.getElem_mem hlt
    refine ⟨used[i], (hmem _).mpr hb, ?_⟩
    rw [if_pos hb, (hslot _ hb).1]
    exact hnodup.idxOf_getElem i hlt
  · have hb' := (hmem b).mp hb
    have hc' : c ∈ used := (hmem c).mp (heq ▸ hb)
    rw [if_pos hb', if_pos hc'] at heq
    have hidx := congrArg UInt8.toNat heq
    rw [(hslot b hb').1, (hslot c hc').1] at hidx
    exact (List.idxOf_inj hb').mp hidx
  · rw [findChild_NodeType48]
    by_cases hb : b ∈ used
    · rw [if_pos ((hmem b).mpr hb), if_pos hb, (hslot b hb).1, hchild b hb]
    · rw [if_neg fun h => hb ((hmem b).mp h)]
      by_contra hne
      exact hb ((hused b).mpr fun h => hne h.symm)

end Slots

/-! ### Erasing -/

/-- The only child of a node in its place. -/
def replaced (header : Header) (c : UInt8) : Node → Node
  | .inner below type child => .inner (header.concatenate c below) type child
  | node => node

/-- A node that has the children `f` left: a live one, or its only child. -/
def Erased (header : Header) (f : UInt8 → Node) (node : Node) : Prop :=
  LiveWith header f node ∨
    ∃ c, f c ≠ .null ∧ (∀ b ≠ c, f b = .null) ∧ node = replaced header c (f c)

@[simp] theorem Header.decr_count (header : Header) : header.decr.count = header.count - 1 := rfl

section Erase
variable {header : Header} {child : ℕ → Node} {keyByte : UInt8} {i : ℕ}

theorem of_slotOf {count : ℕ} {key : ℕ → UInt8} {x : UInt8} (h : slotOf count key x = some i) :
    i < count ∧ key i = x := by
  rcases slotOf_cases count key x with ⟨j, hj, hkey, -, hsome⟩ | ⟨-, hnone⟩
  · obtain rfl := Option.some.inj (hsome.symm.trans h)
    exact ⟨hj, hkey⟩
  · rw [hnone] at h
    cases h

variable {f : UInt8 → Node}

/-- A node with the children that are left. -/
theorem liveWith_of_children {header' : Header} {type type' : NodeType} {child' : ℕ → Node}
    (hcount : header.count = (childBytes (findChild header.count type child)).length)
    (hf : ∀ b, f b = if b = keyByte then .null else findChild header.count type child b)
    (hne : findChild header.count type child keyByte ≠ .null)
    (harrays : Arrays header'.count child' type') (hcount' : header'.count = header.count - 1)
    (hleast : type'.least ≤ header'.count) (hlength : header'.prefixLength = header.prefixLength)
    (hpath : ∀ i, i < header.prefixLength → i < maxPrefixLength → header'.path i = header.path i)
    (hchild : ∀ b, findChild header'.count type' child' b = f b) :
    LiveWith header f (.inner header' type' child') := by
  refine ⟨_, _, _, rfl, ⟨harrays, ?_, hleast⟩, hlength, hpath, hchild⟩
  have hone := length_childBytes_remove hf hne
  rw [funext hchild]
  omega

theorem eraseNode4_erased {key : ℕ → UInt8} (h : Live header (.NodeType4 key) child)
    (hslot : slotOf header.count key keyByte = some i)
    (hf : ∀ b, f b = if b = keyByte then .null
      else findChild header.count (.NodeType4 key) child b) :
    ∃ node, eraseNode4 header key child i = .ok node ∧ Erased header f node := by
  obtain ⟨⟨hle, hslots⟩, hcount, hleast⟩ := h
  obtain ⟨hi, hkey⟩ := of_slotOf hslot
  have hne : findChild header.count (.NodeType4 key) child keyByte ≠ .null := by
    change childOf header.count key child keyByte ≠ .null
    rw [childOf_of_mem hslots hi hkey]
    exact hslots.filled i hi
  obtain ⟨hslots', hchild'⟩ := hslots.removeAt hi hkey
  have hleft : ∀ b, childOf (header.count - 1) (removeAt key i header.count)
      (removeAt child i header.count) b = f b := fun b => (hchild' b).trans (hf b).symm
  rw [eraseNode4, Header.decr_count]
  by_cases hone : header.count - 1 = 1
  · rw [hone] at hslots' hleft
    have hfirst := (childOf_of_mem hslots' Nat.one_pos rfl).symm.trans (hleft _)
    have hfilled := hslots'.filled 0 Nat.one_pos
    simp only [if_pos hone]
    refine ⟨replaced header (removeAt key i header.count 0) (removeAt child i header.count 0), ?_,
      Or.inr ⟨removeAt key i header.count 0, hfirst ▸ hfilled, fun b hb => ?_, by rw [hfirst]⟩⟩
    · cases hlast : removeAt child i header.count 0 with
      | null => exact absurd hlast hfilled
      | leaf value => rfl
      | inner below type children => rfl
    · rw [← hleft, childOf_of_forall_ne]
      intro j hj heq
      obtain rfl : j = 0 := by omega
      exact hb heq.symm
  · have htwo : 2 ≤ header.count := hleast
    have harrays : Arrays header.decr.count (removeAt child i header.count)
        (.NodeType4 (removeAt key i header.count)) := by
      refine ⟨?_, hslots'⟩
      rw [Header.decr_count]
      omega
    have hleast' : 2 ≤ header.decr.count := by
      rw [Header.decr_count]
      omega
    refine ⟨_, if_neg hone, Or.inl ?_⟩
    exact liveWith_of_children hcount hf hne harrays rfl hleast' rfl (fun _ _ _ => rfl) hleft

theorem eraseNode16_live {key : ℕ → UInt8} (h : Live header (.NodeType16 key) child)
    (hslot : slotOf header.count key (flipSign keyByte) = some i)
    (hf : ∀ b, f b = if b = keyByte then .null
      else findChild header.count (.NodeType16 key) child b) :
    LiveWith header f (eraseNode16 header key child i) := by
  obtain ⟨⟨hle, hslots⟩, hcount, hleast⟩ := h
  obtain ⟨hi, hkey⟩ := of_slotOf hslot
  have hfour : 4 ≤ header.count := hleast
  have hne : findChild header.count (.NodeType16 key) child keyByte ≠ .null := by
    rw [findChild_NodeType16 hle, childOf_of_mem hslots hi hkey]
    exact hslots.filled i hi
  obtain ⟨hslots', hchild'⟩ := hslots.removeAt hi hkey
  have hleft : ∀ b, childOf (header.count - 1) (removeAt key i header.count)
      (removeAt child i header.count) (flipSign b) = f b := by
    intro b
    rw [hchild', hf, findChild_NodeType16 hle]
    simp only [flipSign_inj]
  rw [eraseNode16, Header.decr_count]
  by_cases hthree : header.count - 1 = 3
  · rw [hthree] at hslots' hleft
    obtain ⟨hslots4, hchild4⟩ := hslots'.flipped (by decide)
    have hcount' : header.decr.copy.count = 3 := hthree
    have hpath : ∀ j, j < header.prefixLength → j < maxPrefixLength →
        header.decr.copy.path j = header.path j := fun j hj hmax =>
      @Header.copy_path header.decr j hj hmax
    simp only [if_pos hthree]
    refine liveWith_of_children hcount hf hne ?_ rfl ?_ rfl hpath fun b => ?_
    · rw [hcount']
      exact ⟨by decide, hslots4⟩
    · rw [hcount']
      exact Nat.le_succ 2
    · rw [hcount', ← hleft, ← hchild4, flipSign_flipSign]
      rfl
  · have harrays : Arrays header.decr.count (removeAt child i header.count)
        (.NodeType16 (removeAt key i header.count)) := by
      refine ⟨?_, hslots'⟩
      rw [Header.decr_count]
      omega
    have hleast' : 4 ≤ header.decr.count := by
      rw [Header.decr_count]
      omega
    simp only [if_neg hthree]
    refine liveWith_of_children hcount hf hne harrays rfl hleast' rfl (fun _ _ _ => rfl) fun b => ?_
    rw [findChild_NodeType16 harrays.1]
    exact hleft b

/-- Giving up the slot of a byte. -/
theorem Sparse.remove {childIndex : UInt8 → UInt8} (h : Sparse childIndex child)
    (hkey : childIndex keyByte ≠ emptyMarker) (count count' : ℕ) :
    Sparse (Function.update childIndex keyByte emptyMarker)
        (Function.update child (childIndex keyByte).toNat .null) ∧
      ∀ b, findChild count' (.NodeType48 (Function.update childIndex keyByte emptyMarker))
          (Function.update child (childIndex keyByte).toNat .null) b
        = if b = keyByte then .null else findChild count (.NodeType48 childIndex) child b := by
  have hother : ∀ b, b ≠ keyByte → childIndex b ≠ emptyMarker →
      (childIndex b).toNat ≠ (childIndex keyByte).toNat := fun b hb hmark heq =>
    hb (h.distinct b keyByte hmark (UInt8.toNat_inj.mp heq))
  have hleft : ∀ b, Function.update childIndex keyByte emptyMarker b ≠ emptyMarker →
      b ≠ keyByte ∧ childIndex b ≠ emptyMarker := by
    intro b hb
    rcases eq_or_ne b keyByte with rfl | hne
    · rw [Function.update_self] at hb
      exact absurd rfl hb
    · rw [Function.update_of_ne hne] at hb
      exact ⟨hne, hb⟩
  refine ⟨⟨fun b hb => ?_, fun i hi hnull => ?_, fun b c hb heq => ?_⟩, fun b => ?_⟩
  · obtain ⟨hne, hmark⟩ := hleft b hb
    rw [Function.update_of_ne hne, Function.update_of_ne (hother b hne hmark)]
    exact h.inUse b hmark
  · have hi' : i ≠ (childIndex keyByte).toNat := by
      rintro rfl
      rw [Function.update_self] at hnull
      exact hnull rfl
    rw [Function.update_of_ne hi'] at hnull
    obtain ⟨b, hmark, heq⟩ := h.used i hi hnull
    have hne : b ≠ keyByte := by
      rintro rfl
      exact hi' heq.symm
    exact ⟨b, by rw [Function.update_of_ne hne]; exact hmark,
      by rw [Function.update_of_ne hne]; exact heq⟩
  · obtain ⟨hb', hmark⟩ := hleft b hb
    obtain ⟨hc', -⟩ := hleft c (heq ▸ hb)
    rw [Function.update_of_ne hb', Function.update_of_ne hc'] at heq
    exact h.distinct b c hmark heq
  · rw [findChild_NodeType48, findChild_NodeType48]
    rcases eq_or_ne b keyByte with rfl | hne
    · rw [Function.update_self, if_neg fun hmark => hmark rfl, if_pos rfl]
    · rw [Function.update_of_ne hne, if_neg hne]
      split_ifs with hmark
      · rw [Function.update_of_ne (hother b hne hmark)]
      · rfl

theorem eraseNode48_live {childIndex : UInt8 → UInt8}
    (h : Live header (.NodeType48 childIndex) child) (hkey : childIndex keyByte ≠ emptyMarker)
    (hf : ∀ b, f b = if b = keyByte then .null
      else findChild header.count (.NodeType48 childIndex) child b) :
    LiveWith header f (eraseNode48 header childIndex child keyByte) := by
  obtain ⟨⟨hle, hsparse⟩, hcount, hleast⟩ := h
  have hthirteen : 13 ≤ header.count := hleast
  have hne : findChild header.count (.NodeType48 childIndex) child keyByte ≠ .null := by
    rw [findChild_NodeType48, if_pos hkey]
    exact (hsparse.inUse keyByte hkey).2
  obtain ⟨hsparse', hchild'⟩ := hsparse.remove hkey header.count header.decr.count
  have hleft := fun b => (hchild' b).trans (hf b).symm
  rw [eraseNode48, Header.decr_count]
  generalize Function.update childIndex keyByte emptyMarker = childIndex' at *
  generalize Function.update child (childIndex keyByte).toNat .null = child' at *
  by_cases htwelve : header.count - 1 = 12
  · simp only [if_pos htwelve]
    have hslot : ∀ b, childIndex' b ≠ emptyMarker → child' (childIndex' b).toNat = f b := by
      intro b hb
      rw [← hleft, findChild_NodeType48, if_pos hb]
    have hused : ∀ b, b ∈ bytesWith (fun b => decide (childIndex' b ≠ emptyMarker)) ↔ f b ≠ .null := by
      intro b
      rw [mem_bytesWith, decide_eq_true_eq, ← hleft, findChild_NodeType48]
      split_ifs with hb
      · exact iff_of_true hb (hsparse'.inUse b hb).2
      · exact iff_of_false hb fun h => h rfl
    generalize hlist : bytesWith (fun b => decide (childIndex' b ≠ emptyMarker)) = used at *
    have hnodup : used.Nodup := hlist ▸ nodup_bytesWith _
    have hmap : used.map (fun b => child' (childIndex' b).toNat) = used.map f := by
      refine List.map_congr_left fun b hb => hslot b ?_
      rw [← hlist, mem_bytesWith, decide_eq_true_eq] at hb
      exact hb
    have hlength : used.length = header.count - 1 := by
      have hone := length_childBytes_remove hf hne
      have hperm : used.Perm (childBytes f) :=
        (List.perm_ext_iff_of_nodup hnodup (nodup_childBytes f)).mpr fun b => by
          rw [hused, mem_childBytes]
      rw [hperm.length_eq]
      omega
    obtain ⟨hslots, hchild⟩ := slots_of_list hnodup hused
    have hkeys : ∀ i < used.length, (used.map flipSign).getD i 0 = flipSign (used.getD i 0) := by
      intro i hi
      rw [List.getD_eq_getElem _ _ (by rw [List.length_map]; exact hi), List.getElem_map,
        List.getD_eq_getElem _ _ hi]
    obtain ⟨hslots16, hchild16⟩ := hslots.map flipSign_injective hkeys fun _ _ => rfl
    have hle16 : used.length ≤ 16 := by omega
    rw [hmap]
    refine liveWith_of_children hcount hf hne ⟨hle16, hslots16⟩ hlength ?_ rfl ?_ fun b => ?_
    · change 4 ≤ used.length
      omega
    · exact fun j hj hmax => @Header.copy_path header.decr j hj hmax
    · rw [findChild_NodeType16 hle16, hchild16, hchild]
  · have harrays : Arrays header.decr.count child' (.NodeType48 childIndex') := by
      refine ⟨?_, hsparse'⟩
      rw [Header.decr_count]
      omega
    have hleast' : 13 ≤ header.decr.count := by
      rw [Header.decr_count]
      omega
    simp only [if_neg htwelve]
    exact liveWith_of_children hcount hf hne harrays rfl hleast' rfl (fun _ _ _ => rfl) hleft

theorem eraseNode256_live (h : Live header .NodeType256 child) (hne : child keyByte.toNat ≠ .null)
    (hf : ∀ b, f b = if b = keyByte then .null
      else findChild header.count .NodeType256 child b) :
    LiveWith header f (eraseNode256 header child keyByte) := by
  obtain ⟨-, hcount, hleast⟩ := h
  have hmany : 38 ≤ header.count := hleast
  have hleft : ∀ b, Function.update child keyByte.toNat .null (UInt8.toNat b) = f b := by
    intro b
    rw [hf]
    split_ifs with hb
    · rw [hb, Function.update_self]
    · rw [Function.update_of_ne fun heq => hb (UInt8.toNat_inj.mp heq)]
      rfl
  rw [eraseNode256, Header.decr_count]
  generalize Function.update child keyByte.toNat .null = child' at *
  by_cases hfew : header.count - 1 = 37
  · simp only [if_pos hfew]
    have hsame : (fun b : UInt8 => child' b.toNat) = f := funext hleft
    have hlist : (bytesWith fun b => decide ¬ (child' b.toNat).isNull = true) = childBytes f := by
      rw [childBytes]
      simp only [hleft]
    have hlength : (childBytes f).length = header.count - 1 := by
      have hone := length_childBytes_remove hf hne
      omega
    obtain ⟨hsparse, hchild⟩ := sparse_of_list (nodup_childBytes f) (fun _ => mem_childBytes)
      (by omega) (childBytes f).length
    rw [hlist, hsame]
    refine liveWith_of_children hcount hf hne ⟨?_, hsparse⟩ hlength ?_ rfl ?_ hchild
    · change (childBytes f).length ≤ 48
      omega
    · change 13 ≤ (childBytes f).length
      omega
    · exact fun j hj hmax => @Header.copy_path header.decr j hj hmax
  · have hleast' : 38 ≤ header.decr.count := by
      rw [Header.decr_count]
      omega
    simp only [if_neg hfew]
    exact liveWith_of_children hcount hf hne trivial rfl hleast' rfl (fun _ _ _ => rfl) hleft

/-- Step lemma: whatever the kind of the node, the child that `findChild` points to is taken out and
    all others are kept. -/
theorem eraseNode_erased {type : NodeType} (h : Live header type child)
    (hslot : findSlot header.count keyByte type = some i) (hne : child i ≠ .null)
    (hf : ∀ b, f b = if b = keyByte then .null else findChild header.count type child b) :
    ∃ node, eraseNode header type child i keyByte = .ok node ∧ Erased header f node := by
  cases type with
  | NodeType4 key => exact eraseNode4_erased h hslot hf
  | NodeType16 key =>
    rw [findSlot_NodeType16 h.arrays.1] at hslot
    exact ⟨_, rfl, Or.inl (eraseNode16_live h hslot hf)⟩
  | NodeType48 childIndex =>
    rw [findSlot] at hslot
    split_ifs at hslot with hkey
    exact ⟨_, rfl, Or.inl (eraseNode48_live h hkey hf)⟩
  | NodeType256 =>
    obtain rfl : keyByte.toNat = i := Option.some.inj hslot
    exact ⟨_, rfl, Or.inl (eraseNode256_live h hne hf)⟩

end Erase

end Art
end HashingBenchmark

import HashingBenchmark.Art.Node

/-! The four kinds of inner nodes are maps from bytes to children.

    `Wf` is what the arrays of a node keep: the slots in use are the first `count`, no two of them are
    for one byte, and none is null. For such a node `insertNode` adds one child and keeps all others,
    also where the node grows (`insertNode_adds`). The order of the key bytes in a node, which the
    insertions sort, plays no part in it. -/

namespace HashingBenchmark
namespace Art
open LaneMask

theorem isNull_iff {node : Node} : node.isNull = true ↔ node = .null := by
  cases node <;> simp [Node.isNull]

theorem flipSign_flipSign (b : UInt8) : flipSign (flipSign b) = b := by
  rw [flipSign, flipSign, UInt8.xor_assoc, UInt8.xor_self, UInt8.xor_zero]

theorem flipSign_inj {a b : UInt8} : flipSign a = flipSign b ↔ a = b :=
  ⟨fun h => by rw [← flipSign_flipSign a, h, flipSign_flipSign], congrArg _⟩

/-! ### Searching key bytes -/

/-- The first slot with the byte `x`, among `count`. -/
def slotOf (count : ℕ) (key : ℕ → UInt8) (x : UInt8) : Option ℕ :=
  (List.range count).find? fun i => key i = x

theorem slotOf_cases (count : ℕ) (key : ℕ → UInt8) (x : UInt8) :
    (∃ i < count, key i = x ∧ (∀ j < i, key j ≠ x) ∧ slotOf count key x = some i) ∨
    ((∀ i < count, key i ≠ x) ∧ slotOf count key x = none) := by
  cases hslot : slotOf count key x with
  | some i =>
    obtain ⟨hi, hmem, hbefore⟩ := List.find?_range_eq_some.mp hslot
    exact Or.inl ⟨i, List.mem_range.mp hmem, by simpa using hi, fun j hj => by simpa using hbefore j hj,
      rfl⟩
  | none =>
    have hnone := List.find?_eq_none.mp hslot
    exact Or.inr ⟨fun i hi => by simpa using hnone i (List.mem_range.mpr hi), rfl⟩

/-- The mask of the first `count` lanes. -/
theorem getLsbD_low {count : ℕ} (hcount : count ≤ 16) (j : ℕ) :
    (1#32 <<< count - 1#32).getLsbD j = decide (j < count) := by
  have hlow : 1#32 <<< count - 1#32 = (BitVec.allOnes count).setWidth 32 := by
    apply BitVec.eq_of_toNat_eq
    have hle : 2 ^ count ≤ 2 ^ 16 := Nat.pow_le_pow_right (by decide) hcount
    have hpos : 0 < 2 ^ count := Nat.two_pow_pos count
    simp [BitVec.toNat_sub, BitVec.toNat_shiftLeft, Nat.shiftLeft_eq]
    omega
  rw [hlow, BitVec.getLsbD_setWidth, BitVec.getLsbD_allOnes]
  by_cases hj : j < count
  · simp [hj]; omega
  · simp [hj]

/-- The vector search is the search slot by slot. -/
theorem findSlot_NodeType16 {count : ℕ} (hcount : count ≤ 16) (key : ℕ → UInt8) (keyByte : UInt8) :
    findSlot count keyByte (.NodeType16 key) = slotOf count key (flipSign keyByte) := by
  have hlanes := (encodes_movemask_epi8 Nat.one_pos (set1 (flipSign keyByte).toBitVec)
    (loadu key)).setWidth (by decide : 16 * 1 ≤ 32)
  have hbits : Encodes 1 (fun i : Fin 16 => i.val < count ∧ key i = flipSign keyByte)
      ((movemask_epi8 (cmpeq (set1 (flipSign keyByte).toBitVec) (loadu key) :
        Lanes 16 (8 * 1))).setWidth 32 &&& (1#32 <<< count - 1#32)) := by
    intro j
    rw [BitVec.getLsbD_and, Bool.and_eq_true, hlanes j, getLsbD_low hcount, decide_eq_true_eq,
      Nat.div_one]
    constructor
    · rintro ⟨⟨hlt, heq⟩, hj⟩
      exact ⟨hlt, hj, (UInt8.toBitVec_inj.mp heq).symm⟩
    · rintro ⟨hlt, hj, heq⟩
      exact ⟨⟨hlt, congrArg UInt8.toBitVec heq.symm⟩, hj⟩
  rw [findSlot]
  rcases slotOf_cases count key (flipSign keyByte) with ⟨i, hi, hkey, hbefore, hslot⟩ | ⟨hnot, hslot⟩
  · rw [hslot]
    rcases ctz_cases hbits Nat.one_pos with ⟨hne, k, hk, hfirst, hctz⟩ | ⟨-, hnone⟩
    · rw [if_pos hne]
      rw [Nat.div_one] at hctz
      rw [hctz]
      congr 1
      rcases Nat.lt_trichotomy k.val i with hlt | heq | hgt
      · exact absurd hk.2 (hbefore k hlt)
      · exact heq
      · exact absurd ⟨hi, hkey⟩ (hfirst ⟨i, by omega⟩ hgt)
    · exact absurd ⟨hi, hkey⟩ (hnone ⟨i, by omega⟩)
  · rw [hslot]
    rcases ctz_cases hbits Nat.one_pos with ⟨-, k, hk, -, -⟩ | ⟨hzero, -⟩
    · exact absurd hk.2 (hnot k hk.1)
    · rw [if_neg fun hne => hne hzero]

/-! ### Well-formed nodes -/

/-- The first `count` slots have different bytes and a child each. -/
structure Slots (count : ℕ) (key : ℕ → UInt8) (child : ℕ → Node) : Prop where
  distinct : ∀ i < count, ∀ j < count, key i = key j → i = j
  filled : ∀ i < count, child i ≠ .null

/-- The slots in `childIndex` are among the first `count`, which are the ones in use, and no slot is
    there twice. -/
structure Indexed (count : ℕ) (childIndex : UInt8 → UInt8) (child : ℕ → Node) : Prop where
  inUse : ∀ b, childIndex b ≠ emptyMarker → (childIndex b).toNat < count
  filled : ∀ i < 48, child i = .null ↔ count ≤ i
  distinct : ∀ b c, childIndex b ≠ emptyMarker → childIndex b = childIndex c → b = c

def Wf (count : ℕ) (child : ℕ → Node) : NodeType → Prop
  | .NodeType4 key => count ≤ 4 ∧ Slots count key child
  | .NodeType16 key => count ≤ 16 ∧ Slots count key child
  | .NodeType48 childIndex => count ≤ 48 ∧ Indexed count childIndex child
  | .NodeType256 => True

/-- The child that a search among key bytes leads to. -/
def childOf (count : ℕ) (key : ℕ → UInt8) (child : ℕ → Node) (x : UInt8) : Node :=
  match slotOf count key x with
  | none => .null
  | some i => child i

section ChildOf
variable {count : ℕ} {key : ℕ → UInt8} {child : ℕ → Node} {x : UInt8} {i : ℕ}

theorem childOf_of_mem (h : Slots count key child) (hi : i < count) (hx : key i = x) :
    childOf count key child x = child i := by
  rw [childOf]
  rcases slotOf_cases count key x with ⟨j, hj, hkey, -, hslot⟩ | ⟨hnot, -⟩
  · rw [hslot, h.distinct j hj i hi (hkey.trans hx.symm)]
  · exact absurd hx (hnot i hi)

theorem childOf_of_forall_ne (h : ∀ i < count, key i ≠ x) : childOf count key child x = .null := by
  rw [childOf]
  rcases slotOf_cases count key x with ⟨j, hj, hkey, -, -⟩ | ⟨-, hslot⟩
  · exact absurd hkey (h j hj)
  · rw [hslot]

/-- A byte without a child is in no slot. -/
theorem Slots.ne_of_childOf (h : Slots count key child) (hnull : childOf count key child x = .null)
    (hi : i < count) : key i ≠ x := by
  intro hx
  exact h.filled i hi (by rw [← childOf_of_mem h hi hx, hnull])

/-- Where slot `j` is after an insert at `pos`. -/
def shift (pos j : ℕ) : ℕ := if j < pos then j else j + 1

theorem insertAt_pos {α : Type} (a : ℕ → α) (pos count : ℕ) (z : α) :
    insertAt a pos count z pos = z := by simp [insertAt]

theorem insertAt_shift {α : Type} (a : ℕ → α) (pos : ℕ) {count j : ℕ} (z : α) (hj : j < count) :
    insertAt a pos count z (shift pos j) = a j := by
  rw [shift]
  split_ifs with hlt
  · simp [insertAt, hlt]
  · rw [insertAt, if_neg (by omega), if_neg (by omega), if_pos (by omega), Nat.add_sub_cancel]

theorem exists_shift {pos count i : ℕ} (hpos : pos ≤ count) (hi : i < count + 1) :
    i = pos ∨ ∃ j < count, i = shift pos j := by
  rcases Nat.lt_trichotomy i pos with hlt | heq | hgt
  · exact Or.inr ⟨i, by omega, by rw [shift, if_pos hlt]⟩
  · exact Or.inl heq
  · exact Or.inr ⟨i - 1, by omega, by rw [shift, if_neg (by omega)]; omega⟩

theorem shift_lt {pos count j : ℕ} (hj : j < count) : shift pos j < count + 1 := by
  rw [shift]
  split_ifs <;> omega

/-- Putting a new byte and its child in front of some slot, or behind all of them. -/
theorem Slots.insertAt (h : Slots count key child) {pos : ℕ} (hpos : pos ≤ count) {new : Node}
    (hnew : new ≠ .null) (hnull : childOf count key child x = .null) :
    Slots (count + 1) (Art.insertAt key pos count x) (Art.insertAt child pos count new) ∧
      ∀ y, childOf (count + 1) (Art.insertAt key pos count x) (Art.insertAt child pos count new) y
        = if y = x then new else childOf count key child y := by
  have hother : ∀ i < count, key i ≠ x := fun i hi => h.ne_of_childOf hnull hi
  have hslots : Slots (count + 1) (Art.insertAt key pos count x)
      (Art.insertAt child pos count new) := by
    refine ⟨fun i hi j hj heq => ?_, fun i hi => ?_⟩
    · rcases exists_shift hpos hi with rfl | ⟨i', hi', rfl⟩
      · rcases exists_shift hpos hj with rfl | ⟨j', hj', rfl⟩
        · rfl
        · rw [insertAt_pos, insertAt_shift _ _ _ hj'] at heq
          exact absurd heq.symm (hother j' hj')
      · rcases exists_shift hpos hj with rfl | ⟨j', hj', rfl⟩
        · rw [insertAt_pos, insertAt_shift _ _ _ hi'] at heq
          exact absurd heq (hother i' hi')
        · rw [insertAt_shift _ _ _ hi', insertAt_shift _ _ _ hj'] at heq
          rw [h.distinct i' hi' j' hj' heq]
    · rcases exists_shift hpos hi with rfl | ⟨i', hi', rfl⟩
      · rw [insertAt_pos]; exact hnew
      · rw [insertAt_shift _ _ _ hi']; exact h.filled i' hi'
  refine ⟨hslots, fun y => ?_⟩
  split_ifs with hy
  · rw [childOf_of_mem hslots (by omega : pos < count + 1) (by rw [insertAt_pos, hy]), insertAt_pos]
  · rcases slotOf_cases count key y with ⟨j, hj, hkey, -, -⟩ | ⟨hnot, -⟩
    · rw [childOf_of_mem h hj hkey, childOf_of_mem hslots (shift_lt hj)
        (by rw [insertAt_shift _ _ _ hj, hkey]), insertAt_shift _ _ _ hj]
    · rw [childOf_of_forall_ne hnot, childOf_of_forall_ne]
      intro i hi
      rcases exists_shift hpos hi with rfl | ⟨i', hi', rfl⟩
      · rw [insertAt_pos]; exact fun hxy => hy hxy.symm
      · rw [insertAt_shift _ _ _ hi']; exact hnot i' hi'

end ChildOf

/-! ### Adding a child -/

theorem findChild_NodeType16 {count : ℕ} (hcount : count ≤ 16) (key : ℕ → UInt8)
    (child : ℕ → Node) (b : UInt8) :
    findChild count (.NodeType16 key) child b = childOf count key child (flipSign b) := by
  rw [findChild, findSlot_NodeType16 hcount]
  rfl

/-- The node that comes out of an insert: all children of the old one, and `new` for `keyByte`. -/
def Adds (header : Header) (type : NodeType) (child : ℕ → Node) (keyByte : UInt8) (new : Node)
    (node : Node) : Prop :=
  ∃ header' type' child', node = .inner header' type' child' ∧ Wf header'.count child' type' ∧
    header'.prefixLength = header.prefixLength ∧
    (∀ i, i < header.prefixLength → i < maxPrefixLength → header'.path i = header.path i) ∧
    ∀ b, findChild header'.count type' child' b
      = if b = keyByte then new else findChild header.count type child b

theorem Header.copy_path {header : Header} {i : ℕ} (hi : i < header.prefixLength)
    (hmax : i < maxPrefixLength) : header.copy.path i = header.path i := by
  exact if_pos (lt_min hi hmax)

/-- A copy of a node of another kind with the same children may take its place. -/
theorem Adds.of_copy {header header' : Header} {type type' : NodeType} {child child' : ℕ → Node}
    {keyByte : UInt8} {new node : Node} (hlength : header'.prefixLength = header.prefixLength)
    (hpath : header'.path = header.copy.path)
    (hchild : ∀ b, findChild header'.count type' child' b = findChild header.count type child b)
    (h : Adds header' type' child' keyByte new node) : Adds header type child keyByte new node := by
  obtain ⟨header'', type'', child'', hnode, hwf, hlength', hpath', hchild'⟩ := h
  refine ⟨header'', type'', child'', hnode, hwf, hlength'.trans hlength, fun i hi hmax => ?_,
    fun b => by rw [hchild', hchild]⟩
  rw [hpath' i (by omega) hmax, hpath, Header.copy_path hi hmax]

theorem insertNode256_adds (header : Header) (child : ℕ → Node) (keyByte : UInt8) (new : Node) :
    Adds header .NodeType256 child keyByte new (insertNode256 header child keyByte new) := by
  refine ⟨_, _, _, rfl, trivial, rfl, fun _ _ _ => rfl, fun b => ?_⟩
  change Function.update child keyByte.toNat new b.toNat = _
  split_ifs with hb
  · rw [hb, Function.update_self]
  · rw [Function.update_of_ne fun heq => hb (UInt8.toNat_inj.mp heq)]
    rfl

theorem findChild_NodeType48 (count : ℕ) (childIndex : UInt8 → UInt8) (child : ℕ → Node)
    (b : UInt8) : findChild count (.NodeType48 childIndex) child b
      = if childIndex b ≠ emptyMarker then child (childIndex b).toNat else .null := by
  rw [findChild, findSlot]
  split_ifs <;> rfl

theorem toNat_ofNat_slot {n : ℕ} (hn : n < 48) :
    (UInt8.ofNat n).toNat = n ∧ UInt8.ofNat n ≠ emptyMarker := by
  have hslot : (UInt8.ofNat n).toNat = n := by
    rw [UInt8.toNat_ofNat']
    omega
  refine ⟨hslot, fun heq => ?_⟩
  have h48 : (UInt8.ofNat n).toNat = 48 := congrArg UInt8.toNat heq
  omega

/-- Using the first slot that is not in use. -/
theorem Indexed.add {count : ℕ} {childIndex : UInt8 → UInt8} {child : ℕ → Node}
    (h : Indexed count childIndex child) (hlt : count < 48) (keyByte : UInt8) {new : Node}
    (hnew : new ≠ .null) :
    Indexed (count + 1) (Function.update childIndex keyByte (UInt8.ofNat count))
        (Function.update child count new) ∧
      ∀ b, findChild (count + 1)
          (.NodeType48 (Function.update childIndex keyByte (UInt8.ofNat count)))
          (Function.update child count new) b
        = if b = keyByte then new else findChild count (.NodeType48 childIndex) child b := by
  obtain ⟨hslot, hmarker⟩ := toNat_ofNat_slot hlt
  have hne : ∀ b, childIndex b ≠ emptyMarker → childIndex b ≠ UInt8.ofNat count := by
    intro b hb heq
    have := h.inUse b hb
    rw [heq, hslot] at this
    omega
  refine ⟨⟨fun b hb => ?_, fun i hi => ?_, fun b c hb heq => ?_⟩, fun b => ?_⟩
  · rcases eq_or_ne b keyByte with rfl | hkey
    · rw [Function.update_self, hslot]; omega
    · rw [Function.update_of_ne hkey] at hb ⊢
      exact Nat.lt_succ_of_lt (h.inUse b hb)
  · rcases eq_or_ne i count with rfl | hi'
    · rw [Function.update_self]
      exact iff_of_false hnew (by omega)
    · rw [Function.update_of_ne hi', h.filled i hi]
      omega
  · rcases eq_or_ne b keyByte with rfl | hkey
    · rcases eq_or_ne c b with rfl | hkey'
      · rfl
      · rw [Function.update_self, Function.update_of_ne hkey'] at heq
        exact absurd heq.symm (hne c (heq ▸ hmarker))
    · rw [Function.update_of_ne hkey] at hb heq
      rcases eq_or_ne c keyByte with rfl | hkey'
      · rw [Function.update_self] at heq
        exact absurd heq (hne b hb)
      · rw [Function.update_of_ne hkey'] at heq
        exact h.distinct b c hb heq
  · rw [findChild_NodeType48, findChild_NodeType48]
    rcases eq_or_ne b keyByte with rfl | hkey
    · rw [Function.update_self, if_pos hmarker, hslot, Function.update_self, if_pos rfl]
    · rw [Function.update_of_ne hkey, if_neg hkey]
      split_ifs with hb
      · rw [Function.update_of_ne (h.inUse b hb).ne]
      · rfl

section Insert
variable {header : Header} {child : ℕ → Node} {keyByte : UInt8} {new : Node}

theorem insertNode48_adds {childIndex : UInt8 → UInt8}
    (h : Indexed header.count childIndex child) (hnew : new ≠ .null) :
    Adds header (.NodeType48 childIndex) child keyByte new
      (insertNode48 header childIndex child keyByte new) := by
  rw [insertNode48]
  by_cases hlt : header.count < 48
  · have hfree : (child header.count).isNull = true :=
      isNull_iff.mpr ((h.filled header.count hlt).mpr (le_refl _))
    obtain ⟨hindexed, hchild⟩ := h.add hlt keyByte hnew
    rw [if_pos hlt, if_pos hfree]
    exact ⟨_, _, _, rfl, ⟨hlt, hindexed⟩, rfl, fun _ _ _ => rfl, hchild⟩
  · rw [if_neg hlt]
    refine Adds.of_copy ?_ ?_ ?_ (insertNode256_adds header.copy _ keyByte new)
    · rfl
    · rfl
    · intro b
      have hb : b.toNat < 256 := b.toNat_lt
      rw [findChild_NodeType48, findChild, findSlot]
      simp only [UInt8.ofNat_toNat, hb, true_and]
      rfl

/-- The table of slots of the node that a full `Node16` grows into. -/
theorem indexKeys_cases (key : ℕ → UInt8) {n : ℕ} (hn : n ≤ 16) (b : UInt8) :
    (∃ i < n, flipSign (key i) = b ∧ indexKeys key n b = UInt8.ofNat i) ∨
    ((∀ i < n, flipSign (key i) ≠ b) ∧ indexKeys key n b = emptyMarker) := by
  induction n with
  | zero => exact Or.inr ⟨fun i hi => by omega, rfl⟩
  | succ n ih =>
    rw [indexKeys]
    rcases eq_or_ne b (flipSign (key n)) with rfl | hne
    · exact Or.inl ⟨n, by omega, rfl, Function.update_self ..⟩
    · rw [Function.update_of_ne hne]
      rcases ih (by omega) with ⟨i, hi, hkey, hindex⟩ | ⟨hnot, hindex⟩
      · exact Or.inl ⟨i, by omega, hkey, hindex⟩
      · refine Or.inr ⟨fun i hi => ?_, hindex⟩
        rcases Nat.lt_or_ge i n with hlt | hge
        · exact hnot i hlt
        · obtain rfl : i = n := by omega
          exact hne.symm

/-- The node that a full `Node16` grows into has the same children. -/
theorem Slots.indexKeys {count : ℕ} {key : ℕ → UInt8} (hcount : count ≤ 16)
    (h : Slots count key child) :
    Indexed count (Art.indexKeys key count) (fun i => if i < count then child i else .null) ∧
      ∀ b, findChild count (.NodeType48 (Art.indexKeys key count))
          (fun i => if i < count then child i else .null) b
        = childOf count key child (flipSign b) := by
  have hflip : ∀ i b, flipSign (key i) = b → key i = flipSign b := by
    rintro i b rfl
    rw [flipSign_flipSign]
  refine ⟨⟨fun b hb => ?_, fun i hi => ?_, fun b c hb heq => ?_⟩, fun b => ?_⟩
  · rcases indexKeys_cases key hcount b with ⟨i, hi, -, hindex⟩ | ⟨-, hindex⟩
    · rw [hindex, (toNat_ofNat_slot (by omega)).1]; exact hi
    · exact absurd hindex hb
  · split_ifs with hlt
    · exact iff_of_false (h.filled i hlt) (by omega)
    · exact iff_of_true rfl (by omega)
  · rcases indexKeys_cases key hcount b with ⟨i, hi, hkey, hindex⟩ | ⟨-, hindex⟩
    · rcases indexKeys_cases key hcount c with ⟨j, hj, hkey', hindex'⟩ | ⟨-, hindex'⟩
      · rw [hindex, hindex'] at heq
        have hij := congrArg UInt8.toNat heq
        rw [(toNat_ofNat_slot (by omega)).1, (toNat_ofNat_slot (by omega)).1] at hij
        rw [← hkey, ← hkey', hij]
      · rw [heq] at hb
        exact absurd hindex' hb
    · exact absurd hindex hb
  · rw [findChild_NodeType48]
    rcases indexKeys_cases key hcount b with ⟨i, hi, hkey, hindex⟩ | ⟨hnot, hindex⟩
    · obtain ⟨hslot, hmarker⟩ := toNat_ofNat_slot (by omega : i < 48)
      rw [hindex, if_pos hmarker, hslot, childOf_of_mem h hi (hflip i b hkey)]
      exact if_pos hi
    · rw [hindex, if_neg fun hne => hne rfl, childOf_of_forall_ne]
      intro i hi hkey
      exact hnot i hi (by rw [hkey, flipSign_flipSign])

/-- The bits of a comparison are those of the first `count` lanes. -/
theorem ctz_le {count : ℕ} (hcount : count ≤ 16) {bits : BitVec 16}
    (hne : bits &&& (0xFFFF#16 >>> (16 - count)) ≠ 0#16) :
    (bits &&& (0xFFFF#16 >>> (16 - count))).ctz.toNat ≤ count := by
  have hbit := BitVec.getLsbD_true_ctz_of_ne_zero hne
  have hones : 0xFFFF#16 = BitVec.allOnes 16 := by decide
  rw [BitVec.getLsbD_and, Bool.and_eq_true, hones, BitVec.getLsbD_ushiftRight,
    BitVec.getLsbD_allOnes, decide_eq_true_eq] at hbit
  rw [hones]
  omega

/-- An insert at any slot up to `count` adds the child. -/
theorem insertAt16_adds {key : ℕ → UInt8} (hlt : header.count < 16)
    (h : Slots header.count key child) (hnew : new ≠ .null)
    (hnull : findChild header.count (.NodeType16 key) child keyByte = .null) {pos : ℕ}
    (hpos : pos ≤ header.count) :
    Adds header (.NodeType16 key) child keyByte new
      (.inner header.incr (.NodeType16 (insertAt key pos header.count (flipSign keyByte)))
        (insertAt child pos header.count new)) := by
  rw [findChild_NodeType16 hlt.le] at hnull
  obtain ⟨hslots, hchild⟩ := h.insertAt hpos hnew hnull
  refine ⟨_, _, _, rfl, ⟨hlt, hslots⟩, rfl, fun _ _ _ => rfl, fun b => ?_⟩
  rw [findChild_NodeType16 hlt.le, findChild_NodeType16 (show header.incr.count ≤ 16 from hlt)]
  simp only [Header.incr, hchild, flipSign_inj]

theorem insertNode16_adds {key : ℕ → UInt8} (hcount : header.count ≤ 16)
    (h : Slots header.count key child) (hnew : new ≠ .null)
    (hnull : findChild header.count (.NodeType16 key) child keyByte = .null) :
    Adds header (.NodeType16 key) child keyByte new
      (insertNode16 header key child keyByte new) := by
  rw [insertNode16]
  by_cases hlt : header.count < 16
  · rw [if_pos hlt]
    refine insertAt16_adds hlt h hnew hnull ?_
    split_ifs with hne
    · exact ctz_le hcount hne
    · exact le_refl _
  · rw [if_neg hlt]
    obtain ⟨hindexed, hchild⟩ := h.indexKeys hcount
    have hindexed' : Indexed header.copy.count (Art.indexKeys key header.count)
        (fun i => if i < header.count then child i else .null) := hindexed
    refine Adds.of_copy ?_ ?_ ?_ (insertNode48_adds hindexed' hnew)
    · rfl
    · rfl
    · intro b
      rw [findChild_NodeType16 hcount]
      exact hchild b

theorem insertAt4_adds {key : ℕ → UInt8} (hlt : header.count < 4)
    (h : Slots header.count key child) (hnew : new ≠ .null)
    (hnull : findChild header.count (.NodeType4 key) child keyByte = .null) {pos : ℕ}
    (hpos : pos ≤ header.count) :
    Adds header (.NodeType4 key) child keyByte new
      (.inner header.incr (.NodeType4 (insertAt key pos header.count keyByte))
        (insertAt child pos header.count new)) := by
  obtain ⟨hslots, hchild⟩ := h.insertAt hpos hnew hnull
  exact ⟨_, _, _, rfl, ⟨hlt, hslots⟩, rfl, fun _ _ _ => rfl, hchild⟩

/-- The node that a full `Node4` grows into has the same children. -/
theorem Slots.flip {key : ℕ → UInt8} (h : Slots 4 key child) :
    Slots 4 (fun i => if i < 4 then flipSign (key i) else 0)
        (fun i => if i < 4 then child i else .null) ∧
      ∀ b, childOf 4 (fun i => if i < 4 then flipSign (key i) else 0)
          (fun i => if i < 4 then child i else .null) (flipSign b) = childOf 4 key child b := by
  have hslots : Slots 4 (fun i => if i < 4 then flipSign (key i) else 0)
      (fun i => if i < 4 then child i else .null) := by
    refine ⟨fun i hi j hj heq => ?_, fun i hi => ?_⟩
    · simp only [hi, hj, if_true, flipSign_inj] at heq
      exact h.distinct i hi j hj heq
    · simp only [hi, if_true]
      exact h.filled i hi
  refine ⟨hslots, fun b => ?_⟩
  rcases slotOf_cases 4 key b with ⟨i, hi, hkey, -, -⟩ | ⟨hnot, -⟩
  · rw [childOf_of_mem h hi hkey, childOf_of_mem hslots hi (by simp only [hi, if_true, hkey])]
    exact if_pos hi
  · rw [childOf_of_forall_ne hnot, childOf_of_forall_ne]
    intro i hi
    simp only [hi, if_true, Ne, flipSign_inj]
    exact hnot i hi

theorem insertNode4_adds {key : ℕ → UInt8} (hcount : header.count ≤ 4)
    (h : Slots header.count key child) (hnew : new ≠ .null)
    (hnull : findChild header.count (.NodeType4 key) child keyByte = .null) :
    Adds header (.NodeType4 key) child keyByte new
      (insertNode4 header key child keyByte new) := by
  rw [insertNode4]
  by_cases hlt : header.count < 4
  · rw [if_pos hlt]
    refine insertAt4_adds hlt h hnew hnull ?_
    cases hfind : (List.range header.count).find? fun pos => ¬ key pos < keyByte with
    | none => exact le_refl _
    | some i => exact (List.mem_range.mp (List.mem_of_find?_eq_some hfind)).le
  · rw [if_neg hlt]
    have hfour : header.count = 4 := by omega
    rw [hfour] at h ⊢
    obtain ⟨hslots, hchild⟩ := h.flip
    have hsame : ∀ b, findChild 4 (.NodeType16 fun i => if i < 4 then flipSign (key i) else 0)
        (fun i => if i < 4 then child i else .null) b
        = findChild header.count (.NodeType4 key) child b := by
      intro b
      rw [findChild_NodeType16 (by decide), hchild, hfour]
      rfl
    have hgrown : ∀ header' : Header, header'.count = 4 → Adds header'
        (.NodeType16 fun i => if i < 4 then flipSign (key i) else 0)
        (fun i => if i < 4 then child i else .null) keyByte new
        (insertNode16 header' (fun i => if i < 4 then flipSign (key i) else 0)
          (fun i => if i < 4 then child i else .null) keyByte new) := fun header' h4 =>
      insertNode16_adds (by omega) (h4 ▸ hslots) hnew (by rw [h4, hsame, hnull])
    refine Adds.of_copy ?_ ?_ hsame (hgrown { header.copy with count := 4 } rfl)
    · rfl
    · rfl

/-- Whatever its kind, a node gets the new child and keeps all others. -/
theorem insertNode_adds {type : NodeType} (hwf : Wf header.count child type) (hnew : new ≠ .null)
    (hnull : findChild header.count type child keyByte = .null) :
    Adds header type child keyByte new (insertNode header type child keyByte new) := by
  cases type with
  | NodeType4 key => exact insertNode4_adds hwf.1 hwf.2 hnew hnull
  | NodeType16 key => exact insertNode16_adds hwf.1 hwf.2 hnew hnull
  | NodeType48 childIndex => exact insertNode48_adds hwf.2 hnew
  | NodeType256 => exact insertNode256_adds header child keyByte new

end Insert

/-! ### Replacing a child -/

section Replace
variable {count i : ℕ} {child : ℕ → Node} {keyByte : UInt8} {new : Node}

theorem Slots.replace {key : ℕ → UInt8} {x : UInt8} (h : Slots count key child)
    (hslot : slotOf count key x = some i) (hnew : new ≠ .null) :
    Slots count key (Function.update child i new) ∧
      ∀ y, childOf count key (Function.update child i new) y
        = if y = x then new else childOf count key child y := by
  obtain ⟨hi, hx⟩ : i < count ∧ key i = x := by
    rcases slotOf_cases count key x with ⟨j, hj, hkey, -, hsome⟩ | ⟨-, hnone⟩
    · obtain rfl := Option.some.inj (hsome.symm.trans hslot)
      exact ⟨hj, hkey⟩
    · rw [hnone] at hslot; cases hslot
  have hslots : Slots count key (Function.update child i new) := by
    refine ⟨h.distinct, fun j hj => ?_⟩
    rcases eq_or_ne j i with rfl | hne
    · rw [Function.update_self]; exact hnew
    · rw [Function.update_of_ne hne]; exact h.filled j hj
  refine ⟨hslots, fun y => ?_⟩
  split_ifs with hy
  · rw [childOf_of_mem hslots hi (hx.trans hy.symm), Function.update_self]
  · rcases slotOf_cases count key y with ⟨j, hj, hkey, -, -⟩ | ⟨hnot, -⟩
    · have hne : j ≠ i := by
        rintro rfl
        exact hy (hkey.symm.trans hx)
      rw [childOf_of_mem hslots hj hkey, childOf_of_mem h hj hkey, Function.update_of_ne hne]
    · rw [childOf_of_forall_ne hnot, childOf_of_forall_ne hnot]

theorem Indexed.replace {childIndex : UInt8 → UInt8} (h : Indexed count childIndex child)
    (hkey : childIndex keyByte ≠ emptyMarker) (hnew : new ≠ .null) :
    Indexed count childIndex (Function.update child (childIndex keyByte).toNat new) ∧
      ∀ b, findChild count (.NodeType48 childIndex)
          (Function.update child (childIndex keyByte).toNat new) b
        = if b = keyByte then new else findChild count (.NodeType48 childIndex) child b := by
  have hlt := h.inUse keyByte hkey
  refine ⟨⟨h.inUse, fun i hi => ?_, h.distinct⟩, fun b => ?_⟩
  · rcases eq_or_ne i (childIndex keyByte).toNat with rfl | hne
    · rw [Function.update_self]
      exact iff_of_false hnew (by omega)
    · rw [Function.update_of_ne hne]
      exact h.filled i hi
  · rw [findChild_NodeType48, findChild_NodeType48]
    split_ifs with hb hsame hsame
    · rw [hsame, Function.update_self]
    · have hne : (childIndex b).toNat ≠ (childIndex keyByte).toNat := fun heq =>
        hsame (h.distinct b keyByte hb (UInt8.toNat_inj.mp heq))
      rw [Function.update_of_ne hne]
    · exact absurd hkey (hsame ▸ hb)
    · rfl

/-- Writing through the pointer that `findChild` returned. -/
theorem Wf.replace {type : NodeType} (hwf : Wf count child type)
    (hslot : findSlot count keyByte type = some i) (hnew : new ≠ .null) :
    Wf count (Function.update child i new) type ∧
      ∀ b, findChild count type (Function.update child i new) b
        = if b = keyByte then new else findChild count type child b := by
  cases type with
  | NodeType4 key =>
    obtain ⟨hslots, hchild⟩ := hwf.2.replace hslot hnew
    exact ⟨⟨hwf.1, hslots⟩, hchild⟩
  | NodeType16 key =>
    rw [findSlot_NodeType16 hwf.1] at hslot
    obtain ⟨hslots, hchild⟩ := hwf.2.replace hslot hnew
    refine ⟨⟨hwf.1, hslots⟩, fun b => ?_⟩
    rw [findChild_NodeType16 hwf.1, findChild_NodeType16 hwf.1, hchild]
    simp only [flipSign_inj]
  | NodeType48 childIndex =>
    rw [findSlot] at hslot
    split_ifs at hslot with hkey
    obtain rfl := Option.some.inj hslot
    obtain ⟨hindexed, hchild⟩ := hwf.2.replace hkey hnew
    exact ⟨⟨hwf.1, hindexed⟩, hchild⟩
  | NodeType256 =>
    obtain rfl : keyByte.toNat = i := Option.some.inj hslot
    refine ⟨trivial, fun b => ?_⟩
    change Function.update child keyByte.toNat new b.toNat = _
    split_ifs with hb
    · rw [hb, Function.update_self]
    · rw [Function.update_of_ne fun heq => hb (UInt8.toNat_inj.mp heq)]
      rfl

end Replace

end Art
end HashingBenchmark

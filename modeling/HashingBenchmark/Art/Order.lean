import HashingBenchmark.Art.Runs
import HashingBenchmark.Lib.RadixOrder
import HashingBenchmark.Lib.TableFill
import HashingBenchmark.Lib.UIntOrder

/-! The order of the keys in the adaptive radix tree.

    The key bytes in a `Node4` ascend, and those in a `Node16` do so with their signs flipped back:
    the signed comparison of all lanes in `insertNode16` finds the slot that keeps them so. A node
    that has shrunk gets its bytes in order. So the first and the last child of a node are those of
    its least and its greatest byte, and `minimum` and `maximum` lead to the least and the greatest
    key. -/

namespace HashingBenchmark
namespace Art
open Join LaneMask RadixTrie

/-- `getLeafValue(maximum(node))`; the loops over the 256 bytes go down from 255. -/
def maximum : Node → Except ArtFault ℕ
  | .null => .ok 0
  | .leaf value => .ok value
  | .inner header type child =>
    match type with
    | .NodeType4 _ => maximum (child (header.count - 1))
    | .NodeType16 _ => maximum (child (header.count - 1))
    | .NodeType48 childIndex =>
      match (List.range 256).find? fun i => childIndex (UInt8.ofNat (255 - i)) ≠ emptyMarker with
      | none => .error .outOfBounds
      | some i => maximum (child (childIndex (UInt8.ofNat (255 - i))).toNat)
    | .NodeType256 =>
      match (List.range 256).find? fun i => ¬ (child (255 - i)).isNull with
      | none => .error .outOfBounds
      | some i => maximum (child (255 - i))

/-! ### Ascending bytes -/

/-- The first `count` bytes ascend. -/
def Ascending (count : ℕ) (a : ℕ → UInt8) : Prop := ∀ i j, i < j → j < count → a i ≤ a j

section Ascending
variable {count pos : ℕ} {a : ℕ → UInt8} {x : UInt8}

theorem Ascending.mono {n : ℕ} (h : Ascending count a) (hle : n ≤ count) : Ascending n a :=
  fun i j hij hj => h i j hij (by omega)

theorem Ascending.congr {b : ℕ → UInt8} (h : Ascending count a) (heq : ∀ i < count, b i = a i) :
    Ascending count b := by
  intro i j hij hj
  rw [heq i (by omega), heq j hj]
  exact h i j hij hj

theorem Ascending.le {i j : ℕ} (h : Ascending count a) (hij : i ≤ j) (hj : j < count) :
    a i ≤ a j := by
  rcases hij.eq_or_lt with rfl | hlt
  · exact UInt8.le_refl _
  · exact h i j hlt hj

/-- A byte at its place in the order. -/
theorem Ascending.insertAt (h : Ascending count a) (hpos : pos ≤ count)
    (hbefore : ∀ i < pos, a i ≤ x) (hbehind : ∀ i, pos ≤ i → i < count → x ≤ a i) :
    Ascending (count + 1) (Art.insertAt a pos count x) := by
  intro i j hij hj
  simp only [Art.insertAt]
  rcases Nat.lt_trichotomy i pos with hi | rfl | hi
  · rw [if_pos hi]
    rcases Nat.lt_trichotomy j pos with hj' | rfl | hj'
    · rw [if_pos hj']
      exact h i j hij (by omega)
    · rw [if_neg (by omega), if_pos rfl]
      exact hbefore i hi
    · rw [if_neg (by omega), if_neg (by omega), if_pos (by omega)]
      exact h.le (by omega) (by omega)
  · rw [if_neg (by omega), if_pos rfl, if_neg (by omega), if_neg (by omega), if_pos (by omega)]
    exact hbehind _ (by omega) (by omega)
  · rw [if_neg (by omega), if_neg (by omega), if_pos (by omega), if_neg (by omega),
      if_neg (by omega), if_pos (by omega)]
    exact h.le (by omega) (by omega)

theorem Ascending.removeAt (h : Ascending count a) (pos : ℕ) :
    Ascending (count - 1) (Art.removeAt a pos count) := by
  intro i j hij hj
  rw [removeAt_shift a (by omega), removeAt_shift a (by omega)]
  refine h.le ?_ ?_ <;> rw [shift]
  · rw [shift]
    split_ifs <;> omega
  · split_ifs <;> omega

end Ascending

/-! ### Comparing signed bytes -/

theorem toNat_flipSign (b : UInt8) :
    (flipSign b).toNat = if b.toNat < 128 then b.toNat + 128 else b.toNat - 128 := by
  have hall : ∀ n : Fin 256, n.val ^^^ 128 = if n.val < 128 then n.val + 128 else n.val - 128 := by
    decide +kernel
  exact hall ⟨b.toNat, b.toNat_lt⟩

/-- The signed comparison of flipped bytes is the unsigned one of the bytes. -/
theorem slt_flipSign (a b : UInt8) :
    (flipSign a).toBitVec.slt (flipSign b).toBitVec = true ↔ a < b := by
  have ha := a.toNat_lt
  have hb := b.toNat_lt
  rw [BitVec.slt_iff_toInt_lt, BitVec.toInt_eq_toNat_cond, BitVec.toInt_eq_toNat_cond,
    UInt8.toNat_toBitVec, UInt8.toNat_toBitVec, toNat_flipSign, toNat_flipSign,
    UInt8.lt_iff_toNat_lt]
  split_ifs <;> omega

/-! ### Nodes -/

/-- The key bytes of a node in the order of its slots. -/
def Ordered (count : ℕ) : NodeType → Prop
  | .NodeType4 key => Ascending count key
  | .NodeType16 key => Ascending count fun i => flipSign (key i)
  | .NodeType48 _ => True
  | .NodeType256 => True

/-- A tree of nodes in order. -/
def InOrder : Node → Prop
  | .null => True
  | .leaf _ => True
  | .inner header type child => Ordered header.count type ∧ ∀ i, InOrder (child i)

section Insert
variable {header : Header} {child : ℕ → Node} {keyByte : UInt8} {new : Node}

theorem inOrder_update {n : ℕ} (h : ∀ i, InOrder (child i)) (hnew : InOrder new) (i : ℕ) :
    InOrder (Function.update child n new i) :=
  (Function.forall_update_iff child fun _ node => InOrder node).mpr ⟨hnew, fun i _ => h i⟩ i

theorem inOrder_insertAt (h : ∀ i, InOrder (child i)) (hnew : InOrder new) (pos count i : ℕ) :
    InOrder (insertAt child pos count new i) := by
  rw [insertAt]
  split_ifs
  · exact h i
  · exact hnew
  · exact h _
  · exact h i

theorem inOrder_ite {p : Prop} [Decidable p] {node : Node} (h : InOrder node) :
    InOrder (if p then node else .null) := by
  split_ifs
  · exact h
  · trivial

theorem insertNode48_inOrder (childIndex : UInt8 → UInt8) (h : ∀ i, InOrder (child i))
    (hnew : InOrder new) : InOrder (insertNode48 header childIndex child keyByte new) := by
  rw [insertNode48]
  by_cases hlt : header.count < 48
  · rw [if_pos hlt]
    exact ⟨trivial, inOrder_update h hnew⟩
  · rw [if_neg hlt]
    exact ⟨trivial, inOrder_update (fun i => inOrder_ite (h _)) hnew⟩

/-- The slot that the comparison of all lanes finds is that of the first greater byte. -/
theorem firstGreater {key : ℕ → UInt8} {count : ℕ} (hcount : count ≤ 16) {pos : ℕ}
    (hpos : pos = (if (movemask_epi8 (cmplt_epi8 (set1 (flipSign keyByte).toBitVec) (loadu key))
        : BitVec 16) &&& (0xFFFF#16 >>> (16 - count)) ≠ 0#16 then
      ((movemask_epi8 (cmplt_epi8 (set1 (flipSign keyByte).toBitVec) (loadu key)) : BitVec 16) &&&
        (0xFFFF#16 >>> (16 - count))).ctz.toNat else count)) :
    pos ≤ count ∧ (∀ i < pos, ¬ keyByte < flipSign (key i)) ∧
      (pos < count → keyByte < flipSign (key pos)) := by
  have hlanes : Encodes 1 (fun i : Fin 16 => keyByte < flipSign (key i))
      (movemask_epi8 (cmplt_epi8 (set1 (flipSign keyByte).toBitVec) (loadu key)) : BitVec 16) := by
    refine encodes_movemask_of_lanes Nat.one_pos fun i => ?_
    rw [cmplt_epi8]
    refine if_congr ?_ rfl rfl
    rw [← slt_flipSign, flipSign_flipSign]
    rfl
  have hones : 0xFFFF#16 = BitVec.allOnes 16 := by decide
  have hbits : Encodes 1 (fun i : Fin 16 => i.val < count ∧ keyByte < flipSign (key i))
      ((movemask_epi8 (cmplt_epi8 (set1 (flipSign keyByte).toBitVec) (loadu key)) : BitVec 16) &&&
        (0xFFFF#16 >>> (16 - count))) := by
    intro j
    rw [BitVec.getLsbD_and, Bool.and_eq_true, hlanes j, hones, BitVec.getLsbD_ushiftRight,
      BitVec.getLsbD_allOnes, decide_eq_true_eq, Nat.div_one]
    constructor
    · rintro ⟨⟨hlt, hgreater⟩, hj⟩
      exact ⟨hlt, by simp only; omega, hgreater⟩
    · rintro ⟨hlt, hj, hgreater⟩
      exact ⟨⟨hlt, hgreater⟩, by simp only at hj; omega⟩
  rcases ctz_cases hbits Nat.one_pos with ⟨hne, k, hk, hfirst, hctz⟩ | ⟨hzero, hnone⟩
  · rw [if_pos hne, ← Nat.div_one (BitVec.toNat _), hctz] at hpos
    subst hpos
    refine ⟨hk.1.le, fun i hi hgreater => ?_, fun _ => hk.2⟩
    exact hfirst ⟨i, by omega⟩ hi ⟨by simp only; omega, hgreater⟩
  · rw [if_neg fun hne => hne hzero] at hpos
    subst hpos
    refine ⟨le_refl _, fun i hi hgreater => ?_, fun h => absurd h (lt_irrefl _)⟩
    exact hnone ⟨i, by omega⟩ ⟨hi, hgreater⟩

theorem flipSign_insertAt (key : ℕ → UInt8) (pos count : ℕ) (b : UInt8) :
    (fun i => flipSign (insertAt key pos count (flipSign b) i))
      = insertAt (fun i => flipSign (key i)) pos count b := by
  funext i
  rw [insertAt, insertAt]
  split_ifs
  · rfl
  · exact flipSign_flipSign b
  · rfl
  · rfl

theorem insertNode16_inOrder {key : ℕ → UInt8} (h : InOrder (.inner header (.NodeType16 key) child))
    (hnew : InOrder new) : InOrder (insertNode16 header key child keyByte new) := by
  obtain ⟨hkey, hchild⟩ := h
  rw [insertNode16]
  by_cases hlt : header.count < 16
  · rw [if_pos hlt]
    obtain ⟨hle, hbefore, hat⟩ := @firstGreater keyByte key header.count hlt.le _ rfl
    refine ⟨?_, inOrder_insertAt hchild hnew _ _⟩
    change Ascending (header.count + 1) _
    rw [flipSign_insertAt]
    refine Ascending.insertAt hkey hle (fun i hi => UInt8.not_lt.mp (hbefore i hi)) fun i hi hi' => ?_
    exact UInt8.le_trans (UInt8.le_of_lt (hat (by omega))) (Ascending.le hkey hi hi')
  · rw [if_neg hlt]
    exact insertNode48_inOrder _ (fun i => inOrder_ite (hchild i)) hnew

theorem insertNode4_inOrder {key : ℕ → UInt8} (h : InOrder (.inner header (.NodeType4 key) child))
    (hnew : InOrder new) : InOrder (insertNode4 header key child keyByte new) := by
  obtain ⟨hkey, hchild⟩ := h
  rw [insertNode4]
  by_cases hlt : header.count < 4
  · rw [if_pos hlt]
    refine ⟨?_, inOrder_insertAt hchild hnew _ _⟩
    change Ascending (header.count + 1) _
    cases hfind : (List.range header.count).find? fun pos => ¬ key pos < keyByte with
    | none =>
      have hall := List.find?_eq_none.mp hfind
      refine Ascending.insertAt hkey (le_refl _) (fun i hi => ?_)
        fun i hi hi' => absurd hi' (not_lt.mpr hi)
      exact UInt8.le_of_lt (by simpa using hall i (List.mem_range.mpr hi))
    | some pos =>
      obtain ⟨hpos, hmem, hbefore⟩ := List.find?_range_eq_some.mp hfind
      have hle : keyByte ≤ key pos := by simpa using hpos
      have hlt' := List.mem_range.mp hmem
      refine Ascending.insertAt hkey hlt'.le (fun i hi => ?_) fun i hi hi' => ?_
      · exact UInt8.le_of_lt (by simpa using hbefore i hi)
      · exact UInt8.le_trans hle (Ascending.le hkey hi hi')
  · rw [if_neg hlt]
    have hkey16 : Ascending 4 fun i => flipSign (if i < 4 then flipSign (key i) else 0) := by
      refine (Ascending.mono hkey (not_lt.mp hlt)).congr fun i hi => ?_
      rw [if_pos hi, flipSign_flipSign]
    exact insertNode16_inOrder ⟨hkey16, fun i => inOrder_ite (hchild i)⟩ hnew

theorem insertNode_inOrder {type : NodeType} (h : InOrder (.inner header type child))
    (hnew : InOrder new) : InOrder (insertNode header type child keyByte new) := by
  cases type with
  | NodeType4 key => exact insertNode4_inOrder h hnew
  | NodeType16 key => exact insertNode16_inOrder h hnew
  | NodeType48 childIndex => exact insertNode48_inOrder childIndex h.2 hnew
  | NodeType256 => exact ⟨trivial, inOrder_update h.2 hnew⟩

end Insert

section Erase
variable {header : Header} {child : ℕ → Node} {keyByte : UInt8} {pos : ℕ}

theorem inOrder_removeAt (h : ∀ i, InOrder (child i)) (pos count i : ℕ) :
    InOrder (removeAt child pos count i) := by
  rw [removeAt]
  split_ifs
  · exact h _
  · exact h i

theorem inOrder_getD {nodes : List Node} (h : ∀ node ∈ nodes, InOrder node) (i : ℕ) :
    InOrder (nodes.getD i .null) := by
  rcases Nat.lt_or_ge i nodes.length with hlt | hge
  · rw [List.getD_eq_getElem _ _ hlt]
    exact h _ (List.getElem_mem hlt)
  · rw [List.getD_eq_default _ _ hge]
    trivial

theorem flipSign_removeAt (key : ℕ → UInt8) (pos count : ℕ) :
    (fun i => flipSign (removeAt key pos count i))
      = removeAt (fun i => flipSign (key i)) pos count := by
  funext i
  rw [removeAt, removeAt]
  split_ifs <;> rfl

/-- The loops over the 256 bytes go up. -/
theorem ascending_bytesWith (test : UInt8 → Bool) :
    Ascending (bytesWith test).length fun i => (bytesWith test).getD i 0 := by
  have hpairs : (bytesWith test).Pairwise (· ≤ ·) := by
    refine List.Pairwise.filter _ (List.pairwise_map.mpr ?_)
    refine List.Pairwise.imp_of_mem (fun {a b} ha hb hlt => ?_) List.pairwise_lt_range
    have ha' := List.mem_range.mp ha
    have hb' := List.mem_range.mp hb
    rw [UInt8.le_iff_toNat_le, UInt8.toNat_ofNat', UInt8.toNat_ofNat', Nat.mod_eq_of_lt ha',
      Nat.mod_eq_of_lt hb']
    exact hlt.le
  intro i j hij hj
  simp only
  rw [List.getD_eq_getElem _ _ (hij.trans hj), List.getD_eq_getElem _ _ hj]
  exact List.pairwise_iff_getElem.mp hpairs i j (hij.trans hj) hj hij

theorem flipSign_getD_map {used : List UInt8} {i : ℕ} (hi : i < used.length) :
    flipSign ((used.map flipSign).getD i 0) = used.getD i 0 := by
  have hlt : i < (used.map flipSign).length := by rwa [List.length_map]
  rw [List.getD_eq_getElem _ _ hlt, List.getElem_map, flipSign_flipSign,
    List.getD_eq_getElem _ _ hi]

theorem eraseNode4_inOrder {key : ℕ → UInt8} (h : InOrder (.inner header (.NodeType4 key) child))
    {node : Node} (hok : eraseNode4 header key child pos = .ok node) : InOrder node := by
  obtain ⟨hkey, hchild⟩ := h
  have hchild' := inOrder_removeAt hchild pos header.count
  rw [eraseNode4] at hok
  by_cases hone : header.decr.count = 1
  · have hfirst := hchild' 0
    simp only [if_pos hone] at hok
    cases hlast : removeAt child pos header.count 0 with
    | null =>
      rw [hlast] at hok
      cases hok
    | leaf value =>
      rw [hlast] at hok
      cases hok
      trivial
    | inner below type children =>
      rw [hlast] at hok hfirst
      cases hok
      exact hfirst
  · simp only [if_neg hone] at hok
    cases hok
    exact ⟨Ascending.removeAt hkey pos, hchild'⟩

theorem eraseNode16_inOrder {key : ℕ → UInt8}
    (h : InOrder (.inner header (.NodeType16 key) child)) :
    InOrder (eraseNode16 header key child pos) := by
  obtain ⟨hkey, hchild⟩ := h
  have hchild' := inOrder_removeAt hchild pos header.count
  have hkey' : Ascending (header.count - 1) fun i => flipSign (removeAt key pos header.count i) := by
    rw [flipSign_removeAt]
    exact Ascending.removeAt hkey pos
  rw [eraseNode16]
  by_cases hthree : header.decr.count = 3
  · simp only [if_pos hthree]
    refine ⟨?_, fun i => inOrder_ite (hchild' i)⟩
    change Ascending header.decr.count _
    refine Ascending.congr hkey' fun i hi => ?_
    rw [if_pos (by omega : i < 4)]
  · simp only [if_neg hthree]
    exact ⟨hkey', hchild'⟩

theorem eraseNode48_inOrder (childIndex : UInt8 → UInt8) (h : ∀ i, InOrder (child i)) :
    InOrder (eraseNode48 header childIndex child keyByte) := by
  have hchild' := @inOrder_update child .null (childIndex keyByte).toNat h trivial
  rw [eraseNode48]
  by_cases htwelve : header.decr.count = 12
  · simp only [if_pos htwelve]
    refine ⟨?_, inOrder_getD fun node hnode => ?_⟩
    · refine Ascending.congr (ascending_bytesWith _) fun i hi => ?_
      exact flipSign_getD_map hi
    · obtain ⟨b, -, rfl⟩ := List.mem_map.mp hnode
      exact hchild' _
  · simp only [if_neg htwelve]
    exact ⟨trivial, hchild'⟩

theorem eraseNode256_inOrder (h : ∀ i, InOrder (child i)) :
    InOrder (eraseNode256 header child keyByte) := by
  have hchild' := @inOrder_update child .null keyByte.toNat h trivial
  rw [eraseNode256]
  by_cases hmany : header.decr.count = 37
  · simp only [if_pos hmany]
    refine ⟨trivial, inOrder_getD fun node hnode => ?_⟩
    obtain ⟨b, -, rfl⟩ := List.mem_map.mp hnode
    exact hchild' _
  · simp only [if_neg hmany]
    exact ⟨trivial, hchild'⟩

theorem eraseNode_inOrder {type : NodeType} (h : InOrder (.inner header type child)) {node : Node}
    (hok : eraseNode header type child pos keyByte = .ok node) : InOrder node := by
  cases type with
  | NodeType4 key => exact eraseNode4_inOrder h hok
  | NodeType16 key =>
    cases hok
    exact eraseNode16_inOrder h
  | NodeType48 childIndex =>
    cases hok
    exact eraseNode48_inOrder childIndex h.2
  | NodeType256 =>
    cases hok
    exact eraseNode256_inOrder h.2

end Erase

/-! ### Calls -/

section Calls
variable {data : List Tuple} {key : List UInt8}

theorem newNode4_inOrder {prefixLength : ℕ} {path : ℕ → UInt8} {b c : UInt8} {node node' : Node}
    (h : InOrder node) (h' : InOrder node') : InOrder (newNode4 prefixLength path b node c node') := by
  have hempty : InOrder (.inner ⟨prefixLength, 0, path⟩ (.NodeType4 fun _ => 0) fun _ => .null) :=
    ⟨fun i j _ hj => absurd hj (Nat.not_lt_zero j), fun _ => trivial⟩
  have hone : InOrder (insertNode4 ⟨prefixLength, 0, path⟩ (fun _ => 0) (fun _ => .null) b node) :=
    insertNode4_inOrder hempty h
  rw [newNode4]
  cases hnode : insertNode4 ⟨prefixLength, 0, path⟩ (fun _ => 0) (fun _ => .null) b node with
  | null => trivial
  | leaf value => trivial
  | inner header type children =>
    rw [hnode] at hone
    exact insertNode_inOrder hone h'

theorem splitLeaf_inOrder {value depth existing : ℕ} {node : Node}
    (hok : splitLeaf data key value depth existing = .ok node) : InOrder node := by
  rw [splitLeaf, TableFill.bind_eq_ok] at hok
  obtain ⟨existingKey, -, hok⟩ := hok
  obtain ⟨newPrefixLength, -, hok⟩ := TableFill.bind_eq_ok.mp hok
  obtain ⟨existingByte, -, hok⟩ := TableFill.bind_eq_ok.mp hok
  obtain ⟨keyByte, -, hok⟩ := TableFill.bind_eq_ok.mp hok
  cases hok
  exact newNode4_inOrder trivial trivial

variable {header : Header} {type : NodeType} {child : ℕ → Node}

theorem splitPrefix_inOrder (h : InOrder (.inner header type child)) {value depth mismatchPos : ℕ}
    {node : Node} (hok : splitPrefix data key value depth mismatchPos header type child = .ok node) :
    InOrder node := by
  rw [splitPrefix] at hok
  obtain ⟨keyByte, -, hok⟩ := TableFill.bind_eq_ok.mp hok
  split_ifs at hok
  · cases hok
    exact newNode4_inOrder h trivial
  · obtain ⟨least, -, hok⟩ := TableFill.bind_eq_ok.mp hok
    obtain ⟨minKey, -, hok⟩ := TableFill.bind_eq_ok.mp hok
    obtain ⟨minByte, -, hok⟩ := TableFill.bind_eq_ok.mp hok
    split_ifs at hok
    cases hok
    exact newNode4_inOrder h trivial

/-- Step lemma: an insert keeps the order. -/
theorem insert_inOrder {value depth : ℕ} {node node' : Node} (h : InOrder node)
    (hok : insert data key value depth node = .ok node') : InOrder node' := by
  induction node generalizing depth node' with
  | null =>
    rw [insert] at hok
    cases hok
    trivial
  | leaf existing => exact splitLeaf_inOrder hok
  | inner header type child ih =>
    rw [insert, TableFill.bind_eq_ok] at hok
    obtain ⟨mismatchPos, -, hok⟩ := hok
    by_cases hpos : mismatchPos ≠ header.prefixLength
    · rw [if_pos hpos] at hok
      exact splitPrefix_inOrder h hok
    · rw [if_neg hpos] at hok
      obtain ⟨keyByte, -, hok⟩ := TableFill.bind_eq_ok.mp hok
      have hleaf : InOrder (insertNode header type child keyByte (makeLeaf value)) :=
        insertNode_inOrder h trivial
      cases hslot : findSlot header.count keyByte type with
      | none =>
        rw [hslot] at hok
        cases hok
        exact hleaf
      | some i =>
        simp only [hslot] at hok
        by_cases hnull : (child i).isNull
        · rw [if_pos hnull] at hok
          cases hok
          exact hleaf
        · rw [if_neg hnull] at hok
          obtain ⟨below, hbelow, hok⟩ := TableFill.bind_eq_ok.mp hok
          cases hok
          exact ⟨h.1, inOrder_update h.2 (ih i (h.2 i) hbelow)⟩

/-- Step lemma: an erase keeps the order. -/
theorem erase_inOrder {depth : ℕ} {node node' : Node} (h : InOrder node)
    (hok : erase data key depth node = .ok node') : InOrder node' := by
  induction node generalizing depth node' with
  | null =>
    cases hok
    trivial
  | leaf value =>
    rw [erase] at hok
    obtain ⟨found, -, hok⟩ := TableFill.bind_eq_ok.mp hok
    cases found <;> cases hok <;> trivial
  | inner header type child ih =>
    rw [erase, TableFill.bind_eq_ok] at hok
    obtain ⟨mismatchPos, -, hok⟩ := hok
    by_cases hpos : mismatchPos ≠ header.prefixLength
    · rw [if_pos hpos] at hok
      cases hok
      exact h
    · rw [if_neg hpos] at hok
      obtain ⟨keyByte, -, hok⟩ := TableFill.bind_eq_ok.mp hok
      cases hslot : findSlot header.count keyByte type with
      | none =>
        rw [hslot] at hok
        cases hok
        exact h
      | some i =>
        simp only [hslot] at hok
        obtain ⟨found, -, hok⟩ := TableFill.bind_eq_ok.mp hok
        cases found with
        | true => exact eraseNode_inOrder h hok
        | false =>
          obtain ⟨below, hbelow, hok⟩ := TableFill.bind_eq_ok.mp hok
          cases hok
          exact ⟨h.1, inOrder_update h.2 (ih i (h.2 i) hbelow)⟩

/-- Run lemma: a tree that calls return is in order. -/
theorem runCalls_inOrder {calls : List Call} {tree_ tree' : Node} (h : InOrder tree_)
    (hok : runCalls data calls tree_ = .ok tree') : InOrder tree' := by
  induction calls generalizing tree_ with
  | nil =>
    cases hok
    exact h
  | cons call calls ih =>
    rw [runCalls, List.foldlM_cons, TableFill.bind_eq_ok] at hok
    obtain ⟨tree'', hcall, hrest⟩ := hok
    refine ih ?_ hrest
    cases call with
    | insert key_value => exact insert_inOrder h hcall
    | erase key => exact erase_inOrder h hcall

end Calls

end Art
end HashingBenchmark

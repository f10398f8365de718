import HashingBenchmark.Art.Slots
import HashingBenchmark.Art.Tree
import HashingBenchmark.Lib.RadixTrie

/-! The adaptive radix tree is a radix trie.

    `Refines` relates the nodes of the tree to a trie over the bytes of the keys, in which a node has
    a child for every byte and a path that is indexed by positions of the key. An insert into the tree
    fails where one into the trie does and otherwise ends in related trees (`insert_refines`), and a
    lookup checks the leaf that the key leads to (`lookup_refines`). Keys have four bytes, so no
    prefix is longer than the header has room for. -/

namespace HashingBenchmark
namespace Art
open Join RadixTrie

/-- Byte `i` of a key, the most significant one first. -/
def keyByte (key : UInt32) (i : ℕ) : UInt8 := (swapBytes key).getD i 0

/-- The bytes of the key that `loadKey` finds. -/
def loadBytes (data : List Tuple) (tid : ℕ) : Option (ℕ → UInt8) :=
  data[tid]?.map fun t => keyByte t.key

/-- A prefix of fewer than four bytes is all in the header. -/
theorem lt_maxPrefixLength {i : ℕ} (hi : i < 4) : i < maxPrefixLength := by
  rw [maxPrefixLength]
  omega

theorem getElem?_swapBytes (key : UInt32) {i : ℕ} (hi : i < 4) :
    (swapBytes key)[i]? = some (keyByte key i) := by
  have hlen : i < (swapBytes key).length := hi
  rw [keyByte, List.getD_eq_getElem?_getD, List.getElem?_eq_getElem hlen, Option.getD_some]

theorem byteAt_swapBytes (key : UInt32) {i : ℕ} (hi : i < 4) :
    byteAt (swapBytes key) i = .ok (keyByte key i) := by
  rw [byteAt, getElem?_swapBytes key hi]

theorem drop_swapBytes (key : UInt32) {d : ℕ} (hd : d < 4) :
    (swapBytes key).drop d = keyByte key d :: (swapBytes key).drop (d + 1) := by
  have hlen : d < (swapBytes key).length := hd
  have hget := getElem?_swapBytes key hd
  rw [List.getElem?_eq_getElem hlen, Option.some.injEq] at hget
  rw [List.drop_eq_getElem_cons hlen, hget]

theorem drop_swapBytes_ge (key : UInt32) {d : ℕ} (hd : 4 ≤ d) : (swapBytes key).drop d = [] :=
  List.drop_eq_nil_of_le hd

/-- The comparison of a new key with that of a leaf. -/
theorem matchLoop_swapBytes (e key : UInt32) (d : ℕ) :
    matchLoop ((swapBytes e).drop d) ((swapBytes key).drop d)
      = match firstDiff (keyByte e) (keyByte key) (4 - d) d with
        | some m => .ok (m - d)
        | none => .error .outOfBounds := by
  generalize hn : 4 - d = n
  induction n generalizing d with
  | zero =>
    rw [drop_swapBytes_ge e (by omega), drop_swapBytes_ge key (by omega)]
    rfl
  | succ n ih =>
    rw [drop_swapBytes e (by omega), drop_swapBytes key (by omega), matchLoop, firstDiff]
    split_ifs with heq
    · rw [ih (d + 1) (by omega)]
      rcases firstDiff_cases (keyByte e) (keyByte key) n (d + 1) with
        ⟨m, hle, -, -, -, hfirst⟩ | ⟨-, hnone⟩
      · rw [hfirst]
        simp only [Except.map, Except.ok.injEq]
        omega
      · rw [hnone]; rfl
    · simp only [Nat.sub_self]

/-- The comparison of a key with the prefix of a node. -/
theorem mismatchLoop_swapBytes {path apath : ℕ → UInt8} (key : UInt32) {d left pos : ℕ}
    (hfits : d + pos + left ≤ 4) (hpath : ∀ i < pos + left, apath (d + i) = path i) :
    mismatchLoop (fun pos => some (path pos)) (swapBytes key) d left pos
      = .ok ((firstDiff apath (keyByte key) left (d + pos)).elim (pos + left) (· - d)) := by
  induction left generalizing pos with
  | zero => rfl
  | succ left ih =>
    have hbyte := getElem?_swapBytes key (by omega : d + pos < 4)
    have hhead : apath (d + pos) = path pos := hpath pos (by omega)
    rw [mismatchLoop, hbyte, firstDiff, hhead]
    simp only
    by_cases heq : path pos = keyByte key (d + pos)
    · rw [if_neg fun hne => hne heq.symm, if_pos heq, ih (by omega) fun i hi => hpath i (by omega)]
      simp only [Nat.add_assoc, Nat.add_comm 1]
    · rw [if_pos fun h => heq h.symm, if_neg heq]
      simp only [Option.elim, Nat.add_sub_cancel_left]

/-- A node below depth `d`, with the trie that it stands for. -/
inductive Refines : ℕ → Node → RadixTrie UInt8 ℕ → Prop where
  | null (d : ℕ) : Refines d .null .null
  | leaf (d value : ℕ) : Refines d (.leaf value) (.leaf value)
  | inner {d stop : ℕ} {header : Header} {type : NodeType} {child : ℕ → Node} {path : ℕ → UInt8}
      {tchild : UInt8 → RadixTrie UInt8 ℕ} (hwf : Wf header.count child type)
      (hstop : d + header.prefixLength = stop)
      (hpath : ∀ i < header.prefixLength, path (d + i) = header.path i)
      (hchild : ∀ b, Refines (stop + 1) (findChild header.count type child b) (tchild b)) :
      Refines d (.inner header type child) (.inner stop path tchild)

theorem Refines.null_iff {d : ℕ} {node : Node} {t : RadixTrie UInt8 ℕ} (h : Refines d node t) :
    node = .null ↔ t = .null := by
  cases h with
  | null => simp
  | leaf => simp
  | inner => simp

theorem makeLeaf_eq {value : ℕ} (hvalue : value < 2 ^ 63) : makeLeaf value = .leaf value := by
  rw [makeLeaf]
  congr 1
  omega

/-- A new node with two children. -/
theorem newNode4_refines {d m len : ℕ} {path apath : ℕ → UInt8} {b c : UInt8} {node node' : Node}
    {t t' : RadixTrie UInt8 ℕ} (hbc : b ≠ c) (hm : d + len = m) (hlen : len ≤ maxPrefixLength)
    (hpath : ∀ i < len, apath (d + i) = path i) (hnode : Refines (m + 1) node t)
    (hnode' : Refines (m + 1) node' t') (hne : node ≠ .null) (hne' : node' ≠ .null) :
    Refines d (newNode4 len path b node c node') (.inner m apath (fork b t c t')) := by
  have hempty : Slots 0 (fun _ => 0) (fun _ => .null) :=
    ⟨fun i hi => absurd hi (Nat.not_lt_zero i), fun i hi => absurd hi (Nat.not_lt_zero i)⟩
  have hnull : ∀ x, findChild 0 (.NodeType4 fun _ => 0) (fun _ => .null) x = .null := fun x => rfl
  obtain ⟨header, type, child, hfirst, hwf, hlength, hsame, hchild⟩ :=
    @insertNode4_adds ⟨len, 0, path⟩ (fun _ => .null) b node (fun _ => 0) (Nat.zero_le 4) hempty hne
      (hnull b)
  have hfree : findChild header.count type child c = .null := by
    rw [hchild, if_neg hbc.symm]
    exact hnull c
  obtain ⟨header', type', child', hsecond, hwf', hlength', hsame', hchild'⟩ :=
    @insertNode_adds header child c node' type hwf hne' hfree
  have hboth : newNode4 len path b node c node' = .inner header' type' child' := by
    rw [newNode4, hfirst, ← hsecond]
  rw [hboth]
  have hlen' : header'.prefixLength = len := hlength'.trans hlength
  refine .inner hwf' (by omega) (fun i hi => ?_) fun x => ?_
  · rw [hpath i (by omega), hsame' i (by omega) (by omega)]
    exact (hsame i (by omega) (by omega)).symm
  · rw [hchild', hchild, hnull]
    rcases eq_or_ne x c with rfl | hc
    · rw [if_pos rfl, fork_right]; exact hnode'
    · rw [if_neg hc]
      rcases eq_or_ne x b with rfl | hb
      · rw [if_pos rfl, fork_left hbc]; exact hnode
      · rw [if_neg hb, fork_other hb hc]; exact .null _

/-! ### Inserts -/

section Insert
variable {data : List Tuple} {key : UInt32} {value d : ℕ}

/-- A leaf is split where its loaded key differs from the new one. -/
theorem splitLeaf_refines (hvalue : value < 2 ^ 63) (existing : ℕ) :
    (∃ t' node', RadixTrie.insert (loadBytes data) 4 (keyByte key) value d (.leaf existing) = some t' ∧
      splitLeaf data (swapBytes key) value d existing = .ok node' ∧ Refines d node' t') ∨
    (RadixTrie.insert (loadBytes data) 4 (keyByte key) value d (.leaf existing) = none ∧
      splitLeaf data (swapBytes key) value d existing = .error .outOfBounds) := by
  rw [RadixTrie.insert, splitLeaf, loadKey, loadBytes]
  cases hload : data[existing]? with
  | none => exact Or.inr ⟨rfl, rfl⟩
  | some t =>
    simp only [Option.map_some, bind, Except.bind]
    rw [matchLoop_swapBytes]
    rcases firstDiff_cases (keyByte t.key) (keyByte key) (4 - d) d with
      ⟨m, hle, hlt, hne, -, hfirst⟩ | ⟨-, hnone⟩
    · left
      have hm : d + (m - d) = m := by omega
      rw [hfirst]
      simp only [hm]
      rw [byteAt_swapBytes t.key (by omega), byteAt_swapBytes key (by omega)]
      simp only
      rw [makeLeaf_eq hvalue]
      refine ⟨_, _, rfl, rfl, newNode4_refines hne hm ?_ (fun i hi => ?_) (.leaf _ _) (.leaf _ _)
        Node.noConfusion Node.noConfusion⟩
      · exact (lt_maxPrefixLength (by omega)).le
      · exact (if_pos (lt_min hi (lt_maxPrefixLength (by omega)))).symm
    · rw [hnone]
      exact Or.inr ⟨rfl, rfl⟩

variable {header : Header} {type : NodeType} {child : ℕ → Node} {path : ℕ → UInt8}

/-- A prefix of a key is short enough for both comparisons to be with the header alone. -/
theorem comparePrefix_eq (hfits : d + header.prefixLength < 4)
    (hpath : ∀ i < header.prefixLength, path (d + i) = header.path i) (node : Node) :
    comparePrefix data (swapBytes key) d header node
      = .ok ((firstDiff path (keyByte key) header.prefixLength d).elim
          header.prefixLength (· - d)) := by
  have hshort : ¬ header.prefixLength > maxPrefixLength :=
    (lt_maxPrefixLength (by omega)).not_gt
  have hloop := @mismatchLoop_swapBytes header.path path key d header.prefixLength 0 (by omega)
    (by simpa using hpath)
  rw [Nat.zero_add, Nat.add_zero] at hloop
  rw [comparePrefix]
  split_ifs with hzero
  · rw [prefixMismatch, if_neg hshort, hloop]
  · rw [not_not] at hzero
    rw [hzero]
    rfl

/-- A prefix that differs from the key is broken up there. -/
theorem splitPrefix_refines (hvalue : value < 2 ^ 63) {m stop : ℕ}
    {tchild : UInt8 → RadixTrie UInt8 ℕ}
    (hnode : Refines d (.inner header type child) (.inner stop path tchild))
    (hstop : stop < 4) (hle : d ≤ m) (hlt : m < stop) (hne : path m ≠ keyByte key m) :
    ∃ node', splitPrefix data (swapBytes key) value d (m - d) header type child = .ok node' ∧
      Refines d node' (.inner m path
        (fork (path m) (.inner stop path tchild) (keyByte key m) (.leaf value))) := by
  cases hnode with
  | inner hwf hlength hpath hchild =>
    have hshort : header.prefixLength < maxPrefixLength := lt_maxPrefixLength (by omega)
    have hm : d + (m - d) = m := by omega
    have hbyte : path m = header.path (m - d) := by rw [← hpath (m - d) (by omega), hm]
    rw [splitPrefix, hm, byteAt_swapBytes key (by omega)]
    simp only [bind, Except.bind]
    rw [if_pos (by omega), makeLeaf_eq hvalue, ← hbyte]
    refine ⟨_, rfl, newNode4_refines hne hm (by omega) (fun i hi => ?_) ?_ (.leaf _ _)
      Node.noConfusion Node.noConfusion⟩
    · rw [hpath i (by omega)]
      exact (if_pos (lt_min hi (by omega))).symm
    · -- the node with the rest of its prefix
      refine .inner hwf (by simp only; omega) (fun i hi => ?_) fun b => hchild b
      simp only at hi ⊢
      rw [memmove, if_pos (lt_min hi (by omega)), ← hpath _ (by omega)]
      congr 1
      omega

/-- An insert that breaks up the prefix. -/
theorem insert_of_mismatch {bytes : List UInt8} {pos : ℕ}
    (hpos : comparePrefix data bytes d header (.inner header type child) = .ok pos)
    (hne : pos ≠ header.prefixLength) :
    insert data bytes value d (.inner header type child)
      = splitPrefix data bytes value d pos header type child := by
  rw [insert, hpos]
  exact if_pos hne

/-- An insert below a node without a child for the key. -/
theorem insert_of_findChild_null {bytes : List UInt8} {b : UInt8}
    (hpos : comparePrefix data bytes d header (.inner header type child) = .ok header.prefixLength)
    (hbyte : byteAt bytes (d + header.prefixLength) = .ok b)
    (hnull : findChild header.count type child b = .null) :
    insert data bytes value d (.inner header type child)
      = .ok (insertNode header type child b (makeLeaf value)) := by
  have hmatch : ¬ header.prefixLength ≠ header.prefixLength := fun h => h rfl
  rw [insert, hpos]
  refine (if_neg hmatch).trans ?_
  rw [hbyte]
  rw [findChild] at hnull
  cases hslot : findSlot header.count b type with
  | none => simp only [bind, Except.bind, hslot]
  | some i =>
    rw [hslot] at hnull
    simp only [bind, Except.bind, hslot]
    rw [if_pos (isNull_iff.mpr hnull)]

/-- An insert below a node with a child for the key. -/
theorem insert_of_findChild {bytes : List UInt8} {b : UInt8}
    (hpos : comparePrefix data bytes d header (.inner header type child) = .ok header.prefixLength)
    (hbyte : byteAt bytes (d + header.prefixLength) = .ok b)
    (hchild : findChild header.count type child b ≠ .null) :
    ∃ i, findSlot header.count b type = some i ∧
      insert data bytes value d (.inner header type child)
        = (insert data bytes value (d + header.prefixLength + 1)
            (findChild header.count type child b)).map
          fun node => .inner header type (Function.update child i node) := by
  have hmatch : ¬ header.prefixLength ≠ header.prefixLength := fun h => h rfl
  rw [findChild] at hchild ⊢
  cases hslot : findSlot header.count b type with
  | none =>
    rw [hslot] at hchild
    exact absurd rfl hchild
  | some i =>
    rw [hslot] at hchild
    refine ⟨i, rfl, ?_⟩
    rw [insert, hpos]
    refine (if_neg hmatch).trans ?_
    rw [hbyte]
    simp only [bind, Except.bind, hslot]
    rw [if_neg fun h => hchild (isNull_iff.mp h)]
    cases insert data bytes value (d + header.prefixLength + 1) (child i) <;> rfl

/-- Step lemma: an insert into the tree is one into the trie. -/
theorem insert_refines {node : Node} {t : RadixTrie UInt8 ℕ} (hnode : Refines d node t)
    (hfits : Fits 4 d t) (hvalue : value < 2 ^ 63) :
    (∃ t' node', RadixTrie.insert (loadBytes data) 4 (keyByte key) value d t = some t' ∧
      insert data (swapBytes key) value d node = .ok node' ∧ Refines d node' t') ∨
    (RadixTrie.insert (loadBytes data) 4 (keyByte key) value d t = none ∧
      insert data (swapBytes key) value d node = .error .outOfBounds) := by
  induction hnode with
  | null d => exact Or.inl ⟨_, _, rfl, by rw [insert, makeLeaf_eq hvalue], .leaf _ _⟩
  | leaf d existing => exact splitLeaf_refines hvalue existing
  | @inner d stop header type child path tchild hwf hstop hpath hchild ih =>
    have hnode : Refines d (.inner header type child) (.inner stop path tchild) :=
      .inner hwf hstop hpath hchild
    obtain ⟨hd, hL, -, hfitsChild⟩ := hfits
    have hlen : stop - d = header.prefixLength := by omega
    have hcompare := @comparePrefix_eq data key d header path (by omega) hpath
      (.inner header type child)
    rw [RadixTrie.insert, hlen]
    rcases firstDiff_cases path (keyByte key) header.prefixLength d with
      ⟨m, hle, hlt, hne, -, hfirst⟩ | ⟨-, hnone⟩
    · obtain ⟨node', hsplit, hrefines⟩ :=
        @splitPrefix_refines data key value d header type child path hvalue m stop tchild hnode hL hle
          (by omega) hne
      rw [hfirst, Option.elim_some] at hcompare
      rw [hfirst]
      rw [insert_of_mismatch hcompare (by omega : m - d ≠ header.prefixLength), hsplit]
      exact Or.inl ⟨_, _, rfl, rfl, hrefines⟩
    · rw [hnone, Option.elim_none] at hcompare
      rw [hnone]
      have hbyte : byteAt (swapBytes key) (d + header.prefixLength) = .ok (keyByte key stop) := by
        rw [hstop, byteAt_swapBytes key hL]
      have hbelow := hchild (keyByte key stop)
      by_cases hnull : findChild header.count type child (keyByte key stop) = .null
      · -- a new leaf below this node
        obtain ⟨header', type', child', hinsert, hwf', hlength', hpath', hchild'⟩ :=
          @insertNode_adds header child (keyByte key stop) (.leaf value) type hwf Node.noConfusion hnull
        rw [insert_of_findChild_null hcompare hbyte hnull, makeLeaf_eq hvalue, hinsert,
          hbelow.null_iff.mp hnull]
        refine Or.inl ⟨_, _, rfl, rfl, .inner hwf' (by omega) (fun i hi => ?_) fun b => ?_⟩
        · rw [hpath i (by omega), hpath' i (by omega) (lt_maxPrefixLength (by omega))]
        · rw [hchild']
          split_ifs with hb
          · rw [hb, Function.update_self]; exact .leaf _ _
          · rw [Function.update_of_ne hb]; exact hchild b
      · obtain ⟨i, hslot, hinsert⟩ :=
          @insert_of_findChild data value d header type child _ _ hcompare hbyte hnull
        rw [hinsert, hstop]
        rcases ih (keyByte key stop) (hfitsChild _) with
          ⟨t', node', ht', hnode', hrefines⟩ | ⟨hfails, hfails'⟩
        · rw [ht', hnode']
          have hnew : node' ≠ .null := by
            rintro rfl
            rw [hrefines.null_iff.mp rfl] at ht'
            exact ((mem_insert (hfitsChild _) ht' value).mpr (Or.inr rfl)).elim
          obtain ⟨hwf', hchild'⟩ := hwf.replace hslot hnew
          refine Or.inl ⟨_, _, rfl, rfl, .inner hwf' hstop hpath fun b => ?_⟩
          rw [hchild']
          split_ifs with hb
          · rw [hb, Function.update_self]; exact hrefines
          · rw [Function.update_of_ne hb]; exact hchild b
        · rw [hfails, hfails']
          exact Or.inr ⟨rfl, rfl⟩

end Insert

/-! ### Lookups -/

section Lookup
variable {data : List Tuple} {key : UInt32} {d : ℕ}

theorem drop_swapBytes_eq_iff (e key : UInt32) (d : ℕ) :
    (swapBytes e).drop d = (swapBytes key).drop d ↔ Agree (keyByte e) (keyByte key) d 4 := by
  generalize hn : 4 - d = n
  induction n generalizing d with
  | zero =>
    rw [drop_swapBytes_ge e (by omega), drop_swapBytes_ge key (by omega)]
    exact iff_of_true rfl fun i hi hi4 => by omega
  | succ n ih =>
    rw [drop_swapBytes e (by omega), drop_swapBytes key (by omega), List.cons.injEq,
      ih (d + 1) (by omega)]
    constructor
    · rintro ⟨hhead, hrest⟩
      exact Agree.append (fun i hi hid => by omega) hhead hrest
    · intro h
      exact ⟨h d (le_refl d) (by omega), h.mono (Nat.le_succ d) (le_refl 4)⟩

/-- What a lookup makes of a leaf at depth `d`: the key that is loaded for its value decides, unless
    there are no bytes left to compare. -/
theorem checkLeaf_cases (hd : d ≤ 4) (value : ℕ) :
    ((d < 4 → ∃ e, loadBytes data value = some e ∧ Agree e (keyByte key) d 4) ∧
      checkLeaf data (swapBytes key) d false value = .ok (some value)) ∨
    (d < 4 ∧ (∃ e, loadBytes data value = some e ∧ ¬ Agree e (keyByte key) d 4) ∧
      checkLeaf data (swapBytes key) d false value = .ok none) ∨
    (d < 4 ∧ loadBytes data value = none ∧
      checkLeaf data (swapBytes key) d false value = .error .outOfBounds) := by
  rw [checkLeaf]
  rcases Nat.lt_or_ge d 4 with hlt | hge
  · rw [if_neg fun h => hlt.ne h.2, if_pos hlt.ne, loadKey, loadBytes]
    cases data[value]? with
    | none => exact Or.inr (Or.inr ⟨hlt, rfl, rfl⟩)
    | some t =>
      by_cases hagree : Agree (keyByte t.key) (keyByte key) d 4
      · refine Or.inl ⟨fun _ => ⟨_, rfl, hagree⟩, ?_⟩
        exact if_pos ((drop_swapBytes_eq_iff _ _ _).mpr hagree)
      · refine Or.inr (Or.inl ⟨hlt, ⟨_, rfl, hagree⟩, ?_⟩)
        exact if_neg fun h => hagree ((drop_swapBytes_eq_iff _ _ _).mp h)
  · rw [if_pos ⟨Bool.false_ne_true, by omega⟩]
    exact Or.inl ⟨fun hlt => by omega, rfl⟩

variable {header : Header} {type : NodeType} {child : ℕ → Node} {path : ℕ → UInt8}

theorem checkPrefix_eq (hfits : d + header.prefixLength < 4)
    (hpath : ∀ i < header.prefixLength, path (d + i) = header.path i) :
    checkPrefix (swapBytes key) d header
      = .ok ((firstDiff path (keyByte key) header.prefixLength d).elim
          header.prefixLength (· - d)) := by
  have hshort : header.prefixLength < maxPrefixLength := lt_maxPrefixLength (by omega)
  have hloop := @mismatchLoop_swapBytes header.path path key d header.prefixLength 0 (by omega)
    (by simpa using hpath)
  rw [Nat.zero_add, Nat.add_zero] at hloop
  rw [checkPrefix, if_pos hshort, hloop]

theorem lookup_of_mismatch {bytes : List UInt8} {pos : ℕ} {skippedPrefix : Bool}
    (hpos : checkPrefix bytes d header = .ok pos) (hne : pos ≠ header.prefixLength) :
    lookup data bytes d skippedPrefix (.inner header type child) = .ok none := by
  rw [lookup, hpos]
  exact if_pos hne

theorem lookup_of_match {bytes : List UInt8} {b : UInt8} {skippedPrefix : Bool}
    (hpos : checkPrefix bytes d header = .ok header.prefixLength)
    (hbyte : byteAt bytes (d + header.prefixLength) = .ok b) :
    lookup data bytes d skippedPrefix (.inner header type child)
      = lookup data bytes (d + header.prefixLength + 1)
          (skippedPrefix || decide (maxPrefixLength ≤ header.prefixLength))
          (findChild header.count type child b) := by
  have hmatch : ¬ header.prefixLength ≠ header.prefixLength := fun h => h rfl
  rw [lookup, hpos]
  refine (if_neg hmatch).trans ?_
  rw [hbyte, findChild]
  cases hslot : findSlot header.count b type with
  | none => simp only [bind, Except.bind, hslot, lookup]
  | some i => simp only [bind, Except.bind, hslot]

/-- A lookup goes where the trie has it and checks the leaf there. -/
theorem lookup_refines {node : Node} {t : RadixTrie UInt8 ℕ} (hnode : Refines d node t)
    (hfits : Fits 4 d t) :
    lookup data (swapBytes key) d false node = match reach (keyByte key) d t with
      | none => .ok none
      | some (value, f) => checkLeaf data (swapBytes key) f false value := by
  induction hnode with
  | null d => rw [lookup]; rfl
  | leaf d value => rw [lookup]; rfl
  | @inner d stop header type child path tchild hwf hstop hpath hchild ih =>
    obtain ⟨hd, hL, -, hfitsChild⟩ := hfits
    have hlen : stop - d = header.prefixLength := by omega
    have hcheck := @checkPrefix_eq key d header path (by omega) hpath
    rw [reach, hlen]
    rcases firstDiff_cases path (keyByte key) header.prefixLength d with
      ⟨m, hle, hlt, -, -, hfirst⟩ | ⟨-, hnone⟩
    · rw [hfirst, Option.elim_some] at hcheck
      rw [hfirst, lookup_of_mismatch hcheck (by omega : m - d ≠ header.prefixLength)]
    · have hbyte : byteAt (swapBytes key) (d + header.prefixLength) = .ok (keyByte key stop) := by
        rw [hstop, byteAt_swapBytes key hL]
      have hshort : ¬ maxPrefixLength ≤ header.prefixLength :=
        (lt_maxPrefixLength (by omega)).not_ge
      rw [hnone, Option.elim_none] at hcheck
      rw [hnone, lookup_of_match hcheck hbyte, decide_eq_false hshort, Bool.or_false, hstop,
        ih (keyByte key stop) (hfitsChild _)]

end Lookup

/-! ### The build -/

/-- The bytes of the key with the number `value`. -/
def keyOf (value : ℕ) : ℕ → UInt8 := keyByte (UInt32.ofNat value)

theorem keyOf_toNat (key : UInt32) : keyOf key.toNat = keyByte key := by
  rw [keyOf, UInt32.ofNat_toNat]

/-- Keys with the same bytes are the same. -/
theorem eq_of_agree {a b : UInt32} (h : Agree (keyByte a) (keyByte b) 0 4) : a = b := by
  have h0 : (a >>> 24).toUInt8.toNat = (b >>> 24).toUInt8.toNat :=
    congrArg UInt8.toNat (h 0 (by omega) (by omega))
  have h1 : (a >>> 16).toUInt8.toNat = (b >>> 16).toUInt8.toNat :=
    congrArg UInt8.toNat (h 1 (by omega) (by omega))
  have h2 : (a >>> 8).toUInt8.toNat = (b >>> 8).toUInt8.toNat :=
    congrArg UInt8.toNat (h 2 (by omega) (by omega))
  have h3 : a.toUInt8.toNat = b.toUInt8.toNat :=
    congrArg UInt8.toNat (h 3 (by omega) (by omega))
  have ha := a.toNat_lt
  have hb := b.toNat_lt
  simp [Nat.shiftRight_eq_div_pow] at h0 h1 h2 h3
  apply UInt32.toNat_inj.mp
  omega

theorem toNat_lt_two_pow (key : UInt32) : key.toNat < 2 ^ 63 :=
  lt_trans key.toNat_lt (by decide)

/-- Run lemma: the loop of the build makes the trie of the keys. -/
theorem buildLoop_refines {data rest : List Tuple} (hpayload : ∀ t ∈ rest, t.payload = t.key)
    {node : Node} {t : RadixTrie UInt8 ℕ} (hnode : Refines 0 node t) (hfits : Fits 4 0 t) :
    (∃ t' node', (rest.map fun s => s.key.toNat).foldlM
        (fun t v => RadixTrie.insert (loadBytes data) 4 (keyOf v) v 0 t) t = some t' ∧
      buildLoop data rest node = .ok node' ∧ Refines 0 node' t') ∨
    ((rest.map fun s => s.key.toNat).foldlM
        (fun t v => RadixTrie.insert (loadBytes data) 4 (keyOf v) v 0 t) t = none ∧
      buildLoop data rest node = .error .outOfBounds) := by
  induction rest generalizing node t with
  | nil => exact Or.inl ⟨t, node, rfl, rfl, hnode⟩
  | cons s rest ih =>
    have hs : s.payload.toNat = s.key.toNat := by rw [hpayload s List.mem_cons_self]
    rw [List.map_cons, List.foldlM_cons, buildLoop, hs, keyOf_toNat]
    rcases @insert_refines data s.key s.key.toNat 0 node t hnode hfits (toNat_lt_two_pow _) with
      ⟨t', node', ht', hnode', hrefines⟩ | ⟨hfails, hfails'⟩
    · rw [ht', hnode']
      exact ih (fun t ht => hpayload t (List.mem_cons_of_mem s ht)) hrefines
        (hfits.insert (Nat.zero_le 4) ht')
    · rw [hfails, hfails']
      exact Or.inr ⟨rfl, rfl⟩

end Art
end HashingBenchmark

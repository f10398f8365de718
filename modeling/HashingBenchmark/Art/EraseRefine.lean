import HashingBenchmark.Art.EraseNode
import HashingBenchmark.Art.Refine
import HashingBenchmark.Lib.RadixErase

/-! The adaptive radix tree under inserts and erases is a radix trie.

    `Stands` relates the nodes to a trie as `Refines` does, but with nodes that are live: so all of its
    inner nodes branch. Inserts and lookups do the same as in the trie, and so does an erase where the
    tuples have the keys of the leaves: it prunes a one-way node where the trie does. -/

namespace HashingBenchmark
namespace Art
open Join RadixTrie

/-- A live node below depth `d`, with the trie that it stands for. -/
inductive Stands : ℕ → Node → RadixTrie UInt8 ℕ → Prop where
  | null (d : ℕ) : Stands d .null .null
  | leaf (d value : ℕ) : Stands d (.leaf value) (.leaf value)
  | inner {d stop : ℕ} {header : Header} {type : NodeType} {child : ℕ → Node} {path : ℕ → UInt8}
      {tchild : UInt8 → RadixTrie UInt8 ℕ} (hlive : Live header type child)
      (hstop : d + header.prefixLength = stop)
      (hpath : ∀ i < header.prefixLength, path (d + i) = header.path i)
      (hchild : ∀ b, Stands (stop + 1) (findChild header.count type child b) (tchild b)) :
      Stands d (.inner header type child) (.inner stop path tchild)

theorem Stands.null_iff {d : ℕ} {node : Node} {t : RadixTrie UInt8 ℕ} (h : Stands d node t) :
    node = .null ↔ t = .null := by
  cases h with
  | null => simp
  | leaf => simp
  | inner => simp

/-- The trie branches, since live nodes have two children. -/
theorem Stands.branching {d : ℕ} {node : Node} {t : RadixTrie UInt8 ℕ} (h : Stands d node t) :
    Branching t := by
  induction h with
  | null => trivial
  | leaf => trivial
  | inner hlive hstop hpath hchild ih =>
    obtain ⟨b, c, hbc, hb, hc⟩ := hlive.two
    exact ⟨⟨b, c, hbc, fun h => hb ((hchild b).null_iff.mpr h),
      fun h => hc ((hchild c).null_iff.mpr h)⟩, ih⟩

/-- A node that came out of an operation on a node with a short prefix. -/
theorem Stands.of_liveWith {d stop : ℕ} {header : Header} {f : UInt8 → Node} {node : Node}
    {path : ℕ → UInt8} {tchild : UInt8 → RadixTrie UInt8 ℕ} (h : LiveWith header f node)
    (hstop : d + header.prefixLength = stop) (hL : stop < 4)
    (hpath : ∀ i < header.prefixLength, path (d + i) = header.path i)
    (hchild : ∀ b, Stands (stop + 1) (f b) (tchild b)) :
    Stands d node (.inner stop path tchild) := by
  obtain ⟨header', type', child', rfl, hlive, hlength, hsame, hf⟩ := h
  refine .inner hlive (by omega) (fun i hi => ?_) fun b => ?_
  · rw [hpath i (by omega), hsame i (by omega) (lt_maxPrefixLength (by omega))]
  · rw [hf]
    exact hchild b

/-- A change of one child. -/
theorem Stands.update {stop : ℕ} {f : UInt8 → Node} {tchild : UInt8 → RadixTrie UInt8 ℕ} {b : UInt8}
    {new : Node} {t : RadixTrie UInt8 ℕ} (hchild : ∀ c, Stands stop (f c) (tchild c))
    (hnew : Stands stop new t) (c : UInt8) :
    Stands stop (if c = b then new else f c) (Function.update tchild b t c) := by
  split_ifs with hc
  · rw [hc, Function.update_self]
    exact hnew
  · rw [Function.update_of_ne hc]
    exact hchild c

/-! ### Inserts -/

section Insert
variable {data : List Tuple} {key : UInt32} {value d : ℕ}

/-- A new node with two children. -/
theorem newNode4_stands {m len : ℕ} {path apath : ℕ → UInt8} {b c : UInt8} {node node' : Node}
    {t t' : RadixTrie UInt8 ℕ} (hbc : b ≠ c) (hm : d + len = m) (hL : m < 4)
    (hpath : ∀ i < len, apath (d + i) = path i) (hnode : Stands (m + 1) node t)
    (hnode' : Stands (m + 1) node' t') (hne : node ≠ .null) (hne' : node' ≠ .null) :
    Stands d (newNode4 len path b node c node') (.inner m apath (fork b t c t')) := by
  refine .of_liveWith (newNode4_live hbc hne hne') hm hL hpath ?_
  exact Stands.update (Stands.update (fun _ => .null _) hnode) hnode'

/-- A leaf is split where its loaded key differs from the new one. -/
theorem splitLeaf_stands (hvalue : value < 2 ^ 63) (existing : ℕ) :
    (∃ t' node', RadixTrie.insert (loadBytes data) 4 (keyByte key) value d (.leaf existing) = some t' ∧
      splitLeaf data (swapBytes key) value d existing = .ok node' ∧ Stands d node' t') ∨
    (RadixTrie.insert (loadBytes data) 4 (keyByte key) value d (.leaf existing) = none ∧
      splitLeaf data (swapBytes key) value d existing = .error .outOfBounds) := by
  rw [RadixTrie.insert, splitLeaf, loadKey, loadBytes]
  cases hload : data[existing]? with
  | none => exact Or.inr ⟨rfl, rfl⟩
  | some t =>
    simp only [Option.map_some, bind, Except.bind]
    rw [matchLoop_swapBytes]
    rcases firstDiff_cases (keyByte t.key) (keyByte key) (4 - d) d with
      ⟨m, hle, hlt, hne, -, hfirst⟩ | ⟨-, hnone⟩
    · have hm : d + (m - d) = m := by omega
      rw [hfirst]
      simp only [hm]
      rw [byteAt_swapBytes t.key (by omega), byteAt_swapBytes key (by omega), makeLeaf_eq hvalue]
      refine Or.inl ⟨_, _, rfl, rfl, newNode4_stands hne hm (by omega) (fun i hi => ?_) (.leaf _ _)
        (.leaf _ _) Node.noConfusion Node.noConfusion⟩
      exact (if_pos (lt_min hi (lt_maxPrefixLength (by omega)))).symm
    · rw [hnone]
      exact Or.inr ⟨rfl, rfl⟩

variable {header : Header} {type : NodeType} {child : ℕ → Node} {path : ℕ → UInt8}

/-- A prefix that differs from the key is broken up there. -/
theorem splitPrefix_stands (hvalue : value < 2 ^ 63) {m stop : ℕ}
    {tchild : UInt8 → RadixTrie UInt8 ℕ}
    (hnode : Stands d (.inner header type child) (.inner stop path tchild))
    (hstop : stop < 4) (hle : d ≤ m) (hlt : m < stop) (hne : path m ≠ keyByte key m) :
    ∃ node', splitPrefix data (swapBytes key) value d (m - d) header type child = .ok node' ∧
      Stands d node' (.inner m path
        (fork (path m) (.inner stop path tchild) (keyByte key m) (.leaf value))) := by
  cases hnode with
  | inner hlive hlength hpath hchild =>
    have hshort : header.prefixLength < maxPrefixLength := lt_maxPrefixLength (by omega)
    have hm : d + (m - d) = m := by omega
    have hbyte : path m = header.path (m - d) := by rw [← hpath (m - d) (by omega), hm]
    rw [splitPrefix, hm, byteAt_swapBytes key (by omega)]
    simp only [bind, Except.bind]
    rw [if_pos (by omega), makeLeaf_eq hvalue, ← hbyte]
    refine ⟨_, rfl, newNode4_stands hne hm (by omega) (fun i hi => ?_) ?_ (.leaf _ _)
      Node.noConfusion Node.noConfusion⟩
    · rw [hpath i (by omega)]
      exact (if_pos (lt_min hi (by omega))).symm
    · refine .inner ⟨hlive.arrays, hlive.count, hlive.least⟩ (by simp only; omega)
        (fun i hi => ?_) fun b => hchild b
      simp only at hi ⊢
      rw [memmove, if_pos (lt_min hi (by omega)), ← hpath _ (by omega)]
      congr 1
      omega

/-- Step lemma: an insert into the tree is one into the trie. -/
theorem insert_stands {node : Node} {t : RadixTrie UInt8 ℕ} (hnode : Stands d node t)
    (hfits : Fits 4 d t) (hvalue : value < 2 ^ 63) :
    (∃ t' node', RadixTrie.insert (loadBytes data) 4 (keyByte key) value d t = some t' ∧
      insert data (swapBytes key) value d node = .ok node' ∧ Stands d node' t') ∨
    (RadixTrie.insert (loadBytes data) 4 (keyByte key) value d t = none ∧
      insert data (swapBytes key) value d node = .error .outOfBounds) := by
  induction hnode with
  | null d => exact Or.inl ⟨_, _, rfl, by rw [insert, makeLeaf_eq hvalue], .leaf _ _⟩
  | leaf d existing => exact splitLeaf_stands hvalue existing
  | @inner d stop header type child path tchild hlive hstop hpath hchild ih =>
    have hnode : Stands d (.inner header type child) (.inner stop path tchild) :=
      .inner hlive hstop hpath hchild
    obtain ⟨hd, hL, -, hfitsChild⟩ := hfits
    have hlen : stop - d = header.prefixLength := by omega
    have hcompare := @comparePrefix_eq data key d header path (by omega) hpath
      (.inner header type child)
    rw [RadixTrie.insert, hlen]
    rcases firstDiff_cases path (keyByte key) header.prefixLength d with
      ⟨m, hle, hlt, hne, -, hfirst⟩ | ⟨-, hnone⟩
    · obtain ⟨node', hsplit, hstands⟩ :=
        @splitPrefix_stands data key value d header type child path hvalue m stop tchild hnode hL hle
          (by omega) hne
      rw [hfirst, Option.elim_some] at hcompare
      rw [hfirst, insert_of_mismatch hcompare (by omega : m - d ≠ header.prefixLength), hsplit]
      exact Or.inl ⟨_, _, rfl, rfl, hstands⟩
    · rw [hnone, Option.elim_none] at hcompare
      rw [hnone]
      have hbyte : byteAt (swapBytes key) (d + header.prefixLength) = .ok (keyByte key stop) := by
        rw [hstop, byteAt_swapBytes key hL]
      by_cases hnull : findChild header.count type child (keyByte key stop) = .null
      · rw [insert_of_findChild_null hcompare hbyte hnull, makeLeaf_eq hvalue,
          (hchild (keyByte key stop)).null_iff.mp hnull]
        refine Or.inl ⟨_, _, rfl, rfl, .of_liveWith
          (insertNode_live hlive Node.noConfusion hnull) hstop hL hpath ?_⟩
        exact Stands.update hchild (.leaf _ _)
      · obtain ⟨i, hslot, hinsert⟩ :=
          @insert_of_findChild data value d header type child _ _ hcompare hbyte hnull
        rw [hinsert, hstop]
        rcases ih (keyByte key stop) (hfitsChild _) with
          ⟨t', node', ht', hnode', hstands⟩ | ⟨hfails, hfails'⟩
        · rw [ht', hnode']
          have hnew : node' ≠ .null := by
            rintro rfl
            rw [hstands.null_iff.mp rfl] at ht'
            exact ((mem_insert (hfitsChild _) ht' value).mpr (Or.inr rfl)).elim
          have hslotChild : child i ≠ .null := by
            rw [findChild, hslot] at hnull
            exact hnull
          refine Or.inl ⟨_, _, rfl, rfl, .of_liveWith (hlive.replace hslot hslotChild hnew) hstop hL
            hpath ?_⟩
          exact Stands.update hchild hstands
        · rw [hfails, hfails']
          exact Or.inr ⟨rfl, rfl⟩

end Insert

/-! ### Lookups -/

/-- A lookup goes where the trie has it and checks the leaf there. -/
theorem lookup_stands {data : List Tuple} {key : UInt32} {d : ℕ} {node : Node}
    {t : RadixTrie UInt8 ℕ} (hnode : Stands d node t) (hfits : Fits 4 d t) :
    lookup data (swapBytes key) d false node = match reach (keyByte key) d t with
      | none => .ok none
      | some (value, f) => checkLeaf data (swapBytes key) f false value := by
  induction hnode with
  | null d => rw [lookup]; rfl
  | leaf d value => rw [lookup]; rfl
  | @inner d stop header type child path tchild hlive hstop hpath hchild ih =>
    obtain ⟨hd, hL, -, hfitsChild⟩ := hfits
    have hlen : stop - d = header.prefixLength := by omega
    have hcheck := @checkPrefix_eq key d header path (by omega) hpath
    rw [reach, hlen]
    rcases firstDiff_cases path (keyByte key) header.prefixLength d with
      ⟨m, hle, hlt, -, -, hfirst⟩ | ⟨-, hnone⟩
    · rw [hfirst, Option.elim_some] at hcheck
      rw [hfirst, lookup_of_mismatch hcheck (by omega : m - d ≠ header.prefixLength)]
    · have hbyte : byteAt (swapBytes key) (d + header.prefixLength) = .ok (keyByte key stop) := by
        rw [hstop, byteAt_swapBytes key hL]
      have hshort : ¬ maxPrefixLength ≤ header.prefixLength :=
        (lt_maxPrefixLength (by omega)).not_ge
      rw [hnone, Option.elim_none] at hcheck
      rw [hnone, lookup_of_match hcheck hbyte, decide_eq_false hshort, Bool.or_false, hstop,
        ih (keyByte key stop) (hfitsChild _)]

/-- The bytes that the two lookups compare of a short prefix. -/
theorem prefixMismatch_eq_checkPrefix {data : List Tuple} {key : List UInt8} {d : ℕ} {header : Header}
    (hshort : header.prefixLength < maxPrefixLength) (node : Node) :
    prefixMismatch data key d header node = checkPrefix key d header := by
  rw [prefixMismatch, if_neg (by omega), checkPrefix, if_pos hshort]

/-- What the two lookups do at a leaf. -/
theorem leafMatches_eq_checkLeaf (data : List Tuple) (value : ℕ) (key : List UInt8) (d : ℕ) :
    ((leafMatches data value key d).bind fun found =>
      if found then .ok (some value) else .ok none) = checkLeaf data key d false value := by
  rw [leafMatches, checkLeaf]
  by_cases hd : d = 4
  · simp [hd, Except.bind]
  · rw [if_pos hd, if_neg (by simp [hd]), if_pos hd]
    cases loadKey data value with
    | error fault => rfl
    | ok leafKey => by_cases heq : leafKey.drop d = key.drop d <;> simp [bind, Except.bind, heq]

/-- The optimistic lookup skips no prefix, so the pessimistic one does the same. -/
theorem lookupPessimistic_eq_lookup {data : List Tuple} {key : List UInt8} {d : ℕ} {node : Node}
    {t : RadixTrie UInt8 ℕ} (hnode : Stands d node t) (hfits : Fits 4 d t) :
    lookupPessimistic data key d node = lookup data key d false node := by
  induction hnode with
  | null d => rfl
  | leaf d value => exact leafMatches_eq_checkLeaf data value key d
  | @inner d stop header type child path tchild hlive hstop hpath hchild ih =>
    obtain ⟨hd, hL, -, hfitsChild⟩ := hfits
    have hshort : header.prefixLength < maxPrefixLength := lt_maxPrefixLength (by omega)
    rw [lookupPessimistic, lookup, prefixMismatch_eq_checkPrefix hshort,
      decide_eq_false hshort.not_ge, Bool.or_false, hstop]
    refine congrArg _ (funext fun pos => if_congr Iff.rfl rfl (congrArg _ (funext fun keyByte => ?_)))
    have hbelow := ih keyByte (hfitsChild keyByte)
    rw [findChild] at hbelow
    cases hslot : findSlot header.count keyByte type with
    | none => rfl
    | some i =>
      rw [hslot] at hbelow
      exact hbelow

/-! ### Erases -/

section Erase
variable {data : List Tuple} {key : UInt32} {d : ℕ}

/-- The key that is loaded for a leaf decides whether it matches. -/
theorem leafMatches_cases (hd : d ≤ 4) {value : ℕ} {e : ℕ → UInt8}
    (hload : loadBytes data value = some e) :
    (Agree e (keyByte key) d 4 ∧ leafMatches data value (swapBytes key) d = .ok true) ∨
    (¬ Agree e (keyByte key) d 4 ∧ leafMatches data value (swapBytes key) d = .ok false) := by
  rw [leafMatches]
  rcases Nat.lt_or_ge d 4 with hlt | hge
  · rw [loadBytes] at hload
    obtain ⟨t, ht, rfl⟩ := Option.map_eq_some_iff.mp hload
    rw [if_pos hlt.ne, loadKey, ht]
    by_cases hagree : Agree (keyByte t.key) (keyByte key) d 4
    · refine Or.inl ⟨hagree, ?_⟩
      exact congrArg Except.ok (decide_eq_true ((drop_swapBytes_eq_iff _ _ _).mpr hagree))
    · refine Or.inr ⟨hagree, ?_⟩
      exact congrArg Except.ok (decide_eq_false fun h => hagree ((drop_swapBytes_eq_iff _ _ _).mp h))
  · rw [if_neg fun hne => hne (by omega)]
    exact Or.inl ⟨fun i hi hi' => by omega, rfl⟩

/-- The prefix of the only child of a node with a short prefix. -/
theorem concatenate_path {header below : Header} {c : UInt8}
    (hshort : header.prefixLength + 1 + below.prefixLength < 4) {i : ℕ}
    (hi : i < header.prefixLength + 1 + below.prefixLength) :
    (header.concatenate c below).path i = if i < header.prefixLength then header.path i
      else if i = header.prefixLength then c else below.path (i - (header.prefixLength + 1)) := by
  have hlt : header.prefixLength < maxPrefixLength := lt_maxPrefixLength (by omega)
  have hlt' : header.prefixLength + 1 < maxPrefixLength := lt_maxPrefixLength (by omega)
  have hmin : min below.prefixLength (maxPrefixLength - (header.prefixLength + 1))
      = below.prefixLength := by
    have hroom := lt_maxPrefixLength hshort
    omega
  have hall : min (header.prefixLength + 1 + below.prefixLength) maxPrefixLength
      = header.prefixLength + 1 + below.prefixLength :=
    min_eq_left (lt_maxPrefixLength hshort).le
  rw [Header.concatenate]
  simp only [if_pos hlt, if_pos hlt', hmin, hall, memmove, if_pos hi]
  rcases Nat.lt_trichotomy i header.prefixLength with hless | rfl | hmore
  · rw [if_neg (by omega), Function.update_of_ne hless.ne, if_pos hless]
  · rw [if_neg (by omega), Function.update_self, if_neg (lt_irrefl _), if_pos rfl]
  · rw [if_pos (by omega), if_neg (by omega), if_neg (by omega)]

/-- The only child in the place of its parent stands for the lifted trie. -/
theorem replaced_stands {stop : ℕ} {header : Header} {c : UInt8} {node : Node} {path : ℕ → UInt8}
    {t : RadixTrie UInt8 ℕ} (hnode : Stands (stop + 1) node t) (hfits : Fits 4 (stop + 1) t)
    (hstop : d + header.prefixLength = stop)
    (hpath : ∀ i < header.prefixLength, path (d + i) = header.path i) :
    Stands d (replaced header c node) (lift stop path c t) := by
  cases hnode with
  | null => exact .null _
  | leaf => exact .leaf _ _
  | @inner _ stop' below type child path' tchild hlive hstop' hpath' hchild =>
    obtain ⟨-, hL, -, -⟩ := hfits
    have hlength : (header.concatenate c below).prefixLength
        = below.prefixLength + (header.prefixLength + 1) := rfl
    refine .inner ⟨hlive.arrays, hlive.count, hlive.least⟩ (by omega) (fun i hi => ?_) hchild
    rw [concatenate_path (by omega) (by omega)]
    rcases Nat.lt_trichotomy i header.prefixLength with hless | rfl | hmore
    · rw [if_pos (by omega), if_pos hless, hpath i hless]
    · rw [if_neg (by omega), if_pos hstop, if_neg (lt_irrefl _), if_pos rfl]
    · rw [if_neg (by omega), if_neg (by omega), if_neg (by omega), if_neg (by omega),
        ← hpath' _ (by omega)]
      congr 1
      omega

variable {header : Header} {type : NodeType} {child : ℕ → Node}

theorem erase_of_mismatch {bytes : List UInt8} {pos : ℕ}
    (hpos : comparePrefix data bytes d header (.inner header type child) = .ok pos)
    (hne : pos ≠ header.prefixLength) :
    erase data bytes d (.inner header type child) = .ok (.inner header type child) := by
  rw [erase, hpos]
  exact if_pos hne

theorem erase_of_findChild_null {bytes : List UInt8} {b : UInt8}
    (hpos : comparePrefix data bytes d header (.inner header type child) = .ok header.prefixLength)
    (hbyte : byteAt bytes (d + header.prefixLength) = .ok b)
    (hnull : findChild header.count type child b = .null) :
    erase data bytes d (.inner header type child) = .ok (.inner header type child) := by
  have hmatch : ¬ header.prefixLength ≠ header.prefixLength := fun h => h rfl
  rw [erase, hpos]
  refine (if_neg hmatch).trans ?_
  rw [hbyte]
  rw [findChild] at hnull
  cases hslot : findSlot header.count b type with
  | none => simp only [bind, Except.bind, hslot]
  | some i =>
    rw [hslot] at hnull
    have hsame : Function.update child i .null = child := by
      rw [← hnull]
      exact Function.update_eq_self i child
    simp only [bind, Except.bind, hslot, hnull, isMatchingLeaf, erase, hsame]
    rfl

theorem erase_of_findChild {bytes : List UInt8} {b : UInt8}
    (hpos : comparePrefix data bytes d header (.inner header type child) = .ok header.prefixLength)
    (hbyte : byteAt bytes (d + header.prefixLength) = .ok b)
    (hchild : findChild header.count type child b ≠ .null) :
    ∃ i, findSlot header.count b type = some i ∧ findChild header.count type child b = child i ∧
      erase data bytes d (.inner header type child)
        = (isMatchingLeaf data bytes (d + header.prefixLength) (child i)).bind fun found =>
          if found then eraseNode header type child i b
          else (erase data bytes (d + header.prefixLength + 1) (child i)).map fun node =>
            .inner header type (Function.update child i node) := by
  have hmatch : ¬ header.prefixLength ≠ header.prefixLength := fun h => h rfl
  rw [findChild] at hchild
  cases hslot : findSlot header.count b type with
  | none =>
    rw [hslot] at hchild
    exact absurd rfl hchild
  | some i =>
    refine ⟨i, rfl, by rw [findChild, hslot], ?_⟩
    rw [erase, hpos]
    refine (if_neg hmatch).trans ?_
    rw [hbyte]
    simp only [bind, Except.bind, hslot]
    cases isMatchingLeaf data bytes (d + header.prefixLength) (child i) with
    | error fault => rfl
    | ok found =>
      cases found with
      | true => rfl
      | false =>
        cases erase data bytes (d + header.prefixLength + 1) (child i) <;> rfl

variable {bytesOf : ℕ → ℕ → UInt8} {stop value i : ℕ} {path : ℕ → UInt8}
  {tchild : UInt8 → RadixTrie UInt8 ℕ}

/-- An erase that takes a leaf out of its node. -/
theorem eraseNode_stands (hlive : Live header type child) (hstop : d + header.prefixLength = stop)
    (hL : stop < 4) (hpath : ∀ i < header.prefixLength, path (d + i) = header.path i)
    (hchild : ∀ b, Stands (stop + 1) (findChild header.count type child b) (tchild b))
    (hfits : ∀ b, Fits 4 (stop + 1) (tchild b)) {b : UInt8}
    (hslot : findSlot header.count b type = some i) (hne : child i ≠ .null) :
    ∃ node', eraseNode header type child i b = .ok node' ∧
      Stands d node' (prune stop path (Function.update tchild b .null)) := by
  obtain ⟨node', hok, herased⟩ := eraseNode_erased hlive hslot hne fun _ => rfl
  have hleft := @Stands.update (stop + 1) _ _ b _ _ hchild (.null _)
  refine ⟨node', hok, ?_⟩
  rcases herased with hwith | ⟨c, hc, honly, rfl⟩
  · obtain ⟨a, c, hac, ha, hc⟩ := hwith.two
    rw [prune_of_two hac (fun h => ha ((hleft a).null_iff.mpr h))
      fun h => hc ((hleft c).null_iff.mpr h)]
    exact .of_liveWith hwith hstop hL hpath hleft
  · have hone : Only (Function.update tchild b .null) c :=
      ⟨fun h => hc ((hleft c).null_iff.mpr h), fun a ha => (hleft a).null_iff.mp (honly a ha)⟩
    have hfits' : ∀ a, Fits 4 (stop + 1) (Function.update tchild b .null a) :=
      (Function.forall_update_iff tchild fun _ x => Fits 4 (stop + 1) x).mpr
        ⟨trivial, fun a _ => hfits a⟩
    rw [prune_of_only hone]
    exact replaced_stands (hleft c) (hfits' c) hstop hpath

/-- A leaf matches where the trie erases it. -/
theorem leafMatches_erase (hd : d ≤ 4) (hload : loadBytes data value = some (bytesOf value)) :
    (leafMatches data value (swapBytes key) d = .ok true ∧
      RadixTrie.erase bytesOf 4 (keyByte key) d (.leaf value) = .null) ∨
    (leafMatches data value (swapBytes key) d = .ok false ∧
      RadixTrie.erase bytesOf 4 (keyByte key) d (.leaf value) = .leaf value) := by
  rcases @leafMatches_cases data key d hd value _ hload with ⟨hagree, hok⟩ | ⟨hagree, hok⟩
  · rcases erase_leaf bytesOf (keyByte key) hd value with ⟨-, heq⟩ | ⟨hnot, -⟩
    · exact Or.inl ⟨hok, heq⟩
    · exact absurd hagree hnot
  · rcases erase_leaf bytesOf (keyByte key) hd value with ⟨hyes, -⟩ | ⟨-, heq⟩
    · exact absurd hyes hagree
    · exact Or.inr ⟨hok, heq⟩

/-- A leaf that is the child for a byte of the key matches from this byte on as from the next. -/
theorem leafMatches_child (hL : stop < 4) (hload : loadBytes data value = some (bytesOf value))
    (hletter : bytesOf value stop = keyByte key stop) :
    leafMatches data value (swapBytes key) stop
      = leafMatches data value (swapBytes key) (stop + 1) := by
  have hempty : Agree (bytesOf value) (keyByte key) stop stop := fun i hi hi' => by omega
  rcases @leafMatches_cases data key stop hL.le value _ hload with ⟨hagree, hok⟩ | ⟨hagree, hok⟩ <;>
    rcases @leafMatches_cases data key (stop + 1) hL value _ hload with
      ⟨hagree', hok'⟩ | ⟨hagree', hok'⟩
  · rw [hok, hok']
  · exact absurd (hagree.mono (Nat.le_succ stop) (le_refl 4)) hagree'
  · exact absurd (hempty.append hletter hagree') hagree
  · rw [hok, hok']

/-- An erase below a node with a leaf for the key. -/
theorem erase_leafChild_stands (hlive : Live header type child)
    (hstop : d + header.prefixLength = stop) (hL : stop < 4)
    (hpath : ∀ i < header.prefixLength, path (d + i) = header.path i)
    (hchild : ∀ b, Stands (stop + 1) (findChild header.count type child b) (tchild b))
    (hfits : ∀ b, Fits 4 (stop + 1) (tchild b))
    (hslot : findSlot header.count (keyByte key stop) type = some i) (hleaf : child i = .leaf value)
    (hload : loadBytes data value = some (bytesOf value))
    (hletter : bytesOf value stop = keyByte key stop) :
    ∃ node', ((isMatchingLeaf data (swapBytes key) stop (child i)).bind fun found =>
        if found then eraseNode header type child i (keyByte key stop)
        else (erase data (swapBytes key) (stop + 1) (child i)).map fun node =>
          .inner header type (Function.update child i node)) = .ok node' ∧
      Stands d node' (prune stop path (Function.update tchild (keyByte key stop)
        (RadixTrie.erase bytesOf 4 (keyByte key) (stop + 1) (tchild (keyByte key stop))))) := by
  have hnode : Stands d (.inner header type child) (.inner stop path tchild) :=
    .inner hlive hstop hpath hchild
  have hbelow := hchild (keyByte key stop)
  rw [findChild, hslot] at hbelow
  simp only [hleaf] at hbelow
  have htleaf : tchild (keyByte key stop) = .leaf value := by
    generalize tchild (keyByte key stop) = x at hbelow
    cases hbelow
    rfl
  rw [hleaf, isMatchingLeaf, leafMatches_child hL hload hletter, erase, htleaf]
  rcases @leafMatches_erase data key (stop + 1) bytesOf value hL hload with
    ⟨hok, herase⟩ | ⟨hok, herase⟩ <;> rw [hok, herase]
  · have hne : child i ≠ .null := by
      rw [hleaf]
      exact Node.noConfusion
    exact eraseNode_stands hlive hstop hL hpath hchild hfits hslot hne
  · have hsame : Function.update child i (.leaf value) = child := by
      rw [← hleaf]
      exact Function.update_eq_self i child
    have htsame : Function.update tchild (keyByte key stop) (.leaf value) = tchild := by
      rw [← htleaf]
      exact Function.update_eq_self _ tchild
    obtain ⟨b, c, hbc, hb, hc⟩ := hnode.branching.1
    rw [htsame, prune_of_two hbc hb hc]
    refine ⟨.inner header type child, ?_, hnode⟩
    simp only [Except.bind, bind, Except.map, Bool.false_eq_true, if_false, hsame]

/-- Step lemma: where the tuples have the keys of the leaves, an erase from the tree is one from the
    trie. -/
theorem erase_stands {node : Node} {t : RadixTrie UInt8 ℕ} (hnode : Stands d node t)
    (hfits : Fits 4 d t) (hright : Right bytesOf d t)
    (hload : ∀ w, Mem w t → loadBytes data w = some (bytesOf w)) :
    ∃ node', erase data (swapBytes key) d node = .ok node' ∧
      Stands d node' (RadixTrie.erase bytesOf 4 (keyByte key) d t) := by
  induction hnode with
  | null d => exact ⟨.null, rfl, .null _⟩
  | leaf d value =>
    rw [erase]
    rcases @leafMatches_erase data key d bytesOf value hfits (hload value rfl) with
      ⟨hok, heq⟩ | ⟨hok, heq⟩ <;> rw [hok, heq]
    · exact ⟨.null, rfl, .null _⟩
    · exact ⟨.leaf value, rfl, .leaf _ _⟩
  | @inner d stop header type child path tchild hlive hstop hpath hchild ih =>
    have hnode : Stands d (.inner header type child) (.inner stop path tchild) :=
      .inner hlive hstop hpath hchild
    obtain ⟨hd, hL, -, hfitsChild⟩ := hfits
    have hlen : stop - d = header.prefixLength := by omega
    have hcompare := @comparePrefix_eq data key d header path (by omega) hpath
      (.inner header type child)
    rw [RadixTrie.erase, hlen]
    rcases firstDiff_cases path (keyByte key) header.prefixLength d with
      ⟨m, hle, hlt, hne, -, hfirst⟩ | ⟨-, hnone⟩
    · rw [hfirst, Option.elim_some] at hcompare
      rw [hfirst]
      exact ⟨_, erase_of_mismatch hcompare (by omega), hnode⟩
    · rw [hnone, Option.elim_none] at hcompare
      rw [hnone]
      have hbyte : byteAt (swapBytes key) (d + header.prefixLength) = .ok (keyByte key stop) := by
        rw [hstop, byteAt_swapBytes key hL]
      by_cases hnull : findChild header.count type child (keyByte key stop) = .null
      · have htnull := (hchild (keyByte key stop)).null_iff.mp hnull
        obtain ⟨b, c, hbc, hb, hc⟩ := hnode.branching.1
        rw [erase_of_findChild_null hcompare hbyte hnull]
        simp only [htnull, RadixTrie.erase]
        rw [← htnull, Function.update_eq_self, prune_of_two hbc hb hc]
        exact ⟨_, rfl, hnode⟩
      · obtain ⟨i, hslot, hfind, herase⟩ :=
          @erase_of_findChild data d header type child _ _ hcompare hbyte hnull
        have hne : child i ≠ .null := hfind ▸ hnull
        have hbelow := hchild (keyByte key stop)
        rw [hfind] at hbelow
        rw [herase, hstop]
        cases hslotChild : child i with
        | null => exact absurd hslotChild hne
        | leaf value =>
          have hvalue : Mem value (tchild (keyByte key stop)) := by
            rw [hslotChild] at hbelow
            generalize tchild (keyByte key stop) = x at hbelow
            cases hbelow
            rfl
          rw [← hslotChild]
          exact erase_leafChild_stands hlive hstop hL hpath hchild hfitsChild hslot hslotChild
            (hload value ⟨_, hvalue⟩) ((hright _).2 value hvalue).2
        | inner below type' child' =>
          -- below a child with two children of its own something is left
          obtain ⟨node', hnode', hstands'⟩ := ih (keyByte key stop) (hfitsChild _) (hright _).1
            fun w hw => hload w ⟨_, hw⟩
          rw [hfind, hslotChild] at hnode'
          have hkept : RadixTrie.erase bytesOf 4 (keyByte key) (stop + 1)
              (tchild (keyByte key stop)) ≠ .null := by
            have hfitsBelow := hfitsChild (keyByte key stop)
            have hbranches := hbelow.branching
            rw [hslotChild] at hbelow
            generalize tchild (keyByte key stop) = x at hbelow hfitsBelow hbranches
            cases hbelow
            exact erase_ne_null hfitsBelow hbranches
          have hnew : node' ≠ .null := fun h => hkept (hstands'.null_iff.mp h)
          rw [prune_update hnode.branching.1 hkept]
          simp only [isMatchingLeaf, Except.bind, Bool.false_eq_true, if_false, hnode', Except.map]
          refine ⟨_, rfl, .of_liveWith (hlive.replace hslot hne hnew) hstop hL hpath ?_⟩
          exact Stands.update hchild hstands'

end Erase

end Art
end HashingBenchmark

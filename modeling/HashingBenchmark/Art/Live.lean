import HashingBenchmark.Art.Erase
import HashingBenchmark.Art.Slots
import Mathlib.Data.List.Perm.Subperm

/-! What the nodes of a tree keep through inserts and erases.

    An erase leaves holes in the array of a `Node48`, so its children are not in its first slots any
    more. But every child that is there is in the table (`Sparse`), so that a free slot is found as
    long as `count` is below 48. For this `count` has to be the number of children, and for the node to
    shrink in time it has to be above the number at which it shrinks (`Live`). Then an insert adds one
    child (`insertNode_live`), and an erase takes one out (`eraseNode_live`), whatever kind of node
    comes out of it. -/

namespace HashingBenchmark
namespace Art

/-! ### Counting bytes -/

theorem mem_bytesWith {test : UInt8 → Bool} {b : UInt8} : b ∈ bytesWith test ↔ test b = true := by
  rw [bytesWith, List.mem_filter]
  refine and_iff_right (List.mem_map.mpr ⟨b.toNat, List.mem_range.mpr b.toNat_lt, ?_⟩)
  exact UInt8.ofNat_toNat

theorem nodup_bytesWith (test : UInt8 → Bool) : (bytesWith test).Nodup := by
  refine List.Nodup.filter _ (List.Nodup.map_on ?_ List.nodup_range)
  intro a ha b hb heq
  have hnat := congrArg UInt8.toNat heq
  rw [UInt8.toNat_ofNat', UInt8.toNat_ofNat', Nat.mod_eq_of_lt (List.mem_range.mp ha),
    Nat.mod_eq_of_lt (List.mem_range.mp hb)] at hnat
  exact hnat

/-- The bytes with a child. -/
def childBytes (f : UInt8 → Node) : List UInt8 := bytesWith fun b => ¬ (f b).isNull

theorem mem_childBytes {f : UInt8 → Node} {b : UInt8} : b ∈ childBytes f ↔ f b ≠ .null := by
  rw [childBytes, mem_bytesWith, decide_eq_true_eq, isNull_iff]

theorem nodup_childBytes (f : UInt8 → Node) : (childBytes f).Nodup := nodup_bytesWith _

/-- One more child. -/
theorem length_childBytes_add {f f' : UInt8 → Node} {b : UInt8} {new : Node}
    (h : ∀ c, f' c = if c = b then new else f c) (hnull : f b = .null) (hnew : new ≠ .null) :
    (childBytes f').length = (childBytes f).length + 1 := by
  have hb : b ∉ childBytes f := fun hmem => mem_childBytes.mp hmem hnull
  have hperm : (childBytes f').Perm (b :: childBytes f) := by
    refine (List.perm_ext_iff_of_nodup (nodup_childBytes f') ?_).mpr fun c => ?_
    · exact List.nodup_cons.mpr ⟨hb, nodup_childBytes f⟩
    · rw [List.mem_cons, mem_childBytes, mem_childBytes, h]
      split_ifs with hc
      · exact iff_of_true hnew (Or.inl hc)
      · exact (or_iff_right hc).symm
  exact hperm.length_eq

/-- One child less. -/
theorem length_childBytes_remove {f f' : UInt8 → Node} {b : UInt8}
    (h : ∀ c, f' c = if c = b then .null else f c) (hb : f b ≠ .null) :
    (childBytes f).length = (childBytes f').length + 1 := by
  refine @length_childBytes_add f' f b (f b) (fun c => ?_) ?_ hb
  · rw [h]
    split_ifs with hc
    · rw [hc]
    · rfl
  · rw [h, if_pos rfl]

/-- A child in the place of another one. -/
theorem length_childBytes_replace {f f' : UInt8 → Node} {b : UInt8} {new : Node}
    (h : ∀ c, f' c = if c = b then new else f c) (hb : f b ≠ .null) (hnew : new ≠ .null) :
    (childBytes f').length = (childBytes f).length := by
  have hsame : childBytes f' = childBytes f := by
    refine congrArg bytesWith (funext fun c => ?_)
    rw [h]
    split_ifs with hc
    · rw [hc]
      exact decide_eq_decide.mpr (by rw [isNull_iff, isNull_iff]; exact iff_of_true hnew hb)
    · rfl
  rw [hsame]

/-! ### Nodes -/

/-- Every byte in `childIndex` has a slot with a child, every child is in the slot of a byte, and no
    two bytes have the same slot. -/
structure Sparse (childIndex : UInt8 → UInt8) (child : ℕ → Node) : Prop where
  inUse : ∀ b, childIndex b ≠ emptyMarker →
    (childIndex b).toNat < 48 ∧ child (childIndex b).toNat ≠ .null
  used : ∀ i < 48, child i ≠ .null → ∃ b, childIndex b ≠ emptyMarker ∧ (childIndex b).toNat = i
  distinct : ∀ b c, childIndex b ≠ emptyMarker → childIndex b = childIndex c → b = c

def Arrays (count : ℕ) (child : ℕ → Node) : NodeType → Prop
  | .NodeType4 key => count ≤ 4 ∧ Slots count key child
  | .NodeType16 key => count ≤ 16 ∧ Slots count key child
  | .NodeType48 childIndex => count ≤ 48 ∧ Sparse childIndex child
  | .NodeType256 => True

/-- The smallest number of children of a node of this kind. -/
def NodeType.least : NodeType → ℕ
  | .NodeType4 _ => 2
  | .NodeType16 _ => 4
  | .NodeType48 _ => 13
  | .NodeType256 => 38

/-- The arrays of a node are right, and its count is the number of its children. -/
structure Live (header : Header) (type : NodeType) (child : ℕ → Node) : Prop where
  arrays : Arrays header.count child type
  count : header.count = (childBytes (findChild header.count type child)).length
  least : type.least ≤ header.count

/-- With as many bytes as slots in use, every slot in use has a byte. -/
theorem Indexed.sparse {count : ℕ} {childIndex : UInt8 → UInt8} {child : ℕ → Node}
    (h : Indexed count childIndex child) (hle : count ≤ 48)
    (hcount : count = (childBytes (findChild count (.NodeType48 childIndex) child)).length) :
    Sparse childIndex child := by
  have hfilled : ∀ b, childIndex b ≠ emptyMarker →
      (childIndex b).toNat < 48 ∧ child (childIndex b).toNat ≠ .null := by
    intro b hb
    have hlt := h.inUse b hb
    exact ⟨by omega, fun hnull => absurd ((h.filled _ (by omega)).mp hnull) (by omega)⟩
  refine ⟨hfilled, fun i hi hne => ?_, h.distinct⟩
  have hmem : ∀ b, b ∈ childBytes (findChild count (.NodeType48 childIndex) child) ↔
      childIndex b ≠ emptyMarker := by
    intro b
    rw [mem_childBytes, findChild_NodeType48]
    split_ifs with hb
    · exact iff_of_true (hfilled b hb).2 hb
    · exact iff_of_false (fun h => h rfl) hb
  have hnodup : ((childBytes (findChild count (.NodeType48 childIndex) child)).map
      fun b => (childIndex b).toNat).Nodup := by
    refine List.Nodup.map_on (fun b hb c _ heq => ?_) (nodup_childBytes _)
    exact h.distinct b c ((hmem b).mp hb) (UInt8.toNat_inj.mp heq)
  have hsub : ((childBytes (findChild count (.NodeType48 childIndex) child)).map
      fun b => (childIndex b).toNat) ⊆ List.range count := by
    intro j hj
    obtain ⟨b, hb, rfl⟩ := List.mem_map.mp hj
    exact List.mem_range.mpr (h.inUse b ((hmem b).mp hb))
  have hperm := (hnodup.subperm hsub).perm_of_length_le (by
    rw [List.length_range, List.length_map]
    exact hcount.le)
  have hlt : i < count := by
    by_contra hge
    exact hne ((h.filled i hi).mpr (by omega))
  obtain ⟨b, hb, heq⟩ := List.mem_map.mp (hperm.mem_iff.mpr (List.mem_range.mpr hlt))
  exact ⟨b, (hmem b).mp hb, heq⟩

theorem arrays_of_wf {count : ℕ} {child : ℕ → Node} {type : NodeType} (h : Wf count child type)
    (hcount : count = (childBytes (findChild count type child)).length) :
    Arrays count child type := by
  cases type with
  | NodeType4 key => exact h
  | NodeType16 key => exact h
  | NodeType48 childIndex => exact ⟨h.1, h.2.sparse h.1 hcount⟩
  | NodeType256 => trivial

/-- A node with fewer than 48 children has a free slot. -/
theorem Sparse.exists_free {count : ℕ} {childIndex : UInt8 → UInt8} {child : ℕ → Node}
    (h : Sparse childIndex child) (hlt : count < 48)
    (hcount : count = (childBytes (findChild count (.NodeType48 childIndex) child)).length) :
    ∃ i < 48, child i = .null := by
  by_contra hall
  push Not at hall
  have hsub : List.range 48 ⊆ (childBytes (findChild count (.NodeType48 childIndex) child)).map
      fun b => (childIndex b).toNat := by
    intro i hi
    obtain ⟨b, hb, heq⟩ := h.used i (List.mem_range.mp hi) (hall i (List.mem_range.mp hi))
    refine List.mem_map.mpr ⟨b, mem_childBytes.mpr ?_, heq⟩
    rw [findChild_NodeType48, if_pos hb]
    exact (h.inUse b hb).2
  have hle := (List.nodup_range.subperm hsub).length_le
  rw [List.length_range, List.length_map] at hle
  omega

/-- The slot that the loop of `insertNode48` stops at. -/
theorem firstFree_spec (child : ℕ → Node) {left pos i : ℕ} (hle : pos ≤ i) (hlt : i < pos + left)
    (hnull : child i = .null) :
    child (firstFree child left pos) = .null ∧ firstFree child left pos < pos + left := by
  induction left generalizing pos with
  | zero => omega
  | succ left ih =>
    rw [firstFree]
    split_ifs with hfree
    · exact ⟨isNull_iff.mp hfree, by omega⟩
    · have hne : pos ≠ i := by
        rintro rfl
        exact hfree (isNull_iff.mpr hnull)
      obtain ⟨hnull', hlt'⟩ := @ih (pos + 1) (by omega) (by omega)
      exact ⟨hnull', by omega⟩

/-- Using a free slot. -/
theorem Sparse.add {childIndex : UInt8 → UInt8} {child : ℕ → Node} (h : Sparse childIndex child)
    {pos : ℕ} (hpos : pos < 48) (hfree : child pos = .null) (count count' : ℕ) {keyByte : UInt8}
    (hkey : childIndex keyByte = emptyMarker) {new : Node} (hnew : new ≠ .null) :
    Sparse (Function.update childIndex keyByte (UInt8.ofNat pos)) (Function.update child pos new) ∧
      ∀ b, findChild count' (.NodeType48 (Function.update childIndex keyByte (UInt8.ofNat pos)))
          (Function.update child pos new) b
        = if b = keyByte then new else findChild count (.NodeType48 childIndex) child b := by
  obtain ⟨hslot, hmarker⟩ := toNat_ofNat_slot hpos
  have hne : ∀ b, childIndex b ≠ emptyMarker → (childIndex b).toNat ≠ pos := by
    intro b hb heq
    exact (h.inUse b hb).2 (by rw [heq, hfree])
  refine ⟨⟨fun b hb => ?_, fun i hi hnull => ?_, fun b c hb heq => ?_⟩, fun b => ?_⟩
  · rcases eq_or_ne b keyByte with rfl | hb'
    · rw [Function.update_self, hslot, Function.update_self]
      exact ⟨hpos, hnew⟩
    · rw [Function.update_of_ne hb'] at hb ⊢
      rw [Function.update_of_ne (hne b hb)]
      exact h.inUse b hb
  · rcases eq_or_ne i pos with rfl | hi'
    · exact ⟨keyByte, by rw [Function.update_self]; exact hmarker,
        by rw [Function.update_self]; exact hslot⟩
    · rw [Function.update_of_ne hi'] at hnull
      obtain ⟨b, hb, heq⟩ := h.used i hi hnull
      have hb' : b ≠ keyByte := by
        rintro rfl
        exact hb hkey
      exact ⟨b, by rw [Function.update_of_ne hb']; exact hb,
        by rw [Function.update_of_ne hb']; exact heq⟩
  · rcases eq_or_ne b keyByte with rfl | hb'
    · rcases eq_or_ne c b with rfl | hc'
      · rfl
      · rw [Function.update_self, Function.update_of_ne hc'] at heq
        exact absurd (heq ▸ hslot) (hne c (heq ▸ hmarker))
    · rw [Function.update_of_ne hb'] at hb heq
      rcases eq_or_ne c keyByte with rfl | hc'
      · rw [Function.update_self] at heq
        exact absurd (heq ▸ hslot) (hne b hb)
      · rw [Function.update_of_ne hc'] at heq
        exact h.distinct b c hb heq
  · rw [findChild_NodeType48, findChild_NodeType48]
    rcases eq_or_ne b keyByte with rfl | hb'
    · rw [Function.update_self, if_pos hmarker, hslot, Function.update_self, if_pos rfl]
    · rw [Function.update_of_ne hb', if_neg hb']
      split_ifs with hb
      · rw [Function.update_of_ne (hne b hb)]
      · rfl

/-! ### Inserting -/

/-- A live node with the same prefix as another one. -/
def LiveWith (header : Header) (f : UInt8 → Node) (node : Node) : Prop :=
  ∃ header' type' child', node = .inner header' type' child' ∧ Live header' type' child' ∧
    header'.prefixLength = header.prefixLength ∧
    (∀ i, i < header.prefixLength → i < maxPrefixLength → header'.path i = header.path i) ∧
    ∀ b, findChild header'.count type' child' b = f b

section Insert
variable {header header' : Header} {type type' : NodeType} {child child' : ℕ → Node}
  {keyByte : UInt8} {new : Node}

theorem insertNode48_count {childIndex : UInt8 → UInt8}
    (h : insertNode48 header childIndex child keyByte new = .inner header' type' child')
    (hleast : 13 ≤ header.count + 1) :
    header'.count = header.count + 1 ∧ type'.least ≤ header'.count := by
  rw [insertNode48] at h
  rcases Nat.lt_or_ge header.count 48 with hlt | hge
  · rw [if_pos hlt] at h
    obtain ⟨rfl, rfl, -⟩ := Node.inner.inj h
    exact ⟨rfl, hleast⟩
  · rw [if_neg hge.not_gt] at h
    obtain ⟨rfl, rfl, -⟩ := Node.inner.inj h
    refine ⟨rfl, ?_⟩
    change 38 ≤ header.count + 1
    omega

theorem insertNode16_count {key : ℕ → UInt8}
    (h : insertNode16 header key child keyByte new = .inner header' type' child')
    (hleast : 4 ≤ header.count + 1) :
    header'.count = header.count + 1 ∧ type'.least ≤ header'.count := by
  rw [insertNode16] at h
  rcases Nat.lt_or_ge header.count 16 with hlt | hge
  · rw [if_pos hlt] at h
    obtain ⟨rfl, rfl, -⟩ := Node.inner.inj h
    exact ⟨rfl, hleast⟩
  · rw [if_neg hge.not_gt] at h
    have hthirteen : 13 ≤ header.copy.count + 1 := by
      change 13 ≤ header.count + 1
      omega
    have hgrown : insertNode48 header.copy _ _ keyByte new = .inner header' type' child' := h
    have hresult := insertNode48_count hgrown hthirteen
    exact hresult

theorem insertNode4_count {key : ℕ → UInt8} (hcount : header.count ≤ 4)
    (h : insertNode4 header key child keyByte new = .inner header' type' child')
    (hleast : 2 ≤ header.count + 1) :
    header'.count = header.count + 1 ∧ type'.least ≤ header'.count := by
  rw [insertNode4] at h
  rcases Nat.lt_or_ge header.count 4 with hlt | hge
  · rw [if_pos hlt] at h
    obtain ⟨rfl, rfl, -⟩ := Node.inner.inj h
    exact ⟨rfl, hleast⟩
  · rw [if_neg hge.not_gt] at h
    have hfour : header.count = 4 := by omega
    rw [hfour]
    have hgrown : insertNode16 { header.copy with count := 4 } _ _ keyByte new
        = .inner header' type' child' := h
    have hresult := insertNode16_count hgrown (show 4 ≤ 4 + 1 by decide)
    exact hresult

/-- A node that grew or has room, with its new child. -/
theorem LiveWith.of_adds {node : Node} (hadds : Adds header type child keyByte new node)
    (hcount : header.count = (childBytes (findChild header.count type child)).length)
    (hnew : new ≠ .null) (hnull : findChild header.count type child keyByte = .null)
    (hincr : ∀ header' type' child', node = .inner header' type' child' →
      header'.count = header.count + 1 ∧ type'.least ≤ header'.count) :
    LiveWith header (fun b => if b = keyByte then new else findChild header.count type child b)
      node := by
  obtain ⟨header', type', child', hnode, hwf, hlength, hpath, hchild⟩ := hadds
  obtain ⟨hincr', hleast⟩ := hincr _ _ _ hnode
  have hcount' : header'.count = (childBytes (findChild header'.count type' child')).length := by
    rw [length_childBytes_add hchild hnull hnew, hincr', ← hcount]
  exact ⟨header', type', child', hnode, ⟨arrays_of_wf hwf hcount', hcount', hleast⟩, hlength, hpath,
    hchild⟩

/-- A `Node48` takes a free slot or grows. -/
theorem insertNode48_live {childIndex : UInt8 → UInt8}
    (h : Live header (.NodeType48 childIndex) child) (hnew : new ≠ .null)
    (hnull : findChild header.count (.NodeType48 childIndex) child keyByte = .null) :
    LiveWith header (fun b => if b = keyByte then new
        else findChild header.count (.NodeType48 childIndex) child b)
      (insertNode48 header childIndex child keyByte new) := by
  obtain ⟨⟨hle, hsparse⟩, hcount, hleast⟩ := h
  have hkey : childIndex keyByte = emptyMarker := by
    by_contra hkey
    rw [findChild_NodeType48, if_pos hkey] at hnull
    exact (hsparse.inUse keyByte hkey).2 hnull
  by_cases hlt : header.count < 48
  · obtain ⟨i, hi, hfree⟩ := hsparse.exists_free hlt hcount
    have hpos : ∀ pos, pos = (if (child header.count).isNull then header.count
        else firstFree child 48 0) → pos < 48 ∧ child pos = .null := by
      rintro pos rfl
      split_ifs with hfirst
      · exact ⟨hlt, isNull_iff.mp hfirst⟩
      · obtain ⟨hnull', hlt'⟩ := firstFree_spec child (Nat.zero_le i) (by omega : i < 0 + 48) hfree
        exact ⟨by omega, hnull'⟩
    obtain ⟨hpos48, hposFree⟩ := hpos _ rfl
    obtain ⟨hsparse', hchild'⟩ := hsparse.add hpos48 hposFree header.count header.incr.count hkey hnew
    rw [insertNode48, if_pos hlt]
    refine ⟨_, _, _, rfl, ⟨⟨hlt, hsparse'⟩, ?_, Nat.le_succ_of_le hleast⟩, rfl, fun _ _ _ => rfl,
      hchild'⟩
    rw [length_childBytes_add hchild' hnull hnew, ← hcount]
    rfl
  · have hadds : Adds header (.NodeType48 childIndex) child keyByte new
        (insertNode48 header childIndex child keyByte new) := by
      rw [insertNode48, if_neg hlt]
      refine Adds.of_copy ?_ ?_ ?_ (insertNode256_adds header.copy _ keyByte new)
      · rfl
      · rfl
      · intro b
        have hb : b.toNat < 256 := b.toNat_lt
        rw [findChild_NodeType48, findChild, findSlot]
        simp only [UInt8.ofNat_toNat, hb, true_and]
        rfl
    exact .of_adds hadds hcount hnew hnull fun _ _ _ heq =>
      insertNode48_count heq (Nat.le_succ_of_le hleast)

/-- Step lemma: a live node gets the new child and keeps all others, and it is live. -/
theorem insertNode_live (h : Live header type child) (hnew : new ≠ .null)
    (hnull : findChild header.count type child keyByte = .null) :
    LiveWith header (fun b => if b = keyByte then new else findChild header.count type child b)
      (insertNode header type child keyByte new) := by
  obtain ⟨harrays, hcount, hleast⟩ := h
  cases type with
  | NodeType4 key =>
    exact .of_adds (insertNode4_adds harrays.1 harrays.2 hnew hnull) hcount hnew hnull
      fun _ _ _ heq => insertNode4_count harrays.1 heq (Nat.le_succ_of_le hleast)
  | NodeType16 key =>
    exact .of_adds (insertNode16_adds harrays.1 harrays.2 hnew hnull) hcount hnew hnull
      fun _ _ _ heq => insertNode16_count heq (Nat.le_succ_of_le hleast)
  | NodeType48 childIndex => exact insertNode48_live ⟨harrays, hcount, hleast⟩ hnew hnull
  | NodeType256 =>
    refine .of_adds (insertNode256_adds header child keyByte new) hcount hnew hnull ?_
    intro _ _ _ heq
    obtain ⟨rfl, rfl, -⟩ := Node.inner.inj heq
    exact ⟨rfl, Nat.le_succ_of_le hleast⟩

/-- A new node with two children. -/
theorem newNode4_live {len : ℕ} {path : ℕ → UInt8} {b c : UInt8} {node node' : Node} (hbc : b ≠ c)
    (hne : node ≠ .null) (hne' : node' ≠ .null) :
    LiveWith ⟨len, 0, path⟩ (fun x => if x = c then node' else if x = b then node else .null)
      (newNode4 len path b node c node') := by
  have hempty : Slots 0 (fun _ => 0) (fun _ => .null) :=
    ⟨fun i hi => absurd hi (Nat.not_lt_zero i), fun i hi => absurd hi (Nat.not_lt_zero i)⟩
  have hnull : ∀ x, findChild 0 (.NodeType4 fun _ => 0) (fun _ => .null) x = .null := fun x => rfl
  have hnone : (childBytes (findChild 0 (.NodeType4 fun _ => 0) fun _ => .null)).length = 0 :=
    List.length_eq_zero_iff.mpr (List.eq_nil_iff_forall_not_mem.mpr fun x hx =>
      mem_childBytes.mp hx (hnull x))
  obtain ⟨header, type, child, hfirst, hwf, hlength, hpath, hchild⟩ :=
    @insertNode4_adds ⟨len, 0, path⟩ (fun _ => .null) b node (fun _ => 0) (Nat.zero_le 4) hempty hne
      (hnull b)
  have hone := length_childBytes_add hchild (hnull b) hne
  rw [hnone] at hone
  have hsecond : newNode4 len path b node c node' = insertNode header type child c node' := by
    rw [newNode4, hfirst]
  rw [insertNode4, if_pos (show 0 < 4 by decide)] at hfirst
  obtain ⟨rfl, rfl, rfl⟩ := Node.inner.inj hfirst
  have hfree := hchild c
  rw [if_neg hbc.symm, hnull] at hfree
  obtain ⟨header', type', child', hnode, hlive, hlength', hpath', hchild'⟩ :=
    LiveWith.of_adds (insertNode_adds hwf hne' hfree) hone.symm hne' hfree fun _ _ _ heq =>
      insertNode4_count hwf.1 heq (show 2 ≤ 1 + 1 by decide)
  refine ⟨header', type', child', hsecond.trans hnode, hlive, hlength', hpath', fun x => ?_⟩
  rw [hchild']
  beta_reduce
  rw [hchild, hnull]

end Insert

/-! ### Replacing a child -/

section Replace
variable {header : Header} {child : ℕ → Node} {keyByte : UInt8} {i : ℕ} {new : Node}

theorem Sparse.replace {childIndex : UInt8 → UInt8} (h : Sparse childIndex child)
    (hkey : childIndex keyByte ≠ emptyMarker) (hnew : new ≠ .null) (count : ℕ) :
    Sparse childIndex (Function.update child (childIndex keyByte).toNat new) ∧
      ∀ b, findChild count (.NodeType48 childIndex)
          (Function.update child (childIndex keyByte).toNat new) b
        = if b = keyByte then new else findChild count (.NodeType48 childIndex) child b := by
  refine ⟨⟨fun b hb => ?_, fun j hj hne => ?_, h.distinct⟩, fun b => ?_⟩
  · refine ⟨(h.inUse b hb).1, ?_⟩
    rcases eq_or_ne (childIndex b).toNat (childIndex keyByte).toNat with heq | hother
    · rw [heq, Function.update_self]
      exact hnew
    · rw [Function.update_of_ne hother]
      exact (h.inUse b hb).2
  · rcases eq_or_ne j (childIndex keyByte).toNat with rfl | hother
    · exact ⟨keyByte, hkey, rfl⟩
    · rw [Function.update_of_ne hother] at hne
      exact h.used j hj hne
  · rw [findChild_NodeType48, findChild_NodeType48]
    split_ifs with hb hsame hsame
    · rw [hsame, Function.update_self]
    · have hother : (childIndex b).toNat ≠ (childIndex keyByte).toNat := fun heq =>
        hsame (h.distinct b keyByte hb (UInt8.toNat_inj.mp heq))
      rw [Function.update_of_ne hother]
    · exact absurd hkey (hsame ▸ hb)
    · rfl

/-- Writing a child through the pointer to another one. -/
theorem Live.replace {type : NodeType} (h : Live header type child)
    (hslot : findSlot header.count keyByte type = some i) (hne : child i ≠ .null)
    (hnew : new ≠ .null) :
    LiveWith header (fun b => if b = keyByte then new else findChild header.count type child b)
      (.inner header type (Function.update child i new)) := by
  have hkey : findChild header.count type child keyByte ≠ .null := by
    rw [findChild, hslot]
    exact hne
  obtain ⟨harrays, hcount, hleast⟩ := h
  obtain ⟨harrays', hchild⟩ : Arrays header.count (Function.update child i new) type ∧
      ∀ b, findChild header.count type (Function.update child i new) b
        = if b = keyByte then new else findChild header.count type child b := by
    cases type with
    | NodeType4 key => exact @Wf.replace header.count i child keyByte new (.NodeType4 key) harrays hslot hnew
    | NodeType16 key => exact @Wf.replace header.count i child keyByte new (.NodeType16 key) harrays hslot hnew
    | NodeType48 childIndex =>
      rw [findSlot] at hslot
      split_ifs at hslot with hmark
      obtain rfl := Option.some.inj hslot
      obtain ⟨hsparse, hchild⟩ := harrays.2.replace hmark hnew header.count
      exact ⟨⟨harrays.1, hsparse⟩, hchild⟩
    | NodeType256 => exact @Wf.replace header.count i child keyByte new .NodeType256 harrays hslot hnew
  refine ⟨_, _, _, rfl, ⟨harrays', ?_, hleast⟩, rfl, fun _ _ _ => rfl, hchild⟩
  rw [length_childBytes_replace hchild hkey hnew]
  exact hcount

/-- A live node has two children. -/
theorem Live.two {type : NodeType} (h : Live header type child) :
    ∃ b c, b ≠ c ∧ findChild header.count type child b ≠ .null ∧
      findChild header.count type child c ≠ .null := by
  have htwo : 2 ≤ type.least := by
    cases type <;> simp [NodeType.least]
  have hlen : 2 ≤ (childBytes (findChild header.count type child)).length := by
    rw [← h.count]
    exact htwo.trans h.least
  have hmem := fun b => @mem_childBytes (findChild header.count type child) b
  have hnodup := nodup_childBytes (findChild header.count type child)
  match childBytes (findChild header.count type child), hlen, hmem, hnodup with
  | b :: c :: rest, _, hmem, hnodup =>
    refine ⟨b, c, ?_, (hmem b).mp (by simp), (hmem c).mp (by simp)⟩
    rintro rfl
    simp at hnodup

theorem LiveWith.two {f : UInt8 → Node} {node : Node} (h : LiveWith header f node) :
    ∃ b c, b ≠ c ∧ f b ≠ .null ∧ f c ≠ .null := by
  obtain ⟨header', type', child', -, hlive, -, -, hf⟩ := h
  obtain ⟨b, c, hbc, hb, hc⟩ := hlive.two
  exact ⟨b, c, hbc, hf b ▸ hb, hf c ▸ hc⟩

end Replace

end Art
end HashingBenchmark

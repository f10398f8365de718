import HashingBenchmark.Art.Tree

/-! Erasing a key from the adaptive radix tree, `erase` and the `eraseNode` functions of
    `art32_tree.h`, and the other lookup, which checks nodes and leaves as `erase` does.

    An inner node takes the leaf out of its arrays and shrinks into the kind below where its count
    reaches a fixed number, well below the capacity of that kind. A `Node4` with one child left gives
    way to the child. Unlike the other kinds a `Node48` keeps the freed slot as a hole. -/

namespace HashingBenchmark
namespace Art
open Join

/-- `count--`. -/
def Header.decr (header : Header) : Header := { header with count := header.count - 1 }

/-- The `memmove` that closes the gap at `pos` among `count` entries. -/
def removeAt {α : Type} (a : ℕ → α) (pos count : ℕ) : ℕ → α := fun i =>
  if pos ≤ i ∧ i + 1 < count then a (i + 1) else a i

/-- Store the prefix of a one-way node, the byte of its child and the prefix of the child, as far as
    there is room, as the prefix of the child. -/
def Header.concatenate (header : Header) (keyByte : UInt8) (child : Header) : Header :=
  let l1 := header.prefixLength
  let (path, l1) :=
    if l1 < maxPrefixLength then (Function.update header.path l1 keyByte, l1 + 1)
    else (header.path, l1)
  let (path, l1) :=
    if l1 < maxPrefixLength then
      let l2 := min child.prefixLength (maxPrefixLength - l1)
      (fun i => if l1 ≤ i ∧ i < l1 + l2 then child.path (i - l1) else path i, l1 + l2)
    else (path, l1)
  { child with
    prefixLength := child.prefixLength + (header.prefixLength + 1)
    path := memmove child.path path (min l1 maxPrefixLength) }

/-- `eraseNode4`; with a null pointer as the last child it reads a prefix through it. -/
def eraseNode4 (header : Header) (key : ℕ → UInt8) (child : ℕ → Node) (pos : ℕ) :
    Except ArtFault Node :=
  let key := removeAt key pos header.count
  let child := removeAt child pos header.count
  if header.decr.count = 1 then
    match child 0 with
    | .null => .error .outOfBounds
    | .leaf value => .ok (.leaf value)
    | .inner below type children =>
      .ok (.inner (header.concatenate (key 0) below) type children)
  else .ok (.inner header.decr (.NodeType4 key) child)

def eraseNode16 (header : Header) (key : ℕ → UInt8) (child : ℕ → Node) (pos : ℕ) : Node :=
  let key := removeAt key pos header.count
  let child := removeAt child pos header.count
  if header.decr.count = 3 then
    let key4 : ℕ → UInt8 := fun i => if i < 4 then flipSign (key i) else 0
    let child4 : ℕ → Node := fun i => if i < 4 then child i else .null
    .inner header.decr.copy (.NodeType4 key4) child4
  else .inner header.decr (.NodeType16 key) child

/-- The bytes that pass the test in `for (b = 0; b < 256; b++) if (..) newNode->count++`: the one at
    position `count` is handled with this `count`. -/
def bytesWith (test : UInt8 → Bool) : List UInt8 := ((List.range 256).map UInt8.ofNat).filter test

def eraseNode48 (header : Header) (childIndex : UInt8 → UInt8) (child : ℕ → Node)
    (keyByte : UInt8) : Node :=
  let child := Function.update child (childIndex keyByte).toNat .null
  let childIndex := Function.update childIndex keyByte emptyMarker
  if header.decr.count = 12 then
    let used := bytesWith fun b => childIndex b ≠ emptyMarker
    .inner { header.decr.copy with count := used.length }
      (.NodeType16 fun i => (used.map flipSign).getD i 0)
      (fun i => (used.map fun b => child (childIndex b).toNat).getD i .null)
  else .inner header.decr (.NodeType48 childIndex) child

def eraseNode256 (header : Header) (child : ℕ → Node) (keyByte : UInt8) : Node :=
  let child := Function.update child keyByte.toNat .null
  if header.decr.count = 37 then
    let used := bytesWith fun b => ¬ (child b.toNat).isNull
    .inner { header.decr.copy with count := used.length }
      (.NodeType48 fun b => if b ∈ used then UInt8.ofNat (used.idxOf b) else emptyMarker)
      (fun i => (used.map fun b => child b.toNat).getD i .null)
  else .inner header.decr .NodeType256 child

/-- The `switch` of `erase`; `pos` is the slot that `findChild` returned a pointer to. -/
def eraseNode (header : Header) (type : NodeType) (child : ℕ → Node) (pos : ℕ) (keyByte : UInt8) :
    Except ArtFault Node :=
  match type with
  | .NodeType4 key => eraseNode4 header key child pos
  | .NodeType16 key => .ok (eraseNode16 header key child pos)
  | .NodeType48 childIndex => .ok (eraseNode48 header childIndex child keyByte)
  | .NodeType256 => .ok (eraseNode256 header child keyByte)

/-- `leafMatches`. -/
def leafMatches (data : List Tuple) (value : ℕ) (key : List UInt8) (depth : ℕ) :
    Except ArtFault Bool :=
  if depth ≠ 4 then do
    let leafKey ← loadKey data value
    .ok (decide (leafKey.drop depth = key.drop depth))
  else .ok true

/-- `lookupPessimistic`: it compares all of each prefix and then what is left of the key. -/
def lookupPessimistic (data : List Tuple) (key : List UInt8) : ℕ → Node → Except ArtFault (Option ℕ)
  | _, .null => .ok none
  | depth, .leaf value => do
    if ← leafMatches data value key depth then .ok (some value) else .ok none
  | depth, .inner header type child => do
    let mismatchPos ← prefixMismatch data key depth header (.inner header type child)
    if mismatchPos ≠ header.prefixLength then .ok none
    else do
      let keyByte ← byteAt key (depth + header.prefixLength)
      match findSlot header.count keyByte type with
      | none => .ok none
      | some i => lookupPessimistic data key (depth + header.prefixLength + 1) (child i)

/-- `isLeaf(*child) && leafMatches(*child, ..)`. -/
def isMatchingLeaf (data : List Tuple) (key : List UInt8) (depth : ℕ) : Node → Except ArtFault Bool
  | .leaf value => leafMatches data value key depth
  | _ => .ok false

/-- `erase`: the node that `*nodeRef` points to afterwards. -/
def erase (data : List Tuple) (key : List UInt8) : ℕ → Node → Except ArtFault Node
  | _, .null => .ok .null
  | depth, .leaf value => do
    if ← leafMatches data value key depth then .ok .null else .ok (.leaf value)
  | depth, .inner header type child => do
    let mismatchPos ← comparePrefix data key depth header (.inner header type child)
    if mismatchPos ≠ header.prefixLength then .ok (.inner header type child)
    else do
      let keyByte ← byteAt key (depth + header.prefixLength)
      match findSlot header.count keyByte type with
      | none => .ok (.inner header type child)
      | some i =>
        let found ← isMatchingLeaf data key (depth + header.prefixLength) (child i)
        if found then eraseNode header type child i keyByte
        else do
          let node ← erase data key (depth + header.prefixLength + 1) (child i)
          .ok (.inner header type (Function.update child i node))

end Art
end HashingBenchmark

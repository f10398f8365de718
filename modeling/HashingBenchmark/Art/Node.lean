import HashingBenchmark.Lib.LaneMask
import HashingBenchmark.Support.Table

/-! The nodes of the adaptive radix tree, `art32_tree.h`.

    An inner node has up to 4, 16, 48 or 256 children. The kinds differ in how they find the slot of
    a key byte in the array of children: a search among `count` key bytes, the same with all of them
    in a vector register, a table of slots, or the byte itself is the slot. A node that is full makes
    room by growing into the next kind.

    Arrays are functions; every access below is within the bounds of the array in the source. What
    `new` or the stack leave uninitialised is zero here and is not read. -/

namespace HashingBenchmark
namespace Art
open LaneMask

/-- `maxPrefixLength`. -/
def maxPrefixLength : ℕ := 9

/-- `emptyMarker`. -/
def emptyMarker : UInt8 := 48

/-- The kind of an inner node, with the array that leads from bytes to slots. -/
inductive NodeType where
  | NodeType4 (key : ℕ → UInt8)
  | NodeType16 (key : ℕ → UInt8)
  | NodeType48 (childIndex : UInt8 → UInt8)
  | NodeType256

/-- The header of an inner node; `path` is the array `prefix`. -/
structure Header where
  prefixLength : ℕ
  count : ℕ
  path : ℕ → UInt8

/-- A node pointer: null, a pseudo-leaf, or an inner node. -/
inductive Node where
  | null
  | leaf (value : ℕ)
  | inner (header : Header) (type : NodeType) (child : ℕ → Node)

/-- `if (node)` for a pointer. -/
def Node.isNull : Node → Bool
  | .null => true
  | _ => false

/-- `makeLeaf`: the value that `getLeafValue` reads out of the tagged pointer. -/
def makeLeaf (tid : ℕ) : Node := .leaf ((2 * tid + 1) % 2 ^ 64 / 2)

def flipSign (keyByte : UInt8) : UInt8 := keyByte ^^^ 128

/-- The 16 bytes of an array, loaded into a register. -/
def loadu (key : ℕ → UInt8) : Lanes 16 (8 * 1) := fun i => (key i).toBitVec

/-- Compare lane by lane as signed bytes, to lanes of ones or of zeros. -/
def cmplt_epi8 (a b : Lanes 16 (8 * 1)) : Lanes 16 (8 * 1) := fun i =>
  if (a i).slt (b i) then BitVec.allOnes _ else BitVec.zero _

/-- The slot that `findChild` returns a pointer to, if it is not `nullNode`. -/
def findSlot (count : ℕ) (keyByte : UInt8) : NodeType → Option ℕ
  | .NodeType4 key => (List.range count).find? fun i => key i = keyByte
  | .NodeType16 key =>
    let cmp : Lanes 16 (8 * 1) := cmpeq (set1 (flipSign keyByte).toBitVec) (loadu key)
    let bitfield := (movemask_epi8 cmp).setWidth 32 &&& (1#32 <<< count - 1#32)
    if bitfield ≠ 0#32 then some bitfield.ctz.toNat else none
  | .NodeType48 childIndex =>
    if childIndex keyByte ≠ emptyMarker then some (childIndex keyByte).toNat else none
  | .NodeType256 => some keyByte.toNat

/-- `*findChild(n, keyByte)`. -/
def findChild (count : ℕ) (type : NodeType) (child : ℕ → Node) (keyByte : UInt8) : Node :=
  match findSlot count keyByte type with
  | none => .null
  | some i => child i

/-- The two `memmove`s and the write that put `x` at `pos` in front of the rest of `count` entries. -/
def insertAt {α : Type} (a : ℕ → α) (pos count : ℕ) (x : α) : ℕ → α := fun i =>
  if i < pos then a i else if i = pos then x else if i ≤ count then a (i - 1) else a i

/-- `memmove` of `n` bytes into an array. -/
def memmove (dst src : ℕ → UInt8) (n : ℕ) : ℕ → UInt8 := fun i => if i < n then src i else dst i

/-- `memcpy` of `n` bytes into a new array. -/
def memcpy (src : ℕ → UInt8) (n : ℕ) : ℕ → UInt8 := memmove (fun _ => 0) src n

/-- The header of the larger node that a node grows into, with `copyPrefix`. -/
def Header.copy (header : Header) : Header :=
  ⟨header.prefixLength, header.count, memcpy header.path (min header.prefixLength maxPrefixLength)⟩

/-- `count++`. -/
def Header.incr (header : Header) : Header := { header with count := header.count + 1 }

def insertNode256 (header : Header) (child : ℕ → Node) (keyByte : UInt8) (new : Node) : Node :=
  .inner header.incr .NodeType256 (Function.update child keyByte.toNat new)

/-- `for (pos = 0; node->child[pos] != NULL; pos++)`, over the slots that are left. -/
def firstFree (child : ℕ → Node) : ℕ → ℕ → ℕ
  | 0, pos => pos
  | left + 1, pos => if (child pos).isNull then pos else firstFree child left (pos + 1)

def insertNode48 (header : Header) (childIndex : UInt8 → UInt8) (child : ℕ → Node)
    (keyByte : UInt8) (new : Node) : Node :=
  if header.count < 48 then
    let pos := if (child header.count).isNull then header.count else firstFree child 48 0
    .inner header.incr (.NodeType48 (Function.update childIndex keyByte (UInt8.ofNat pos)))
      (Function.update child pos new)
  else
    let child256 : ℕ → Node := fun i =>
      if i < 256 ∧ childIndex (UInt8.ofNat i) ≠ 48 then child (childIndex (UInt8.ofNat i)).toNat
      else .null
    insertNode256 header.copy child256 keyByte new

/-- `newNode->childIndex[flipSign(node->key[i])] = i` for the first `n` slots. -/
def indexKeys (key : ℕ → UInt8) : ℕ → UInt8 → UInt8
  | 0 => fun _ => emptyMarker
  | n + 1 => Function.update (indexKeys key n) (flipSign (key n)) (UInt8.ofNat n)

def insertNode16 (header : Header) (key : ℕ → UInt8) (child : ℕ → Node) (keyByte : UInt8)
    (new : Node) : Node :=
  if header.count < 16 then
    let keyByteFlipped := flipSign keyByte
    let cmp : Lanes 16 (8 * 1) := cmplt_epi8 (set1 keyByteFlipped.toBitVec) (loadu key)
    let bitfield : BitVec 16 := movemask_epi8 cmp &&& (0xFFFF#16 >>> (16 - header.count))
    let pos := if bitfield ≠ 0#16 then bitfield.ctz.toNat else header.count
    .inner header.incr (.NodeType16 (insertAt key pos header.count keyByteFlipped))
      (insertAt child pos header.count new)
  else
    let child48 : ℕ → Node := fun i => if i < header.count then child i else .null
    insertNode48 header.copy (indexKeys key header.count) child48 keyByte new

def insertNode4 (header : Header) (key : ℕ → UInt8) (child : ℕ → Node) (keyByte : UInt8)
    (new : Node) : Node :=
  if header.count < 4 then
    let pos := ((List.range header.count).find? fun pos => ¬ key pos < keyByte).getD header.count
    .inner header.incr (.NodeType4 (insertAt key pos header.count keyByte))
      (insertAt child pos header.count new)
  else
    let key16 : ℕ → UInt8 := fun i => if i < 4 then flipSign (key i) else 0
    let child16 : ℕ → Node := fun i => if i < header.count then child i else .null
    insertNode16 { header.copy with count := 4 } key16 child16 keyByte new

/-- The `switch` at the end of `insert`. -/
def insertNode (header : Header) (type : NodeType) (child : ℕ → Node) (keyByte : UInt8)
    (new : Node) : Node :=
  match type with
  | .NodeType4 key => insertNode4 header key child keyByte new
  | .NodeType16 key => insertNode16 header key child keyByte new
  | .NodeType48 childIndex => insertNode48 header childIndex child keyByte new
  | .NodeType256 => insertNode256 header child keyByte new

end Art
end HashingBenchmark

import HashingBenchmark.Art.Node
import HashingBenchmark.Inlj.Count

/-! The adaptive radix tree over the tuples of R, and the probe with it,
    `inlj_with_art32tree_probe_rel_s_partition`.

    The tree branches on the bytes of the keys, the most significant one first, and a leaf holds the
    value of its tuple only. Where the tree needs the key of a leaf it takes the value for a position
    in the vector of the tuples (`loadKey`). `main` makes the keys the values.

    Reading the vector or a key of four bytes outside its bounds ends a call with `outOfBounds`. -/

namespace HashingBenchmark
namespace Art
open Join

inductive ArtFault where
  | outOfBounds
  | overflow
  deriving DecidableEq

/-- `swapBytes`: the bytes of a key, the most significant one first. -/
def swapBytes (org_key : UInt32) : List UInt8 :=
  [(org_key >>> 24).toUInt8, (org_key >>> 16).toUInt8, (org_key >>> 8).toUInt8, org_key.toUInt8]

/-- `key[i]`. -/
def byteAt (key : List UInt8) (i : ℕ) : Except ArtFault UInt8 :=
  match key[i]? with
  | none => .error .outOfBounds
  | some b => .ok b

/-- `loadKey`. -/
def loadKey (data : List Tuple) (tid : ℕ) : Except ArtFault (List UInt8) :=
  match data[tid]? with
  | none => .error .outOfBounds
  | some t => .ok (swapBytes t.key)

/-- `getLeafValue(minimum(node))`. -/
def minimum : Node → Except ArtFault ℕ
  | .null => .ok 0
  | .leaf value => .ok value
  | .inner _ type child =>
    match type with
    | .NodeType4 _ => minimum (child 0)
    | .NodeType16 _ => minimum (child 0)
    | .NodeType48 childIndex =>
      match (List.range 256).find? fun pos => childIndex (UInt8.ofNat pos) ≠ emptyMarker with
      | none => .error .outOfBounds
      | some pos => minimum (child (childIndex (UInt8.ofNat pos)).toNat)
    | .NodeType256 =>
      match (List.range 256).find? fun pos => ¬ (child pos).isNull with
      | none => .error .outOfBounds
      | some pos => minimum (child pos)

/-- `for (; pos < ..; pos++) if (key[depth + pos] != bytes[pos]) return pos`, over the positions that
    are left. -/
def mismatchLoop (bytes : ℕ → Option UInt8) (key : List UInt8) (depth : ℕ) :
    ℕ → ℕ → Except ArtFault ℕ
  | 0, pos => .ok pos
  | left + 1, pos =>
    match key[depth + pos]?, bytes pos with
    | some b, some a => if b ≠ a then .ok pos else mismatchLoop bytes key depth left (pos + 1)
    | _, _ => .error .outOfBounds

/-- `prefixMismatch`; a prefix that does not fit into the header is read from the tuples. -/
def prefixMismatch (data : List Tuple) (key : List UInt8) (depth : ℕ) (header : Header)
    (node : Node) : Except ArtFault ℕ :=
  if header.prefixLength > maxPrefixLength then do
    let pos ← mismatchLoop (fun pos => some (header.path pos)) key depth maxPrefixLength 0
    if pos < maxPrefixLength then .ok pos
    else do
      let minKey ← loadKey data (← minimum node)
      mismatchLoop (fun pos => minKey[depth + pos]?) key depth
        (header.prefixLength - maxPrefixLength) pos
  else mismatchLoop (fun pos => some (header.path pos)) key depth header.prefixLength 0

/-- The comparison of the key with the prefix of a node at the start of `insert`. -/
def comparePrefix (data : List Tuple) (key : List UInt8) (depth : ℕ) (header : Header)
    (node : Node) : Except ArtFault ℕ :=
  if header.prefixLength ≠ 0 then prefixMismatch data key depth header node
  else .ok header.prefixLength

/-- A `new Node4()` with a prefix, after `insertNode4` of two children. -/
def newNode4 (prefixLength : ℕ) (path : ℕ → UInt8) (keyByte : UInt8) (child : Node)
    (keyByte' : UInt8) (child' : Node) : Node :=
  match insertNode4 ⟨prefixLength, 0, path⟩ (fun _ => 0) (fun _ => .null) keyByte child with
  | .inner header type children => insertNode header type children keyByte' child'
  | node => node

/-- `while (existingKey[depth + n] == key[depth + n]) n++`, for the bytes from `depth` on. -/
def matchLoop : List UInt8 → List UInt8 → Except ArtFault ℕ
  | a :: existingKey, b :: key =>
    if a = b then (matchLoop existingKey key).map (· + 1) else .ok 0
  | _, _ => .error .outOfBounds

/-- Replace a leaf by a `Node4` with both leaves in it. -/
def splitLeaf (data : List Tuple) (key : List UInt8) (value depth existing : ℕ) :
    Except ArtFault Node := do
  let existingKey ← loadKey data existing
  let newPrefixLength ← matchLoop (existingKey.drop depth) (key.drop depth)
  let path := memcpy (fun i => key.getD (depth + i) 0) (min newPrefixLength maxPrefixLength)
  let existingByte ← byteAt existingKey (depth + newPrefixLength)
  let keyByte ← byteAt key (depth + newPrefixLength)
  .ok (newNode4 newPrefixLength path existingByte (.leaf existing) keyByte (makeLeaf value))

/-- Put a `Node4` in front of a node whose prefix differs from the key at `mismatchPos`. -/
def splitPrefix (data : List Tuple) (key : List UInt8) (value depth mismatchPos : ℕ)
    (header : Header) (type : NodeType) (child : ℕ → Node) : Except ArtFault Node := do
  let path := memcpy header.path (min mismatchPos maxPrefixLength)
  let rest := header.prefixLength - (mismatchPos + 1)
  let keyByte ← byteAt key (depth + mismatchPos)
  if header.prefixLength < maxPrefixLength then
    let header' : Header := { header with
      prefixLength := rest
      path := memmove header.path (fun i => header.path (mismatchPos + 1 + i))
        (min rest maxPrefixLength) }
    .ok (newNode4 mismatchPos path (header.path mismatchPos) (.inner header' type child) keyByte
      (makeLeaf value))
  else do
    let minKey ← loadKey data (← minimum (.inner header type child))
    let minByte ← byteAt minKey (depth + mismatchPos)
    if depth + mismatchPos + 1 + min rest maxPrefixLength ≤ minKey.length then
      let header' : Header := { header with
        prefixLength := rest
        path := memmove header.path (fun i => minKey.getD (depth + mismatchPos + 1 + i) 0)
          (min rest maxPrefixLength) }
      .ok (newNode4 mismatchPos path minByte (.inner header' type child) keyByte (makeLeaf value))
    else .error .outOfBounds

/-- `insert`: the node that `*nodeRef` points to afterwards. -/
def insert (data : List Tuple) (key : List UInt8) (value : ℕ) : ℕ → Node → Except ArtFault Node
  | _, .null => .ok (makeLeaf value)
  | depth, .leaf existing => splitLeaf data key value depth existing
  | depth, .inner header type child => do
    let mismatchPos ← comparePrefix data key depth header (.inner header type child)
    if mismatchPos ≠ header.prefixLength then
      splitPrefix data key value depth mismatchPos header type child
    else do
      let keyByte ← byteAt key (depth + header.prefixLength)
      match findSlot header.count keyByte type with
      | none => .ok (insertNode header type child keyByte (makeLeaf value))
      | some i =>
        if (child i).isNull then .ok (insertNode header type child keyByte (makeLeaf value))
        else do
          let node ← insert data key value (depth + header.prefixLength + 1) (child i)
          .ok (.inner header type (Function.update child i node))

/-- The loop of `Build`. -/
def buildLoop (data : List Tuple) : List Tuple → Node → Except ArtFault Node
  | [], tree_ => .ok tree_
  | key_value :: rest, tree_ =>
    match insert data (swapBytes key_value.key) key_value.payload.toNat 0 tree_ with
    | .error fault => .error fault
    | .ok tree_ => buildLoop data rest tree_

/-- `Build`. -/
def build (data : List Tuple) : Except ArtFault Node := buildLoop data data .null

/-- What `lookup` does at a leaf: the value, or nothing if the rest of the key is another one. -/
def checkLeaf (data : List Tuple) (key : List UInt8) (depth : ℕ) (skippedPrefix : Bool)
    (value : ℕ) : Except ArtFault (Option ℕ) :=
  if ¬ skippedPrefix ∧ depth = 4 then .ok (some value)
  else if depth ≠ 4 then do
    let leafKey ← loadKey data value
    let i := if skippedPrefix then 0 else depth
    if leafKey.drop i = key.drop i then .ok (some value) else .ok none
  else .ok (some value)

/-- What `lookup` compares of the prefix of a node: nothing if it might not be all there. -/
def checkPrefix (key : List UInt8) (depth : ℕ) (header : Header) : Except ArtFault ℕ :=
  if header.prefixLength < maxPrefixLength then
    mismatchLoop (fun pos => some (header.path pos)) key depth header.prefixLength 0
  else .ok header.prefixLength

/-- `lookup`: the value of the leaf, or `none` for the null pointer. -/
def lookup (data : List Tuple) (key : List UInt8) :
    ℕ → Bool → Node → Except ArtFault (Option ℕ)
  | _, _, .null => .ok none
  | depth, skippedPrefix, .leaf value => checkLeaf data key depth skippedPrefix value
  | depth, skippedPrefix, .inner header type child => do
    let pos ← checkPrefix key depth header
    if pos ≠ header.prefixLength then .ok none
    else do
      let keyByte ← byteAt key (depth + header.prefixLength)
      match findSlot header.count keyByte type with
      | none => .ok none
      | some i =>
        lookup data key (depth + header.prefixLength + 1)
          (skippedPrefix || decide (maxPrefixLength ≤ header.prefixLength)) (child i)

/-- The loop of `main` that makes the keys the payloads; `j` is an `int`. -/
def payloadLoop : List Tuple → ℕ → List Tuple → Except ArtFault (List Tuple)
  | [], _, art32_data => .ok art32_data
  | t :: rel_r, j, art32_data =>
    if j + 1 ≤ Inlj.intMax then payloadLoop rel_r (j + 1) (art32_data ++ [⟨t.key, t.key⟩])
    else .error .overflow

/-- The body of the loop of `inlj_with_art32tree_probe_rel_s_partition`. -/
def probe (data : List Tuple) (tree_ : Node) (keyForSearch : UInt32) (matches' : UInt64) :
    Except ArtFault UInt64 := do
  let leaf ← lookup data (swapBytes keyForSearch) 0 false tree_
  .ok (if leaf = some keyForSearch.toNat then matches' + 1 else matches')

/-- The tree that `main` builds from R, and the probe of S with it. -/
def artJoin (rel_r rel_s : Relation) : Except ArtFault UInt64 := do
  let art32_data ← payloadLoop rel_r.tuples 0 []
  let tree_ ← build art32_data
  Inlj.probeRelS (probe art32_data tree_) rel_s.tuples 0

end Art
end HashingBenchmark

import HashingBenchmark.Inlj.RmiProbe
import HashingBenchmark.Lib.FanoutTree

/-! The CSS-tree of `CC_CSSTree.h`, and the probe of the sorted keys with it,
    `inlj_with_csstree_probe_rel_s_partition`.

    The tree is an array of nodes in breadth-first order, with `fanout - 1` keys each. The constructor
    fills it level by level from the sorted keys, and leaves a node at the first key that would come
    from behind the array; such slots keep the -1 of the initial loop, which runs to the number of
    nodes and not to that of keys, or what `malloc` returned. All node numbers and indices are `int`,
    and a value that an `int` does not hold has no meaning. -/

namespace HashingBenchmark
namespace Inlj
open Join FanoutTree
open scoped UIntOrder

inductive CssFault where
  | outOfBounds
  | overflow
  deriving DecidableEq

/-- The value of an `int` expression. -/
def int (x : ℕ) : Except CssFault ℕ := if x ≤ intMax then .ok x else .error .overflow

/-- `CC_CSSTree`. -/
structure CssTree where
  numRecord : ℕ
  numNode : ℕ
  level : ℕ
  ntree : ℕ → UInt32
  fanout : ℕ
  blockSize : ℕ
  numKey : ℕ

def divRoundUp (n s : ℕ) : ℕ := n / s + if n % s > 0 then 1 else 0

/-- The loop that counts the levels above `temp` nodes, and the level of these. -/
def countLevels (fanout : ℕ) : ℕ → ℕ → ℕ
  | 0, _ => 1
  | fuel + 1, temp => if temp > 1 then countLevels fanout fuel (divRoundUp temp fanout) + 1 else 1

theorem KeyArray.clamp_lt (r : KeyArray) (curIndex : ℕ) :
    (if curIndex ≥ r.keys.length then r.keys.length - 1 else curIndex) < r.keys.length := by
  have hpos := r.length_pos
  split_ifs
  · omega
  · omega

/-- The key for a slot: behind the array, the last one. -/
def KeyArray.keyAt (r : KeyArray) (curIndex : ℕ) : UInt32 :=
  r.keys.get ⟨_, r.clamp_lt curIndex⟩

/-- `curIndex` for slot `k` of node `j`, in a level that starts at `startNode`. -/
def slotIndex (fanout level i startNode j k : ℕ) : ℕ :=
  (fanout - 1) * fanout ^ (level - i - 1) * (k + 1 - startNode * (fanout - 1) + (j - startNode)) - 1

/-- The loop over the slots of node `j`. -/
def fillNode (r : KeyArray) (fanout level i startNode j : ℕ) :
    List ℕ → (ℕ → UInt32) → Except CssFault (ℕ → UInt32)
  | [], ntree => .ok ntree
  | k :: slots, ntree =>
    match int (slotIndex fanout level i startNode j k) with
    | .error fault => .error fault
    | .ok curIndex =>
      if curIndex < r.keys.length + (fanout - 1) then
        fillNode r fanout level i startNode j slots
          fun slot => if slot = k then r.keyAt curIndex else ntree slot
      else .ok ntree

/-- The loop over the nodes of level `i`. -/
def fillLevel (r : KeyArray) (fanout level : ℕ) (ntree : ℕ → UInt32) (i : ℕ) :
    Except CssFault (ℕ → UInt32) :=
  let startNode := firstNode fanout i
  let endNode := firstNode fanout (i + 1)
  (List.range' startNode (endNode - startNode)).foldlM
    (fun ntree j => fillNode r fanout level i startNode j
      (List.range' (j * (fanout - 1)) (fanout - 1)) ntree) ntree

/-- The number of leaves; a negative `int` has the effect of 0. -/
def numLeaf (r : KeyArray) (fanout : ℕ) : ℕ :=
  (toInt (UInt64.ofNat (divRoundUp r.keys.length (fanout - 1)))).toNat

/-- The constructor of `CC_CSSTree`, on memory that holds `malloc`. -/
def cssTree (r : KeyArray) (fanout : ℕ) (malloc : ℕ → UInt32) : Except CssFault CssTree :=
  let level := countLevels fanout (numLeaf r fanout) (numLeaf r fanout)
  match int (firstNode fanout level) with
  | .error fault => .error fault
  | .ok numNode =>
    match int (numNode * (fanout - 1)) with
    | .error fault => .error fault
    | .ok numKey =>
      match (List.range level).foldlM (fillLevel r fanout level)
          fun slot => if slot < numNode then 0xFFFFFFFF else malloc slot with
      | .error fault => .error fault
      | .ok ntree => .ok ⟨r.keys.length, numNode, level, ntree, fanout, fanout - 1, numKey⟩

namespace CssTree

/-- The scan of a node from its slot `j` on. -/
def scanNode (tree : CssTree) (key : UInt32) (curIndex : ℕ) : ℕ → ℕ → Except CssFault ℕ
  | 0, j => .ok j
  | slots + 1, j =>
    if curIndex + j < tree.numKey then
      if tree.ntree (curIndex + j) = 0xFFFFFFFF then .ok j
      else if key ≤ tree.ntree (curIndex + j) then .ok j
      else scanNode tree key curIndex slots (j + 1)
    else .error .outOfBounds

/-- The loop over the levels. -/
def descend (tree : CssTree) (key : UInt32) : ℕ → ℕ → ℕ → Except CssFault ℕ
  | 0, curNode, _ => .ok curNode
  | levels + 1, curNode, curIndex =>
    match scanNode tree key curIndex tree.blockSize 0 with
    | .error fault => .error fault
    | .ok j =>
      match int (tree.fanout * curNode + j + 1) with
      | .error fault => .error fault
      | .ok curNode' =>
        match int (curNode' * tree.blockSize) with
        | .error fault => .error fault
        | .ok curIndex' => descend tree key levels curNode' curIndex'

def search (tree : CssTree) (key : UInt32) : Except CssFault ℕ :=
  match descend tree key tree.level 0 0 with
  | .error fault => .error fault
  | .ok curNode =>
    match int ((curNode - tree.numNode) * tree.blockSize) with
    | .error fault => .error fault
    | .ok curIndex => .ok (if curIndex > tree.numRecord then tree.numRecord - 1 else curIndex)

end CssTree

/-- The scan down from `j`. -/
def scanDown (keys : List UInt32) (key : UInt32) : ℕ → UInt64 → Except CssFault UInt64
  | 0, matches' => .ok matches'
  | j + 1, matches' =>
    match keys[j + 1]? with
    | none => .error .outOfBounds
    | some x =>
      if x = key then scanDown keys key j (matches' + 1)
      else if x < key then .ok matches'
      else scanDown keys key j matches'

/-- The scan up over the `n` entries from `j` on. -/
def scanUp (keys : List UInt32) (key : UInt32) : ℕ → ℕ → UInt64 → Except CssFault UInt64
  | 0, _, matches' => .ok matches'
  | n + 1, j, matches' =>
    match keys[j]? with
    | none => .error .outOfBounds
    | some x =>
      if x = key then scanUp keys key n (j + 1) (matches' + 1)
      else if x > key then .ok matches'
      else scanUp keys key n (j + 1) matches'

/-- The body of the loop over S; `curIndex - 1` is unsigned. -/
def cssProbe (tree : CssTree) (keys : List UInt32) (key : UInt32) (matches' : UInt64) :
    Except CssFault UInt64 :=
  match tree.search key with
  | .error fault => .error fault
  | .ok curIndex =>
    match scanDown keys key (UInt64.ofNat curIndex - 1).toNat matches' with
    | .error fault => .error fault
    | .ok matches'' => scanUp keys key (keys.length - curIndex) curIndex matches''

/-- `inlj_with_csstree_probe_rel_s_partition`. -/
def inljWithCsstreeProbeRelSPartition (tree : CssTree) (r : KeyArray) (rel_s_partition : List Tuple) :
    Except CssFault UInt64 :=
  probeRelS (cssProbe tree r.keys) rel_s_partition 0

end Inlj
end HashingBenchmark

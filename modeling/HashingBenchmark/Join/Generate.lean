import HashingBenchmark.Join.Runner
import HashingBenchmark.Lib.CycleShuffle
import Mathlib.Algebra.Order.Floor.Semifield
import Mathlib.Data.Rat.Floor

/-! The generators of `data_generation.h`: `knuth_shuffle`, `random_unique_gen` and
    `create_eth_workload_relation_fk`.

    The memory of a relation is a list of tuples; the generators work on a view of it, a pointer into
    it and a length, as `tmp` is. Each access is checked against the memory and `none` is one outside
    of it. The header defines `ZERO_PAYLOAD`. -/

namespace HashingBenchmark
namespace Join
open CycleShuffle (exchange exchange_eq exchange_perm shuffle shuffle_perm)

/-- `RAND_RANGE(N)` for the outcome `r` of `rand()`. -/
def RAND_RANGE (RAND_MAX r N : ℕ) : ℚ := r / (RAND_MAX + 1) * N

theorem floor_RAND_RANGE (RAND_MAX r N : ℕ) :
    ⌊RAND_RANGE RAND_MAX r N⌋₊ = r * N / (RAND_MAX + 1) := by
  rw [RAND_RANGE, div_mul_eq_mul_div, ← Nat.floor_div_eq_div (K := ℚ)]
  push_cast
  rfl

theorem floor_RAND_RANGE_lt {RAND_MAX r N : ℕ} (hr : r ≤ RAND_MAX) (hN : 0 < N) :
    ⌊RAND_RANGE RAND_MAX r N⌋₊ < N := by
  rw [floor_RAND_RANGE, Nat.div_lt_iff_lt_mul (Nat.succ_pos RAND_MAX)]
  calc r * N ≤ RAND_MAX * N := Nat.mul_le_mul_right N hr
    _ < N * (RAND_MAX + 1) := by rw [Nat.mul_comm, Nat.mul_succ]; omega

/-- What a shuffle draws: the truncated `RAND_RANGE(i)` for each index `i`. -/
structure Draws where
  j : ℕ → ℕ
  lt : ∀ i, 0 < i → j i < i

/-- The draws in exact arithmetic; `rand i` is the outcome of `rand()` at index `i`. -/
def Draws.ofRand (RAND_MAX : ℕ) (rand : ℕ → Fin (RAND_MAX + 1)) : Draws where
  j i := ⌊RAND_RANGE RAND_MAX (rand i) i⌋₊
  lt i hi := floor_RAND_RANGE_lt (Nat.lt_succ_iff.1 (rand i).isLt) hi

/-- The exchange of two keys through `tmp`. -/
def swapKeys (p q : ℕ) (mem : List Tuple) : Option (List Tuple) := do
  let a ← mem[p]?
  let tmp := a.key
  let b ← mem[q]?
  let mem := mem.set p { a with key := b.key }
  let b ← mem[q]?
  return mem.set q { b with key := tmp }

/-- The exchange of two payloads through `tmp1`. -/
def swapPayloads (p q : ℕ) (mem : List Tuple) : Option (List Tuple) := do
  let a ← mem[p]?
  let tmp1 := a.payload
  let b ← mem[q]?
  let mem := mem.set p { a with payload := b.payload }
  let b ← mem[q]?
  return mem.set q { b with payload := tmp1 }

/-- The loop of `knuth_shuffle` from index `i` down, on the tuples from `tuples` on. -/
def shuffleLoop (draws : Draws) (tuples : ℕ) : ℕ → List Tuple → Option (List Tuple)
  | 0, mem => some mem
  | i + 1, mem => do
    let j := draws.j (i + 1)
    let mem ← swapKeys (tuples + (i + 1)) (tuples + j) mem
    let mem ← swapPayloads (tuples + (i + 1)) (tuples + j) mem
    shuffleLoop draws tuples i mem

/-- `knuth_shuffle`; for no tuples at all `num_tuples - 1` is `2 ^ 64 - 1`. -/
def knuthShuffle (draws : Draws) (relation : Slice) (mem : List Tuple) : Option (List Tuple) :=
  shuffleLoop draws relation.offset ((relation.num_tuples + (2 ^ 64 - 1)) % 2 ^ 64) mem

/-- The loop of `random_unique_gen`, with `count` tuples still to come. -/
def uniqueLoop (tuples : ℕ) : ℕ → ℕ → List Tuple → Option (List Tuple)
  | 0, _, mem => some mem
  | count + 1, i, mem =>
    if tuples + i < mem.length then
      uniqueLoop tuples count (i + 1) (mem.set (tuples + i) ⟨UInt32.ofNat (i + 1), 0⟩)
    else none

/-- `random_unique_gen`. -/
def randomUniqueGen (draws : Draws) (rel : Slice) (mem : List Tuple) : Option (List Tuple) := do
  let mem ← uniqueLoop rel.offset rel.num_tuples 0 mem
  knuthShuffle draws rel mem

/-- The loop of `create_eth_workload_relation_fk`, with `count` blocks still to come. -/
def blockLoop (draws : ℕ → Draws) (maxid : ℕ) : ℕ → ℕ → List Tuple → Option (List Tuple)
  | 0, _, mem => some mem
  | count + 1, i, mem => do
    let mem ← randomUniqueGen (draws i) ⟨maxid * i, maxid⟩ mem
    blockLoop draws maxid count (i + 1) mem

/-- `create_eth_workload_relation_fk`: the return value and the tuples; `draws i` is what the shuffle
    of block `i` draws. `iters` is an `int32_t`. -/
def createEthWorkloadRelationFk (alloc_aligned : ℕ → Option (List Tuple)) (draws : ℕ → Draws)
    (num_tuples maxid : ℕ) : Option (ℤ × List Tuple) :=
  match alloc_aligned num_tuples with
  | none => some (-1, [])
  | some mem =>
    if maxid = 0 then none
    else do
      let iters := (Int32.ofNat (num_tuples / maxid)).toInt
      let mem ← blockLoop draws maxid iters.toNat 0 mem
      let remainder := num_tuples % maxid
      if 0 < remainder then
        if iters < 0 then none
        else
          let mem ← randomUniqueGen (draws iters.toNat) ⟨maxid * iters.toNat, remainder⟩ mem
          return (0, mem)
      else return (0, mem)

/-! ### The shuffle -/

section Swap
variable {p q : ℕ} {mem : List Tuple} {a b : Tuple}

theorem getElem?_set_set (hp : p < mem.length) (hq : q < mem.length) (c d : Tuple)
    (hsame : p = q → c = d) :
    ((mem.set p c).set q d)[p]? = some c ∧ ((mem.set p c).set q d)[q]? = some d := by
  have hq' : q < (mem.set p c).length := by rwa [List.length_set]
  refine ⟨?_, List.getElem?_set_self hq'⟩
  by_cases hpq : p = q
  · subst hpq
    rw [List.getElem?_set_self hq', hsame rfl]
  · rw [List.getElem?_set_ne (Ne.symm hpq), List.getElem?_set_self hp]

theorem swapKeys_eq (ha : mem[p]? = some a) (hb : mem[q]? = some b) :
    swapKeys p q mem
      = some ((mem.set p ⟨b.key, a.payload⟩).set q ⟨a.key, b.payload⟩) := by
  have hp : p < mem.length := (List.getElem?_eq_some_iff.1 ha).1
  by_cases hpq : p = q
  · subst hpq
    obtain rfl : a = b := Option.some.inj (ha.symm.trans hb)
    have hget : mem[p] = a := (List.getElem?_eq_some_iff.1 ha).2
    simp [swapKeys, hp, hget]
  · have hb' : (mem.set p ⟨b.key, a.payload⟩)[q]? = some b := by
      rw [List.getElem?_set_ne hpq, hb]
    simp [swapKeys, ha, hb, hb']

theorem swapPayloads_eq (ha : mem[p]? = some a) (hb : mem[q]? = some b) :
    swapPayloads p q mem
      = some ((mem.set p ⟨a.key, b.payload⟩).set q ⟨b.key, a.payload⟩) := by
  have hp : p < mem.length := (List.getElem?_eq_some_iff.1 ha).1
  by_cases hpq : p = q
  · subst hpq
    obtain rfl : a = b := Option.some.inj (ha.symm.trans hb)
    have hget : mem[p] = a := (List.getElem?_eq_some_iff.1 ha).2
    simp [swapPayloads, hp, hget]
  · have hb' : (mem.set p ⟨a.key, b.payload⟩)[q]? = some b := by
      rw [List.getElem?_set_ne hpq, hb]
    simp [swapPayloads, ha, hb, hb']

/-- The two exchanges together exchange the tuples. -/
theorem swap_tuples (hp : p < mem.length) (hq : q < mem.length) :
    (swapKeys p q mem).bind (swapPayloads p q) = some (exchange p q mem) := by
  have ha : mem[p]? = some mem[p] := List.getElem?_eq_getElem hp
  have hb : mem[q]? = some mem[q] := List.getElem?_eq_getElem hq
  have hsame : p = q → (⟨mem[q].key, mem[p].payload⟩ : Tuple) = ⟨mem[p].key, mem[q].payload⟩ := by
    rintro rfl
    rfl
  obtain ⟨ha', hb'⟩ := getElem?_set_set hp hq _ _ hsame
  rw [swapKeys_eq ha hb, Option.bind_some, swapPayloads_eq ha' hb', exchange_eq ha hb]
  by_cases hpq : p = q
  · subst hpq
    rw [List.set_set, List.set_set]
  · rw [List.set_comm _ _ (Ne.symm hpq), List.set_set, List.set_set]

end Swap

/-- An exchange in a part of the memory. -/
theorem exchange_window {pre mid post : List Tuple} {p q : ℕ} (hp : p < mid.length)
    (hq : q < mid.length) :
    exchange (pre.length + p) (pre.length + q) (pre ++ mid ++ post)
      = pre ++ exchange p q mid ++ post := by
  have hget : ∀ k, k < mid.length → (pre ++ mid ++ post)[pre.length + k]? = mid[k]? := by
    intro k hk
    rw [List.append_assoc, List.getElem?_append_right (by omega), Nat.add_sub_cancel_left,
      List.getElem?_append_left hk]
  have hset : ∀ (l : List Tuple) k c, k < l.length →
      (pre ++ l ++ post).set (pre.length + k) c = pre ++ l.set k c ++ post := by
    intro l k c hk
    rw [List.append_assoc, List.set_append_right _ _ (by omega), Nat.add_sub_cancel_left,
      List.set_append_left _ _ hk, List.append_assoc]
  have ha : mid[p]? = some mid[p] := List.getElem?_eq_getElem hp
  have hb : mid[q]? = some mid[q] := List.getElem?_eq_getElem hq
  rw [exchange_eq ((hget p hp).trans ha) ((hget q hq).trans hb), exchange_eq ha hb,
    hset mid p _ hp, hset _ q _ (by rwa [List.length_set])]

/-- The loop shuffles its tuples and leaves the memory around them alone. -/
theorem shuffleLoop_window (draws : Draws) (pre post : List Tuple) {m : ℕ} {mid : List Tuple}
    (hm : m < mid.length) :
    shuffleLoop draws pre.length m (pre ++ mid ++ post)
      = some (pre ++ shuffle draws.j m mid ++ post) := by
  induction m generalizing mid with
  | zero => rfl
  | succ m ih =>
    have hj : draws.j (m + 1) < m + 1 := draws.lt (m + 1) m.succ_pos
    have hlen : (exchange (m + 1) (draws.j (m + 1)) mid).length = mid.length :=
      (exchange_perm _ _ mid).length_eq
    have hin : ∀ k, k < mid.length → pre.length + k < (pre ++ mid ++ post).length := by
      intro k hk
      rw [List.length_append, List.length_append]
      omega
    have hswap := swap_tuples (hin (m + 1) hm) (hin (draws.j (m + 1)) (by omega))
    have hunfold : shuffleLoop draws pre.length (m + 1) (pre ++ mid ++ post)
        = ((swapKeys (pre.length + (m + 1)) (pre.length + draws.j (m + 1)) (pre ++ mid ++ post)).bind
            (swapPayloads (pre.length + (m + 1)) (pre.length + draws.j (m + 1)))).bind
            (shuffleLoop draws pre.length m) := by
      rw [Option.bind_assoc]
      rfl
    rw [hunfold, hswap, Option.bind_some, exchange_window hm (by omega), ih (by omega)]
    rfl

theorem knuthShuffle_window (draws : Draws) (pre post : List Tuple) {mid : List Tuple}
    (hpos : 0 < mid.length) (hlen : mid.length < 2 ^ 64) :
    knuthShuffle draws ⟨pre.length, mid.length⟩ (pre ++ mid ++ post)
      = some (pre ++ shuffle draws.j (mid.length - 1) mid ++ post) := by
  have hstart : (mid.length + (2 ^ 64 - 1)) % 2 ^ 64 = mid.length - 1 := by
    rw [show mid.length + (2 ^ 64 - 1) = mid.length - 1 + 2 ^ 64 by omega, Nat.add_mod_right,
      Nat.mod_eq_of_lt (by omega)]
  rw [knuthShuffle, hstart]
  exact shuffleLoop_window draws pre post (by omega)

/-! ### Unique keys -/

/-- Tuple `i` of `random_unique_gen` before the shuffle. -/
def uniqueTuple (i : ℕ) : Tuple := ⟨UInt32.ofNat (i + 1), 0⟩

/-- What `random_unique_gen` leaves in `num_tuples` tuples. -/
def uniqueBlock (draws : Draws) (num_tuples : ℕ) : List Tuple :=
  shuffle draws.j (num_tuples - 1) ((List.range' 0 num_tuples).map uniqueTuple)

theorem uniqueLoop_window {tuples count i : ℕ} {pre mid : List Tuple} (post : List Tuple)
    (hpre : pre.length = tuples + i) (hmid : mid.length = count) :
    uniqueLoop tuples count i (pre ++ mid ++ post)
      = some (pre ++ (List.range' i count).map uniqueTuple ++ post) := by
  induction count generalizing i pre mid with
  | zero =>
    obtain rfl : mid = [] := List.length_eq_zero_iff.1 hmid
    rfl
  | succ count ih =>
    obtain ⟨c, mid, rfl⟩ := List.exists_cons_of_length_eq_add_one hmid
    have hin : tuples + i < (pre ++ (c :: mid) ++ post).length := by simp; omega
    have hset : (pre ++ (c :: mid) ++ post).set (tuples + i) (uniqueTuple i)
        = (pre ++ [uniqueTuple i]) ++ mid ++ post := by
      rw [← hpre, List.append_assoc, List.set_append_right _ _ le_rfl, Nat.sub_self]
      simp
    have hlen : (pre ++ [uniqueTuple i]).length = tuples + (i + 1) := by
      rw [List.length_append, hpre]
      rfl
    rw [uniqueLoop, if_pos hin]
    change uniqueLoop tuples count (i + 1) ((pre ++ (c :: mid) ++ post).set (tuples + i)
      (uniqueTuple i)) = _
    rw [hset, ih hlen (Nat.succ_inj.1 hmid), List.range'_succ]
    simp

/-- `random_unique_gen` fills its tuples and leaves the memory around them alone. -/
theorem randomUniqueGen_window (draws : Draws) (pre post : List Tuple) {mid : List Tuple}
    (hpos : 0 < mid.length) (hlen : mid.length < 2 ^ 64) :
    randomUniqueGen draws ⟨pre.length, mid.length⟩ (pre ++ mid ++ post)
      = some (pre ++ uniqueBlock draws mid.length ++ post) := by
  have hfill : uniqueLoop pre.length mid.length 0 (pre ++ mid ++ post)
      = some (pre ++ (List.range' 0 mid.length).map uniqueTuple ++ post) :=
    uniqueLoop_window post rfl rfl
  have hsame : ((List.range' 0 mid.length).map uniqueTuple).length = mid.length := by simp
  have hshuffle := knuthShuffle_window draws pre post (hsame.symm ▸ hpos) (hsame.symm ▸ hlen)
  rw [hsame] at hshuffle
  change (uniqueLoop pre.length mid.length 0 (pre ++ mid ++ post)).bind
    (knuthShuffle draws ⟨pre.length, mid.length⟩) = _
  rw [hfill, Option.bind_some, hshuffle]
  rfl

theorem length_uniqueBlock (draws : Draws) (n : ℕ) : (uniqueBlock draws n).length = n := by
  rw [uniqueBlock, (shuffle_perm _ _ _).length_eq, List.length_map, List.length_range']

/-- How often a key occurs. -/
def keyCount (k : ℕ) (l : List Tuple) : ℕ := l.countP fun t => t.key.toNat = k

theorem keyCount_append (k : ℕ) (l l' : List Tuple) :
    keyCount k (l ++ l') = keyCount k l + keyCount k l' := List.countP_append

theorem keyCount_uniqueTuples {n : ℕ} (hn : n < 2 ^ 32) (k : ℕ) :
    keyCount k ((List.range' 0 n).map uniqueTuple) = if 1 ≤ k ∧ k ≤ n then 1 else 0 := by
  induction n with
  | zero =>
    rw [if_neg (by omega)]
    rfl
  | succ n ih =>
    have hkey : (uniqueTuple n).key.toNat = n + 1 := by
      rw [uniqueTuple, UInt32.toNat_ofNat', Nat.mod_eq_of_lt hn]
    rw [List.range'_1_concat, List.map_append, keyCount_append, ih (by omega), Nat.zero_add]
    by_cases hk : n + 1 = k
    · have hlast : keyCount k ([n].map uniqueTuple) = 1 := by simp [keyCount, hkey, hk]
      rw [hlast, if_neg (by omega), if_pos (by omega)]
    · have hlast : keyCount k ([n].map uniqueTuple) = 0 := by simp [keyCount, hkey, hk]
      rw [hlast, Nat.add_zero]
      exact if_congr (by omega) rfl rfl

/-- Each key from 1 to `n` occurs once in a block of `n` tuples. -/
theorem keyCount_uniqueBlock (draws : Draws) {n : ℕ} (hn : n < 2 ^ 32) (k : ℕ) :
    keyCount k (uniqueBlock draws n) = if 1 ≤ k ∧ k ≤ n then 1 else 0 := by
  rw [← keyCount_uniqueTuples hn k]
  exact (shuffle_perm _ _ _).countP_eq _

/-! ### Blocks -/

/-- What the blocks from `i` on hold. -/
def uniqueBlocks (draws : ℕ → Draws) (maxid count i : ℕ) : List Tuple :=
  (List.range' i count).flatMap fun i => uniqueBlock (draws i) maxid

theorem uniqueBlocks_succ (draws : ℕ → Draws) (maxid count i : ℕ) :
    uniqueBlocks draws maxid (count + 1) i
      = uniqueBlock (draws i) maxid ++ uniqueBlocks draws maxid count (i + 1) := by
  rw [uniqueBlocks, List.range'_succ, List.flatMap_cons]
  rfl

theorem length_uniqueBlocks (draws : ℕ → Draws) (maxid count i : ℕ) :
    (uniqueBlocks draws maxid count i).length = maxid * count := by
  induction count generalizing i with
  | zero => rfl
  | succ count ih =>
    rw [uniqueBlocks_succ, List.length_append, length_uniqueBlock, ih, Nat.mul_succ, Nat.add_comm]

theorem keyCount_uniqueBlocks (draws : ℕ → Draws) {maxid : ℕ} (hmaxid : maxid < 2 ^ 32)
    (count i k : ℕ) :
    keyCount k (uniqueBlocks draws maxid count i) = if 1 ≤ k ∧ k ≤ maxid then count else 0 := by
  induction count generalizing i with
  | zero => exact (ite_self 0).symm
  | succ count ih =>
    rw [uniqueBlocks_succ, keyCount_append, keyCount_uniqueBlock _ hmaxid, ih]
    split
    · exact Nat.add_comm 1 count
    · rfl

/-- The blocks tile the memory they are written to. -/
theorem blockLoop_window (draws : ℕ → Draws) {maxid : ℕ} (hpos : 0 < maxid)
    (hmaxid : maxid < 2 ^ 64) {count i : ℕ} {pre mid : List Tuple} (post : List Tuple)
    (hpre : pre.length = maxid * i) (hmid : mid.length = maxid * count) :
    blockLoop draws maxid count i (pre ++ mid ++ post)
      = some (pre ++ uniqueBlocks draws maxid count i ++ post) := by
  induction count generalizing i pre mid with
  | zero =>
    obtain rfl : mid = [] := List.length_eq_zero_iff.1 hmid
    rfl
  | succ count ih =>
    have hlen : (mid.take maxid).length = maxid := by
      rw [List.length_take, hmid]
      exact Nat.min_eq_left (Nat.le_mul_of_pos_right maxid count.succ_pos)
    have hrest : (mid.drop maxid).length = maxid * count := by
      rw [List.length_drop, hmid, Nat.mul_succ, Nat.add_sub_cancel]
    have hsplit : pre ++ mid ++ post = pre ++ mid.take maxid ++ (mid.drop maxid ++ post) := by
      rw [← List.append_assoc, List.append_assoc pre _ (mid.drop maxid), List.take_append_drop]
    have hgen : randomUniqueGen (draws i) ⟨maxid * i, maxid⟩ (pre ++ mid ++ post)
        = some (pre ++ uniqueBlock (draws i) maxid ++ (mid.drop maxid ++ post)) := by
      have hwindow := randomUniqueGen_window (draws i) pre (mid.drop maxid ++ post)
        (hlen.symm ▸ hpos) (hlen.symm ▸ hmaxid)
      rw [hlen, hpre] at hwindow
      rw [hsplit, hwindow]
    have hnext : (pre ++ uniqueBlock (draws i) maxid).length = maxid * (i + 1) := by
      rw [List.length_append, length_uniqueBlock, hpre, Nat.mul_succ]
    change (randomUniqueGen (draws i) ⟨maxid * i, maxid⟩ (pre ++ mid ++ post)).bind
      (blockLoop draws maxid count (i + 1)) = _
    rw [hgen, Option.bind_some, ← List.append_assoc, ih hnext hrest, uniqueBlocks_succ,
      List.append_assoc pre]

/-- The loop over the full blocks fills the front of the memory. -/
theorem blockLoop_eq (draws : ℕ → Draws) {maxid : ℕ} (hpos : 0 < maxid) (hmaxid : maxid < 2 ^ 64)
    {count : ℕ} {mem : List Tuple} (hmem : maxid * count ≤ mem.length) :
    blockLoop draws maxid count 0 mem
      = some (uniqueBlocks draws maxid count 0 ++ mem.drop (maxid * count)) := by
  have hnil : ([] : List Tuple).length = maxid * 0 := rfl
  have htake : (mem.take (maxid * count)).length = maxid * count := by
    rw [List.length_take, Nat.min_eq_left hmem]
  have hwindow := blockLoop_window draws hpos hmaxid (mem.drop (maxid * count)) hnil htake
  rwa [List.nil_append, List.take_append_drop, List.nil_append] at hwindow

/-- The remainder block fills the rest. -/
theorem randomUniqueGen_rest (draws : Draws) (pre : List Tuple) {rest : List Tuple}
    (hpos : 0 < rest.length) (hlen : rest.length < 2 ^ 64) :
    randomUniqueGen draws ⟨pre.length, rest.length⟩ (pre ++ rest)
      = some (pre ++ uniqueBlock draws rest.length) := by
  have hwindow := randomUniqueGen_window draws pre [] hpos hlen
  rwa [List.append_nil, List.append_nil] at hwindow

/-- What `create_eth_workload_relation_fk` leaves in its tuples. -/
def generated (draws : ℕ → Draws) (num_tuples maxid : ℕ) : List Tuple :=
  uniqueBlocks draws maxid (num_tuples / maxid) 0
    ++ uniqueBlock (draws (num_tuples / maxid)) (num_tuples % maxid)

theorem createEthWorkloadRelationFk_eq (draws : ℕ → Draws) {num_tuples maxid : ℕ}
    (hpos : 0 < maxid) (hmaxid : maxid < 2 ^ 31) (hnum : num_tuples < 2 ^ 31)
    {alloc_aligned : ℕ → Option (List Tuple)} {mem : List Tuple}
    (halloc : alloc_aligned num_tuples = some mem) (hmem : mem.length = num_tuples) :
    createEthWorkloadRelationFk alloc_aligned draws num_tuples maxid
      = some (0, generated draws num_tuples maxid) := by
  have hmod : num_tuples % maxid < maxid := Nat.mod_lt _ hpos
  have hdiv : maxid * (num_tuples / maxid) + num_tuples % maxid = num_tuples :=
    Nat.div_add_mod num_tuples maxid
  have hiters : (Int32.ofNat (num_tuples / maxid)).toInt = (num_tuples / maxid : ℕ) :=
    Int32.toInt_ofNat_of_lt (lt_of_le_of_lt (Nat.div_le_self _ _) hnum)
  have hrest : (mem.drop (maxid * (num_tuples / maxid))).length = num_tuples % maxid := by
    rw [List.length_drop, hmem]
    omega
  have hblocks : blockLoop draws maxid (num_tuples / maxid) 0 mem
      = some (uniqueBlocks draws maxid (num_tuples / maxid) 0
          ++ mem.drop (maxid * (num_tuples / maxid))) :=
    blockLoop_eq draws hpos (by omega) (by omega)
  rw [createEthWorkloadRelationFk, halloc]
  simp only [if_neg hpos.ne', hiters, Int.toNat_natCast, hblocks, Option.bind_eq_bind,
    Option.bind_some]
  rw [generated]
  by_cases hr : 0 < num_tuples % maxid
  · have hgen : randomUniqueGen (draws (num_tuples / maxid))
          ⟨maxid * (num_tuples / maxid), num_tuples % maxid⟩
          (uniqueBlocks draws maxid (num_tuples / maxid) 0
            ++ mem.drop (maxid * (num_tuples / maxid)))
        = some (uniqueBlocks draws maxid (num_tuples / maxid) 0
            ++ uniqueBlock (draws (num_tuples / maxid)) (num_tuples % maxid)) := by
      have hgen := randomUniqueGen_rest (draws (num_tuples / maxid))
        (uniqueBlocks draws maxid (num_tuples / maxid) 0) (hrest.symm ▸ hr)
        (hrest.symm ▸ (by omega))
      rwa [hrest, length_uniqueBlocks] at hgen
    rw [if_pos hr, if_neg (Int.not_lt.2 (Int.natCast_nonneg _)), hgen]
    rfl
  · have hzero : num_tuples % maxid = 0 := by omega
    have hnil : mem.drop (maxid * (num_tuples / maxid)) = [] :=
      List.length_eq_zero_iff.1 (hrest.trans hzero)
    rw [if_neg hr, hnil, hzero]
    rfl

theorem keyCount_generated (draws : ℕ → Draws) {num_tuples maxid : ℕ} (hpos : 0 < maxid)
    (hmaxid : maxid < 2 ^ 31) (k : ℕ) :
    keyCount k (generated draws num_tuples maxid)
      = if 1 ≤ k ∧ k ≤ maxid then num_tuples / maxid + if k ≤ num_tuples % maxid then 1 else 0
        else 0 := by
  have hmod : num_tuples % maxid < maxid := Nat.mod_lt _ hpos
  rw [generated, keyCount_append, keyCount_uniqueBlocks _ (by omega),
    keyCount_uniqueBlock _ (by omega)]
  by_cases hk : 1 ≤ k ∧ k ≤ maxid
  · rw [if_pos hk, if_pos hk]
    exact congrArg _ (if_congr (and_iff_right hk.1) rfl rfl)
  · rw [if_neg hk, if_neg hk, if_neg fun h => hk ⟨h.1, by omega⟩]

theorem length_generated (draws : ℕ → Draws) (num_tuples maxid : ℕ) :
    (generated draws num_tuples maxid).length = num_tuples := by
  rw [generated, List.length_append, length_uniqueBlocks, length_uniqueBlock, Nat.div_add_mod]

theorem keyCount_pos {k : ℕ} {l : List Tuple} :
    0 < keyCount k l ↔ ∃ t ∈ l, t.key.toNat = k := by
  rw [keyCount, List.countP_pos_iff]
  exact exists_congr fun t => and_congr_right fun _ => decide_eq_true_iff

/-- CORRECT: whatever the shuffles draw and whatever the memory holds before, all tuples are written,
    with keys from 1 to `maxid`, each as often as any other up to the remainder. -/
theorem create_eth_workload_relation_fk_even (draws : ℕ → Draws) {num_tuples maxid : ℕ}
    (hmaxid : 1 ≤ maxid) (hmaxid' : maxid < 2 ^ 31) (hnum : num_tuples < 2 ^ 31) :
    ∃ tuples : List Tuple, tuples.length = num_tuples ∧
      (∀ (alloc_aligned : ℕ → Option (List Tuple)) (mem : List Tuple),
        alloc_aligned num_tuples = some mem → mem.length = num_tuples →
        createEthWorkloadRelationFk alloc_aligned draws num_tuples maxid = some (0, tuples)) ∧
      (∀ t ∈ tuples, 1 ≤ t.key.toNat ∧ t.key.toNat ≤ maxid) ∧
      (∀ k, 1 ≤ k → k ≤ maxid →
        keyCount k tuples = num_tuples / maxid + if k ≤ num_tuples % maxid then 1 else 0) ∧
      (maxid ≤ num_tuples → ∀ k, 1 ≤ k → k ≤ maxid → ∃ t ∈ tuples, t.key.toNat = k) := by
  have hcount : ∀ k, keyCount k (generated draws num_tuples maxid)
      = if 1 ≤ k ∧ k ≤ maxid then num_tuples / maxid + if k ≤ num_tuples % maxid then 1 else 0
        else 0 := keyCount_generated draws hmaxid hmaxid'
  refine ⟨generated draws num_tuples maxid, length_generated draws num_tuples maxid, ?_, ?_, ?_, ?_⟩
  · intro alloc_aligned mem halloc hmem
    exact createEthWorkloadRelationFk_eq draws hmaxid hmaxid' hnum halloc hmem
  · intro t ht
    have hpos : 0 < keyCount t.key.toNat (generated draws num_tuples maxid) :=
      keyCount_pos.2 ⟨t, ht, rfl⟩
    by_contra hout
    rw [hcount, if_neg hout] at hpos
    exact lt_irrefl 0 hpos
  · intro k hk hk'
    rw [hcount, if_pos ⟨hk, hk'⟩]
  · intro hle k hk hk'
    rw [← keyCount_pos, hcount, if_pos ⟨hk, hk'⟩]
    exact Nat.add_pos_left (Nat.div_pos hle hmaxid) _

theorem create_eth_workload_relation_fk_even_five :
    ∃ tuples : List Tuple, tuples.length = 5 ∧ keyCount 1 tuples = 3 ∧ keyCount 2 tuples = 2 := by
  have hmaxid : 2 < 2 ^ 31 := by decide
  have hnum : 5 < 2 ^ 31 := by decide
  obtain ⟨tuples, hlen, -, -, hcount, -⟩ :=
    create_eth_workload_relation_fk_even (fun _ => ⟨fun _ => 0, fun _ hi => hi⟩) one_le_two hmaxid
      hnum
  exact ⟨tuples, hlen, hcount 1 (by decide) (by decide), hcount 2 (by decide) (by decide)⟩

end Join
end HashingBenchmark

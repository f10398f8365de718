import HashingBenchmark.Chained.EachBucket
import HashingBenchmark.Lib.LaneMask
import HashingBenchmark.Monotone.Lookup

/-! The vector paths of `MonotoneHashtable::operator[]`.

    For three pairs of bucket size and key size the lookup loads all keys of a bucket into a
    register, compares them at once, and recovers the slot from the mask: `avx512Index` for 8 keys of
    64 bits, `avx2Index32` for 8 keys of 32 bits, `avx2Index64` for 4 keys of 64 bits. These paths
    see the slots behind the first Sentinel too. In a table from the constructor such slots hold the
    Sentinel, so there is nothing to find in them, and the first lane that matches is the slot at
    which the generic path stops.

    `lane` is the representation of a key in memory. -/

namespace HashingBenchmark
open SlotArray Chained support ChainedTable LaneMask

namespace MonotoneHashtable
variable {Key Payload : Type} {BucketSize m : ℕ}

/-- The keys of a bucket, loaded into a register. -/
def loadKeys {w : ℕ} (lane : Key ↪ BitVec w) (b : Bucket Key Payload BucketSize) :
    Lanes BucketSize w := fun i => lane (b.keys i)

/-- The index that the AVX512 path computes for a bucket, if its mask is not zero. -/
def avx512Index (lane : Key ↪ BitVec 64) (key : Key) (b : Bucket Key Payload 8) : Option ℕ :=
  let vkey := set1 (lane key)
  let vbucket := loadKeys lane b
  let mask := cmpeq_mask vkey vbucket
  if mask ≠ 0 then some (mask.setWidth 32).ctz.toNat else none

/-- The index that the AVX2 path computes for a bucket of eight 32-bit keys. -/
def avx2Index32 (lane : Key ↪ BitVec (8 * 4)) (key : Key) (b : Bucket Key Payload 8) : Option ℕ :=
  let vkey := set1 (lane key)
  let vbucket := loadKeys lane b
  let cmp := cmpeq vkey vbucket
  let mask := movemask_epi8 cmp
  if mask ≠ 0 then some (mask.ctz.toNat >>> 2) else none

/-- The index that the AVX2 path computes for a bucket of four 64-bit keys. -/
def avx2Index64 (lane : Key ↪ BitVec (8 * 8)) (key : Key) (b : Bucket Key Payload 4) : Option ℕ :=
  let vkey := set1 (lane key)
  let vbucket := loadKeys lane b
  let cmp := cmpeq vkey vbucket
  let mask := movemask_epi8 cmp
  if mask ≠ 0 then some (mask.ctz.toNat >>> 3) else none

/-- The loop of a vector path; `index` gives the slot for a bucket. -/
def simdLoop (index : Bucket Key Payload BucketSize → Option ℕ) (ManualPrefetch : Bool)
    (directory_ind : ℕ) (t : MonotoneHashtable Key Payload BucketSize m) :
    ℕ → Option Ptr → Except Fault Iterator
  | _, none => .ok (Iterator.finish m)
  | 0, some _ => .error .diverges
  | fuel + 1, some bucket =>
    match t.load bucket with
    | none => .error .outOfBounds
    | some b =>
      match index b with
      | some i => .ok ⟨directory_ind, i, some bucket⟩
      | none => do
        prefetchNext ManualPrefetch t b.nextPtr
        simdLoop index ManualPrefetch directory_ind t fuel b.nextPtr

/-- `operator[]` on a vector path. -/
def simdSubscript (index : Key → Bucket Key Payload BucketSize → Option ℕ) (ManualPrefetch : Bool)
    (model : Model Key) (t : MonotoneHashtable Key Payload BucketSize m) (key : Key) :
    Except Fault Iterator := do
  let directory_ind := (model key).toNat
  prefetchNext ManualPrefetch t (some (.directory directory_ind))
  simdLoop (index key) ManualPrefetch directory_ind t (t.tape.cells.length + 1)
    (some (.directory directory_ind))

section
variable [DecidableEq Key] {Sentinel key : Key}

/-- A mask with `s` bits for each slot gives the slot that the slot loop finds. -/
theorem index_eq_find (hkey : key ≠ Sentinel) {b : Bucket Key Payload BucketSize}
    (h : FilledPrefix Sentinel b.keys) {s N : ℕ} {mask : BitVec N} (hs : 0 < s)
    (hmask : Encodes s (fun i => b.keys i = key) mask) :
    (if mask ≠ 0#N then some (mask.ctz.toNat / s) else none) = (find Sentinel key b).map Fin.val := by
  rcases ctz_cases hmask hs with ⟨hne, i, hi, hbefore, hctz⟩ | ⟨hzero, hnone⟩
  · rw [if_pos hne, hctz]
    rcases find_cases h hkey with ⟨j, hj, hfirst, hfind⟩ | ⟨hnot, -⟩
    · -- both are the first slot with the key
      have hij : i = j := by
        rcases lt_trichotomy i j with hlt | heq | hgt
        · exact absurd hi (hfirst i hlt)
        · exact heq
        · exact absurd hj (hbefore j hgt)
      rw [hfind, hij]; rfl
    · exact absurd hi (hnot i)
  · rw [if_neg fun hne => hne hzero]
    rcases find_cases h hkey with ⟨j, hj, -, -⟩ | ⟨-, hfind⟩
    · exact absurd hj (hnone j)
    · rw [hfind]; rfl

omit [DecidableEq Key] in
/-- The lanes equal to the key's are those of the slots with the key. -/
theorem encodes_keys {w s N : ℕ} (lane : Key ↪ BitVec w) {b : Bucket Key Payload BucketSize}
    {mask : BitVec N}
    (h : Encodes s (fun i => set1 (lane key) i = loadKeys lane b i) mask) :
    Encodes s (fun i => b.keys i = key) mask := by
  intro j
  rw [h j]
  refine exists_congr fun hj => ?_
  exact (lane.apply_eq_iff_eq _ _).trans eq_comm

variable {b : Bucket Key Payload 8} {b' : Bucket Key Payload 4}

theorem avx512Index_eq_find (lane : Key ↪ BitVec 64) (hkey : key ≠ Sentinel)
    (h : FilledPrefix Sentinel b.keys) :
    avx512Index lane key b = (find Sentinel key b).map Fin.val := by
  have hmask : Encodes 1 (fun i => b.keys i = key)
      ((cmpeq_mask (set1 (lane key)) (loadKeys lane b)).setWidth 32) :=
    (encodes_keys lane (encodes_cmpeq_mask _ _)).setWidth (by omega)
  have hfind := index_eq_find hkey h Nat.one_pos hmask
  simp only [Nat.div_one, ne_eq, setWidth_eq_zero_iff (show 8 ≤ 32 by omega)] at hfind
  exact hfind

theorem avx2Index32_eq_find (lane : Key ↪ BitVec (8 * 4)) (hkey : key ≠ Sentinel)
    (h : FilledPrefix Sentinel b.keys) :
    avx2Index32 lane key b = (find Sentinel key b).map Fin.val := by
  rw [avx2Index32, Nat.shiftRight_eq_div_pow]
  exact index_eq_find hkey h (Nat.succ_pos 3)
    (encodes_keys lane (encodes_movemask_epi8 (Nat.succ_pos 3) _ _))

theorem avx2Index64_eq_find (lane : Key ↪ BitVec (8 * 8)) (hkey : key ≠ Sentinel)
    (h : FilledPrefix Sentinel b'.keys) :
    avx2Index64 lane key b' = (find Sentinel key b').map Fin.val := by
  rw [avx2Index64, Nat.shiftRight_eq_div_pow]
  exact index_eq_find hkey h (Nat.succ_pos 7)
    (encodes_keys lane (encodes_movemask_epi8 (Nat.succ_pos 7) _ _))

/-- Where every bucket is filled from the front, a vector path that finds in a bucket what the slot
    loop finds walks the chains as the generic path does. -/
theorem simdSubscript_eq {index : Key → Bucket Key Payload BucketSize → Option ℕ}
    {t : MonotoneHashtable Key Payload BucketSize m}
    (ht : t.EachBucket fun b => FilledPrefix Sentinel b.keys)
    (hindex : ∀ b, FilledPrefix Sentinel b.keys → index key b = (find Sentinel key b).map Fin.val)
    (ManualPrefetch : Bool) (model : Model Key) :
    simdSubscript index ManualPrefetch model t key
      = operatorSubscript Sentinel ManualPrefetch model t key := by
  have hloop : ∀ fuel i bucket, simdLoop (index key) ManualPrefetch i t fuel bucket
      = findLoop Sentinel key ManualPrefetch i t fuel bucket := by
    intro fuel i
    induction fuel with
    | zero => intro bucket; cases bucket <;> rfl
    | succ fuel ih =>
      intro bucket
      cases bucket with
      | none => rfl
      | some p =>
        rw [simdLoop, findLoop]
        cases hload : t.load p with
        | none => rfl
        | some b =>
          simp only [hindex b (ht p b hload)]
          cases find Sentinel key b with
          | some j => rfl
          | none => simp only [Option.map_none, ih]
  simp only [simdSubscript, operatorSubscript, hloop]

end

/-- In a table from the constructor every bucket is filled from the front. -/
theorem filledPrefix_construct [LinearOrder Key] [Inhabited Payload] {Sentinel : Key}
    {sizeofBucket : ℕ} {model : Model Key} {data : List (Key × Payload)}
    {t : MonotoneHashtable Key Payload BucketSize (directorySize BucketSize data)}
    (hrun : construct Sentinel sizeofBucket model data = .returned t) :
    t.EachBucket fun b => FilledPrefix Sentinel b.keys := by
  have hstate : (construct Sentinel sizeofBucket model data).state = t := by rw [hrun]; rfl
  rw [← hstate]
  exact filledPrefix_insertAll _

end MonotoneHashtable

open MonotoneHashtable

/-- CORRECT: on a table from the constructor each of the three vector paths returns what the generic
    path returns. -/
theorem simd_lookup_eq_generic {Key Payload : Type} [LinearOrder Key] [Inhabited Payload]
    (Sentinel : Key) (ManualPrefetch : Bool) (sizeofBucket : ℕ) (model : Model Key)
    (data : List (Key × Payload)) (q : Key) (hq : q ≠ Sentinel) :
    (∀ (lane : Key ↪ BitVec 64) (t : MonotoneHashtable Key Payload 8 (directorySize 8 data)),
      construct Sentinel sizeofBucket model data = .returned t →
      simdSubscript (avx512Index lane) ManualPrefetch model t q
        = operatorSubscript Sentinel ManualPrefetch model t q) ∧
    (∀ (lane : Key ↪ BitVec 32) (t : MonotoneHashtable Key Payload 8 (directorySize 8 data)),
      construct Sentinel sizeofBucket model data = .returned t →
      simdSubscript (avx2Index32 lane) ManualPrefetch model t q
        = operatorSubscript Sentinel ManualPrefetch model t q) ∧
    ∀ (lane : Key ↪ BitVec 64) (t : MonotoneHashtable Key Payload 4 (directorySize 4 data)),
      construct Sentinel sizeofBucket model data = .returned t →
      simdSubscript (avx2Index64 lane) ManualPrefetch model t q
        = operatorSubscript Sentinel ManualPrefetch model t q := by
  exact ⟨fun lane t hrun => simdSubscript_eq (filledPrefix_construct hrun)
      (fun b hb => avx512Index_eq_find lane hq hb) ManualPrefetch model,
    fun lane t hrun => simdSubscript_eq (filledPrefix_construct hrun)
      (fun b hb => avx2Index32_eq_find lane hq hb) ManualPrefetch model,
    fun lane t hrun => simdSubscript_eq (filledPrefix_construct hrun)
      (fun b hb => avx2Index64_eq_find lane hq hb) ManualPrefetch model⟩

section
open scoped UIntOrder

/-- A chain of two buckets with free slots in the second one, and a key in the ninth slot. -/
theorem simd_lookup_eq_generic_second_bucket :
    let model : Model UInt64 := ⟨fun _ => 1, "one"⟩
    let data : List (UInt64 × UInt64) := (UIntOrder.firstKeys 9).map fun key => (key, key)
    let Sentinel : UInt64 := 18446744073709551615
    let lane : UInt64 ↪ BitVec 64 := ⟨UInt64.toBitVec, fun _ _ => UInt64.toBitVec_inj.mp⟩
    ∃ t : MonotoneHashtable UInt64 UInt64 8 (directorySize 8 data),
      construct Sentinel 136 model data = .returned t ∧
      simdSubscript (avx512Index lane) false model t 8
        = operatorSubscript Sentinel false model t 8 := by
  intro model data Sentinel lane
  have hmodel : ∀ key, (model key).toNat < directorySize 8 data := fun _ =>
    (by decide : 1 < directorySize 8 data)
  have hdata : ∀ d ∈ data, d.1 ≠ Sentinel := by
    intro d hd
    obtain ⟨key, hkey, rfl⟩ := List.mem_map.mp hd
    have hlt := UIntOrder.toNat_lt_of_mem_firstKeys (by omega) hkey
    rintro rfl
    exact absurd hlt (by decide)
  obtain ⟨t, hrun⟩ : ∃ t : MonotoneHashtable UInt64 UInt64 8 (directorySize 8 data),
      construct Sentinel 136 model data = .returned t :=
    (construct_returned_iff hmodel hdata).mpr (Or.inl (by omega))
  have hq : (8 : UInt64) ≠ Sentinel := by decide
  exact ⟨t, hrun, (simd_lookup_eq_generic Sentinel false 136 model data 8 hq).1 lane t hrun⟩

end

end HashingBenchmark

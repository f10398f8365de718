import HashingBenchmark.Lib.UIntOrder
import HashingBenchmark.Lib.TableFill
import Mathlib.Data.List.Destutter
import Mathlib.Data.List.Sort
import Mathlib.Data.Nat.Bitwise
import Mathlib.Data.Nat.Digits.Defs

/-! Reading a dataset file, `dataset::load` of `src/support/datasets.hpp`.

    A file is a header of eight bytes, the number of entries, and the entries of eight bytes each,
    all little endian. `load` allocates a vector of as many zeros as the file has room for entries,
    overwrites as many of them as the header says, and sorts the whole vector. If the header says
    less than the file has room for, the zeros that are left come out as a key.

    `load` returns a vector of 64-bit values whatever `Key` is, so `Key` is that type here. A file
    has fewer than 2^63 bytes, so `ℕ` is exact for its length and for offsets into it. -/

namespace HashingBenchmark
namespace dataset

/-! ### `deduplicate_and_sort` -/

section
variable {T : Type} [LinearOrder T]

/-- `std::sort`, then `std::unique`. -/
def deduplicateAndSort (vec : List T) : List T :=
  (vec.insertionSort (· ≤ ·)).destutter (· ≠ ·)

/-- After the sort the repetitions of a value stand next to each other. -/
theorem deduplicateAndSort_eq_dedup (vec : List T) :
    deduplicateAndSort vec = (vec.insertionSort (· ≤ ·)).dedup :=
  (List.pairwise_insertionSort (· ≤ ·) vec).destutter_eq_dedup

@[simp] theorem mem_deduplicateAndSort {vec : List T} {x : T} :
    x ∈ deduplicateAndSort vec ↔ x ∈ vec := by
  rw [deduplicateAndSort_eq_dedup, List.mem_dedup, List.mem_insertionSort]

/-- The result is strictly ascending. -/
theorem pairwise_deduplicateAndSort (vec : List T) :
    (deduplicateAndSort vec).Pairwise (· < ·) := by
  rw [deduplicateAndSort_eq_dedup]
  have hle : (vec.insertionSort (· ≤ ·)).dedup.Pairwise (· ≤ ·) :=
    (List.pairwise_insertionSort (· ≤ ·) vec).sublist (List.dedup_sublist _)
  have hne := List.nodup_dedup (vec.insertionSort (· ≤ ·))
  exact hle.imp₂ (fun _ _ => lt_of_le_of_ne) hne

end

/-! ### `load` -/

open UIntOrder

/-- Why `load` does not return: `std::length_error` of the vector, or an access outside of one. -/
inductive LoadFault where
  | length_error
  | outOfBounds
  deriving DecidableEq

/-- `buffer[offset]`. -/
def byteAt (buffer : List UInt8) (offset : ℕ) : Except LoadFault UInt64 :=
  match buffer[offset]? with
  | none => .error .outOfBounds
  | some b => .ok b.toUInt64

/-- `read_little_endian_8`. -/
def readLittleEndian8 (buffer : List UInt8) (offset : ℕ) : Except LoadFault UInt64 := do
  let b0 ← byteAt buffer (offset + 0)
  let b1 ← byteAt buffer (offset + 1)
  let b2 ← byteAt buffer (offset + 2)
  let b3 ← byteAt buffer (offset + 3)
  let b4 ← byteAt buffer (offset + 4)
  let b5 ← byteAt buffer (offset + 5)
  let b6 ← byteAt buffer (offset + 6)
  let b7 ← byteAt buffer (offset + 7)
  return b0 ||| (b1 <<< 8) ||| (b2 <<< 16) ||| (b3 <<< 24) ||| (b4 <<< 32) ||| (b5 <<< 40) |||
    (b6 <<< 48) ||| (b7 <<< 56)

/-- `dataset[i] = read_little_endian_8(buffer, offset)`. -/
def readEntry (buffer : List UInt8) (dataset : List UInt64) (i : ℕ) :
    Except LoadFault (List UInt64) := do
  let value ← readLittleEndian8 buffer (i * 8 + 8)
  if i < dataset.length then return dataset.set i value else throw .outOfBounds

/-- `load`; there is no file at the path if `file` is `none`. In a file of less than eight bytes the
    unsigned `size - sizeof(std::uint64_t)` wraps around, and the vector would be too large. -/
def load (file : Option (List UInt8)) : Except LoadFault (List UInt64) :=
  match file with
  | none => .ok []
  | some buffer =>
    if buffer.length < 8 then .error .length_error
    else do
      let num_elements ← readLittleEndian8 buffer 0
      let dataset ← (List.range num_elements.toNat).foldlM (readEntry buffer)
        (List.replicate ((buffer.length - 8) / 8) 0)
      return deduplicateAndSort dataset

/-! ### What the bytes say -/

/-- The number with the little endian digits `bytes`. -/
def littleEndian (bytes : List UInt8) : UInt64 :=
  UInt64.ofNat (Nat.ofDigits 256 (bytes.map UInt8.toNat))

/-- The header of a file. -/
def header (file : List UInt8) : UInt64 := littleEndian (file.take 8)

/-- Entry `i` of a file, behind the header. -/
def entry (file : List UInt8) (i : ℕ) : UInt64 := littleEndian ((file.drop (8 * (i + 1))).take 8)

/-- The first `c` entries. -/
def entries (file : List UInt8) (c : ℕ) : List UInt64 := (List.range c).map (entry file)

/-- One more byte in front of the digits so far. -/
theorem toNat_or_shiftLeft {x : UInt64} {b : UInt8} {j : ℕ} (hj : j < 8)
    (hx : x.toNat < 2 ^ (8 * j)) :
    (x ||| (b.toUInt64 <<< UInt64.ofNat (8 * j))).toNat = x.toNat + 2 ^ (8 * j) * b.toNat ∧
      (x ||| (b.toUInt64 <<< UInt64.ofNat (8 * j))).toNat < 2 ^ (8 * (j + 1)) := by
  have hb : b.toNat < 2 ^ 8 := b.toNat_lt
  have hpow : 2 ^ (8 * j) * b.toNat + 2 ^ (8 * j) ≤ 2 ^ (8 * (j + 1)) := by
    have : 2 ^ (8 * j) * (b.toNat + 1) ≤ 2 ^ (8 * j) * 2 ^ 8 := Nat.mul_le_mul_left _ hb
    rw [← pow_add] at this
    rw [mul_add, mul_one] at this
    exact this
  have hle : 2 ^ (8 * (j + 1)) ≤ 2 ^ 64 := Nat.pow_le_pow_right (by norm_num) (by omega)
  have hshift : (b.toUInt64 <<< UInt64.ofNat (8 * j)).toNat = 2 ^ (8 * j) * b.toNat := by
    have hcount : (UInt64.ofNat (8 * j)).toNat % 64 = 8 * j := by
      rw [UInt64.toNat_ofNat_of_lt' (by omega : 8 * j < 2 ^ 64), Nat.mod_eq_of_lt (by omega)]
    rw [UInt64.toNat_shiftLeft, hcount, Nat.shiftLeft_eq, UInt8.toNat_toUInt64, mul_comm,
      Nat.mod_eq_of_lt (by omega)]
  have hor : (x ||| (b.toUInt64 <<< UInt64.ofNat (8 * j))).toNat
      = x.toNat + 2 ^ (8 * j) * b.toNat := by
    rw [UInt64.toNat_or, hshift, Nat.or_comm, ← Nat.two_pow_add_eq_or_of_lt hx]
    omega
  exact ⟨hor, by omega⟩

/-- The shifts and ors of eight bytes give the number with these digits. -/
theorem or_shiftLeft_eq_littleEndian (b0 b1 b2 b3 b4 b5 b6 b7 : UInt8) :
    b0.toUInt64 ||| (b1.toUInt64 <<< 8) ||| (b2.toUInt64 <<< 16) ||| (b3.toUInt64 <<< 24) |||
        (b4.toUInt64 <<< 32) ||| (b5.toUInt64 <<< 40) ||| (b6.toUInt64 <<< 48) |||
        (b7.toUInt64 <<< 56)
      = littleEndian [b0, b1, b2, b3, b4, b5, b6, b7] := by
  have h0 : b0.toUInt64.toNat < 2 ^ (8 * 1) := by
    rw [UInt8.toNat_toUInt64]; exact b0.toNat_lt
  obtain ⟨e1, h1⟩ := toNat_or_shiftLeft (b := b1) (by norm_num) h0
  obtain ⟨e2, h2⟩ := toNat_or_shiftLeft (b := b2) (by norm_num) h1
  obtain ⟨e3, h3⟩ := toNat_or_shiftLeft (b := b3) (by norm_num) h2
  obtain ⟨e4, h4⟩ := toNat_or_shiftLeft (b := b4) (by norm_num) h3
  obtain ⟨e5, h5⟩ := toNat_or_shiftLeft (b := b5) (by norm_num) h4
  obtain ⟨e6, h6⟩ := toNat_or_shiftLeft (b := b6) (by norm_num) h5
  obtain ⟨e7, h7⟩ := toNat_or_shiftLeft (b := b7) (by norm_num) h6
  have hdigits : Nat.ofDigits 256 ([b0, b1, b2, b3, b4, b5, b6, b7].map UInt8.toNat)
      = b0.toNat + 2 ^ 8 * b1.toNat + 2 ^ 16 * b2.toNat + 2 ^ 24 * b3.toNat + 2 ^ 32 * b4.toNat +
        2 ^ 40 * b5.toNat + 2 ^ 48 * b6.toNat + 2 ^ 56 * b7.toNat := by
    simp only [List.map_cons, List.map_nil, Nat.ofDigits_cons, Nat.ofDigits_nil]
    ring
  have hsum := e7
  rw [e6, e5, e4, e3, e2, e1, UInt8.toNat_toUInt64] at hsum
  rw [littleEndian, hdigits, ← hsum, UInt64.ofNat_toNat]
  rfl

theorem byteAt_eq {buffer : List UInt8} {offset k : ℕ} {b : UInt8}
    (h : ((buffer.drop offset).take 8)[k]? = some b) (hk : k < 8) :
    byteAt buffer (offset + k) = .ok b.toUInt64 := by
  rw [List.getElem?_take_of_lt hk, List.getElem?_drop] at h
  rw [byteAt, h]

/-- A read within the buffer. -/
theorem readLittleEndian8_eq {buffer : List UInt8} {offset : ℕ} (h : offset + 8 ≤ buffer.length) :
    readLittleEndian8 buffer offset = .ok (littleEndian ((buffer.drop offset).take 8)) := by
  have hlength : ((buffer.drop offset).take 8).length = 8 := by
    rw [List.length_take, List.length_drop]; omega
  obtain ⟨b0, b1, b2, b3, b4, b5, b6, b7, hbytes⟩ : ∃ b0 b1 b2 b3 b4 b5 b6 b7,
      (buffer.drop offset).take 8 = [b0, b1, b2, b3, b4, b5, b6, b7] := by
    match hlist : (buffer.drop offset).take 8, hlength with
    | [b0, b1, b2, b3, b4, b5, b6, b7], _ => exact ⟨b0, b1, b2, b3, b4, b5, b6, b7, rfl⟩
  have hbyte : ∀ k b, [b0, b1, b2, b3, b4, b5, b6, b7][k]? = some b → k < 8 →
      byteAt buffer (offset + k) = .ok b.toUInt64 := fun k b hb hk =>
    byteAt_eq (by rw [hbytes]; exact hb) hk
  rw [readLittleEndian8, hbyte 0 b0 rfl (by norm_num), hbyte 1 b1 rfl (by norm_num),
    hbyte 2 b2 rfl (by norm_num), hbyte 3 b3 rfl (by norm_num), hbyte 4 b4 rfl (by norm_num),
    hbyte 5 b5 rfl (by norm_num), hbyte 6 b6 rfl (by norm_num), hbyte 7 b7 rfl (by norm_num),
    hbytes, ← or_shiftLeft_eq_littleEndian]
  rfl

/-- The parse loop: the entries it has read, and zeros behind them. -/
theorem foldlM_readEntry {buffer : List UInt8} {room c : ℕ} (hroom : 8 * room + 8 ≤ buffer.length)
    (hc : c ≤ room) :
    (List.range c).foldlM (readEntry buffer) (List.replicate room 0)
      = .ok (entries buffer c ++ List.replicate (room - c) 0) := by
  induction c with
  | zero => simp [entries, pure, Except.pure]
  | succ c ih =>
    have hlength : (entries buffer c).length = c := by simp [entries]
    have hread : readLittleEndian8 buffer (c * 8 + 8) = .ok (entry buffer c) := by
      rw [readLittleEndian8_eq (by omega), entry, mul_add, mul_comm, mul_one]
    have hzeros : List.replicate (room - c) (0 : UInt64) = 0 :: List.replicate (room - (c + 1)) 0 := by
      rw [← List.replicate_succ]; congr 1; omega
    have hlt : c < (entries buffer c ++ List.replicate (room - c) (0 : UInt64)).length := by
      rw [List.length_append, hlength, List.length_replicate]; omega
    have hset : (entries buffer c ++ List.replicate (room - c) (0 : UInt64)).set c (entry buffer c)
        = entries buffer (c + 1) ++ List.replicate (room - (c + 1)) 0 := by
      rw [List.set_append_right _ _ hlength.le, hlength, Nat.sub_self, hzeros, List.set_cons_zero,
        entries, entries, List.range_succ, List.map_append, List.append_assoc]
      rfl
    rw [List.range_succ, List.foldlM_append, ih (Nat.le_of_succ_le hc), TableFill.bind_eq_ok]
    refine ⟨_, rfl, ?_⟩
    rw [List.foldlM_cons, TableFill.bind_eq_ok]
    refine ⟨_, ?_, List.foldlM_nil⟩
    rw [readEntry, TableFill.bind_eq_ok]
    exact ⟨entry buffer c, hread, by rw [if_pos hlt, hset]; rfl⟩

/-- What `load` returns for a file that is long enough for its header. -/
theorem load_eq {file : List UInt8} (hlength : 8 ≤ file.length)
    (hheader : (header file).toNat ≤ (file.length - 8) / 8) :
    load (some file) = .ok (deduplicateAndSort (entries file (header file).toNat ++
      List.replicate ((file.length - 8) / 8 - (header file).toNat) 0)) := by
  have hread : readLittleEndian8 file 0 = .ok (header file) := by
    rw [readLittleEndian8_eq (by omega), List.drop_zero, header]
  rw [load, if_neg (by omega), TableFill.bind_eq_ok]
  refine ⟨header file, hread, ?_⟩
  rw [TableFill.bind_eq_ok]
  exact ⟨_, foldlM_readEntry (by omega) hheader, rfl⟩

/-- `load` returned the entries of the file: strictly ascending, and no other value. -/
def Decodes (file : List UInt8) : Prop :=
  ∃ keys, load (some file) = .ok keys ∧ keys.Pairwise (· < ·) ∧
    ∀ k, k ∈ keys ↔ k ∈ entries file (header file).toNat

/-- A header that says one entry, and room for two. -/
theorem load_invents_zero :
    let file : List UInt8 := [1, 0, 0, 0, 0, 0, 0, 0, 5, 0, 0, 0, 0, 0, 0, 0, 7, 0, 0, 0, 0, 0, 0, 0]
    8 ≤ file.length ∧ (header file).toNat ≤ (file.length - 8) / 8 ∧
      load (some file) = .ok [0, 5] ∧ ¬ Decodes file := by
  intro file
  have hheader : header file = 1 := by decide
  have hload : load (some file) = .ok [0, 5] := by decide
  refine ⟨by decide, by rw [hheader]; decide, hload, ?_⟩
  rintro ⟨keys, hkeys, -, hmem⟩
  have hsame : [0, 5] = keys := Except.ok.inj (hload.symm.trans hkeys)
  have hzero := (hmem 0).mp (by rw [← hsame]; simp)
  rw [hheader] at hzero
  exact absurd hzero (by decide)

/-- CORRECT: `load` returns exactly the entries of a file, if and only if the header says how many
    the file has room for, or one of them is zero. -/
theorem load_decodes_iff (file : List UInt8) (hlength : 8 ≤ file.length)
    (hheader : (header file).toNat ≤ (file.length - 8) / 8) :
    Decodes file ↔
      (header file).toNat = (file.length - 8) / 8 ∨ 0 ∈ entries file (header file).toNat := by
  have hload := load_eq hlength hheader
  constructor
  · rintro ⟨keys, hkeys, -, hmem⟩
    by_contra hnot
    rw [not_or] at hnot
    obtain rfl := Except.ok.inj (hload.symm.trans hkeys)
    -- a zero of the allocated vector is left
    refine hnot.2 ((hmem 0).mp ?_)
    rw [mem_deduplicateAndSort, List.mem_append]
    exact Or.inr (List.mem_replicate.mpr ⟨by omega, rfl⟩)
  · intro h
    refine ⟨_, hload, pairwise_deduplicateAndSort _, fun k => ?_⟩
    rw [mem_deduplicateAndSort, List.mem_append, List.mem_replicate]
    refine ⟨fun hk => ?_, Or.inl⟩
    rcases hk with hk | ⟨hne, rfl⟩
    · exact hk
    · rcases h with h | h
      · omega
      · exact h

/-- Two entries out of order, one of them twice, and three bytes behind them. -/
theorem load_decodes_iff_three_entries :
    Decodes [3, 0, 0, 0, 0, 0, 0, 0, 9, 1, 0, 0, 0, 0, 0, 0, 4, 0, 0, 0, 0, 0, 0, 0,
      9, 1, 0, 0, 0, 0, 0, 0, 255, 255, 255] :=
  (load_decodes_iff _ (by decide) (by decide)).mpr (Or.inl (by decide))

end dataset
end HashingBenchmark

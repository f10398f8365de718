import HashingBenchmark.Art.Correct
import HashingBenchmark.Art.EraseRefine

/-! Runs of inserts and erases on the adaptive radix tree.

    The values are positions of tuples with the keys of the calls, so that `loadKey` loads the right
    key for each leaf. Then the tree is a map from the keys that are stored to their values
    (`IsMapOf`), whatever its nodes have grown and shrunk to. Only an insert of a stored key goes
    wrong: it compares bytes behind the end of both keys. -/

namespace HashingBenchmark
namespace Art
open Join RadixTrie

/-- A call of `insert`, as in the loop of `Build`, or of `erase`. -/
inductive Call where
  | insert (key_value : Tuple)
  | erase (key : UInt32)

def Call.run (data : List Tuple) : Call → Node → Except ArtFault Node
  | .insert key_value, tree_ =>
    Art.insert data (swapBytes key_value.key) key_value.payload.toNat 0 tree_
  | .erase key, tree_ => Art.erase data (swapBytes key) 0 tree_

def runCalls (data : List Tuple) (calls : List Call) (tree_ : Node) : Except ArtFault Node :=
  calls.foldlM (fun tree_ call => call.run data tree_) tree_

/-- What a call makes of the stored tuples. -/
def Call.apply : Call → List Tuple → List Tuple
  | .insert key_value, stored => stored ++ [key_value]
  | .erase key, stored => stored.filter fun s => s.key ≠ key

/-- The tuples that are stored after the calls. -/
def stored (calls : List Call) : List Tuple := calls.foldl (fun stored call => call.apply stored) []

/-- The value is the position of a tuple with this key. -/
def Resolved (data : List Tuple) (s : Tuple) : Prop :=
  loadBytes data s.payload.toNat = some (keyByte s.key)

/-- The bytes that are loaded for a value. -/
def bytesOf (data : List Tuple) (value : ℕ) : ℕ → UInt8 := (loadBytes data value).getD fun _ => 0

/-- A tree with a leaf for each of the tuples. -/
structure IsMapOf (data : List Tuple) (tuples : List Tuple) (tree_ : Node) : Prop where
  resolved : ∀ s ∈ tuples, Resolved data s
  trie : ∃ t, Stands 0 tree_ t ∧ IsTrieOf 4 (bytesOf data) (tuples.map fun s => s.payload.toNat) t

section Steps
variable {data tuples : List Tuple} {tree_ : Node}

theorem Resolved.bytesOf_eq {s : Tuple} (h : Resolved data s) :
    bytesOf data s.payload.toNat = keyByte s.key := by
  rw [bytesOf, h, Option.getD_some]

theorem resolved_of_getElem? {s : Tuple}
    (h : ∃ t, data[s.payload.toNat]? = some t ∧ t.key = s.key) : Resolved data s := by
  obtain ⟨t, ht, hkey⟩ := h
  rw [Resolved, loadBytes, ht, Option.map_some, hkey]

theorem isMapOf_nil (data : List Tuple) : IsMapOf data [] .null :=
  ⟨fun _ hs => absurd hs List.not_mem_nil, .null, .null 0, isTrieOf_nil⟩

/-- What is loaded for a leaf are the bytes of its key. -/
theorem loadBytes_of_mem (h : ∀ s ∈ tuples, Resolved data s) {t : RadixTrie UInt8 ℕ}
    (ht : IsTrieOf 4 (bytesOf data) (tuples.map fun s => s.payload.toNat) t) {w : ℕ}
    (hw : Mem w t) : loadBytes data w = some (bytesOf data w) := by
  obtain ⟨s, hs, rfl⟩ := List.mem_map.mp ((ht.mem w).mp hw)
  rw [(h s hs).bytesOf_eq, h s hs]

/-- Step lemma: an insert of a key that is not stored. -/
theorem IsMapOf.insert (h : IsMapOf data tuples tree_) {key_value : Tuple}
    (hvalue : Resolved data key_value) (hnew : ∀ s ∈ tuples, s.key ≠ key_value.key) :
    ∃ tree', Call.run data (.insert key_value) tree_ = .ok tree' ∧
      IsMapOf data (tuples ++ [key_value]) tree' := by
  obtain ⟨hresolved, t, hstands, ht⟩ := h
  have hdiff : ∀ w ∈ tuples.map (fun s => s.payload.toNat),
      ¬ Agree (bytesOf data w) (bytesOf data key_value.payload.toNat) 0 4 := by
    intro w hw hagree
    obtain ⟨s, hs, rfl⟩ := List.mem_map.mp hw
    rw [(hresolved s hs).bytesOf_eq, hvalue.bytesOf_eq] at hagree
    exact hnew s hs (eq_of_agree hagree)
  obtain ⟨t', hinsert, hfound⟩ := @Right.exists_insert _ _ _ (loadBytes data) 4 (bytesOf data)
    key_value.payload.toNat 0 t ht.right ht.fits (Nat.zero_le 4)
    (fun w f hf _ => ⟨_, loadBytes_of_mem hresolved ht (mem_of_reach hf), fun _ _ _ => rfl⟩)
    fun w hw hagree => hdiff w ((ht.mem w).mp hw) hagree.symm
  have ht' := ht.snoc hinsert hdiff fun w hw => hfound w ((ht.mem w).mpr hw)
  rw [hvalue.bytesOf_eq] at hinsert
  rcases @insert_stands data key_value.key key_value.payload.toNat 0 tree_ t hstands ht.fits
    (toNat_lt_two_pow _) with ⟨t'', tree', hok, hrun, hstands'⟩ | ⟨hfails, -⟩
  · obtain rfl := Option.some.inj (hinsert.symm.trans hok)
    refine ⟨tree', hrun, fun s hs => ?_, t', hstands', ?_⟩
    · rcases List.mem_append.mp hs with hs | hs
      · exact hresolved s hs
      · rw [List.mem_singleton.mp hs]
        exact hvalue
    · rw [List.map_append]
      exact ht'
  · rw [hfails] at hinsert
    cases hinsert

/-- An insert of a stored key reads behind the end of the key. -/
theorem IsMapOf.insert_stored (h : IsMapOf data tuples tree_) {key_value s : Tuple}
    (hs : s ∈ tuples) (hkey : s.key = key_value.key) :
    Call.run data (.insert key_value) tree_ = .error .outOfBounds := by
  obtain ⟨hresolved, t, hstands, ht⟩ := h
  have hmem : Mem s.payload.toNat t := (ht.mem _).mpr (List.mem_map_of_mem hs)
  have hnone : RadixTrie.insert (loadBytes data) 4 (keyByte key_value.key)
      key_value.payload.toNat 0 t = none := by
    refine ht.right.insert_eq_none ht.fits hmem (loadBytes_of_mem hresolved ht hmem) ?_
    rw [(hresolved s hs).bytesOf_eq, hkey]
    exact fun _ _ _ => rfl
  rcases @insert_stands data key_value.key key_value.payload.toNat 0 tree_ t hstands ht.fits
    (toNat_lt_two_pow _) with ⟨t', -, hok, -, -⟩ | ⟨-, hrun⟩
  · rw [hnone] at hok
    cases hok
  · exact hrun

/-- Step lemma: an erase, of a stored key or not. -/
theorem IsMapOf.erase (h : IsMapOf data tuples tree_) (key : UInt32) :
    ∃ tree', Call.run data (.erase key) tree_ = .ok tree' ∧
      IsMapOf data (tuples.filter fun s => s.key ≠ key) tree' := by
  obtain ⟨hresolved, t, hstands, ht⟩ := h
  obtain ⟨tree', hrun, hstands'⟩ := @erase_stands data key 0 (bytesOf data) tree_ t hstands ht.fits
    ht.right fun w hw => loadBytes_of_mem hresolved ht hw
  obtain ⟨hfits', hright', -⟩ := @erase_keeps _ _ _ (bytesOf data) 4 (keyByte key) 0 t ht.fits
    ht.right hstands.branching
  refine ⟨tree', hrun, fun s hs => hresolved s (List.mem_of_mem_filter hs), _, hstands', hfits',
    hright', fun w => ?_⟩
  rw [mem_erase ht.fits ht.right, ht.mem]
  constructor
  · rintro ⟨hw, hnot⟩
    obtain ⟨s, hs, rfl⟩ := List.mem_map.mp hw
    refine List.mem_map.mpr ⟨s, List.mem_filter.mpr ⟨hs, decide_eq_true fun hkey => hnot ?_⟩, rfl⟩
    rw [(hresolved s hs).bytesOf_eq, hkey]
    exact fun _ _ _ => rfl
  · intro hw
    obtain ⟨s, hs, rfl⟩ := List.mem_map.mp hw
    obtain ⟨hs, hkey⟩ := List.mem_filter.mp hs
    refine ⟨List.mem_map_of_mem hs, fun hagree => of_decide_eq_true hkey ?_⟩
    rw [(hresolved s hs).bytesOf_eq] at hagree
    exact eq_of_agree hagree

/-- A lookup finds the value of a stored key. -/
theorem IsMapOf.lookup_stored (h : IsMapOf data tuples tree_) {s : Tuple} (hs : s ∈ tuples) :
    lookup data (swapBytes s.key) 0 false tree_ = .ok (some s.payload.toNat) := by
  obtain ⟨hresolved, t, hstands, ht⟩ := h
  obtain ⟨f, hf⟩ := ht.right.exists_reach ((ht.mem _).mpr (List.mem_map_of_mem hs))
  rw [(hresolved s hs).bytesOf_eq] at hf
  rw [lookup_stands hstands ht.fits, hf]
  simp only
  rcases @checkLeaf_cases data s.key f (le_of_reach ht.fits hf).2 s.payload.toNat with
    ⟨-, hok⟩ | ⟨-, ⟨e, he, hdiffer⟩, -⟩ | ⟨-, hnone, -⟩
  · exact hok
  · obtain rfl := Option.some.inj (he.symm.trans (hresolved s hs))
    exact absurd (fun _ _ _ => rfl) hdiffer
  · rw [hresolved s hs] at hnone
    cases hnone

/-- A lookup of a key that is not stored finds nothing. -/
theorem IsMapOf.lookup_other (h : IsMapOf data tuples tree_) {key : UInt32}
    (hkey : ∀ s ∈ tuples, s.key ≠ key) :
    lookup data (swapBytes key) 0 false tree_ = .ok none := by
  obtain ⟨hresolved, t, hstands, ht⟩ := h
  rw [lookup_stands hstands ht.fits]
  cases hreach : reach (keyByte key) 0 t with
  | none => rfl
  | some leaf =>
    obtain ⟨w, f⟩ := leaf
    obtain ⟨s, hs, rfl⟩ := List.mem_map.mp ((ht.mem w).mp (mem_of_reach hreach))
    have hup := ht.right.agree_of_reach ht.fits hreach
    have hf := (le_of_reach ht.fits hreach).2
    rw [(hresolved s hs).bytesOf_eq] at hup
    simp only
    rcases @checkLeaf_cases data key f hf s.payload.toNat with
      ⟨hknows, -⟩ | ⟨-, -, hok⟩ | ⟨-, hnone, -⟩
    · -- the rest of the key agrees too, so it is the key of this leaf
      refine absurd (eq_of_agree fun i hi hi' => ?_) (hkey s hs)
      rcases Nat.lt_or_ge i f with hlt | hge
      · exact hup i hi hlt
      · obtain ⟨e, he, hdown⟩ := hknows (by omega)
        obtain rfl := Option.some.inj (he.symm.trans (hresolved s hs))
        exact hdown i hge hi'
    · exact hok
    · rw [hresolved s hs] at hnone
      cases hnone

theorem IsMapOf.lookupPessimistic_eq (h : IsMapOf data tuples tree_) (key : UInt32) :
    lookupPessimistic data (swapBytes key) 0 tree_ = lookup data (swapBytes key) 0 false tree_ := by
  obtain ⟨-, t, hstands, ht⟩ := h
  exact lookupPessimistic_eq_lookup hstands ht.fits

theorem IsMapOf.null_iff (h : IsMapOf data tuples tree_) : tree_ = .null ↔ tuples = [] := by
  obtain ⟨-, t, hstands, ht⟩ := h
  rw [hstands.null_iff, List.eq_nil_iff_forall_not_mem]
  constructor
  · rintro rfl s hs
    exact ((ht.mem _).mpr (List.mem_map_of_mem hs)).elim
  · intro hnone
    by_contra hne
    obtain ⟨w, hw⟩ := exists_mem ht.fits hne
    obtain ⟨s, hs, -⟩ := List.mem_map.mp ((ht.mem w).mp hw)
    exact hnone s hs

end Steps

theorem stored_snoc (calls : List Call) (call : Call) :
    stored (calls ++ [call]) = call.apply (stored calls) := by
  rw [stored, List.foldl_append]
  rfl

theorem runCalls_snoc (data : List Tuple) (calls : List Call) (call : Call) (tree_ : Node) :
    runCalls data (calls ++ [call]) tree_ = (runCalls data calls tree_).bind (call.run data) := by
  rw [runCalls, List.foldlM_append]
  refine congrArg _ (funext fun tree => ?_)
  simp

/-- Every inserted key is a new one at that time. -/
def InsertsNewKeys (calls : List Call) : Prop :=
  ∀ before key_value after, calls = before ++ .insert key_value :: after →
    ∀ s ∈ stored before, s.key ≠ key_value.key

theorem insertsNewKeys_nil : InsertsNewKeys [] := fun before kv after heq => by simp at heq

theorem insertsNewKeys_snoc {calls : List Call} {call : Call} :
    InsertsNewKeys (calls ++ [call]) ↔ InsertsNewKeys calls ∧
      ∀ key_value, call = .insert key_value → ∀ s ∈ stored calls, s.key ≠ key_value.key := by
  constructor
  · intro h
    refine ⟨fun before kv after heq => h before kv (after ++ [call]) (by rw [heq]; simp), ?_⟩
    rintro kv rfl
    exact h calls kv [] rfl
  · rintro ⟨hcalls, hlast⟩ before kv after heq
    rcases List.eq_nil_or_concat after with rfl | ⟨after, x, rfl⟩
    · obtain ⟨rfl, hcall⟩ := List.append_inj' heq rfl
      exact hlast kv (by simpa using hcall)
    · have hsplit : calls ++ [call] = (before ++ .insert kv :: after) ++ [x] := by rw [heq]; simp
      exact hcalls before kv after (List.append_inj' hsplit rfl).1

/-- Run lemma: the calls return where they insert new keys only, and then the tree is a map of what
    is stored. -/
theorem runCalls_spec {data : List Tuple} {calls : List Call}
    (hvalues : ∀ key_value, .insert key_value ∈ calls → Resolved data key_value) :
    (InsertsNewKeys calls ∧ ∃ tree_, runCalls data calls .null = .ok tree_ ∧
      IsMapOf data (stored calls) tree_) ∨
    (¬ InsertsNewKeys calls ∧ runCalls data calls .null = .error .outOfBounds) := by
  induction calls using List.reverseRecOn with
  | nil =>
    exact Or.inl ⟨insertsNewKeys_nil, .null, rfl, isMapOf_nil data⟩
  | append_singleton calls call ih =>
    rw [insertsNewKeys_snoc, runCalls_snoc, stored_snoc]
    rcases ih fun kv hkv => hvalues kv (List.mem_append_left _ hkv) with
      ⟨hnew, tree_, hrun, hmap⟩ | ⟨hnot, hrun⟩
    · rw [hrun]
      cases call with
      | erase key =>
        obtain ⟨tree', hstep, hmap'⟩ := hmap.erase key
        exact Or.inl ⟨⟨hnew, fun kv heq => by cases heq⟩, tree', hstep, hmap'⟩
      | insert kv =>
        by_cases hstored : ∀ s ∈ stored calls, s.key ≠ kv.key
        · obtain ⟨tree', hstep, hmap'⟩ := hmap.insert (hvalues kv (by simp)) hstored
          refine Or.inl ⟨⟨hnew, fun kv' heq => ?_⟩, tree', hstep, hmap'⟩
          obtain rfl := Call.insert.inj heq
          exact hstored
        · refine Or.inr ⟨fun h => hstored (h.2 kv rfl), ?_⟩
          push Not at hstored
          obtain ⟨s, hs, hkey⟩ := hstored
          exact hmap.insert_stored hs hkey
    · rw [hrun]
      exact Or.inr ⟨fun h => hnot h.1, rfl⟩

/-- CORRECT: for values that are positions of tuples with their keys, any run of inserts and erases
    returns exactly if no stored key is inserted again; then each of the two lookups finds the value of
    each key that is stored and nothing for any other one, and the tree is empty once everything is
    erased. -/
theorem art_runs_are_maps (data : List Tuple) (calls : List Call)
    (hvalues : ∀ key_value, .insert key_value ∈ calls →
      ∃ t, data[key_value.payload.toNat]? = some t ∧ t.key = key_value.key) :
    ((∃ tree_, runCalls data calls .null = .ok tree_) ↔ InsertsNewKeys calls) ∧
    ∀ tree_, runCalls data calls .null = .ok tree_ →
      (∀ key, lookup data (swapBytes key) 0 false tree_
          = .ok (((stored calls).find? fun s => s.key = key).map fun s => s.payload.toNat) ∧
        lookupPessimistic data (swapBytes key) 0 tree_
          = .ok (((stored calls).find? fun s => s.key = key).map fun s => s.payload.toNat)) ∧
      (tree_ = .null ↔ stored calls = []) := by
  rcases runCalls_spec fun kv hkv => resolved_of_getElem? (hvalues kv hkv) with
    ⟨hnew, tree', hrun, hmap⟩ | ⟨hnot, hrun⟩
  · refine ⟨iff_of_true ⟨tree', hrun⟩ hnew, fun tree_ hok => ?_⟩
    obtain rfl := Except.ok.inj (hrun.symm.trans hok)
    refine ⟨fun key => ?_, hmap.null_iff⟩
    rw [hmap.lookupPessimistic_eq, and_self]
    cases hfind : (stored calls).find? fun s => s.key = key with
    | none =>
      have hother := List.find?_eq_none.mp hfind
      exact hmap.lookup_other fun s hs => by simpa using hother s hs
    | some s =>
      have hkey : s.key = key := by simpa using List.find?_some hfind
      rw [← hkey]
      exact hmap.lookup_stored (List.mem_of_find?_eq_some hfind)
  · refine ⟨iff_of_false ?_ hnot, fun tree_ hok => ?_⟩
    · rintro ⟨tree_, hok⟩
      rw [hrun] at hok
      cases hok
    · rw [hrun] at hok
      cases hok

/-- The key 5 leaves a `Node4` with one child, the key 7 makes it one with two again. -/
theorem art_runs_are_maps_three :
    let data : List Tuple := [⟨5, 0⟩, ⟨6, 0⟩, ⟨7, 0⟩]
    ∃ tree_, runCalls data [.insert ⟨5, 0⟩, .insert ⟨6, 1⟩, .erase 5, .insert ⟨7, 2⟩] .null
        = .ok tree_ ∧
      lookup data (swapBytes 6) 0 false tree_ = .ok (some 1) ∧
      lookupPessimistic data (swapBytes 7) 0 tree_ = .ok (some 2) ∧
      lookup data (swapBytes 5) 0 false tree_ = .ok none ∧ tree_ ≠ .null := by
  intro data
  have hvalues : ∀ kv, .insert kv ∈ [Call.insert ⟨5, 0⟩, .insert ⟨6, 1⟩, .erase 5, .insert ⟨7, 2⟩] →
      ∃ t, data[kv.payload.toNat]? = some t ∧ t.key = kv.key := by
    intro kv hkv
    simp only [List.mem_cons, Call.insert.injEq, reduceCtorEq, List.not_mem_nil, or_false,
      false_or] at hkv
    rcases hkv with rfl | rfl | rfl
    · exact ⟨⟨5, 0⟩, rfl, rfl⟩
    · exact ⟨⟨6, 0⟩, rfl, rfl⟩
    · exact ⟨⟨7, 0⟩, rfl, rfl⟩
  have hnew : InsertsNewKeys [Call.insert ⟨5, 0⟩, .insert ⟨6, 1⟩, .erase 5, .insert ⟨7, 2⟩] := by
    change InsertsNewKeys
      ([] ++ [Call.insert ⟨5, 0⟩] ++ [.insert ⟨6, 1⟩] ++ [.erase 5] ++ [.insert ⟨7, 2⟩])
    simp only [insertsNewKeys_snoc]
    simp [insertsNewKeys_nil, stored, Call.apply]
  obtain ⟨hreturns, hall⟩ := art_runs_are_maps data _ hvalues
  obtain ⟨tree_, hrun⟩ := hreturns.mpr hnew
  obtain ⟨hlookup, hnull⟩ := hall tree_ hrun
  refine ⟨tree_, hrun, (hlookup 6).1, (hlookup 7).2, (hlookup 5).1, fun h => ?_⟩
  simpa [stored, Call.apply] using hnull.mp h

end Art
end HashingBenchmark

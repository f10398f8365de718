import HashingBenchmark.Art.Refine
import HashingBenchmark.Lib.RadixBuild

/-! The join with the adaptive radix tree counts right only where keys can stand for positions.

    The leaves hold keys, and the tree loads the key of a leaf as if its value were a position. A
    leaf is created one byte behind what its key has in common with an earlier one, and the bytes
    from there on are only ever loaded. So the tuple at the position with the number of the key has
    to have the same bytes there (`RadixTrie.Resolves`); then every key of R is found and no others
    are, and otherwise the join of R with itself fails or misses a tuple (`artJoin_counts_iff`). -/

namespace HashingBenchmark
namespace Art
open Join RadixTrie

/-- The tuples that `main` builds the tree from. -/
def artData (tuples : List Tuple) : List Tuple := tuples.map fun t => ⟨t.key, t.key⟩

theorem payloadLoop_eq (rel_r : List Tuple) {j : ℕ} (hj : j ≤ Inlj.intMax)
    (art32_data : List Tuple) :
    payloadLoop rel_r j art32_data = if j + rel_r.length ≤ Inlj.intMax
      then .ok (art32_data ++ artData rel_r) else .error .overflow := by
  induction rel_r generalizing j art32_data with
  | nil => rw [payloadLoop, List.length_nil, Nat.add_zero, if_pos hj, artData, List.map_nil,
      List.append_nil]
  | cons t rel_r ih =>
    rw [payloadLoop, List.length_cons]
    by_cases hnext : j + 1 ≤ Inlj.intMax
    · rw [if_pos hnext, ih hnext, artData, artData, List.map_cons, List.append_assoc,
        List.singleton_append, Nat.add_right_comm, Nat.add_assoc j]
    · rw [if_neg hnext, if_neg (by omega)]

theorem loadBytes_artData (tuples : List Tuple) : loadBytes (artData tuples) = loadBytes tuples := by
  funext tid
  rw [loadBytes, loadBytes, artData, List.getElem?_map, Option.map_map]
  rfl

section Join
variable {tuples : List Tuple} {node : Node} {t : RadixTrie UInt8 ℕ}

/-- The build makes the trie of the keys or fails with it. -/
theorem build_refines (tuples : List Tuple) :
    (∃ t node, RadixTrie.insertAll (loadBytes tuples) 4 keyOf (tuples.map fun s => s.key.toNat)
        = some t ∧
      build (artData tuples) = .ok node ∧ Refines 0 node t) ∨
    (RadixTrie.insertAll (loadBytes tuples) 4 keyOf (tuples.map fun s => s.key.toNat) = none ∧
      build (artData tuples) = .error .outOfBounds) := by
  have hpayload : ∀ s ∈ artData tuples, s.payload = s.key := by
    intro s hs
    obtain ⟨s', -, rfl⟩ := List.mem_map.mp hs
    rfl
  have hvalues : ((artData tuples).map fun s => s.key.toNat) = tuples.map fun s => s.key.toNat := by
    rw [artData, List.map_map]; rfl
  have hrun := @buildLoop_refines (artData tuples) (artData tuples) hpayload .null .null (.null 0)
    trivial
  rw [hvalues, loadBytes_artData] at hrun
  exact hrun

/-- A lookup ends with the value of a leaf or with nothing. -/
theorem mem_of_lookup {data : List Tuple} (hnode : Refines 0 node t) (hfits : Fits 4 0 t)
    {key : UInt32} {value : ℕ} (h : lookup data (swapBytes key) 0 false node = .ok (some value)) :
    Mem value t := by
  rw [lookup_refines hnode hfits] at h
  cases hreach : reach (keyByte key) 0 t with
  | none => rw [hreach] at h; cases h
  | some leaf =>
    obtain ⟨w, f⟩ := leaf
    rw [hreach] at h
    simp only at h
    rcases @checkLeaf_cases data key f (le_of_reach hfits hreach).2 w with
      ⟨-, hok⟩ | ⟨-, -, hok⟩ | ⟨-, -, hfault⟩
    · rw [hok, Except.ok.injEq, Option.some.injEq] at h
      exact h ▸ mem_of_reach hreach
    · rw [hok] at h; cases h
    · rw [hfault] at h; cases h

/-- A lookup finds its key if the key leads to its own leaf and the rest of it is loaded there. -/
theorem lookup_eq_some_iff {data : List Tuple} (hnode : Refines 0 node t) (hfits : Fits 4 0 t)
    (key : UInt32) :
    lookup data (swapBytes key) 0 false node = .ok (some key.toNat) ↔
      Finds (loadBytes data) 4 keyOf t key.toNat := by
  simp only [lookup_refines hnode hfits, Finds, Knows, keyOf_toNat]
  cases hreach : reach (keyByte key) 0 t with
  | none => simp
  | some leaf =>
    obtain ⟨w, f⟩ := leaf
    simp only [Option.some.injEq, Prod.mk.injEq]
    rcases @checkLeaf_cases data key f (le_of_reach hfits hreach).2 w with
      ⟨hknows, hok⟩ | ⟨hlt, ⟨e, he, hdiffer⟩, hok⟩ | ⟨hlt, hload, hfault⟩
    · rw [hok, Except.ok.injEq, Option.some.injEq]
      constructor
      · rintro rfl
        exact ⟨f, ⟨rfl, rfl⟩, hknows⟩
      · rintro ⟨-, ⟨rfl, -⟩, -⟩
        rfl
    · rw [hok]
      refine iff_of_false (by simp) ?_
      rintro ⟨g, ⟨rfl, rfl⟩, hknows⟩
      obtain ⟨e', he', hagree⟩ := hknows hlt
      obtain rfl := Option.some.inj (he.symm.trans he')
      exact hdiffer hagree
    · rw [hfault]
      refine iff_of_false (by simp) ?_
      rintro ⟨g, ⟨rfl, rfl⟩, hknows⟩
      obtain ⟨e', he', -⟩ := hknows hlt
      rw [hload] at he'
      cases he'

/-- Where every value is found, no lookup reads outside of the tuples. -/
theorem exists_lookup_eq {data : List Tuple} {vs : List ℕ} (hnode : Refines 0 node t)
    (ht : IsTrieOf 4 keyOf vs t) (hfinds : ∀ v ∈ vs, Finds (loadBytes data) 4 keyOf t v)
    (key : UInt32) : ∃ leaf, lookup data (swapBytes key) 0 false node = .ok leaf := by
  rw [lookup_refines hnode ht.fits]
  cases hreach : reach (keyByte key) 0 t with
  | none => exact ⟨none, rfl⟩
  | some leaf =>
    obtain ⟨w, f⟩ := leaf
    simp only
    rcases @checkLeaf_cases data key f (le_of_reach ht.fits hreach).2 w with
      ⟨-, hok⟩ | ⟨-, -, hok⟩ | ⟨hlt, hload, -⟩
    · exact ⟨_, hok⟩
    · exact ⟨_, hok⟩
    · obtain ⟨g, hg, hknows⟩ := hfinds w ((ht.mem w).mp (mem_of_reach hreach))
      rw [ht.right.reach_keyOf ht.fits hreach, Option.some.injEq, Prod.mk.injEq] at hg
      obtain rfl := hg.2
      obtain ⟨e, he, -⟩ := hknows hlt
      rw [hload] at he
      cases he

theorem countP_key (keys : List UInt32) (key : UInt32) :
    keys.countP (· = key) = keys.count key := by
  rw [List.count]
  exact List.countP_congr fun k _ => by simp

/-- The probe of a key is right if the lookup returns and does not miss the key. -/
theorem probe_countsWhen (data : List Tuple) (hkeys : (tuples.map Tuple.key).Nodup)
    (hnode : Refines 0 node t) (hfits : Fits 4 0 t)
    (hmem : ∀ v, Mem v t ↔ v ∈ tuples.map fun s => s.key.toNat) :
    Inlj.CountsWhen (probe data node) (tuples.map Tuple.key) fun key =>
      ∃ leaf, lookup data (swapBytes key) 0 false node = .ok leaf ∧
        (key ∈ tuples.map Tuple.key → leaf = some key.toNat) := by
  intro key matches'
  have hprobe : probe data node key matches' = (lookup data (swapBytes key) 0 false node).map
      fun leaf => if leaf = some key.toNat then matches' + 1 else matches' := by
    rw [probe]
    cases lookup data (swapBytes key) 0 false node <;> rfl
  rw [countP_key]
  cases hlookup : lookup data (swapBytes key) 0 false node with
  | error fault =>
    rw [hlookup] at hprobe
    refine Inlj.Adds.fails ?_ hprobe
    rintro ⟨leaf, hok, -⟩
    rw [hlookup] at hok
    cases hok
  | ok leaf =>
    rw [hlookup] at hprobe
    by_cases hleaf : leaf = some key.toNat
    · have hin : key ∈ tuples.map Tuple.key := by
        obtain ⟨s, hs, heq⟩ := List.mem_map.mp
          ((hmem _).mp (mem_of_lookup hnode hfits (hleaf ▸ hlookup)))
        exact List.mem_map.mpr ⟨s, hs, UInt32.toNat_inj.mp heq⟩
      refine Inlj.Adds.all ⟨leaf, hlookup, fun _ => hleaf⟩ ?_
      rw [hprobe, List.count_eq_one_of_mem hkeys hin]
      exact congrArg Except.ok (if_pos hleaf)
    · have hsame : probe data node key matches' = .ok (matches' + UInt64.ofNat 0) := by
        rw [hprobe]
        simp [Except.map, hleaf]
      by_cases hin : key ∈ tuples.map Tuple.key
      · refine Inlj.Adds.less ?_ ?_ hsame
        · rintro ⟨leaf', hok, hfound⟩
          rw [hlookup, Except.ok.injEq] at hok
          exact hleaf (hok.trans (hfound hin))
        · rw [List.count_eq_one_of_mem hkeys hin]
          exact Nat.one_pos
      · refine Inlj.Adds.all ⟨leaf, hlookup, fun h => absurd h hin⟩ ?_
        rw [hsame, List.count_eq_zero_of_not_mem hin]

/-- The keys of R as the values of leaves: no two of them have the same four bytes. -/
theorem pairwise_values (hkeys : (tuples.map Tuple.key).Nodup) :
    (tuples.map fun s => s.key.toNat).Pairwise fun v w => ¬ Agree (keyOf v) (keyOf w) 0 4 := by
  have hvalues : (tuples.map fun s => s.key.toNat) = (tuples.map Tuple.key).map UInt32.toNat := by
    rw [List.map_map]; rfl
  rw [hvalues, List.pairwise_map]
  refine List.Pairwise.imp ?_ hkeys
  intro a b hne hagree
  rw [keyOf_toNat, keyOf_toNat] at hagree
  exact hne (eq_of_agree hagree)

/-- With distinct keys there is a pair for each tuple of S with a key of R. -/
theorem pairs_eq (hkeys : (tuples.map Tuple.key).Nodup) (S : List Tuple) :
    Inlj.pairs (tuples.map Tuple.key) S = S.countP fun s => s.key ∈ tuples.map Tuple.key := by
  induction S with
  | nil => exact Inlj.pairs_nil _
  | cons s S ih =>
    rw [Inlj.pairs_cons, ih, countP_key, List.countP_cons, Nat.add_comm]
    by_cases hin : s.key ∈ tuples.map Tuple.key
    · rw [List.count_eq_one_of_mem hkeys hin, if_pos (decide_eq_true hin)]
    · rw [List.count_eq_zero_of_not_mem hin, if_neg (by simpa using hin)]

end Join

theorem artJoin_of_build {R : Relation} (hlength : R.tuples.length ≤ Inlj.intMax) {node : Node}
    (hbuild : build (artData R.tuples) = .ok node) (S : Relation) :
    artJoin R S = Inlj.probeRelS (probe (artData R.tuples) node) S.tuples 0 := by
  rw [artJoin, payloadLoop_eq _ (Nat.zero_le _), if_pos (by omega), List.nil_append]
  simp only [bind, Except.bind]
  rw [hbuild]

section Counts
variable {R : Relation}

/-- Where the tree loads the bytes of its keys, the join with any S is right. -/
theorem artJoin_eq (hkeys : (R.tuples.map Tuple.key).Nodup)
    (hlength : R.tuples.length ≤ Inlj.intMax)
    (hresolves : Resolves (loadBytes R.tuples) 4 keyOf (R.tuples.map fun t => t.key.toNat))
    (S : Relation) : artJoin R S
      = .ok (UInt64.ofNat (S.tuples.countP fun s => s.key ∈ R.tuples.map Tuple.key)) := by
  obtain ⟨t, hall, ht, hfinds⟩ := hresolves.exists_insertAll (pairwise_values hkeys)
  rcases build_refines R.tuples with ⟨t', node, hall', hbuild, hnode⟩ | ⟨hnone, -⟩
  · obtain rfl := Option.some.inj (hall.symm.trans hall')
    rw [← loadBytes_artData] at hfinds
    have hcounts := probe_countsWhen (artData R.tuples) hkeys hnode ht.fits ht.mem
    have hgood : ∀ key, ∃ leaf, lookup (artData R.tuples) (swapBytes key) 0 false node = .ok leaf ∧
        (key ∈ R.tuples.map Tuple.key → leaf = some key.toNat) := by
      intro key
      obtain ⟨leaf, hlookup⟩ := exists_lookup_eq hnode ht hfinds key
      refine ⟨leaf, hlookup, fun hin => ?_⟩
      obtain ⟨s, hs, rfl⟩ := List.mem_map.mp hin
      have hfound := (lookup_eq_some_iff hnode ht.fits s.key).mpr
        (hfinds _ (List.mem_map_of_mem hs))
      exact Except.ok.inj (hlookup.symm.trans hfound)
    rw [artJoin_of_build hlength hbuild, hcounts.probeRelS_eq fun s _ => hgood s.key,
      UInt64.zero_add, pairs_eq hkeys]
  · rw [hnone] at hall
    cases hall

/-- If already the join of R with itself is right, the tree loads the bytes of its keys. -/
theorem resolves_of_artJoin_self (hkeys : (R.tuples.map Tuple.key).Nodup)
    (hself : artJoin R R
      = .ok (UInt64.ofNat (R.tuples.countP fun s => s.key ∈ R.tuples.map Tuple.key))) :
    R.tuples.length ≤ Inlj.intMax ∧
      Resolves (loadBytes R.tuples) 4 keyOf (R.tuples.map fun t => t.key.toNat) := by
  have hlength : R.tuples.length ≤ Inlj.intMax := by
    by_contra hlong
    rw [artJoin, payloadLoop_eq _ (Nat.zero_le _), if_neg (by omega)] at hself
    cases hself
  refine ⟨hlength, ?_⟩
  rcases build_refines R.tuples with ⟨t, node, hall, hbuild, hnode⟩ | ⟨-, hfault⟩
  · have hfits := fits_of_insertAll hall
    have hcounts := probe_countsWhen (artData R.tuples) hkeys hnode hfits (mem_of_insertAll hall)
    rw [artJoin_of_build hlength hbuild, ← pairs_eq hkeys] at hself
    have hsmall : Inlj.pairs (R.tuples.map Tuple.key) R.tuples < UInt64.size := by
      rw [pairs_eq hkeys]
      exact lt_of_le_of_lt List.countP_le_length (lt_trans R.fits (by decide))
    -- the count leaves no room for a probe that misses its key
    have hgood := ((hcounts.probeRelS_iff R.tuples).mp
      ⟨_, hself, UInt64.toNat_ofNat_of_lt' hsmall⟩).2
    refine (resolves_of_finds (pairwise_values hkeys) hall fun v hv => ?_).1
    obtain ⟨s, hs, rfl⟩ := List.mem_map.mp hv
    obtain ⟨leaf, hlookup, hfound⟩ := hgood s hs
    rw [hfound (List.mem_map_of_mem hs), lookup_eq_some_iff hnode hfits, loadBytes_artData]
      at hlookup
    exact hlookup
  · rw [artJoin, payloadLoop_eq _ (Nat.zero_le _), if_pos (by omega), List.nil_append] at hself
    simp only [bind, Except.bind] at hself
    rw [hfault] at hself
    cases hself

end Counts

/-- With distinct keys in R, the join counts the tuples of S with a key of R, for every S, exactly
    if the size of R is an `int` and, for each key of R as a position, the tuple there has the bytes
    that the tree loads for the key. -/
theorem artJoin_counts_iff (R : Relation) (hkeys : (R.tuples.map Tuple.key).Nodup) :
    (∀ S : Relation, artJoin R S
      = .ok (UInt64.ofNat (S.tuples.countP fun s => s.key ∈ R.tuples.map Tuple.key))) ↔
    R.tuples.length ≤ Inlj.intMax ∧
      Resolves (loadBytes R.tuples) 4 keyOf (R.tuples.map fun t => t.key.toNat) :=
  ⟨fun h => resolves_of_artJoin_self hkeys (h R),
    fun ⟨hlength, hresolves⟩ S => artJoin_eq hkeys hlength hresolves S⟩

/-- Keys that are the positions of their tuples are all right. -/
theorem resolves_of_dense {tuples : List Tuple}
    (hdense : ∀ (i : ℕ) (s : Tuple), tuples[i]? = some s → s.key.toNat = i) :
    Resolves (loadBytes tuples) 4 keyOf (tuples.map fun s => s.key.toNat) := by
  intro before v after heq _
  have hv : v ∈ tuples.map fun s => s.key.toNat := by
    rw [heq]
    exact List.mem_append_right _ List.mem_cons_self
  obtain ⟨s, hs, rfl⟩ := List.mem_map.mp hv
  obtain ⟨i, hi⟩ := List.mem_iff_getElem?.mp hs
  refine ⟨keyByte s.key, ?_, fun j _ _ => by rw [keyOf_toNat]⟩
  rw [hdense i s hi, loadBytes, hi]
  rfl

/-- The key 5 is no position of these two tuples, but its leaf is below all bytes of the key. -/
theorem artJoin_counts_iff_five :
    artJoin ⟨[⟨0, 0⟩, ⟨5, 0⟩], by decide⟩ ⟨[⟨5, 1⟩, ⟨7, 2⟩, ⟨0, 3⟩, ⟨5, 4⟩], by decide⟩ = .ok 3 := by
  refine (artJoin_counts_iff ⟨[⟨0, 0⟩, ⟨5, 0⟩], by decide⟩ (by decide)).mpr ⟨by decide, ?_⟩ _
  simp only [Resolves, List.map_cons, List.map_nil, Outcome.forall_split_cons]
  refine ⟨fun _ => ⟨_, rfl, fun i _ _ => rfl⟩, fun hlt => absurd hlt (by decide),
    Outcome.forall_split_nil⟩

/-- A single tuple with the key 7: the lookup of 7 reads the tuple at position 7. -/
theorem artJoin_out_of_bounds :
    ¬ ∀ R : Relation, (R.tuples.map Tuple.key).Nodup → ∀ S : Relation, artJoin R S
      = .ok (UInt64.ofNat (S.tuples.countP fun s => s.key ∈ R.tuples.map Tuple.key)) := by
  intro h
  have hself := h ⟨[⟨7, 0⟩], by decide⟩ (by decide) ⟨[⟨7, 0⟩], by decide⟩
  have hfault : artJoin ⟨[⟨7, 0⟩], by decide⟩ ⟨[⟨7, 0⟩], by decide⟩ = .error .outOfBounds := rfl
  rw [hfault] at hself
  cases hself

end Art
end HashingBenchmark

import HashingBenchmark.Monotone.Lookup

/-! What an iterator of the monotone table visits.

    `Visits t it l` says that reading through `it` and applying `operator++`, again and again, gives
    the pairs `l` and then an iterator equal to `end()`. What is visited is built up from the end of
    the table: from a slot on the rest of its bucket, then the rest of its chain, then the
    directory buckets behind it (`visits_bucket`, `visits_chain`, `visits_directory`). A chain
    with no pair in it is visited all the same, as one pair of the Sentinel and whatever its first
    payload is. -/

namespace HashingBenchmark
open SlotArray Chained support ChainedTable

namespace MonotoneHashtable
variable {Key Payload : Type} {BucketSize m : ℕ} [DecidableEq Key]

/-- The iterator visits the pairs `l` and then equals `end()`. -/
def Visits (Sentinel : Key) (t : MonotoneHashtable Key Payload BucketSize m) :
    Iterator → List (Key × Payload) → Prop
  | it, [] => it = Iterator.finish m
  | it, d :: l => it ≠ Iterator.finish m ∧ it.deref t = .ok d ∧
      ∃ it', it.next Sentinel t = .ok it' ∧ Visits Sentinel t it' l

variable {Sentinel : Key} {t : MonotoneHashtable Key Payload BucketSize m}

/-- An iterator visits one list only. -/
theorem Visits.unique {it : Iterator} {l l' : List (Key × Payload)} (h : Visits Sentinel t it l)
    (h' : Visits Sentinel t it l') : l = l' := by
  induction l generalizing it l' with
  | nil =>
    cases l' with
    | nil => rfl
    | cons d l' => exact absurd h h'.1
  | cons d l ih =>
    obtain ⟨hend, hd, it', hnext, hrest⟩ := h
    cases l' with
    | nil => exact absurd h' hend
    | cons d' l' =>
      obtain ⟨-, hd', it'', hnext', hrest'⟩ := h'
      obtain rfl := Except.ok.inj (hd.symm.trans hd')
      obtain rfl := Except.ok.inj (hnext.symm.trans hnext')
      rw [ih hrest hrest']

/-- Where the iterator stands when it gets to directory bucket `i`, or behind the last one. -/
def start (m i : ℕ) : Iterator := ⟨i, 0, if i < m then some (.directory i) else none⟩

/-! ### Within a chain -/

omit [DecidableEq Key] in
/-- Leaving the last bucket of a chain. -/
theorem leave_eq_start {b : Bucket Key Payload BucketSize} (hnext : b.nextPtr = none) (i : ℕ) :
    Iterator.leave m i b = start m (i + 1) := by
  rw [Iterator.leave, hnext, start]
  split_ifs
  · rfl
  · rfl

omit [DecidableEq Key] in
theorem deref_eq {p : Ptr} {b : Bucket Key Payload BucketSize} (hload : t.load p = some b) (i : ℕ)
    (j : Fin BucketSize) :
    (⟨i, j, some p⟩ : Iterator).deref t = .ok (b.keys j, b.payloads j) := by
  rw [Iterator.deref, Iterator.slot]
  simp only [Option.bind_some, hload, dif_pos j.isLt]
  rfl

theorem next_eq {p : Ptr} {b : Bucket Key Payload BucketSize} (hload : t.load p = some b)
    (i j : ℕ) : (⟨i, j, some p⟩ : Iterator).next Sentinel t = .ok
      (if Iterator.exhausted Sentinel b (j + 1) then Iterator.leave m i b
        else ⟨i, j + 1, some p⟩) := by
  rw [Iterator.next]
  simp only [Option.bind_some, hload]
  split_ifs
  · rfl
  · rfl

/-- A bucket is exhausted behind its pairs. -/
theorem exhausted_iff {b : Bucket Key Payload BucketSize} (h : FilledPrefix Sentinel b.keys)
    {j : ℕ} : Iterator.exhausted Sentinel b j = true ↔ (b.entries Sentinel).length ≤ j := by
  rw [Iterator.exhausted, Bucket.entries, length_entries b.payloads h]
  split_ifs with hj
  · rw [decide_eq_true_eq, ← not_lt]
    exact iff_not_comm.mp ((ne_iff_lt_occupied h ⟨j, hj⟩).symm.trans Iff.rfl)
  · have := occupied_le Sentinel b.keys
    exact iff_of_true rfl (by omega)

/-- A slot in use is visited, and then what the step from it leads to. -/
theorem visits_slot {p : Ptr} {b : Bucket Key Payload BucketSize} (hload : t.load p = some b)
    (h : FilledPrefix Sentinel b.keys) {i j : ℕ} (hj : j < (b.entries Sentinel).length)
    {rest : List (Key × Payload)} (hrest : Visits Sentinel t
      (if Iterator.exhausted Sentinel b (j + 1) then Iterator.leave m i b else ⟨i, j + 1, some p⟩)
      ((b.entries Sentinel).drop (j + 1) ++ rest)) :
    Visits Sentinel t ⟨i, j, some p⟩ ((b.entries Sentinel).drop j ++ rest) := by
  have hlt : j < BucketSize := hj.trans_le (Bucket.length_entries_le h)
  have hocc : b.keys ⟨j, hlt⟩ ≠ Sentinel := by
    rw [Bucket.entries, length_entries b.payloads h] at hj
    exact (ne_iff_lt_occupied h ⟨j, hlt⟩).mpr hj
  have hdrop : (b.entries Sentinel).drop j
      = (b.keys ⟨j, hlt⟩, b.payloads ⟨j, hlt⟩) :: (b.entries Sentinel).drop (j + 1) :=
    drop_entries h hocc
  rw [hdrop, List.cons_append]
  refine ⟨fun heq => ?_, deref_eq hload i ⟨j, hlt⟩, _, next_eq hload i j, hrest⟩
  cases congrArg Iterator.current_bucket heq

/-- From a slot in use on: the rest of the bucket, and what is visited after leaving it. -/
theorem visits_bucket {p : Ptr} {b : Bucket Key Payload BucketSize} (hload : t.load p = some b)
    (h : FilledPrefix Sentinel b.keys) {i j : ℕ} (hj : j < (b.entries Sentinel).length)
    {rest : List (Key × Payload)} (hrest : Visits Sentinel t (Iterator.leave m i b) rest) :
    Visits Sentinel t ⟨i, j, some p⟩ ((b.entries Sentinel).drop j ++ rest) := by
  -- on the number of slots in use behind this one
  induction hn : (b.entries Sentinel).length - (j + 1) generalizing j with
  | zero =>
    have hle : (b.entries Sentinel).length ≤ j + 1 := by omega
    apply visits_slot hload h hj
    rw [if_pos ((exhausted_iff h).mpr hle), List.drop_eq_nil_of_le hle, List.nil_append]
    exact hrest
  | succ n ih =>
    have hlt : j + 1 < (b.entries Sentinel).length := by omega
    apply visits_slot hload h hj
    rw [if_neg fun hex => hlt.not_ge ((exhausted_iff h).mp hex)]
    exact ih hlt (by omega)

/-- From slot `j` of a bucket on: the rest of the bucket, the rest of its chain, and what is visited
    from the next directory bucket on. -/
theorem visits_chain {i j : ℕ} {x : Ptr × Bucket Key Payload BucketSize}
    {l : List (Ptr × Bucket Key Payload BucketSize)}
    (hlinked : Linked t.load Bucket.nextPtr (some x.1) (x :: l))
    (hprefixes : ∀ y ∈ x :: l, FilledPrefix Sentinel y.2.keys)
    (hnonempty : ∀ y ∈ l, y.2.entries Sentinel ≠ []) (hj : j < (x.2.entries Sentinel).length)
    {rest : List (Key × Payload)} (hrest : Visits Sentinel t (start m (i + 1)) rest) :
    Visits Sentinel t ⟨i, j, some x.1⟩
      ((x.2.entries Sentinel).drop j ++ (pairs Sentinel l ++ rest)) := by
  induction l generalizing x j with
  | nil =>
    apply visits_bucket hlinked.2.1 (hprefixes x List.mem_cons_self) hj
    rw [leave_eq_start hlinked.2.2]
    exact hrest
  | cons y l ih =>
    apply visits_bucket hlinked.2.1 (hprefixes x List.mem_cons_self) hj
    have hnext : x.2.nextPtr = some y.1 := hlinked.2.2.1
    have hy : 0 < (y.2.entries Sentinel).length :=
      List.length_pos_of_ne_nil (hnonempty y List.mem_cons_self)
    rw [Iterator.leave, hnext]
    have hvisits := ih ⟨rfl, hlinked.2.2.2.1, hlinked.2.2.2.2⟩
      (fun z hz => hprefixes z (List.mem_cons_of_mem _ hz))
      (fun z hz => hnonempty z (List.mem_cons_of_mem _ hz)) hy
    rwa [List.drop_zero, ← List.append_assoc] at hvisits

/-! ### Over the directory -/

section
variable [NeZero BucketSize]

/-- What an iterator sees of a chain that it gets to from the directory: the pairs of the chain, or
    its first slot if there are none. -/
def visited (Sentinel : Key) (l : List (Ptr × Bucket Key Payload BucketSize)) :
    List (Key × Payload) :=
  if (pairs Sentinel l).isEmpty then (l.take 1).map fun x => (x.2.keys 0, x.2.payloads 0)
  else pairs Sentinel l

theorem visited_of_ne_nil {l : List (Ptr × Bucket Key Payload BucketSize)}
    (h : pairs Sentinel l ≠ []) : visited Sentinel l = pairs Sentinel l := by
  rw [visited, if_neg (by rwa [List.isEmpty_iff])]

/-- A bucket with a free first slot is visited there and then left. -/
theorem visits_empty {p : Ptr} {b : Bucket Key Payload BucketSize} (hload : t.load p = some b)
    (h : FilledPrefix Sentinel b.keys) (hnil : b.entries Sentinel = []) {i : ℕ}
    {rest : List (Key × Payload)} (hrest : Visits Sentinel t (Iterator.leave m i b) rest) :
    Visits Sentinel t ⟨i, 0, some p⟩ ((b.keys 0, b.payloads 0) :: rest) := by
  refine ⟨fun heq => ?_, deref_eq hload i 0, _, next_eq hload i 0, ?_⟩
  · cases congrArg Iterator.current_bucket heq
  · rw [if_pos ((exhausted_iff h).mpr (by simp [hnil]))]
    exact hrest

variable [Inhabited Payload] {sizeofBucket : ℕ} {index : Key → ℕ}
  {chain : ℕ → List (Ptr × Bucket Key Payload BucketSize)} {data : List (Key × Payload)}

omit [NeZero BucketSize] in
/-- A chain starts with its directory bucket. -/
theorem exists_head (h : Built Sentinel sizeofBucket index chain data t) {i : ℕ} (hi : i < m) :
    ∃ b l, chain i = (.directory i, b) :: l := by
  have hlinked := h.linked i hi
  cases hl : chain i with
  | nil => rw [hl] at hlinked; cases hlinked
  | cons x l =>
    rw [hl] at hlinked
    have hx : Ptr.directory i = x.1 := Option.some.inj hlinked.1
    exact ⟨x.2, l, by rw [hx]⟩

/-- Of a chain without a pair an iterator sees a Sentinel. -/
theorem visited_of_nil (h : Built Sentinel sizeofBucket index chain data t) {i : ℕ} (hi : i < m)
    (hnil : pairs Sentinel (chain i) = []) :
    ∃ payload, visited Sentinel (chain i) = [(Sentinel, payload)] := by
  obtain ⟨b, l, hl⟩ := exists_head h hi
  have hb : b.entries Sentinel = [] := by
    rw [hl, pairs, List.flatMap_cons] at hnil
    exact (List.append_eq_nil_iff.mp hnil).1
  have hprefix : FilledPrefix Sentinel b.keys := h.prefixes i hi (.directory i, b) (by simp [hl])
  have hocc : occupied Sentinel b.keys = 0 := by
    rw [← length_entries b.payloads hprefix]
    exact congrArg List.length hb
  refine ⟨b.payloads 0, ?_⟩
  rw [visited, if_pos (List.isEmpty_iff.mpr hnil), hl, ← occupied_eq_zero_iff.mp hocc 0]
  rfl

/-- From directory bucket `i` on: all of its chain, and what is visited from the next directory
    bucket on. -/
theorem visits_directory (h : Built Sentinel sizeofBucket index chain data t) {i : ℕ} (hi : i < m)
    {rest : List (Key × Payload)} (hrest : Visits Sentinel t (start m (i + 1)) rest) :
    Visits Sentinel t (start m i) (visited Sentinel (chain i) ++ rest) := by
  obtain ⟨b, l, hl⟩ := exists_head h hi
  have hlinked := h.linked i hi
  have hprefixes := h.prefixes i hi
  have hnonempty := h.nonempty i hi
  rw [hl] at hlinked hprefixes hnonempty
  rw [hl, start, if_pos hi]
  have hcons : pairs Sentinel ((.directory i, b) :: l) = b.entries Sentinel ++ pairs Sentinel l :=
    List.flatMap_cons
  by_cases hnil : b.entries Sentinel = []
  · cases l with
    | nil =>
      rw [visited, if_pos (by rw [hcons, hnil]; rfl)]
      apply visits_empty hlinked.2.1 (hprefixes _ List.mem_cons_self) hnil
      rwa [leave_eq_start hlinked.2.2]
    | cons y l =>
      -- with a bucket behind it the directory bucket is full
      have hfull : Full Sentinel b.keys := h.full i hi (.directory i, b) (by simp [hl])
      have hlen := (Bucket.full_iff (hprefixes _ List.mem_cons_self)).mp hfull
      rw [hnil] at hlen
      exact absurd hlen.symm (NeZero.ne BucketSize)
  · have hpos := List.length_pos_of_ne_nil hnil
    have hvisits := visits_chain hlinked hprefixes hnonempty hpos hrest
    rw [visited_of_ne_nil (by simp [hcons, hnil]), hcons, List.append_assoc]
    rwa [List.drop_zero] at hvisits

/-- From directory bucket `i` on to the end of the table. -/
theorem visits_start (h : Built Sentinel sizeofBucket index chain data t) {n i : ℕ}
    (hn : i + n = m) : Visits Sentinel t (start m i)
      ((List.range' i n).flatMap fun k => visited Sentinel (chain k)) := by
  induction n generalizing i with
  | zero =>
    obtain rfl : i = m := hn
    rw [List.range'_zero, List.flatMap_nil, Visits, start, if_neg (lt_irrefl i)]
    rfl
  | succ n ih =>
    rw [List.range'_succ, List.flatMap_cons]
    exact visits_directory h (by omega) (ih (by omega))

end

/-! ### From a stored key on -/

/-- From the iterator of a stored key on: the pairs from the key's slot to the end of its chain, and
    what is visited from the next directory bucket on. -/
theorem visits_operatorSubscript [NeZero BucketSize] [Inhabited Payload] {sizeofBucket : ℕ}
    {model : Model Key} {chain : ℕ → List (Ptr × Bucket Key Payload BucketSize)}
    {data : List (Key × Payload)} {ManualPrefetch : Bool}
    (h : Built Sentinel sizeofBucket (fun key => (model key).toNat) chain data t) {key : Key}
    (hi : (model key).toNat < m) (hkey : key ≠ Sentinel) (hmem : key ∈ data.map Prod.fst) :
    ∃ it before payload rest, operatorSubscript Sentinel ManualPrefetch model t key = .ok it ∧
      (data.filter fun d => (model d.1).toNat = (model key).toNat)
        = before ++ (key, payload) :: rest ∧
      Visits Sentinel t it ((key, payload) :: rest ++
        (List.range' ((model key).toNat + 1) (m - ((model key).toNat + 1))).flatMap fun k =>
          visited Sentinel (chain k)) := by
  have hlinked := h.linked _ hi
  have hprefixes := h.prefixes _ hi
  have hnonempty := h.nonempty _ hi
  obtain ⟨s, x, r, j, hl, hj, heq⟩ := operatorSubscript_stored h hi hkey hmem
  have hx : FilledPrefix Sentinel x.2.keys := hprefixes x (by simp [hl])
  have hocc : x.2.keys j ≠ Sentinel := by rwa [hj]
  have hdrop : (x.2.entries Sentinel).drop j
      = (key, x.2.payloads j) :: (x.2.entries Sentinel).drop (j + 1) := by
    rw [← hj]; exact drop_entries hx hocc
  have hlt : j.val < (x.2.entries Sentinel).length := by
    rw [Bucket.entries, length_entries x.2.payloads hx]; exact (ne_iff_lt_occupied hx j).mp hocc
  refine ⟨_, pairs Sentinel s ++ (x.2.entries Sentinel).take j, x.2.payloads j,
    (x.2.entries Sentinel).drop (j + 1) ++ pairs Sentinel r, heq, ?_, ?_⟩
  · rw [← h.holds _ hi, hl, pairs, List.flatMap_append, List.flatMap_cons, List.append_assoc,
      ← List.cons_append, ← hdrop, ← List.append_assoc ((x.2.entries Sentinel).take j),
      List.take_append_drop]
    rfl
  · rw [hl] at hlinked hprefixes hnonempty
    have hrest := visits_start h (n := m - ((model key).toNat + 1))
      (i := (model key).toNat + 1) (by omega)
    have hvisits := visits_chain hlinked.suffix
      (fun y hy => hprefixes y (List.mem_append_right _ hy)) (fun y hy => hnonempty y ?_) hlt hrest
    · rwa [hdrop, ← List.append_assoc, List.cons_append] at hvisits
    · cases s with
      | nil => exact hy
      | cons z s => exact List.mem_append_right _ (List.mem_cons_of_mem _ hy)

end MonotoneHashtable
end HashingBenchmark

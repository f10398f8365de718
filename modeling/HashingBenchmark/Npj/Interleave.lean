import HashingBenchmark.Lib.Interleaving
import HashingBenchmark.Npj.Build

/-! The build stores every tuple once, under any interleaving.

    Every critical section returns and inserts its tuple (`Holds.insert`), so after any schedule the
    chains hold the interleaving of the slices that the schedule describes (`holds_of_build`). With
    all tuples inserted, that is the relation in some order, and the layout of a chain has the tuples
    of its index in its first `count` slots. -/

namespace HashingBenchmark
namespace Npj
namespace State
open ChunkList

variable {α : Type} {BUCKET_SIZE T m : ℕ} [NeZero BUCKET_SIZE] {OVERFLOW_BUF_SIZE : ℕ}
  {index : α → Fin m} {slices : Fin T → List α}

/-- One turn of a thread that is not done. -/
theorem step_spec (hsize : 0 < OVERFLOW_BUF_SIZE) {zero : α}
    {chain : Fin m → List (Ptr T m × Bucket α BUCKET_SIZE T m)} {log : List α}
    {s : State α BUCKET_SIZE T m} (h : Holds OVERFLOW_BUF_SIZE zero index chain log s) {tid : Fin T}
    (hpos : s.pos tid < (slices tid).length) :
    ∃ s', step OVERFLOW_BUF_SIZE index slices tid s = .returned s' ∧
      s'.pos = Function.update s.pos tid (s.pos tid + 1) ∧
      ∃ chain', Holds OVERFLOW_BUF_SIZE zero index chain'
        (log ++ ((slices tid)[s.pos tid]?).toList) s' := by
  obtain ⟨s', hinsert, hsame, chain', hholds⟩ := h.insert hsize tid (slices tid)[s.pos tid]
  refine ⟨{ s' with pos := Function.update s'.pos tid (s'.pos tid + 1) }, ?_, by rw [hsame], chain', ?_⟩
  · rw [step, List.getElem?_eq_getElem hpos]
    simp only [hinsert, Outcome.andThen_returned]
  · rw [List.getElem?_eq_getElem hpos]
    -- the loop variable is no part of the table
    exact ⟨hholds.linked, hholds.disjoint, fun i p hp => by
      have := hholds.handed i p hp
      cases p <;> exact this, hholds.count_le, hholds.zeroed, hholds.holds⟩

/-- Run lemma: after any schedule the table holds what the threads have inserted. -/
theorem holds_of_build (hsize : 0 < OVERFLOW_BUF_SIZE) (zero : α)
    (malloc : Ptr T m → Bucket α BUCKET_SIZE T m) (index : α → Fin m) {schedule : List (Fin T)}
    (hturns : ∀ tid, schedule.count tid ≤ (slices tid).length) :
    ∃ s, build OVERFLOW_BUF_SIZE index slices schedule (init zero malloc) = .returned s ∧
      ∃ chain, Holds OVERFLOW_BUF_SIZE zero index chain
        (Interleaving.merge slices schedule fun _ => 0) s := by
  let inv (done : List (Fin T)) (s : State α BUCKET_SIZE T m) : Prop :=
    (∀ tid, s.pos tid = done.count tid) ∧ ∃ chain,
      Holds OVERFLOW_BUF_SIZE zero index chain (Interleaving.merge slices done fun _ => 0) s
  have hstep : ∀ done tid s, done ++ [tid] <+: schedule → inv done s →
      ∃ s', step OVERFLOW_BUF_SIZE index slices tid s = .returned s' ∧ inv (done ++ [tid]) s' := by
    rintro done tid s ⟨rest, rfl⟩ ⟨hpos, chain, hholds⟩
    have hlt : s.pos tid < (slices tid).length := by
      have := hturns tid
      rw [hpos tid]
      simp only [List.count_append, List.count_singleton_self] at this; omega
    obtain ⟨s', hstep, hpos', chain', hholds'⟩ := step_spec hsize hholds hlt
    refine ⟨s', hstep, fun t => ?_, chain', ?_⟩
    · rw [hpos', List.count_append, List.count_singleton, Function.update_apply, hpos, hpos]
      rcases eq_or_ne t tid with rfl | hne
      · simp
      · simp [hne, hne.symm]
    · rw [Interleaving.merge_snoc, Nat.zero_add, ← hpos tid]
      exact hholds'
  obtain ⟨s, hrun, -, hholds⟩ := Outcome.runAll_returns
    (show inv [] (init zero malloc) from ⟨fun _ => rfl, _, holds_init index zero malloc⟩) hstep
  exact ⟨s, hrun, hholds⟩

/-- CORRECT: after any interleaving of all critical sections every chain is finite and without a
    cycle, no overflow bucket is in two chains, no bucket has more than `BUCKET_SIZE` tuples, and
    chain `i` stores the tuples of the relation with index `i`, each as often as it occurs there. -/
theorem latched_build_stores_every_tuple_once [NeZero OVERFLOW_BUF_SIZE] (index : α → Fin m)
    (slices : Fin T → List α) (zero : α) (malloc : Ptr T m → Bucket α BUCKET_SIZE T m)
    (schedule : List (Fin T)) (hall : ∀ tid, schedule.count tid = (slices tid).length) :
    ∃ s, build OVERFLOW_BUF_SIZE index slices schedule (init zero malloc) = .returned s ∧
    ∃ chain : Fin m → List (Ptr T m × Bucket α BUCKET_SIZE T m),
      (∀ i, Linked (s.load OVERFLOW_BUF_SIZE) Bucket.next (some (.directory i)) (chain i)) ∧
      (∀ i, (Linked.addresses (chain i)).Nodup) ∧
      (∀ i j p, p ∈ Linked.addresses (chain i) → p ∈ Linked.addresses (chain j) → i = j) ∧
      (∀ i, ∀ x ∈ chain i, x.2.count ≤ BUCKET_SIZE) ∧
      ∀ i, ((chain i).flatMap fun x => x.2.stored).Perm
        (((List.finRange T).flatMap slices).filter fun a => index a = i) := by
  obtain ⟨s, hrun, chain, hholds⟩ := holds_of_build (NeZero.pos OVERFLOW_BUF_SIZE) zero malloc index
    fun tid => (hall tid).le
  refine ⟨s, hrun, chain, hholds.linked, fun i => (hholds.linked i).nodup, hholds.disjoint,
    hholds.count_le, fun i => ?_⟩
  have hlayout := layout_perm BUCKET_SIZE
    ((Interleaving.merge slices schedule fun _ => 0).filter fun a => index a = i)
  rw [← hholds.holds i, ← List.flatMap_def] at hlayout
  exact hlayout.trans ((Interleaving.merge_perm slices hall).filter _)

/-- Two threads with full buckets and buffers of one bucket. -/
theorem latched_build_stores_every_tuple_once_two_threads :
    let slices : Fin 2 → List ℕ := ![[7, 8, 9], [5, 7]]
    let schedule : List (Fin 2) := [0, 1, 0, 1, 0]
    let malloc : Ptr 2 1 → Bucket ℕ 1 2 1 := fun _ => ⟨9, none, fun _ => 3⟩
    ∃ s, build 1 (fun _ => 0) slices schedule (init 0 malloc) = .returned s ∧
    ∃ chain : Fin 1 → List (Ptr 2 1 × Bucket ℕ 1 2 1),
      (∀ i, Linked (s.load 1) Bucket.next (some (.directory i)) (chain i)) ∧
      (∀ i, (Linked.addresses (chain i)).Nodup) ∧
      (∀ i j p, p ∈ Linked.addresses (chain i) → p ∈ Linked.addresses (chain j) → i = j) ∧
      (∀ i, ∀ x ∈ chain i, x.2.count ≤ 1) ∧
      ∀ i, ((chain i).flatMap fun x => x.2.stored).Perm
        (((List.finRange 2).flatMap slices).filter fun _ => 0 = i) :=
  latched_build_stores_every_tuple_once _ _ _ _ _ (by decide)

end State
end Npj
end HashingBenchmark

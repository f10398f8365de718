import HashingBenchmark.Lib.Phased
import Mathlib.Data.Fintype.Card
import Mathlib.Data.Fintype.Fin
import Mathlib.Data.Stream.Defs

/-! The barriers of `barrier.h`.

    Where the library has one, `BARRIER_ARRIVE` is `pthread_barrier_wait`: the last thread to arrive
    ends the round, and a thread returns when its round has ended (`pthreadBarrier`). `config.h` says
    so; elsewhere it is `barrier_wait`, which counts the calls under a mutex and waits for a broadcast
    of the last one (`barrier`). Every turn is one access to `called`, one operation on the mutex or
    one on the condition. A thread that sleeps on the condition may also wake up without a broadcast,
    and `barrier_wait` does not look whether its round has ended then. -/

namespace HashingBenchmark
namespace Npj

/-! ### `pthread_barrier_wait` -/

/-- The arrivals in the round that is going on, the number of rounds that have ended, and the round
    each thread has arrived in last. -/
structure PthreadBarrier (T : ℕ) where
  count : ℕ
  generation : ℕ
  round : Fin T → ℕ

def pthreadBarrier (T : ℕ) : Phased.Barrier (Fin T) (PthreadBarrier T) where
  init := ⟨0, 0, fun _ => 0⟩
  arrive t x :=
    let round := Function.update x.round t x.generation
    if x.count + 1 = T then ⟨0, x.generation + 1, round⟩ else ⟨x.count + 1, x.generation, round⟩
  turn t x := (x, x.round t ≠ x.generation)

/-! ### `barrier_wait` -/

namespace BarrierT

/-- Where a thread is in `barrier_wait`. -/
inductive Pc where
  | outside
  | lock
  | inc
  | test
  | reset
  | broadcast
  | wait
  | asleep
  | relock
  | unlock
  deriving DecidableEq

end BarrierT

/-- `barrier_t`, and where the threads are; `spurious` says for the turns of sleeping threads to come
    whether they wake up without a broadcast. -/
structure BarrierT (T : ℕ) where
  needed : ℕ
  called : ℕ
  mutex : Option (Fin T)
  pc : Fin T → BarrierT.Pc
  spurious : Stream' Bool

namespace BarrierT
variable {T : ℕ}

/-- `barrier_init`. -/
def init (needed : ℕ) (spurious : Stream' Bool) : BarrierT T :=
  ⟨needed, 0, none, fun _ => .outside, spurious⟩

def goto (t : Fin T) (pc : Pc) (b : BarrierT T) : BarrierT T :=
  { b with pc := Function.update b.pc t pc }

/-- `pthread_cond_broadcast`: the sleeping threads go on to take the mutex again. -/
def broadcast (b : BarrierT T) : BarrierT T :=
  { b with pc := fun t => if b.pc t = .asleep then .relock else b.pc t }

/-- One step of `barrier_wait` in a thread, and whether it returns. -/
def step (t : Fin T) (b : BarrierT T) : BarrierT T × Bool :=
  match b.pc t with
  | .outside => (b, false)
  | .lock => (if b.mutex = none then { b with mutex := some t }.goto t .inc else b, false)
  | .inc => ({ b with called := b.called + 1 }.goto t .test, false)
  | .test => (b.goto t (if b.called = b.needed then .reset else .wait), false)
  | .reset => ({ b with called := 0 }.goto t .broadcast, false)
  | .broadcast => (b.broadcast.goto t .unlock, false)
  | .wait => ({ b with mutex := none }.goto t .asleep, false)
  | .asleep =>
    ({ b with spurious := b.spurious.tail }.goto t (if b.spurious.head then .relock else .asleep),
      false)
  | .relock => (if b.mutex = none then { b with mutex := some t }.goto t .unlock else b, false)
  | .unlock => ({ b with mutex := none }.goto t .outside, true)

/-- `barrier_wait` for `needed` threads. -/
def barrier (T needed : ℕ) (spurious : Stream' Bool) : Phased.Barrier (Fin T) (BarrierT T) where
  init := init needed spurious
  arrive t b := b.goto t .lock
  turn := step

end BarrierT
end Npj
end HashingBenchmark

import Lps.Linux.Queue
import Lps.Linux.RingQueue
import Lps.Transition.Run
import Mathlib.Algebra.BigOperators.Group.Finset.Basic

/-!
# The multi-core scheduler

Each worker runs `mcsched_loop`: it takes work from its own ring, then from the
global ring, then from the rings of the other workers.  A step of the system is
one ring operation of one worker, so that the workers interleave between any two
of them; `lps_thread_run` is one step that ends with the state the thread is in
when it comes back.
-/

namespace Lps.Linux

open Finset Lps.Transition

def MAX_CORES : Nat := 16

def QUEUESIZE : Nat := 1024

/-- Where a worker is in `mcsched_loop`, with the locals that are live there. -/
inductive Worker
  /-- About to pop from its own ring. -/
  | popLocal
  /-- About to read the counter of the global ring. -/
  | countGlobal
  /-- About to pop from the global ring, whose counter it has read as `count`. -/
  | popGlobal (count : Nat)
  /-- About to push the batch in `buf` to its own ring. -/
  | pushLocal (buf : List Tid)
  /-- About to pop from its own ring after the push. -/
  | popTaken
  /-- At the head of the stealing loop. -/
  | steal (i : Nat) (e : Option Tid)
  /-- Inside `lps_thread_run`. -/
  | run (t : Tid)
  /-- About to push a thread that is still runnable to its own ring. -/
  | pushBack (t : Tid)
  /-- Past the `break`. -/
  | left
  deriving DecidableEq

/-- The threads in the hands of a worker: the batch, the stolen thread, or the
thread it runs. -/
def Worker.holds : Worker → List Tid
  | .pushLocal buf => buf
  | .steal _ e => e.toList
  | .run t => [t]
  | .pushBack t => [t]
  | _ => []

/-- The globals of the multi-core scheduler and its workers. -/
structure MCSched where
  ncore : Nat
  grunq : RingQueue Tid
  runq : Nat → RingQueue Tid
  workers : Nat → Worker
  state : Tid → LPSThreadState

namespace MCSched

/-- Replace the ring of core `i`. -/
def setRunq (s : MCSched) (i : Nat) (q : RingQueue Tid) : MCSched :=
  { s with runq := Function.update s.runq i q }

/-- Move worker `w`. -/
def setWorker (s : MCSched) (w : Nat) (worker : Worker) : MCSched :=
  { s with workers := Function.update s.workers w worker }

/-- Record the state of thread `t`. -/
def setState (s : MCSched) (t : Tid) (state : LPSThreadState) : MCSched :=
  { s with state := Function.update s.state t state }

end MCSched

/-- `mcsched_init`, with the workers at the start of their loop. -/
def mcschedInit (ncore : Nat) : MCSched where
  ncore := if 0 < ncore ∧ ncore ≤ MAX_CORES then ncore else 2
  grunq := ringCreate 0 QUEUESIZE
  runq := fun _ => ringCreate 0 QUEUESIZE
  workers := fun _ => .popLocal
  state := fun _ => .runnable

/-- `mcsched_add`. -/
def mcschedAdd (s : MCSched) (t : Tid) : Bool × MCSched :=
  let (pushed, q) := ringPushOne s.grunq t
  (pushed, { s with grunq := q })

/-- Add threads one after the other; returns those that were accepted. -/
def mcschedAddAll (s : MCSched) : List Tid → List Tid × MCSched
  | [] => ([], s)
  | t :: rest =>
      let (pushed, s) := mcschedAdd s t
      let (added, s) := mcschedAddAll s rest
      (if pushed then t :: added else added, s)

/-- What happens next: worker `w` does its next ring operation, or the thread it
runs comes back. -/
inductive MCEvent
  | step (w : Nat)
  | ran (w : Nat) (state : LPSThreadState)
  deriving DecidableEq

namespace MCSched

/-- Go on with a popped thread, or elsewhere when there is none. -/
def runOr (otherwise : Worker) : Option Tid → Worker
  | some t => .run t
  | none => otherwise

/-- The next ring operation of worker `w`. -/
def workerStep (s : MCSched) (w : Nat) : Option MCSched :=
  match s.workers w with
  | .popLocal =>
      let (e, q) := ringPopOne (s.runq w)
      some ((s.setRunq w q).setWorker w (runOr .countGlobal e))
  | .countGlobal => some (s.setWorker w (.popGlobal s.grunq.count))
  | .popGlobal count =>
      let (buf, q) := ringPop s.grunq (count / s.ncore + 1)
      let s := { s with grunq := q }
      some (s.setWorker w (if buf = [] then .steal 0 none else .pushLocal buf))
  | .pushLocal buf =>
      let (pushed, q) := ringPush (s.runq w) buf
      -- The assertion that everything has been pushed.
      if pushed = buf.length then some ((s.setRunq w q).setWorker w .popTaken) else none
  | .popTaken =>
      let (e, q) := ringPopOne (s.runq w)
      some ((s.setRunq w q).setWorker w (runOr .left e))
  | .steal i e =>
      if i < s.ncore then
        if i = w then some (s.setWorker w (.steal (i + 1) e))
        else
          -- The result replaces `e`, whatever it was; there is no `break`.
          let (e, q) := ringPopBack (s.runq i)
          some ((s.setRunq i q).setWorker w (.steal (i + 1) e))
      else some (s.setWorker w (runOr .left e))
  | .run _ => none
  | .pushBack t =>
      let (_, q) := ringPushOne (s.runq w) t
      some ((s.setRunq w q).setWorker w .popLocal)
  | .left => none

/-- `lps_thread_run` of worker `w` comes back with the thread in `state`. -/
def ran (s : MCSched) (w : Nat) (state : LPSThreadState) : Option MCSched :=
  match s.workers w with
  | .run t =>
      let worker := if state = .runnable then .pushBack t else .popLocal
      some ((s.setState t state).setWorker w worker)
  | _ => none

/-- One step of the multi-core system. -/
def step : Step MCSched MCEvent Empty := fun s event =>
  match event with
  | .step w => if w < s.ncore then (s.workerStep w).map fun s => (s, []) else none
  | .ran w state => if w < s.ncore then (s.ran w state).map fun s => (s, []) else none

/-- In how many places thread `t` is: in the global ring, in the ring of a core,
or in the hands of a worker. -/
def places (s : MCSched) (t : Tid) : Nat :=
  s.grunq.contents.count t +
    ∑ w ∈ range s.ncore, (s.runq w).contents.count t +
    ∑ w ∈ range s.ncore, (s.workers w).holds.count t

end MCSched

end Lps.Linux

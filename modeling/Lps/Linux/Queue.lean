/-!
# Threads, wait queues and the run queue

`struct Queue` links the `elem` fields of threads in the order in which they
were enqueued.  The model keeps the linked threads themselves, first to leave
in front.
-/

namespace Lps.Linux

/-- A `struct LPSThread *`. -/
abbrev Tid := Nat

/-- `enum LPSThreadState`. -/
inductive LPSThreadState
  | runnable
  | blocked
  | exited
  deriving DecidableEq

/-- The threads linked in a `struct Queue`, from `dummy.next` to `tail`. -/
abbrev Queue := List Tid

/-- `queue_enqueue`: link the element behind the tail. -/
def queueEnqueue (q : Queue) (t : Tid) : Queue := q ++ [t]

/-- `queue_dequeue`: unlink the element after the dummy head; `none` is the
null pointer of an empty queue. -/
def queueDequeue : Queue → Option (Tid × Queue)
  | [] => none
  | t :: rest => some (t, rest)

theorem queueDequeue_eq_some_iff {q rest : Queue} {t : Tid} :
    queueDequeue q = some (t, rest) ↔ q = t :: rest := by
  cases q <;> simp [queueDequeue]

@[simp]
theorem mem_queueEnqueue {q : Queue} {t u : Tid} : u ∈ queueEnqueue q t ↔ u ∈ q ∨ u = t := by
  simp [queueEnqueue]

end Lps.Linux

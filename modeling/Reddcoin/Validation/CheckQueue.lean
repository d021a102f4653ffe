import Mathlib.Data.Fintype.Option
import Reddcoin.Lib.Pool

/-!
# The queue of script checks

`CCheckQueue` of `checkqueue.h`: worker threads and one master take batches of checks from a common stack.  A step of
the model is one section under the mutex, entered by a thread that runs or that has been woken; in between a thread only
evaluates its own batch.  A notification, wanted or spurious, turns a waiting thread into a woken one that has yet to get
the mutex back.
-/

namespace Reddcoin
namespace CheckQueue

open Function (update)

/-- A check, with its number among those added since the last `Wait`. -/
abbrev Job (T : Type) := T × Nat

/-- The members of `CCheckQueue`; `fQuit` is never set.  The queue has its last element first. -/
structure CCheckQueue (T : Type) where
  queue : List (Job T)
  nIdle : Int
  nTotal : Int
  fAllOk : Bool
  nTodo : UInt32
  nBatchSize : UInt32

/-- Where a thread is. -/
inductive Phase (T : Type) where
  /-- Not in `Loop`: a master outside of `Wait`. -/
  | absent
  /-- Without the mutex, with a batch to evaluate.  The batch is empty before the first section. -/
  | outside (vChecks : List (Job T)) (fOk : Bool)
  /-- Holding the mutex, at the head of the inner loop. -/
  | inside
  /-- In `cond.wait`. -/
  | waiting
  /-- Notified, and without the mutex. -/
  | woken

/-- The master and the workers. -/
abbrev Thread (nWorkers : Nat) := Option (Fin nWorkers)

/-- The queue and its threads.  The checks added since the last `Wait`, and which thread has taken which, are recorded
beside. -/
structure State (T : Type) (nWorkers : Nat) where
  pqueue : CCheckQueue T
  phase : Thread nWorkers → Phase T
  added : List (Job T)
  taken : List (Thread nWorkers × Job T)

section

variable {T : Type} {nWorkers : Nat}

/-- The evaluation of a batch. -/
def execute (fCheck : T → Bool) (vChecks : List (Job T)) (fOk : Bool) : Bool :=
  vChecks.foldl (fun fOk check => if fOk then fCheck check.1 else fOk) fOk

/-- The clean-up of the previous turn. -/
def CCheckQueue.cleanUp (q : CCheckQueue T) (vChecks : List (Job T)) (fOk : Bool) : CCheckQueue T :=
  if vChecks = [] then { q with nTotal := q.nTotal + 1 }
  else { q with fAllOk := q.fAllOk && fOk, nTodo := q.nTodo - UInt32.ofNat vChecks.length }

/-- How many checks the next batch has. -/
def CCheckQueue.nNow (q : CCheckQueue T) : Nat :=
  max 1 (min q.nBatchSize.toNat (UInt32.ofNat q.queue.length / UInt32.ofInt (q.nTotal + q.nIdle + 1)).toNat)

/-- `notify_one` on the condition of the master. -/
def notifyMaster (phase : Thread nWorkers → Phase T) : Thread nWorkers → Phase T :=
  match phase none with
  | .waiting => update phase none .woken
  | _ => phase

/-- The first part of a section: thread `t` enters with an evaluated batch. -/
def State.enter (s : State T nWorkers) (t : Thread nWorkers) (vChecks : List (Job T)) (fOk : Bool) :
    State T nWorkers :=
  let q := s.pqueue.cleanUp vChecks fOk
  let fNotify := decide (vChecks ≠ []) && decide (q.nTodo = 0) && decide (t ≠ none)
  { s with
    pqueue := q
    phase := update (if fNotify then notifyMaster s.phase else s.phase) t .inside }

/-- The other way into a section: a woken thread gets the mutex back. -/
def State.resume (s : State T nWorkers) (t : Thread nWorkers) : State T nWorkers :=
  { s with
    pqueue := { s.pqueue with nIdle := s.pqueue.nIdle - 1 }
    phase := update s.phase t .inside }

/-- The rest of the section, and the value with which `Wait` returns, if it does. -/
def State.leave (s : State T nWorkers) (t : Thread nWorkers) : State T nWorkers × Option Bool :=
  let q := s.pqueue
  if q.queue = [] then
    if t = none ∧ q.nTodo = 0 then
      ({ pqueue := { q with nTotal := q.nTotal - 1, fAllOk := true }
         phase := update s.phase t .absent
         added := []
         taken := [] }, some q.fAllOk)
    else
      ({ s with pqueue := { q with nIdle := q.nIdle + 1 }, phase := update s.phase t .waiting }, none)
  else
    ({ s with
       pqueue := { q with queue := q.queue.drop q.nNow }
       phase := update s.phase t (.outside (q.queue.take q.nNow) q.fAllOk)
       taken := s.taken ++ (q.queue.take q.nNow).map fun job => (t, job) }, none)

/-- The queue after `Add`. -/
def CCheckQueue.add (q : CCheckQueue T) (jobs : List (Job T)) : CCheckQueue T :=
  { q with queue := jobs.reverse ++ q.queue, nTodo := q.nTodo + UInt32.ofNat jobs.length }

/-- What the notifications of `Add` do to the threads: nothing without a check, one waiting worker is woken for one
check, and all of them for more. -/
inductive Notified (phase : Thread nWorkers → Phase T) : Nat → (Thread nWorkers → Phase T) → Prop where
  | nobody : Notified phase 0 phase
  | one (w : Fin nWorkers) (h : phase (some w) = .waiting) : Notified phase 1 (update phase (some w) .woken)
  | lost (h : ∀ w, phase (some w) ≠ .waiting) : Notified phase 1 phase
  | all (n : Nat) : Notified phase (n + 2) fun t =>
    match t, phase t with
    | some _, .waiting => .woken
    | _, p => p

/-- One step, with the value that `Wait` returns in it, if any. -/
inductive Step (fCheck : T → Bool) : State T nWorkers → Option Bool → State T nWorkers → Prop where
  | enter {s : State T nWorkers} {t : Thread nWorkers} {vChecks : List (Job T)} {fOk : Bool}
      (h : s.phase t = .outside vChecks fOk) :
      Step fCheck s ((s.enter t vChecks (execute fCheck vChecks fOk)).leave t).2
        ((s.enter t vChecks (execute fCheck vChecks fOk)).leave t).1
  | resume {s : State T nWorkers} {t : Thread nWorkers} (h : s.phase t = .woken) :
      Step fCheck s ((s.resume t).leave t).2 ((s.resume t).leave t).1
  | spurious {s : State T nWorkers} {t : Thread nWorkers} (h : s.phase t = .waiting) :
      Step fCheck s none { s with phase := update s.phase t .woken }
  | add {s : State T nWorkers} {phase : Thread nWorkers → Phase T} (vChecks : List T) (h : s.phase none = .absent)
      (hnotify : Notified s.phase vChecks.length phase) :
      Step fCheck s none
        { s with
          pqueue := s.pqueue.add (vChecks.zipIdx s.added.length)
          phase := phase
          added := s.added ++ vChecks.zipIdx s.added.length }
  | wait {s : State T nWorkers} (h : s.phase none = .absent) :
      Step fCheck s none { s with phase := update s.phase none (.outside [] true) }

/-- A new queue, with its workers about to enter `Loop`. -/
def State.start (nWorkers : Nat) (nBatchSize : UInt32) : State T nWorkers where
  pqueue := { queue := [], nIdle := 0, nTotal := 0, fAllOk := true, nTodo := 0, nBatchSize := nBatchSize }
  phase := fun t => if t = none then .absent else .outside [] true
  added := []
  taken := []

/-- The states of the runs that stay within `P`. -/
inductive Reachable (fCheck : T → Bool) (nBatchSize : UInt32) (P : State T nWorkers → Prop) :
    State T nWorkers → Prop where
  | start : Reachable fCheck nBatchSize P (State.start nWorkers nBatchSize)
  | step {s s' : State T nWorkers} {r : Option Bool} (h : Reachable fCheck nBatchSize P s) (hstep : Step fCheck s r s')
      (hP : P s') : Reachable fCheck nBatchSize P s'

/-! ## What a thread contributes -/

def Phase.batch : Phase T → List (Job T)
  | .outside vChecks _ => vChecks
  | _ => []

def Phase.batchSize (p : Phase T) : Nat :=
  p.batch.length

def Phase.idle : Phase T → Int
  | .waiting => 1
  | .woken => 1
  | _ => 0

/-- Whether the thread has been counted in `nTotal`. -/
def Phase.counted : Phase T → Int
  | .absent => 0
  | .outside [] _ => 0
  | _ => 1

/-- The checks in the batches of the threads. -/
def State.inBatches (s : State T nWorkers) : Nat :=
  Pool.total Phase.batchSize s.phase

/-- The checks that are queued or in a batch. -/
def State.outstanding (s : State T nWorkers) : Nat :=
  s.pqueue.queue.length + s.inBatches

end

end CheckQueue
end Reddcoin

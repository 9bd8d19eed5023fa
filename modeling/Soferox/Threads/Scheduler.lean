import Soferox.Lib.Machine

/-!
# The scheduler

`CScheduler` and the threads that run `serviceQueue`. The mutex is held all the time except while a thread sleeps, waits
or calls a task, so that a thread's step goes from one of these places to the next. A thread that waits may wake up at
any time; a wait for a given time reports a timeout only when the clock has got there.

* `CScheduler.take`, `awaitHead`, `awaitTask`, `loop` — the pieces of `serviceQueue` between these places;
* `step` — what the threads, the callers of `schedule` and `stop`, and the clock do;
* `Punctual` — with one thread, the task at the front is never later than the one that is waited for;
* `neverEarly_iff` — no task is called before its time, in any run, if and only if there is at most one thread.
-/

namespace Soferox

open Lib Function

/-- `system_clock::time_point`. -/
abbrev TimePoint := ℤ

/-- A task with the time passed to `schedule`. -/
structure Task (F : Type) where
  time : TimePoint
  func : F
deriving DecidableEq

/-- The members of `CScheduler` that its mutex guards. -/
structure CScheduler (F : Type) where
  taskQueue : List (Task F)
  nThreadsServicingQueue : ℕ
  stopRequested : Bool
  stopWhenEmpty : Bool
deriving DecidableEq

/-- Where a thread lets go of the mutex. -/
inductive ServicePoint (F : Type)
  /-- It has not called `serviceQueue` yet. -/
  | outside
  /-- In `RandAddSeedSleep`. -/
  | seeding
  /-- In `newTaskScheduled.wait`. -/
  | waiting
  /-- In `newTaskScheduled.wait_until`. -/
  | waitingUntil (timeToWaitFor : TimePoint)
  /-- The task is off the queue, the mutex is free and `f()` comes next. -/
  | calling (task : Task F)
  /-- In `f()`. -/
  | running (task : Task F)
  /-- `serviceQueue` has returned or thrown. -/
  | finished
deriving DecidableEq

namespace CScheduler

variable {F : Type}

def shouldStop (s : CScheduler F) : Bool := s.stopRequested || (s.stopWhenEmpty && s.taskQueue.isEmpty)

/-- `std::multimap::insert`: behind the tasks of the same time. -/
def insertTask (task : Task F) : List (Task F) → List (Task F)
  | [] => [task]
  | t :: taskQueue => if task.time < t.time then task :: t :: taskQueue else t :: insertTask task taskQueue

def schedule (s : CScheduler F) (f : F) (t : TimePoint) : CScheduler F :=
  { s with taskQueue := insertTask ⟨t, f⟩ s.taskQueue }

def stop (s : CScheduler F) (drain : Bool) : CScheduler F :=
  if drain then { s with stopWhenEmpty := true } else { s with stopRequested := true }

/-! ## The pieces of `serviceQueue` -/

/-- The thread leaves the function. -/
def leave (s : CScheduler F) : CScheduler F × ServicePoint F :=
  ({ s with nThreadsServicingQueue := s.nThreadsServicingQueue - 1 }, .finished)

/-- `continue`, when the thread has to stop or the queue is empty. -/
def restart (s : CScheduler F) : CScheduler F × ServicePoint F := if s.shouldStop then s.leave else (s, .seeding)

/-- After the waits: the first task is taken. -/
def take (s : CScheduler F) : CScheduler F × ServicePoint F :=
  if s.shouldStop then s.restart
  else match s.taskQueue with
    | [] => s.restart
    | task :: taskQueue => ({ s with taskQueue := taskQueue }, .calling task)

/-- The loop around `wait_until`. -/
def awaitHead (s : CScheduler F) : CScheduler F × ServicePoint F :=
  if s.shouldStop then s.take
  else match s.taskQueue with
    | [] => s.take
    | task :: _ => (s, .waitingUntil task.time)

/-- The loop around `wait`. -/
def awaitTask (s : CScheduler F) : CScheduler F × ServicePoint F :=
  if !s.shouldStop && s.taskQueue.isEmpty then (s, .waiting) else s.awaitHead

/-- The top of the outer loop. -/
def loop (s : CScheduler F) : CScheduler F × ServicePoint F :=
  if s.shouldStop then s.leave
  else if s.taskQueue.isEmpty then (s, .seeding)
  else s.awaitTask

/-- `serviceQueue` up to the first place where the mutex is free. -/
def serviceQueue (s : CScheduler F) : CScheduler F × ServicePoint F :=
  loop { s with nThreadsServicingQueue := s.nThreadsServicingQueue + 1 }

end CScheduler

open CScheduler

/-! ## The threads and the clock -/

structure Call (F : Type) where
  task : Task F
  calledAt : TimePoint
deriving DecidableEq

/-- The scheduler with `n` threads. -/
structure Service (F : Type) (n : ℕ) where
  scheduler : CScheduler F
  now : TimePoint
  threads : Fin n → ServicePoint F
  calls : List (Call F)

inductive ServiceAction (F : Type) (n : ℕ)
  | schedule (f : F) (t : TimePoint)
  | stop (drain : Bool)
  | clock (now : TimePoint)
  | enter (i : Fin n)
  /-- The end of a sleep, of `wait`, or of `wait_until` without a timeout. -/
  | wake (i : Fin n)
  | timeout (i : Fin n)
  | call (i : Fin n)
  | return (i : Fin n)
  /-- An exception: `f()` throws one, or the thread is interrupted. -/
  | throw (i : Fin n)

namespace Service

variable {F : Type} {n : ℕ}

/-- No task, no thread in `serviceQueue`. -/
def init (F : Type) (n : ℕ) : Service F n := ⟨⟨[], 0, false, false⟩, 0, fun _ => .outside, []⟩

/-- A thread does its next piece. -/
def advance (s : Service F n) (i : Fin n) (r : CScheduler F × ServicePoint F) : Service F n :=
  { s with scheduler := r.1, threads := Function.update s.threads i r.2 }

def step (s : Service F n) : ServiceAction F n → Option (Service F n)
  | .schedule f t => some { s with scheduler := s.scheduler.schedule f t }
  | .stop drain => some { s with scheduler := s.scheduler.stop drain }
  | .clock now => if s.now ≤ now then some { s with now := now } else none
  | .enter i =>
    match s.threads i with
    | .outside => some (s.advance i s.scheduler.serviceQueue)
    | _ => none
  | .wake i =>
    match s.threads i with
    | .seeding | .waiting => some (s.advance i s.scheduler.awaitTask)
    | .waitingUntil _ => some (s.advance i s.scheduler.awaitHead)
    | _ => none
  | .timeout i =>
    match s.threads i with
    | .waitingUntil timeToWaitFor =>
      if timeToWaitFor ≤ s.now then some (s.advance i s.scheduler.take) else none
    | _ => none
  | .call i =>
    match s.threads i with
    | .calling task => some { s with
        threads := Function.update s.threads i (.running task), calls := s.calls ++ [⟨task, s.now⟩] }
    | _ => none
  | .return i =>
    match s.threads i with
    | .running _ => some (s.advance i s.scheduler.loop)
    | _ => none
  | .throw i =>
    match s.threads i with
    | .seeding | .waiting | .waitingUntil _ | .running _ => some (s.advance i s.scheduler.leave)
    | _ => none

/-- Every task was called at its time or later. -/
def NeverEarly (s : Service F n) : Prop := ∀ call ∈ s.calls, call.task.time ≤ call.calledAt

/-! ## One thread -/

/-- A thread that waits for a time finds a task for then or earlier at the front; a task that is about to be called is
due. -/
def Punctual (taskQueue : List (Task F)) (now : TimePoint) : ServicePoint F → Prop
  | .waitingUntil timeToWaitFor => ∃ task, taskQueue.head? = some task ∧ task.time ≤ timeToWaitFor
  | .calling task => task.time ≤ now
  | _ => True

variable {s s' : Service F n} {sched : CScheduler F} {now : TimePoint} {taskQueue : List (Task F)}
  {point : ServicePoint F}

lemma punctual_restart : Punctual sched.restart.1.taskQueue now sched.restart.2 := by
  unfold restart
  split <;> trivial

lemma punctual_take (h : ∀ task, sched.taskQueue.head? = some task → task.time ≤ now) :
    Punctual sched.take.1.taskQueue now sched.take.2 := by
  unfold take
  split
  · exact punctual_restart
  · split
    · exact punctual_restart
    · rename_i task taskQueue hq
      exact h task (by simp [hq])

lemma punctual_awaitHead : Punctual sched.awaitHead.1.taskQueue now sched.awaitHead.2 := by
  unfold awaitHead
  split_ifs with hstop
  · simp only [take, if_pos hstop]
    exact punctual_restart
  · split
    · rename_i hq
      apply punctual_take
      simp [hq]
    · rename_i task taskQueue hq
      exact ⟨task, by simp [hq], le_rfl⟩

lemma punctual_awaitTask : Punctual sched.awaitTask.1.taskQueue now sched.awaitTask.2 := by
  unfold awaitTask
  split
  · trivial
  · exact punctual_awaitHead

lemma punctual_loop : Punctual sched.loop.1.taskQueue now sched.loop.2 := by
  unfold loop
  split_ifs
  · trivial
  · trivial
  · exact punctual_awaitTask

lemma head?_insertTask {head : Task F} (h : taskQueue.head? = some head) (task : Task F) :
    ∃ head', (insertTask task taskQueue).head? = some head' ∧ head'.time ≤ head.time := by
  cases taskQueue with
  | nil => cases h
  | cons t taskQueue =>
    obtain rfl : t = head := by simpa using h
    unfold insertTask
    split_ifs with hlt
    · exact ⟨task, rfl, hlt.le⟩
    · exact ⟨t, rfl, le_rfl⟩

lemma Punctual.insertTask (h : Punctual taskQueue now point)
    (task : Task F) : Punctual (insertTask task taskQueue) now point := by
  cases point with
  | waitingUntil timeToWaitFor =>
    obtain ⟨head, hhead, hle⟩ := h
    obtain ⟨head', hhead', hle'⟩ := head?_insertTask hhead task
    exact ⟨head', hhead', hle'.trans hle⟩
  | _ => exact h

lemma Punctual.later {now' : TimePoint}
    (h : Punctual taskQueue now point) (hnow : now ≤ now') : Punctual taskQueue now' point := by
  cases point with
  | calling task => exact h.trans hnow
  | _ => exact h

/-- All threads are punctual, and so were all calls. -/
structure AllPunctual (s : Service F n) : Prop where
  threads : ∀ i, Punctual s.scheduler.taskQueue s.now (s.threads i)
  calls : s.NeverEarly

lemma AllPunctual.advance (hn : n ≤ 1) (h : s.AllPunctual) {i : Fin n} {r : CScheduler F × ServicePoint F}
    (hr : Punctual r.1.taskQueue s.now r.2) : (s.advance i r).AllPunctual where
  threads j := by
    have hj : j = i := by omega
    simp only [Service.advance, hj, update_self]
    exact hr
  calls := h.calls

lemma AllPunctual.step (hn : n ≤ 1) (h : s.AllPunctual) {a : ServiceAction F n} (hs : s.step a = some s') :
    s'.AllPunctual := by
  cases a with
  | schedule f t =>
    cases hs
    exact ⟨fun i => (h.threads i).insertTask _, h.calls⟩
  | stop drain =>
    cases hs
    refine ⟨fun i => ?_, h.calls⟩
    have hq : (s.scheduler.stop drain).taskQueue = s.scheduler.taskQueue := by cases drain <;> rfl
    simpa [hq] using h.threads i
  | clock now =>
    simp only [Service.step] at hs
    split at hs
    · rename_i hnow
      cases hs
      exact ⟨fun i => (h.threads i).later hnow, h.calls⟩
    · cases hs
  | enter i | «return» i =>
    simp only [Service.step] at hs
    split at hs
    · cases hs
      exact h.advance hn punctual_loop
    · cases hs
  | wake i =>
    simp only [Service.step] at hs
    split at hs
    · cases hs
      exact h.advance hn punctual_awaitTask
    · cases hs
      exact h.advance hn punctual_awaitTask
    · cases hs
      exact h.advance hn punctual_awaitHead
    · cases hs
  | timeout i =>
    simp only [Service.step] at hs
    split at hs
    · rename_i timeToWaitFor hi
      split at hs
      · rename_i hnow
        cases hs
        -- nobody else has taken the task that was waited for
        obtain ⟨head, hhead, hle⟩ : Punctual _ _ (.waitingUntil timeToWaitFor) := hi ▸ h.threads i
        refine h.advance hn (punctual_take fun task htask => ?_)
        obtain rfl : head = task := Option.some.inj (hhead.symm.trans htask)
        exact hle.trans hnow
      · cases hs
    · cases hs
  | call i =>
    simp only [Service.step] at hs
    split at hs
    · rename_i task hi
      cases hs
      have hdue : Punctual _ _ (.calling task) := hi ▸ h.threads i
      refine ⟨fun j => ?_, List.forall_mem_append.2 ⟨h.calls, List.forall_mem_singleton.2 hdue⟩⟩
      have hj : j = i := by omega
      simp only [hj, update_self]
      trivial
    · cases hs
  | throw i =>
    simp only [Service.step] at hs
    split at hs <;> first
      | cases hs
        exact h.advance hn trivial
      | cases hs

lemma allPunctual_of_reachable (hn : n ≤ 1) (h : Reachable step (init F n) s) : s.AllPunctual := by
  have hinit : (init F n).AllPunctual := by
    refine ⟨fun i => trivial, fun call hcall => ?_⟩
    simp [init] at hcall
  exact h.invariant hinit fun _ _ _ hs => hs.step hn

/-! ## Two threads -/

/-- Two threads wait for the same task, and get a timeout; the first takes it, and the second the next task, whenever
that is due. -/
def overtaking (f : F) (hn : 1 < n) : List (ServiceAction F n) :=
  [.schedule f 0, .schedule f 1, .enter ⟨0, by omega⟩, .enter ⟨1, hn⟩, .timeout ⟨0, by omega⟩, .timeout ⟨1, hn⟩,
    .call ⟨1, hn⟩]

lemma overtaking_early (f : F) (hn : 1 < n) :
    ∃ s, (overtaking f hn).foldlM step (init F n) = some s ∧ ⟨⟨1, f⟩, 0⟩ ∈ s.calls := by
  simp [overtaking, step, init, schedule, insertTask, serviceQueue, loop,
    shouldStop, awaitTask, awaitHead, take, advance]

/-- **Tasks that are called too early.** In every run no task is called before its time, if and only if at most one
thread services the queue. -/
theorem neverEarly_iff [Inhabited F] (n : ℕ) :
    (∀ s, Reachable step (init F n) s → s.NeverEarly) ↔ n ≤ 1 := by
  constructor
  · intro h
    by_contra hn
    obtain ⟨s, hrun, hcall⟩ := overtaking_early (default : F) (Nat.lt_of_not_le hn)
    have hle := h s (Reachable.start.foldlM hrun) _ hcall
    simp at hle
  · intro hn s hs
    exact (allPunctual_of_reachable hn hs).calls

/-- With two threads, a task for time 1 is called at time 0. -/
theorem calledEarly : ∃ s : Service Unit 2, Reachable step (init Unit 2) s ∧ ¬ s.NeverEarly := by
  obtain ⟨s, hrun, hcall⟩ := overtaking_early () (Nat.lt_succ_self 1)
  exact ⟨s, Reachable.start.foldlM hrun, fun h => absurd (h _ hcall) (by decide)⟩

end Service

end Soferox

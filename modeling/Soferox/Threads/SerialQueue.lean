import Soferox.Lib.Machine

/-!
# The serial callback queue

`SingleThreadedSchedulerClient`, the threads that call `AddToProcessQueue` and the threads in which the scheduler runs
`ProcessQueue`. A thread's step goes from one place where `m_cs_callbacks_pending` is free to the next.

* `step` — the calls of any number of threads, interleaved;
* `Serial` — at most one thread is between taking a callback off the queue and clearing `m_are_callbacks_running`, and
  the callbacks go through that thread in the order in which they were appended;
* `Awake` — callbacks do not wait in vain: somebody runs one, or is about to, or a task is on its way;
* `callbacks_serial` — callbacks run one at a time, in order and once; if the scheduler runs its tasks, all of them run.
-/

namespace Soferox

open Lib Function Option List

/-- The members that `m_cs_callbacks_pending` guards. -/
structure SingleThreadedSchedulerClient (C : Type) where
  m_callbacks_pending : List C
  m_are_callbacks_running : Bool
deriving DecidableEq

/-- Where a thread is with respect to the client. -/
inductive ClientPoint (C : Type)
  | idle
  /-- `MaybeScheduleProcessQueue` comes next. -/
  | maybeSchedule
  /-- In `MaybeScheduleProcessQueue`, after the check; `schedule` comes next. -/
  | scheduling
  /-- At the beginning of `ProcessQueue`. -/
  | processing
  /-- The callback is off the queue and is called next. -/
  | calling (callback : C)
  /-- In the callback. -/
  | running (callback : C)
  /-- The callback has returned; the destructor of `RAIICallbacksRunning` comes next. -/
  | returned
deriving DecidableEq

namespace ClientPoint

variable {C : Type}

/-- From taking a callback off the queue to the end of its call. -/
def Busy : ClientPoint C → Prop
  | .calling _ | .running _ | .returned => True
  | _ => False

/-- The callback that the thread has taken and not called yet. -/
def taken : ClientPoint C → List C
  | .calling callback => [callback]
  | _ => []

/-- The callback that the thread is in. -/
def current : ClientPoint C → List C
  | .running callback => [callback]
  | _ => []

end ClientPoint

open ClientPoint

/-- The client with the threads `ι`, the tasks that it gave to the scheduler, and the callbacks so far. -/
structure SerialQueue (ι C : Type) where
  client : SingleThreadedSchedulerClient C
  threads : ι → ClientPoint C
  tasksGiven : ℕ
  tasksRun : ℕ
  appended : List C
  begun : List C
  finished : List C

inductive ClientAction (ι C : Type)
  /-- A call of `AddToProcessQueue`; a callback that makes one counts as another thread. -/
  | add (i : ι) (func : C)
  /-- The scheduler runs a task of the client. -/
  | runTask (i : ι)
  /-- A call of `ProcessQueue` by `EmptyQueue`. -/
  | emptyQueue (i : ι)
  /-- The next piece of the thread's call. -/
  | proceed (i : ι)

namespace SerialQueue

variable {ι C : Type} [DecidableEq ι]

def init (ι C : Type) : SerialQueue ι C := ⟨⟨[], false⟩, fun _ => .idle, 0, 0, [], [], []⟩

@[simps] def goTo (s : SerialQueue ι C) (i : ι) (point : ClientPoint C) : SerialQueue ι C :=
  { s with threads := Function.update s.threads i point }

/-- The first part of `AddToProcessQueue`. -/
def addToProcessQueue (s : SerialQueue ι C) (i : ι) (func : C) : SerialQueue ι C :=
  { s.goTo i .maybeSchedule with
    client := { s.client with m_callbacks_pending := s.client.m_callbacks_pending ++ [func] }
    appended := s.appended ++ [func] }

/-- The check of `MaybeScheduleProcessQueue`. -/
def maybeScheduleProcessQueue (s : SerialQueue ι C) (i : ι) : SerialQueue ι C :=
  if s.client.m_are_callbacks_running then s.goTo i .idle
  else if s.client.m_callbacks_pending.isEmpty then s.goTo i .idle
  else s.goTo i .scheduling

/-- The first part of `ProcessQueue`. -/
def processQueue (s : SerialQueue ι C) (i : ι) : SerialQueue ι C :=
  if s.client.m_are_callbacks_running then s.goTo i .idle
  else match s.client.m_callbacks_pending with
    | [] => s.goTo i .idle
    | callback :: pending => { s.goTo i (.calling callback) with client := ⟨pending, true⟩ }

def step (s : SerialQueue ι C) : ClientAction ι C → Option (SerialQueue ι C)
  | .add i func => match s.threads i with
    | .idle => some (s.addToProcessQueue i func)
    | _ => none
  | .runTask i => match s.threads i with
    | .idle => if s.tasksRun < s.tasksGiven then some { s.goTo i .processing with tasksRun := s.tasksRun + 1 } else none
    | _ => none
  | .emptyQueue i => match s.threads i with
    | .idle => some (s.goTo i .processing)
    | _ => none
  | .proceed i => match s.threads i with
    | .idle => none
    | .maybeSchedule => some (s.maybeScheduleProcessQueue i)
    | .scheduling => some { s.goTo i .idle with tasksGiven := s.tasksGiven + 1 }
    | .processing => some (s.processQueue i)
    | .calling callback => some { s.goTo i (.running callback) with begun := s.begun ++ [callback] }
    | .running callback => some { s.goTo i .returned with finished := s.finished ++ [callback] }
    | .returned => some { s.goTo i .maybeSchedule with client := { s.client with m_are_callbacks_running := false } }

/-! ## What a step can do -/

variable {s s' : SerialQueue ι C} {a : ClientAction ι C} {holder : Option ι} {i : ι}

/-- The steps with their conditions. -/
inductive Effect (s : SerialQueue ι C) : ClientAction ι C → SerialQueue ι C → Prop
  | append (i : ι) (func : C) : s.threads i = .idle → Effect s (.add i func) (s.addToProcessQueue i func)
  | runTask (i : ι) : s.threads i = .idle → s.tasksRun < s.tasksGiven →
      Effect s (.runTask i) { s.goTo i .processing with tasksRun := s.tasksRun + 1 }
  | emptyQueue (i : ι) : s.threads i = .idle → Effect s (.emptyQueue i) (s.goTo i .processing)
  /-- There is nothing to do, or another thread is at it. -/
  | leave (i : ι) : s.threads i = .maybeSchedule ∨ s.threads i = .processing →
      s.client.m_are_callbacks_running = true ∨ s.client.m_callbacks_pending = [] →
      Effect s (.proceed i) (s.goTo i .idle)
  | check (i : ι) : s.threads i = .maybeSchedule → Effect s (.proceed i) (s.goTo i .scheduling)
  | schedule (i : ι) : s.threads i = .scheduling →
      Effect s (.proceed i) { s.goTo i .idle with tasksGiven := s.tasksGiven + 1 }
  | pop (i : ι) (callback : C) (pending : List C) : s.threads i = .processing → s.client.m_are_callbacks_running = false →
      s.client.m_callbacks_pending = callback :: pending →
      Effect s (.proceed i) { s.goTo i (.calling callback) with client := ⟨pending, true⟩ }
  | begin (i : ι) (callback : C) : s.threads i = .calling callback →
      Effect s (.proceed i) { s.goTo i (.running callback) with begun := s.begun ++ [callback] }
  | finish (i : ι) (callback : C) : s.threads i = .running callback →
      Effect s (.proceed i) { s.goTo i .returned with finished := s.finished ++ [callback] }
  | release (i : ι) : s.threads i = .returned → Effect s (.proceed i)
      { s.goTo i .maybeSchedule with client := { s.client with m_are_callbacks_running := false } }

lemma effect_maybeScheduleProcessQueue (hi : s.threads i = .maybeSchedule) :
    Effect s (.proceed i) (s.maybeScheduleProcessQueue i) := by
  unfold maybeScheduleProcessQueue
  split_ifs with hflag hnil
  · exact .leave i (.inl hi) (.inl hflag)
  · exact .leave i (.inl hi) (.inr (List.isEmpty_iff.1 hnil))
  · exact .check i hi

lemma effect_processQueue (hi : s.threads i = .processing) : Effect s (.proceed i) (s.processQueue i) := by
  unfold processQueue
  split_ifs with hflag
  · exact .leave i (.inr hi) (.inl hflag)
  · split
    · rename_i hnil
      exact .leave i (.inr hi) (.inr hnil)
    · rename_i callback pending hpending
      exact .pop i callback pending hi (by simpa using hflag) hpending

lemma effect_of_step (h : s.step a = some s') : Effect s a s' := by
  cases a with
  | add i func =>
    simp only [step] at h
    split at h
    · rename_i hi
      cases h
      exact .append i func hi
    · cases h
  | runTask i =>
    simp only [step] at h
    split at h
    · rename_i hi
      split at h
      · rename_i hlt
        cases h
        exact .runTask i hi hlt
      · cases h
    · cases h
  | emptyQueue i =>
    simp only [step] at h
    split at h
    · rename_i hi
      cases h
      exact .emptyQueue i hi
    · cases h
  | proceed i =>
    simp only [step] at h
    split at h
    case h_1 => cases h
    case h_2 hi =>
      cases h
      exact effect_maybeScheduleProcessQueue hi
    case h_3 hi =>
      cases h
      exact .schedule i hi
    case h_4 hi =>
      cases h
      exact effect_processQueue hi
    case h_5 callback hi =>
      cases h
      exact .begin i callback hi
    case h_6 callback hi =>
      cases h
      exact .finish i callback hi
    case h_7 hi =>
      cases h
      exact .release i hi

/-- The thread that takes the step. -/
def thread : ClientAction ι C → ι
  | .add i _ | .runTask i | .emptyQueue i | .proceed i => i

section

variable (h : Effect s a s')
include h

/-- A step moves one thread, which was idle unless it goes on with its call. -/
theorem Effect.threads : (∃ point, s'.threads = update s.threads (thread a) point) ∧
    (a = .proceed (thread a) ∨ s.threads (thread a) = .idle) := by
  cases h with
  | append i func hi => exact ⟨⟨_, rfl⟩, .inr hi⟩
  | runTask i hi hlt => exact ⟨⟨_, rfl⟩, .inr hi⟩
  | emptyQueue i hi => exact ⟨⟨_, rfl⟩, .inr hi⟩
  | _ => exact ⟨⟨_, rfl⟩, .inl rfl⟩

lemma Effect.flag (hflag : s.client.m_are_callbacks_running = false) :
    s'.client.m_are_callbacks_running = false ∨ ∃ i callback, s'.threads i = .calling callback := by
  cases h with
  | pop i callback pending hi _ _ => exact .inr ⟨i, callback, by simp⟩
  | release i hi => exact .inl rfl
  | _ => exact .inl hflag

lemma Effect.tasksRun : s'.tasksRun = s.tasksRun ∨ ∃ i, s'.threads i = .processing := by
  cases h with
  | runTask i hi hlt => exact .inr ⟨i, by simp⟩
  | _ => exact .inl rfl

lemma Effect.tasksRun_le : s.tasksRun ≤ s'.tasksRun := by
  cases h with
  | runTask i hi hlt => exact Nat.le_succ _
  | _ => exact le_rfl

lemma Effect.finished : s.finished <+: s'.finished := by
  cases h with
  | finish i callback hi => exact prefix_append ..
  | _ => exact prefix_rfl

lemma Effect.appended : s.appended <+: s'.appended := by
  cases h with
  | append i func hi => exact prefix_append ..
  | _ => exact prefix_rfl

end

/-! ## One at a time and in order -/

/-- `holder` is the thread in charge of a callback. The callbacks appended are those begun, the one it is about to
call, and those pending; the ones begun are those finished and the one it is in. -/
structure Serial (s : SerialQueue ι C) (holder : Option ι) : Prop where
  flag : s.client.m_are_callbacks_running = holder.isSome
  busy : ∀ i, (s.threads i).Busy ↔ holder = some i
  appended : s.appended = s.begun ++ (holder.elim [] fun i => (s.threads i).taken) ++ s.client.m_callbacks_pending
  begun : s.begun = s.finished ++ holder.elim [] fun i => (s.threads i).current

section

variable {holder : Option ι} {i : ι} {point : ClientPoint C}

variable (h : Serial s holder)
include h

section

variable (hi : ¬ (s.threads i).Busy)
include hi

/-- What the holder has in hand does not depend on the other threads. -/
theorem Serial.elim_update (g : ClientPoint C → List C) :
    (holder.elim [] fun k => g (update s.threads i point k)) = holder.elim [] fun k => g (s.threads k) := by
  cases holder with
  | none => rfl
  | some k =>
    have hk : k ≠ i := fun hki => hi (hki ▸ (h.busy k).2 rfl)
    simp [update_of_ne hk]

lemma Serial.busy_update (hp : ¬ point.Busy) (k : ι) : (update s.threads i point k).Busy ↔ holder = some k := by
  by_cases hk : k = i
  · subst hk
    rw [update_self, ← h.busy k]
    exact iff_of_false hp hi
  · rw [update_of_ne hk, h.busy]

lemma Serial.goTo (hp : ¬ point.Busy) : Serial (s.goTo i point) holder where
  flag := h.flag
  busy := h.busy_update hi hp
  appended := by simpa [h.elim_update hi] using h.appended
  begun := by simpa [h.elim_update hi] using h.begun

end

omit [DecidableEq ι] in
lemma Serial.tasks (given run : ℕ) :
    Serial { s with tasksGiven := given, tasksRun := run } holder := { h with }

lemma Serial.busy_update_holder (hholder : ∀ k, k ≠ i → holder ≠ some k) {holder' : Option ι}
    (hp : point.Busy ↔ holder' = some i) (hholder' : ∀ k, k ≠ i → holder' ≠ some k) (k : ι) :
    (update s.threads i point k).Busy ↔ holder' = some k := by
  by_cases hk : k = i
  · subst hk
    rwa [update_self]
  · rw [update_of_ne hk, h.busy]
    exact iff_of_false (hholder k hk) (hholder' k hk)

end

lemma Serial.effect (h : Serial s holder) (he : Effect s a s') : ∃ holder', Serial s' holder' := by
  have happ := h.appended
  have hbeg := h.begun
  have hsome : ∀ i k : ι, k ≠ i → some i ≠ some k := fun i k hk hik => hk (some.inj hik).symm
  cases he with
  | append i func hi =>
    have hi : ¬ (s.threads i).Busy := by simp [hi, ClientPoint.Busy]
    refine ⟨holder, h.flag, h.busy_update hi id, ?_, ?_⟩
    · simp [addToProcessQueue, h.elim_update hi, happ]
    · simpa [addToProcessQueue, h.elim_update hi] using hbeg
  | runTask i hi | schedule i hi => exact ⟨holder, (h.goTo (by simp [hi, ClientPoint.Busy]) id).tasks _ _⟩
  | emptyQueue i hi | check i hi => exact ⟨holder, h.goTo (by simp [hi, ClientPoint.Busy]) id⟩
  | leave i hi _ =>
    refine ⟨holder, h.goTo ?_ id⟩
    rcases hi with hi | hi <;> simp [hi, ClientPoint.Busy]
  | pop i callback pending hi hflag hpending =>
    obtain rfl : holder = none := by simpa [hflag] using h.flag
    refine ⟨some i, rfl, h.busy_update_holder (by simp) (by simp [ClientPoint.Busy]) (hsome i), ?_, ?_⟩
    · simp [happ, hpending, taken]
    · simp [hbeg, current]
  | begin i callback hi | finish i callback hi =>
    obtain rfl := (h.busy i).1 (by simp [hi, ClientPoint.Busy])
    simp only [elim_some, hi] at happ hbeg
    refine ⟨some i, h.flag, h.busy_update_holder (hsome i) (by simp [ClientPoint.Busy]) (hsome i), ?_, ?_⟩
    · simp [taken, happ]
    · simp [current, hbeg]
  | release i hi =>
    obtain rfl := (h.busy i).1 (by simp [hi, ClientPoint.Busy])
    simp only [elim_some, hi, taken, current] at happ hbeg
    refine ⟨none, rfl, h.busy_update_holder (hsome i) (by simp [ClientPoint.Busy]) (by simp), ?_, ?_⟩
    · simp [happ]
    · simp [hbeg]

lemma serial_of_reachable (h : Reachable step (init ι C) s) : ∃ holder, Serial s holder := by
  have hinit : Serial (init ι C) none := ⟨rfl, fun i => by simp [init, ClientPoint.Busy], rfl, rfl⟩
  refine h.invariant (I := fun s => ∃ holder, Serial s holder) ⟨none, hinit⟩ fun s a s' ⟨holder, hs⟩ hstep => ?_
  exact hs.effect (effect_of_step hstep)

/-! ## Nobody waits in vain -/

/-- If callbacks are pending, one runs, or a thread will see to it, or a task is scheduled. -/
structure Awake (s : SerialQueue ι C) : Prop where
  tasks : s.tasksRun ≤ s.tasksGiven
  seen : s.client.m_callbacks_pending ≠ [] → s.client.m_are_callbacks_running = true ∨ s.tasksRun < s.tasksGiven ∨
    ∃ i, s.threads i = .maybeSchedule ∨ s.threads i = .scheduling ∨ s.threads i = .processing

lemma Awake.effect (h : s.Awake) (hflag : ∀ i, (s.threads i).Busy → s.client.m_are_callbacks_running = true)
    (he : Effect s a s') : s'.Awake := by
  cases he with
  | append i func hi => exact ⟨h.tasks, fun _ => .inr (.inr ⟨i, by simp [addToProcessQueue]⟩)⟩
  | runTask i hi hlt => exact ⟨hlt, fun _ => .inr (.inr ⟨i, by simp⟩)⟩
  | emptyQueue i hi | check i hi | release i hi => exact ⟨h.tasks, fun _ => .inr (.inr ⟨i, by simp⟩)⟩
  | leave i hi hwhy => exact ⟨h.tasks, fun hpending => .inl (hwhy.resolve_right hpending)⟩
  | schedule i hi => exact ⟨h.tasks.trans (Nat.le_succ _), fun _ => .inr (.inl (Nat.lt_succ_of_le h.tasks))⟩
  | pop i callback pending hi _ _ => exact ⟨h.tasks, fun _ => .inl rfl⟩
  | begin i callback hi | finish i callback hi =>
    exact ⟨h.tasks, fun _ => .inl (hflag i (by simp [hi, ClientPoint.Busy]))⟩

lemma awake_of_reachable (h : Reachable step (init ι C) s) : s.Awake := by
  induction h with
  | start => exact ⟨le_rfl, absurd rfl⟩
  | next a hreach hs ih =>
    obtain ⟨holder, hserial⟩ := serial_of_reachable hreach
    refine ih.effect (fun i hi => ?_) (effect_of_step hs)
    rw [hserial.flag, (hserial.busy i).1 hi]
    rfl

/-! ## Every callback is run -/

lemma step_proceed (hi : s.threads i ≠ .idle) : (s.step (.proceed i)).isSome := by
  simp only [step]
  split
  · contradiction
  all_goals rfl

section

variable {r : Run step (init ι C)} (hfair : ∀ i, r.Fair (· = .proceed i)) {k : ℕ} {point : ClientPoint C}

include hfair

lemma exists_proceed {i : ι} (hne : point ≠ .idle) (hk : (r.state k).threads i = point) :
    ∃ j, k ≤ j ∧ (r.state j).threads i = point ∧ (r.state j).step (.proceed i) = some (r.state (j + 1)) := by
  obtain ⟨j, hkj, hj, a, rfl, hs, -⟩ := (hfair i).exists_takes (P := fun s => s.threads i = point) hk
    (fun j _ a ha hnot hj => by
      obtain ⟨⟨p, hp⟩, hidle⟩ := (effect_of_step (r.step_of_action ha)).threads
      have hi : i ≠ thread a := by
        rintro rfl
        rcases hidle with hproceed | hidle
        · exact hnot hproceed
        · exact hne (hj.symm.trans hidle)
      rwa [hp, update_of_ne hi])
    fun s hs => ⟨_, rfl, step_proceed (hs.trans_ne hne)⟩
  exact ⟨j, hkj, hj, hs⟩

/-- A place that no thread leaves any more is not reached any more. -/
theorem never_at (hne : point ≠ .idle)
    (hleave : ∀ j, k ≤ j → ∀ i, (r.state j).threads i = point → (r.state j).step (.proceed i) ≠ some (r.state (j + 1))) :
    ∀ j, k ≤ j → ∀ i, (r.state j).threads i ≠ point := by
  intro j hkj i hi
  obtain ⟨j', hjj', hi', hs⟩ := exists_proceed hfair hne hi
  exact hleave j' (hkj.trans hjj') i hi' hs

/-- If no callback finishes any more, then none is called any more. -/
theorem never_calling (hconst : ∀ j, k ≤ j → (r.state j).finished.length = (r.state k).finished.length) (callback : C) :
    ∀ j, k ≤ j → ∀ i, (r.state j).threads i ≠ .calling callback ∧ (r.state j).threads i ≠ .running callback := by
  have hrunning : ∀ j, k ≤ j → ∀ i, (r.state j).threads i ≠ .running callback := by
    refine never_at hfair (by simp) fun j hkj i hi hs => ?_
    simp only [step, hi, some.injEq] at hs
    have hlen := hconst (j + 1) (by omega)
    rw [← hs, ← hconst j hkj] at hlen
    simp at hlen
  have hcalling : ∀ j, k ≤ j → ∀ i, (r.state j).threads i ≠ .calling callback := by
    refine never_at hfair (by simp) fun j hkj i hi hs => ?_
    simp only [step, hi, some.injEq] at hs
    refine hrunning (j + 1) (by omega) i ?_
    rw [← hs]
    simp
  exact fun j hkj i => ⟨hcalling j hkj i, hrunning j hkj i⟩

lemma eventually_not_running
    (hnever : ∀ callback, ∀ j, k ≤ j → ∀ i, (r.state j).threads i ≠ .calling callback ∧ (r.state j).threads i ≠ .running callback) :
    ∃ k', k ≤ k' ∧ ∀ j, k' ≤ j → (r.state j).client.m_are_callbacks_running = false := by
  obtain ⟨k', hkk', hk'⟩ : ∃ k', k ≤ k' ∧ (r.state k').client.m_are_callbacks_running = false := by
    obtain ⟨holder, hserial⟩ := serial_of_reachable (r.reachable k)
    cases holder with
    | none => exact ⟨k, le_rfl, hserial.flag⟩
    | some i =>
      have hreturned : (r.state k).threads i = .returned := by
        have hbusy := (hserial.busy i).2 rfl
        cases hi : (r.state k).threads i with
        | returned => rfl
        | calling callback => exact absurd hi (hnever callback k le_rfl i).1
        | running callback => exact absurd hi (hnever callback k le_rfl i).2
        | _ => simp [hi, ClientPoint.Busy] at hbusy
      obtain ⟨j, hkj, hj, hs⟩ := exists_proceed hfair (by simp) hreturned
      simp only [step, hj, some.injEq] at hs
      exact ⟨j + 1, by omega, by rw [← hs]⟩
  refine ⟨k', hkk', fun j hj => ?_⟩
  refine r.kept_from (P := fun s => s.client.m_are_callbacks_running = false) (fun j hj a ha hflag => ?_) hk' hj
  rcases (effect_of_step (r.step_of_action ha)).flag hflag with hflag | ⟨i, callback, hi⟩
  · exact hflag
  · exact absurd hi (hnever callback (j + 1) (by omega) i).1

/-- Callbacks that wait with nobody in charge are taken off the queue, if the scheduler runs its tasks. -/
theorem exists_calling (htasks : ∀ k, ∃ j, (r.state k).tasksGiven ≤ (r.state j).tasksRun)
    (hflag : ∀ j, k ≤ j → (r.state j).client.m_are_callbacks_running = false)
    (hpending : ∀ j, k ≤ j → (r.state j).client.m_callbacks_pending ≠ []) :
    ∃ j, k ≤ j ∧ ∃ i callback, (r.state j).threads i = .calling callback := by
  by_contra hno
  have hcalling : ∀ j, k ≤ j → ∀ i callback, (r.state j).threads i ≠ .calling callback :=
    fun j hkj i callback hi => hno ⟨j, hkj, i, callback, hi⟩
  have hprocessing : ∀ j, k ≤ j → ∀ i, (r.state j).threads i ≠ .processing := by
    refine never_at hfair (by simp) fun j hkj i hi hs => ?_
    obtain ⟨callback, pending, hcons⟩ := exists_cons_of_ne_nil (hpending j hkj)
    simp only [step, hi, processQueue, hflag j hkj, hcons, some.injEq] at hs
    refine hcalling (j + 1) (by omega) i callback ?_
    rw [← hs]
    simp
  have htasks : ∀ j, k ≤ j → (r.state j).tasksRun = (r.state j).tasksGiven := by
    intro j hkj
    by_contra hne
    have hlt : (r.state j).tasksRun < (r.state j).tasksGiven :=
      lt_of_le_of_ne (awake_of_reachable (r.reachable j)).tasks hne
    -- no task is started any more, as its thread would be in `ProcessQueue`
    have hkept : ∀ j', j ≤ j' → (r.state j').tasksRun = (r.state j).tasksRun := by
      intro j' hj'
      refine r.kept_from (P := fun s => s.tasksRun = (r.state j).tasksRun) (fun m hm a ha heq => ?_) rfl hj'
      rcases (effect_of_step (r.step_of_action ha)).tasksRun with hrun | ⟨i, hi⟩
      · exact hrun.trans heq
      · exact absurd hi (hprocessing (m + 1) (by omega) i)
    obtain ⟨j', hj'⟩ := htasks j
    have hmono : (r.state j').tasksRun ≤ (r.state (max j j')).tasksRun :=
      r.monotone_of_step (fun s a s' hs => (effect_of_step hs).tasksRun_le) (le_max_right ..)
    rw [hkept _ (le_max_left ..)] at hmono
    omega
  have hscheduling : ∀ j, k ≤ j → ∀ i, (r.state j).threads i ≠ .scheduling := by
    refine never_at hfair (by simp) fun j hkj i hi hs => ?_
    simp only [step, hi, some.injEq] at hs
    have hrun := htasks (j + 1) (by omega)
    rw [← hs] at hrun
    simp [htasks j hkj] at hrun
  have hmaybe : ∀ j, k ≤ j → ∀ i, (r.state j).threads i ≠ .maybeSchedule := by
    refine never_at hfair (by simp) fun j hkj i hi hs => ?_
    simp only [step, hi, maybeScheduleProcessQueue, hflag j hkj, List.isEmpty_iff, hpending j hkj, some.injEq] at hs
    refine hscheduling (j + 1) (by omega) i ?_
    rw [← hs]
    simp
  rcases (awake_of_reachable (r.reachable k)).seen (hpending k le_rfl) with hrun | hlt | ⟨i, hi | hi | hi⟩
  · rw [hflag k le_rfl] at hrun
    cases hrun
  · exact hlt.ne (htasks k le_rfl)
  · exact hmaybe k le_rfl i hi
  · exact hscheduling k le_rfl i hi
  · exact hprocessing k le_rfl i hi

end

/-- At most one callback runs; those that have begun are the first that were appended, and have finished except the one
that runs. -/
structure Orderly (s : SerialQueue ι C) : Prop where
  one : ∀ i j callback callback', s.threads i = .running callback → s.threads j = .running callback' → i = j
  order : s.begun <+: s.appended
  turns : s.begun = s.finished ∨ ∃ i callback, s.threads i = .running callback ∧ s.begun = s.finished ++ [callback]

omit [DecidableEq ι] in
lemma Serial.orderly (h : Serial s holder) : s.Orderly where
  one i j callback callback' hi hj := by
    have hi' := (h.busy i).1 (by simp [hi, ClientPoint.Busy])
    have hj' := (h.busy j).1 (by simp [hj, ClientPoint.Busy])
    exact some.inj (hi'.symm.trans hj')
  order := by
    rw [h.appended, append_assoc]
    exact prefix_append ..
  turns := by
    have hbeg := h.begun
    cases holder with
    | none => exact .inl (by simpa using hbeg)
    | some i =>
      cases hi : s.threads i with
      | running callback => exact .inr ⟨i, callback, hi, by simpa [hi, current] using hbeg⟩
      | _ => exact .inl (by simpa [hi, current] using hbeg)

omit [DecidableEq ι] in
lemma Orderly.finished_initial (h : s.Orderly) : s.finished <+: s.appended := by
  rcases h.turns with heq | ⟨i, callback, -, heq⟩
  · exact heq ▸ h.order
  · exact (heq ▸ prefix_append ..).trans h.order

lemma orderly_of_reachable (h : Reachable step (init ι C) s) : s.Orderly := by
  obtain ⟨holder, hserial⟩ := serial_of_reachable h
  exact hserial.orderly

lemma exists_finished {r : Run step (init ι C)} (hfair : ∀ i, r.Fair (· = .proceed i))
    (htasks : ∀ k, ∃ j, (r.state k).tasksGiven ≤ (r.state j).tasksRun) (k : ℕ) :
    ∃ j, k ≤ j ∧ (r.state k).appended.length ≤ (r.state j).finished.length := by
  by_contra hno
  push Not at hno
  have hmono : ∀ i j, i ≤ j → (r.state i).finished.length ≤ (r.state j).finished.length := fun i j hij =>
    r.monotone_of_step (fun s a s' hs => (effect_of_step hs).finished.length_le) hij
  have hbound : ∀ i, (r.state i).finished.length ≤ (r.state k).appended.length := fun i =>
    (hmono i (max k i) (le_max_right ..)).trans (hno _ (le_max_left ..)).le
  obtain ⟨k₁, hk₁, hconst⟩ := Run.eventually_const hmono hbound k
  have hnever := never_calling hfair hconst
  obtain ⟨k₂, hk₂, hflag⟩ := eventually_not_running hfair hnever
  obtain ⟨j, hj, i, callback, hi⟩ := exists_calling hfair htasks hflag fun j hj hnil => by
    -- with nothing pending and nobody in charge, all callbacks would have finished
    obtain ⟨holder, hserial⟩ := serial_of_reachable (r.reachable j)
    obtain rfl : holder = none := by simpa [hflag j hj] using hserial.flag
    have happ := hserial.appended
    have hbeg := hserial.begun
    simp only [elim_none, append_nil, hnil] at happ hbeg
    have hle : (r.state k).appended.length ≤ (r.state j).appended.length :=
      r.monotone_of_step (fun s a s' hs => (effect_of_step hs).appended.length_le) (hk₁.trans (hk₂.trans hj))
    rw [happ, hbeg] at hle
    exact absurd (hno j (hk₁.trans (hk₂.trans hj))) (by omega)
  exact (hnever callback j (hk₂.trans hj) i).1 hi

/-- **The serial callback queue.** Callbacks run one at a time and in the order in which they were appended, none of
them twice; if threads go on and the scheduler runs its tasks, every one of them finishes. -/
theorem callbacks_serial :
    (∀ s, Reachable step (init ι C) s → s.Orderly) ∧
      ∀ r : Run step (init ι C), (∀ i, r.Fair (· = .proceed i)) →
        (∀ k, ∃ j, (r.state k).tasksGiven ≤ (r.state j).tasksRun) →
        ∀ k, ∃ j, k ≤ j ∧ (r.state k).appended <+: (r.state j).finished := by
  refine ⟨fun s => orderly_of_reachable, fun r hfair htasks k => ?_⟩
  obtain ⟨j, hkj, hlen⟩ := exists_finished hfair htasks k
  refine ⟨j, hkj, prefix_of_prefix_length_le ?_ (orderly_of_reachable (r.reachable j)).finished_initial hlen⟩
  refine r.kept_from (P := fun s => (r.state k).appended <+: s.appended) (fun m _ a ha hpre => ?_) prefix_rfl hkj
  exact hpre.trans (effect_of_step (r.step_of_action ha)).appended

/-- A callback is appended by one thread and run in another; while it runs, a second one is appended. -/
def twoCallbacks : List (ClientAction Bool ℕ) :=
  [.add false 7, .proceed false, .proceed false, .runTask true, .proceed true, .proceed true, .add false 8,
    .proceed false] ++ List.replicate 4 (.proceed true) ++ .runTask false :: List.replicate 5 (.proceed false)

lemma twoCallbacks_possible : (twoCallbacks.foldlM step (init Bool ℕ)).isSome := by decide

/-- The run of these actions is fair, the scheduler runs the tasks, and the callbacks finish. -/
theorem callbacks_serial_two : ∃ j,
    [7, 8] <+: ((Run.ofList step (init Bool ℕ) twoCallbacks twoCallbacks_possible).state j).finished := by
  refine (callbacks_serial.2 (Run.ofList step (init Bool ℕ) twoCallbacks twoCallbacks_possible) (fun i => ?_)
    (fun k => ⟨18, ?_⟩) 7).imp fun j => And.right
  · refine Run.fair_ofList fun a ha => ?_
    subst ha
    cases i <;> rfl
  · rcases Nat.lt_or_ge k 18 with hk | hk
    · interval_cases k <;> decide
    · rw [Run.ofList_state_of_le hk]
      decide

end SerialQueue

end Soferox

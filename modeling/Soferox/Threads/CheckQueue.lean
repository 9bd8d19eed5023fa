import Soferox.Lib.Machine

/-!
# The check queue

`CCheckQueue`, its worker threads, and a controller that adds checks and then joins the workers in `Wait`. A thread's
step is one locked section or one check; a thread that waits may be woken at any time.

* `settle`, `serve` — the two halves of the locked section of `Loop`;
* `Sound` — `nTodo` counts the checks that are queued or in a batch, every check is in one place, and a failure is known
  to `fAllOk` or to the thread that saw it;
* `MasterHeard` — the master sleeps only while there is something to do, or has been notified;
* `checkQueue_correct` — the result of `Wait`, what it leaves behind, and that it returns.
-/

namespace Soferox

open Lib Function Multiset List Option Nat

/-- The members of `CCheckQueue` that its mutex guards. -/
structure CCheckQueue (T : Type) where
  queue : List T
  nIdle : ℕ
  nTotal : ℕ
  fAllOk : Bool
  nTodo : ℕ
  nBatchSize : ℕ

/-- Where a thread is in `Loop`, with its local variables. -/
inductive CheckPoint (T : Type)
  /-- Not in `Loop`. -/
  | outside
  /-- Before the locked section; `nNow` is 0 in the first round. -/
  | locking (nNow : ℕ) (fOk : Bool)
  /-- In the locked section, at the loop around the wait. No thread is there between two steps. -/
  | looking
  /-- In `cond.wait`. -/
  | waiting (notified : Bool)
  /-- Outside the locked section, with the checks of the batch that are left. -/
  | working (vChecks : List T) (nNow : ℕ) (fOk : Bool)

namespace CheckPoint

variable {T : Type}

/-- The checks of a batch that `nTodo` still counts. -/
def held : CheckPoint T → ℕ
  | locking nNow _ | working _ nNow _ => nNow
  | _ => 0

/-- The checks of a batch that have not come up yet. -/
def left : CheckPoint T → List T
  | working vChecks _ _ => vChecks
  | _ => []

/-- The local `fOk`, where it is in use. -/
def ok : CheckPoint T → Bool
  | locking _ fOk | working _ _ fOk => fOk
  | _ => true

/-- In `cond.wait` and not notified. -/
def asleep : CheckPoint T → Bool
  | waiting notified => !notified
  | _ => false

/-- A notification reaches threads that wait. -/
def notify : CheckPoint T → CheckPoint T
  | waiting _ => waiting true
  | point => point

variable (nNow : ℕ) (fOk : Bool) {point : CheckPoint T} (vChecks : List T)

@[simp] lemma held_locking : (locking nNow fOk : CheckPoint T).held = nNow := rfl
@[simp] lemma held_working : (working vChecks nNow fOk).held = nNow := rfl
@[simp] lemma held_looking : (looking : CheckPoint T).held = 0 := rfl
@[simp] lemma left_locking : (locking nNow fOk : CheckPoint T).left = [] := rfl
@[simp] lemma left_working : (working vChecks nNow fOk).left = vChecks := rfl
@[simp] lemma left_looking : (looking : CheckPoint T).left = [] := rfl
@[simp] lemma ok_locking : (locking nNow fOk : CheckPoint T).ok = fOk := rfl
@[simp] lemma ok_working : (working vChecks nNow fOk).ok = fOk := rfl
@[simp] lemma ok_looking : (looking : CheckPoint T).ok = true := rfl
lemma notify_held (point : CheckPoint T) : point.notify.held = point.held := by cases point <;> rfl
lemma notify_left (point : CheckPoint T) : point.notify.left = point.left := by cases point <;> rfl
lemma notify_ok (point : CheckPoint T) : point.notify.ok = point.ok := by cases point <;> rfl

/-- On the way to the locked section. -/
def Active : CheckPoint T → Prop
  | locking _ _ | working _ _ _ => True
  | _ => False

/-- A batch is not empty, and a thread starts without a failure. -/
def Regular : CheckPoint T → Prop
  | working _ nNow _ => 0 < nNow
  | locking nNow fOk => nNow = 0 → fOk = true
  | _ => True

lemma Regular.notify (h : point.Regular) : point.notify.Regular := by
  cases point <;> exact h

lemma Regular.of_held_eq_zero (h : point.Regular) (hheld : point.held = 0) : point.left = [] ∧ point.ok = true := by
  cases point with
  | locking nNow fOk => exact ⟨rfl, h hheld⟩
  | working vChecks nNow fOk => exact absurd hheld (ne_of_gt h)
  | _ => exact ⟨rfl, rfl⟩

end CheckPoint

open CheckPoint

/-- The queue with the master `none` and `n` workers, and the checks of this round: added, executed, skipped after a
failure. `result` is that of the last `Wait`. -/
structure CheckPool (T : Type) (n : ℕ) where
  q : CCheckQueue T
  threads : Option (Fin n) → CheckPoint T
  added : List T
  executed : List T
  skipped : List T
  result : Option Bool

inductive CheckAction (T : Type) (n : ℕ)
  /-- `Add`, with the worker that `notify_one` reaches. -/
  | add (vChecks : List T) (woken : Option (Fin n))
  /-- A worker starts, or the controller calls `Wait`. -/
  | enter (t : Option (Fin n))
  | proceed (t : Option (Fin n))
  /-- The end of a wait that nobody notified. -/
  | spurious (t : Option (Fin n))

namespace CheckPool

variable {T : Type} {n : ℕ}

def init (T : Type) (n nBatchSize : ℕ) : CheckPool T n :=
  ⟨⟨[], 0, 0, true, 0, nBatchSize⟩, fun _ => .outside, [], [], [], none⟩

def goTo (s : CheckPool T n) (t : Option (Fin n)) (point : CheckPoint T) : CheckPool T n :=
  { s with threads := Function.update s.threads t point }

/-- Notifies the threads that `reached` selects. -/
def notify (s : CheckPool T n) (reached : Option (Fin n) → Bool) : CheckPool T n :=
  { s with threads := fun t => if reached t then (s.threads t).notify else s.threads t }

/-- `Add`. A single check is worth one worker, if one is asleep. -/
def add (s : CheckPool T n) (vChecks : List T) (woken : Option (Fin n)) : Option (CheckPool T n) :=
  let s' : CheckPool T n := { s with
    q := { s.q with queue := s.q.queue ++ vChecks, nTodo := s.q.nTodo + vChecks.length }
    added := s.added ++ vChecks }
  if vChecks.length = 1 then
    match woken with
    | some i => if (s.threads (some i)).asleep then some (s'.notify (· = some i)) else none
    | none => if ∀ i : Fin n, (s.threads (some i)).asleep = false then some s' else none
  else if vChecks.length > 1 then some (s'.notify Option.isSome)
  else some s'

/-- The clean-up of the previous round at the beginning of the locked section. -/
def settle (s : CheckPool T n) (t : Option (Fin n)) (nNow : ℕ) (fOk : Bool) : CheckPool T n :=
  if nNow ≠ 0 then
    let s' : CheckPool T n := { s.goTo t .looking with
      q := { s.q with fAllOk := s.q.fAllOk && fOk, nTodo := s.q.nTodo - nNow } }
    if s'.q.nTodo = 0 ∧ t ≠ none then s'.notify (· = none) else s'
  else { s.goTo t .looking with q := { s.q with nTotal := s.q.nTotal + 1 } }

/-- The number of checks in the next batch. -/
def nNow (q : CCheckQueue T) : ℕ := max 1 (min q.nBatchSize (q.queue.length / (q.nTotal + q.nIdle + 1)))

/-- The next batch comes from the back of the queue. -/
def batch (q : CCheckQueue T) : List T := (q.queue.drop (q.queue.length - nNow q)).reverse
def dropBatch (q : CCheckQueue T) : CCheckQueue T := { q with queue := q.queue.take (q.queue.length - nNow q) }

/-- The rest of the locked section: the loop around the wait, and the next batch. -/
def serve (s : CheckPool T n) (t : Option (Fin n)) : CheckPool T n :=
  if s.q.queue.isEmpty then
    if t = none ∧ s.q.nTodo = 0 then
      { s.goTo t .outside with
        q := { s.q with nTotal := s.q.nTotal - 1, fAllOk := true }
        added := [], executed := [], skipped := [], result := some s.q.fAllOk }
    else { s.goTo t (.waiting false) with q := { s.q with nIdle := s.q.nIdle + 1 } }
  else { s.goTo t (.working (batch s.q) (nNow s.q) s.q.fAllOk) with q := dropBatch s.q }

/-- The end of `cond.wait`. -/
def wake (s : CheckPool T n) (t : Option (Fin n)) : CheckPool T n :=
  { s.goTo t .looking with q := { s.q with nIdle := s.q.nIdle - 1 } }

/-- One check of a batch, which is skipped after a failure. -/
def work (check : T → Bool) (s : CheckPool T n) (t : Option (Fin n)) (c : T) (vChecks : List T) (nNow : ℕ) (fOk : Bool) :
    CheckPool T n :=
  if fOk then { s.goTo t (.working vChecks nNow (check c)) with executed := s.executed ++ [c] }
  else { s.goTo t (.working vChecks nNow fOk) with skipped := s.skipped ++ [c] }

def step (check : T → Bool) (s : CheckPool T n) : CheckAction T n → Option (CheckPool T n)
  | .add vChecks woken => match s.threads none with
    -- the controller adds checks before it calls `Wait`
    | .outside => s.add vChecks woken
    | _ => none
  | .enter t => match s.threads t with
    | .outside => some (s.goTo t (.locking 0 true))
    | _ => none
  | .proceed t => match s.threads t with
    | .locking nNow fOk => some ((s.settle t nNow fOk).serve t)
    | .waiting true => some ((s.wake t).serve t)
    | .working [] nNow fOk => some (s.goTo t (.locking nNow fOk))
    | .working (c :: vChecks) nNow fOk => some (s.work check t c vChecks nNow fOk)
    | _ => none
  | .spurious t => match s.threads t with
    | .waiting _ => some ((s.wake t).serve t)
    | _ => none

/-! ## The accounts -/

variable {check : T → Bool} {s s' : CheckPool T n} {t : Option (Fin n)} {a : CheckAction T n} {point : CheckPoint T}
  {vChecks : List T} {woken : Option (Fin n)} {q : CCheckQueue T} {fOk : Bool}

/-- Every check of the round is in one place, `nTodo` counts those not settled yet, and failures are remembered. -/
structure Sound (check : T → Bool) (s : CheckPool T n) : Prop where
  todo : s.q.nTodo = s.q.queue.length + ∑ t, (s.threads t).held
  checks : (s.added : Multiset T) = s.q.queue + ∑ t, ((s.threads t).left : Multiset T) + s.executed + s.skipped
  regular : ∀ t, (s.threads t).Regular
  failed : (∃ c ∈ s.executed, check c = false) ↔ s.q.fAllOk = false ∨ ∃ t, (s.threads t).ok = false
  skips : s.skipped ≠ [] → ∃ c ∈ s.executed, check c = false

section

variable (h : Sound check s)
include h

lemma Sound.notify (reached : Option (Fin n) → Bool) : Sound check (s.notify reached) := by
  have hsame : ∀ {β : Type} (g : CheckPoint T → β), (∀ point, g point.notify = g point) →
      ∀ t, g ((s.notify reached).threads t) = g (s.threads t) := fun g hg t => by
    simp only [CheckPool.notify]
    split
    · exact hg _
    · rfl
  refine ⟨?_, ?_, fun t => ?_, ?_, h.skips⟩
  · simp only [hsame _ notify_held]
    exact h.todo
  · simp only [hsame _ notify_left]
    exact h.checks
  · simp only [CheckPool.notify]
    split
    · exact (h.regular t).notify
    · exact h.regular t
  · simp only [hsame _ notify_ok]
    exact h.failed

lemma Sound.regular_update (hreg : point.Regular) : ∀ u, (update s.threads t point u).Regular :=
  (forall_update_iff s.threads fun _ p => p.Regular).2 ⟨hreg, fun u _ => h.regular u⟩

variable (t point) in
lemma Sound.goTo (hheld : point.held = (s.threads t).held)
    (hleft : point.left = (s.threads t).left) (hok : point.ok = (s.threads t).ok) (hreg : point.Regular) :
    Sound check (s.goTo t point) := by
  have hsame : ∀ {β : Type} (g : CheckPoint T → β), g point = g (s.threads t) →
      ∀ u, g (update s.threads t point u) = g (s.threads u) := fun g hg =>
    (forall_update_iff s.threads fun u p => g p = g (s.threads u)).2 ⟨hg, fun _ _ => rfl⟩
  refine ⟨?_, ?_, h.regular_update hreg, ?_, h.skips⟩
  · simp only [CheckPool.goTo, hsame held hheld]
    exact h.todo
  · simp only [CheckPool.goTo, hsame left hleft]
    exact h.checks
  · simp only [CheckPool.goTo, hsame ok hok]
    exact h.failed

lemma Sound.counts (nIdle nTotal : ℕ) : Sound check { s with q := { s.q with nIdle := nIdle, nTotal := nTotal } } :=
  { h with }

end

section

variable (s t point)

lemma sum_held_update :
    ∑ u, (update s.threads t point u).held + (s.threads t).held = ∑ u, (s.threads u).held + point.held :=
  sum_update held s.threads t point

lemma sum_left_update : ∑ u, ((update s.threads t point u).left : Multiset T) + (s.threads t).left =
    ∑ u, ((s.threads u).left : Multiset T) + point.left :=
  sum_update (fun point => (point.left : Multiset T)) s.threads t point

lemma exists_ok_update : (∃ u, (update s.threads t point u).ok = false) ↔
    point.ok = false ∨ ∃ u, u ≠ t ∧ (s.threads u).ok = false :=
  exists_update_iff s.threads fun _ point => point.ok = false

lemma exists_ok_split :
    (∃ u, (s.threads u).ok = false) ↔ (s.threads t).ok = false ∨ ∃ u, u ≠ t ∧ (s.threads u).ok = false := by
  rw [← s.exists_ok_update t, update_eq_self]

end

lemma exists_of_add (hs : s.add vChecks woken = some s') :
    ∃ reached, s' = notify { s with
      q := { s.q with queue := s.q.queue ++ vChecks, nTodo := s.q.nTodo + vChecks.length }
      added := s.added ++ vChecks } reached := by
  simp only [add] at hs
  split at hs
  · split at hs
    · split at hs
      · cases hs
        exact ⟨_, rfl⟩
      · cases hs
    · split at hs
      · cases hs
        exact ⟨fun _ => false, rfl⟩
      · cases hs
  · split at hs
    · cases hs
      exact ⟨_, rfl⟩
    · cases hs
      exact ⟨fun _ => false, rfl⟩

lemma Sound.add (h : Sound check s) (hs : s.add vChecks woken = some s') : Sound check s' := by
  have hadded : Sound check { s with
      q := { s.q with queue := s.q.queue ++ vChecks, nTodo := s.q.nTodo + vChecks.length }
      added := s.added ++ vChecks } := by
    refine ⟨?_, ?_, h.regular, h.failed, h.skips⟩
    · have htodo := h.todo
      simp only [length_append]
      omega
    · simp only [← coe_add, h.checks]
      abel
  obtain ⟨reached, rfl⟩ := exists_of_add hs
  exact hadded.notify reached

lemma Sound.settle (h : Sound check s) {nNow : ℕ} (ht : s.threads t = .locking nNow fOk) :
    Sound check (s.settle t nNow fOk) := by
  unfold CheckPool.settle
  split_ifs with hzero
  · have hdone : Sound check { s.goTo t .looking with
        q := { s.q with fAllOk := s.q.fAllOk && fOk, nTodo := s.q.nTodo - nNow } } := by
      refine ⟨?_, ?_, h.regular_update trivial, h.failed.trans ?_, h.skips⟩
      · have htodo := h.todo
        have hsum := s.sum_held_update t .looking
        simp only [ht, held_looking, held_locking] at hsum
        simp only [CheckPool.goTo]
        omega
      · have hsum := s.sum_left_update t .looking
        simp only [ht, left_looking, left_locking, coe_nil, add_zero] at hsum
        simp only [CheckPool.goTo, hsum]
        exact h.checks
      · -- what the thread knew, `fAllOk` knows now
        simp only [CheckPool.goTo, exists_ok_update, s.exists_ok_split t, ht, Bool.and_eq_false_iff]
        tauto
    dsimp only
    split
    · exact hdone.notify _
    · exact hdone
  · have hzero : nNow = 0 := by simpa using hzero
    have hreg := h.regular t
    rw [ht] at hreg
    have hfOk : fOk = true := hreg hzero
    refine (h.goTo t .looking ?_ ?_ ?_ trivial).counts _ _
    · simp [ht, hzero]
    · simp [ht]
    · simp [ht, hfOk]

lemma nNow_pos (q : CCheckQueue T) : 0 < nNow q := lt_of_lt_of_le one_pos (le_max_left ..)

lemma nNow_le (hq : q.queue ≠ []) : nNow q ≤ q.queue.length := by
  have hlen : 0 < q.queue.length := length_pos_iff.2 hq
  have hdiv : q.queue.length / (q.nTotal + q.nIdle + 1) ≤ q.queue.length := div_le_self ..
  unfold nNow
  omega

lemma length_dropBatch (hq : q.queue ≠ []) : (dropBatch q).queue.length + nNow q = q.queue.length := by
  have hle := nNow_le hq
  simp only [dropBatch, length_take]
  omega

lemma coe_queue (q : CCheckQueue T) : (q.queue : Multiset T) = ((dropBatch q).queue : Multiset T) + batch q := by
  rw [dropBatch, batch, coe_reverse, coe_add, take_append_drop]

section

variable (h : Sound check s)
include h

/-- When nothing is left to do, nobody holds a check, and no failure is hidden in a thread. -/
theorem Sound.nobody (hq : s.q.queue = []) (htodo : s.q.nTodo = 0) (u : Option (Fin n)) :
    (s.threads u).held = 0 ∧ (s.threads u).left = [] ∧ (s.threads u).ok = true := by
  have hsum := h.todo
  rw [htodo, hq, length_nil, zero_add] at hsum
  have hheld := Finset.sum_eq_zero_iff.1 hsum.symm u (Finset.mem_univ u)
  exact ⟨hheld, (h.regular u).of_held_eq_zero hheld⟩

lemma Sound.fAllOk_eq (hq : s.q.queue = []) (htodo : s.q.nTodo = 0) : s.q.fAllOk = s.added.all check := by
  have hchecks := h.checks
  have hnobody := h.nobody hq htodo
  simp only [hq, (hnobody _).2.1, coe_nil, Finset.sum_const_zero, zero_add] at hchecks
  have hmem : ∀ c, c ∈ s.added ↔ c ∈ s.executed ∨ c ∈ s.skipped := fun c => by
    rw [← mem_coe, hchecks, mem_add, mem_coe, mem_coe]
  have hfailed : (∃ c ∈ s.executed, check c = false) ↔ s.q.fAllOk = false := by
    rw [h.failed]
    simp [(hnobody _).2.2]
  rw [Bool.eq_iff_iff, List.all_eq_true]
  constructor
  · intro hall c hc
    by_contra hcheck
    have hno : ¬ ∃ c ∈ s.executed, check c = false := by rw [hfailed, hall]; decide
    rcases (hmem c).1 hc with hc | hc
    · exact hno ⟨c, hc, by simpa using hcheck⟩
    · exact hno (h.skips (ne_nil_of_mem hc))
  · intro hall
    by_contra hfalse
    obtain ⟨c, hc, hcheck⟩ := hfailed.2 (by simpa using hfalse)
    rw [hall c ((hmem c).2 (.inl hc))] at hcheck
    cases hcheck

lemma Sound.serve (ht : s.threads t = .looking) : Sound check (s.serve t) := by
  unfold CheckPool.serve
  split
  · rename_i hempty
    have hempty : s.q.queue = [] := List.isEmpty_iff.1 hempty
    split_ifs with hret
    · -- the master returns
      have hnobody := h.nobody hempty hret.2
      have hupdate := (forall_update_iff s.threads (a := t) (b := .outside)
        fun _ p => p.held = 0 ∧ p.left = [] ∧ p.ok = true).2 ⟨⟨rfl, rfl, rfl⟩, fun u _ => hnobody u⟩
      refine ⟨?_, ?_, h.regular_update trivial, ?_, absurd rfl⟩
      · simp [CheckPool.goTo, (hupdate _).1, hempty, hret.2]
      · simp [CheckPool.goTo, (hupdate _).2.1, hempty]
      · simp [CheckPool.goTo, (hupdate _).2.2]
    · refine (h.goTo t (.waiting false) ?_ ?_ ?_ trivial).counts _ _ <;> rw [ht] <;> rfl
  · rename_i hne
    have hne : s.q.queue ≠ [] := fun hnil => hne (by simp [hnil])
    refine ⟨?_, ?_, h.regular_update (nNow_pos s.q), h.failed.trans ?_, h.skips⟩
    · have htodo := h.todo
      have hsum := s.sum_held_update t (.working (batch s.q) (nNow s.q) s.q.fAllOk)
      have hlen := length_dropBatch hne
      simp only [ht, held_looking, held_working] at hsum
      change s.q.nTodo = (dropBatch s.q).queue.length + _
      simp only [CheckPool.goTo]
      omega
    · have hsum := s.sum_left_update t (.working (batch s.q) (nNow s.q) s.q.fAllOk)
      simp only [ht, left_looking, left_working, coe_nil, add_zero] at hsum
      simp only [CheckPool.goTo, hsum]
      rw [h.checks, coe_queue]
      abel
    · simp only [CheckPool.goTo, exists_ok_update, s.exists_ok_split t, ht]
      tauto

lemma Sound.work {c : T} {nNow : ℕ}
    (ht : s.threads t = .working (c :: vChecks) nNow fOk) : Sound check (s.work check t c vChecks nNow fOk) := by
  have hreg : 0 < nNow := by
    have hreg := h.regular t
    rwa [ht] at hreg
  have htodo := h.todo
  have hleft : ∀ b, ∑ u, ((update s.threads t (.working vChecks nNow b) u).left : Multiset T) + {c} =
      ∑ u, ((s.threads u).left : Multiset T) := fun b => by
    have hsum := s.sum_left_update t (.working vChecks nNow b)
    simp only [ht, left_working, ← cons_coe, ← singleton_add] at hsum
    rw [← add_assoc] at hsum
    exact add_right_cancel hsum
  have hheld : ∀ b, ∑ u, (update s.threads t (.working vChecks nNow b) u).held = ∑ u, (s.threads u).held :=
    fun b => by
      have hsum := s.sum_held_update t (.working vChecks nNow b)
      simp only [ht, held_working] at hsum
      omega
  unfold CheckPool.work
  split_ifs with hfOk
  · refine ⟨?_, ?_, h.regular_update hreg, ?_, fun hskip => ?_⟩
    · simpa only [CheckPool.goTo, hheld] using htodo
    · change (s.added : Multiset T) = _ + _ + ((s.executed ++ [c] : List T) : Multiset T) + _
      rw [h.checks, ← hleft (check c), ← coe_add]
      simp only [CheckPool.goTo, coe_singleton]
      abel
    · simp only [CheckPool.goTo, exists_ok_update, mem_append, List.mem_singleton, or_and_right, exists_or,
        exists_eq_left]
      rw [h.failed, s.exists_ok_split t, ht, ok_working, hfOk]
      simp only [reduceCtorEq, false_or]
      exact or_assoc.trans (or_congr_right or_comm)
    · obtain ⟨c', hc', hcheck⟩ := h.skips hskip
      exact ⟨c', mem_append_left _ hc', hcheck⟩
  · have hfOk : fOk = false := by simpa using hfOk
    refine ⟨?_, ?_, h.regular_update hreg, h.failed.trans ?_, fun _ => ?_⟩
    · simpa only [CheckPool.goTo, hheld] using htodo
    · change (s.added : Multiset T) = _ + _ + _ + ((s.skipped ++ [c] : List T) : Multiset T)
      rw [h.checks, ← hleft fOk, ← coe_add]
      simp only [CheckPool.goTo, coe_singleton]
      abel
    · simp only [CheckPool.goTo, exists_ok_update, ok_working]
      rw [s.exists_ok_split t, ht, ok_working]
    · exact h.failed.2 (.inr ⟨t, by rw [ht]; exact hfOk⟩)

end

/-! ## What a step can do -/

/-- The steps, with the locked sections in two halves. -/
inductive Effect (check : T → Bool) (s : CheckPool T n) : CheckAction T n → CheckPool T n → Prop
  | add (vChecks : List T) (woken : Option (Fin n)) (s' : CheckPool T n) : s.threads none = .outside →
      s.add vChecks woken = some s' → Effect check s (.add vChecks woken) s'
  | enter (t : Option (Fin n)) : s.threads t = .outside → Effect check s (.enter t) (s.goTo t (.locking 0 true))
  | lock (t : Option (Fin n)) (nNow : ℕ) (fOk : Bool) : s.threads t = .locking nNow fOk →
      Effect check s (.proceed t) ((s.settle t nNow fOk).serve t)
  | wake (t : Option (Fin n)) (notified : Bool) (a : CheckAction T n) : a = .proceed t ∨ a = .spurious t →
      s.threads t = .waiting notified → Effect check s a ((s.wake t).serve t)
  | finish (t : Option (Fin n)) (nNow : ℕ) (fOk : Bool) : s.threads t = .working [] nNow fOk →
      Effect check s (.proceed t) (s.goTo t (.locking nNow fOk))
  | work (t : Option (Fin n)) (c : T) (vChecks : List T) (nNow : ℕ) (fOk : Bool) :
      s.threads t = .working (c :: vChecks) nNow fOk → Effect check s (.proceed t) (s.work check t c vChecks nNow fOk)

lemma effect_of_step (h : s.step check a = some s') : Effect check s a s' := by
  cases a with
  | add vChecks woken =>
    simp only [step] at h
    split at h
    · rename_i ht
      exact .add vChecks woken s' ht h
    · cases h
  | enter t =>
    simp only [step] at h
    split at h
    · rename_i ht
      cases h
      exact .enter t ht
    · cases h
  | proceed t =>
    simp only [step] at h
    split at h
    case h_1 nNow fOk ht =>
      cases h
      exact .lock t nNow fOk ht
    case h_2 ht =>
      cases h
      exact .wake t true _ (.inl rfl) ht
    case h_3 nNow fOk ht =>
      cases h
      exact .finish t nNow fOk ht
    case h_4 c vChecks nNow fOk ht =>
      cases h
      exact .work t c vChecks nNow fOk ht
    case h_5 => cases h
  | spurious t =>
    simp only [step] at h
    split at h
    · rename_i notified ht
      cases h
      exact .wake t notified _ (.inr rfl) ht
    · cases h

variable (s t) in
lemma settle_threads_self (nNow : ℕ) (fOk : Bool) : (s.settle t nNow fOk).threads t = .looking := by
  unfold settle
  split
  · dsimp only
    split
    · simp [notify, goTo, CheckPoint.notify]
    · simp [goTo]
  · simp [goTo]

lemma Sound.wake (h : Sound check s) {notified : Bool} (ht : s.threads t = .waiting notified) :
    Sound check (s.wake t) := by
  refine (h.goTo t .looking ?_ ?_ ?_ trivial).counts _ _ <;> rw [ht] <;> rfl

lemma Sound.effect (h : Sound check s) (he : Effect check s a s') : Sound check s' := by
  cases he with
  | add vChecks woken _ _ hs => exact h.add hs
  | enter t ht =>
    refine h.goTo _ _ ?_ ?_ ?_ fun _ => rfl
    all_goals
      rw [ht]
      rfl
  | lock t nNow fOk ht => exact (h.settle ht).serve (s.settle_threads_self t nNow fOk)
  | wake t notified _ _ ht => exact (h.wake ht).serve (by simp [CheckPool.wake, CheckPool.goTo])
  | finish t nNow fOk ht =>
    have hreg := h.regular t
    rw [ht] at hreg
    refine h.goTo _ _ ?_ ?_ ?_ fun hzero => absurd hzero (ne_of_gt hreg)
    all_goals
      rw [ht]
      rfl
  | work t c vChecks nNow fOk ht => exact h.work ht

lemma sound_of_reachable {nBatchSize : ℕ} (h : Reachable (step check) (init T n nBatchSize) s) : Sound check s := by
  have hinit : Sound check (init T n nBatchSize) := by
    refine ⟨?_, ?_, fun _ => trivial, ?_, absurd rfl⟩
    · simp [init, CheckPoint.held]
    · simp [init, CheckPoint.left]
    · simp [init, CheckPoint.ok]
  exact h.invariant hinit fun _ _ _ hs hstep => hs.effect (effect_of_step hstep)

/-! ## The end of `Wait` -/

def InWait (s : CheckPool T n) : Prop := s.threads none ≠ .outside

variable (s t) in
lemma serve_cases :
    (s.q.queue = [] ∧ t = none ∧ s.q.nTodo = 0 ∧ s.serve t = { s.goTo t .outside with
        q := { s.q with nTotal := s.q.nTotal - 1, fAllOk := true }
        added := [], executed := [], skipped := [], result := some s.q.fAllOk }) ∨
      (s.q.queue = [] ∧ ¬ (t = none ∧ s.q.nTodo = 0) ∧
        s.serve t = { s.goTo t (.waiting false) with q := { s.q with nIdle := s.q.nIdle + 1 } }) ∨
      (s.q.queue ≠ [] ∧
        s.serve t = { s.goTo t (.working (batch s.q) (nNow s.q) s.q.fAllOk) with q := dropBatch s.q }) := by
  unfold serve
  simp only [List.isEmpty_iff]
  split_ifs with hq hret
  · exact .inl ⟨hq, hret.1, hret.2, rfl⟩
  · exact .inr (.inl ⟨hq, hret, rfl⟩)
  · exact .inr (.inr ⟨hq, rfl⟩)

variable (s t) in
@[simp] lemma serve_nTodo : (s.serve t).q.nTodo = s.q.nTodo := by
  obtain ⟨-, -, -, h⟩ | ⟨-, -, h⟩ | ⟨-, h⟩ := s.serve_cases t
  all_goals simp [h, dropBatch]

lemma serve_threads_ne (s : CheckPool T n) {t u : Option (Fin n)} (hu : u ≠ t) :
    (s.serve t).threads u = s.threads u := by
  obtain ⟨-, -, -, h⟩ | ⟨-, -, h⟩ | ⟨-, h⟩ := s.serve_cases t
  all_goals
    rw [h]
    exact update_of_ne hu ..

variable (s t) in
lemma settle_spec (nNow : ℕ) (fOk : Bool) :
    (s.settle t nNow fOk).q.queue = s.q.queue ∧ (s.settle t nNow fOk).q.nTodo = s.q.nTodo - nNow ∧
      (s.settle t nNow fOk).added = s.added ∧
      ∀ u, u ≠ t → (s.settle t nNow fOk).threads u =
        if nNow ≠ 0 ∧ s.q.nTodo - nNow = 0 ∧ u = none then (s.threads u).notify else s.threads u := by
  unfold settle
  split_ifs with hne
  · dsimp only
    split_ifs with hlast
    · refine ⟨rfl, rfl, rfl, fun u hu => ?_⟩
      simp [notify, goTo, update_of_ne hu, hne, hlast.1]
    · refine ⟨rfl, rfl, rfl, fun u hu => ?_⟩
      have hno : ¬ (nNow ≠ 0 ∧ s.q.nTodo - nNow = 0 ∧ u = none) := by
        rintro ⟨-, hzero, rfl⟩
        exact hlast ⟨hzero, hu.symm⟩
      rw [if_neg hno]
      exact update_of_ne hu ..
  · obtain rfl : nNow = 0 := by simpa using hne
    refine ⟨rfl, rfl, rfl, fun u hu => ?_⟩
    simp [goTo, update_of_ne hu]

lemma notify_eq_outside (h : point.notify = .outside) : point = .outside := by
  cases point with
  | outside => rfl
  | _ => cases h

/-- A step that takes a thread to another place than `outside` ends no call of `Wait`. -/
theorem InWait.update (h : s.InWait) (t : Option (Fin n)) (hpoint : point ≠ .outside) :
    update s.threads t point none ≠ .outside := by
  by_cases ht : none = t
  · subst ht
    rwa [update_self]
  · rwa [update_of_ne ht]

lemma InWait.settle (h : s.InWait) (t : Option (Fin n)) (nNow : ℕ) (fOk : Bool) : (s.settle t nNow fOk).InWait := by
  intro hout
  by_cases ht : none = t
  · rw [← ht, settle_threads_self] at hout
    cases hout
  · rw [(s.settle_spec t nNow fOk).2.2.2 none ht] at hout
    split at hout
    · exact h (notify_eq_outside hout)
    · exact h hout

variable (check s t) in
lemma work_threads (c : T) (vChecks : List T) (nNow : ℕ) (fOk : Bool) :
    ∃ b, (s.work check t c vChecks nNow fOk).threads = update s.threads t (.working vChecks nNow b) := by
  unfold work
  split
  · exact ⟨_, rfl⟩
  · exact ⟨_, rfl⟩

/-- What the controller gets, and what it leaves behind. -/
structure Returned (check : T → Bool) (s s' : CheckPool T n) : Prop where
  result : s'.result = some (s.added.all check)
  queue : s'.q.queue = []
  nTodo : s'.q.nTodo = 0
  fAllOk : s'.q.fAllOk = true
  nobody : ∀ t, (s'.threads t).held = 0 ∧ (s'.threads t).left = []

lemma Sound.returned_of_serve (h : Sound check s) (hin : s.InWait) (hout : ¬ (s.serve t).InWait) :
    Returned check s (s.serve t) := by
  obtain ⟨hq, rfl, htodo, heq⟩ | ⟨-, -, heq⟩ | ⟨-, heq⟩ := s.serve_cases t
  · rw [heq]
    refine ⟨by rw [h.fAllOk_eq hq htodo], hq, htodo, rfl, ?_⟩
    refine (forall_update_iff s.threads fun _ p => p.held = 0 ∧ p.left = []).2 ⟨⟨rfl, rfl⟩, fun u _ => ?_⟩
    exact ⟨(h.nobody hq htodo u).1, (h.nobody hq htodo u).2.1⟩
  all_goals
    rw [heq] at hout
    exact absurd (hin.update t (by simp)) hout

lemma Sound.returned (h : Sound check s) (he : Effect check s a s') (hin : s.InWait)
    (hout : ¬ s'.InWait) : Returned check s s' := by
  cases he with
  | add vChecks woken _ ht _ => exact absurd ht hin
  | enter t ht | finish t nNow fOk ht => exact absurd (hin.update t (by simp)) hout
  | lock t nNow fOk ht =>
    have hret := (h.settle ht).returned_of_serve (hin.settle t nNow fOk) hout
    exact { hret with result := by rw [hret.result, (s.settle_spec t nNow fOk).2.2.1] }
  | wake t notified _ _ ht =>
    have hret := (h.wake ht).returned_of_serve (hin.update t (by simp)) hout
    exact { hret with }
  | work t c vChecks nNow fOk ht =>
    obtain ⟨b, hb⟩ := work_threads check s t c vChecks nNow fOk
    refine absurd ?_ hout
    rw [InWait, hb]
    exact hin.update t (by simp)

/-! ## The master is not forgotten -/

/-- The master sleeps only while the queue is empty and other threads have something to do. -/
def MasterHeard (s : CheckPool T n) : Prop := s.threads none = .waiting false → s.q.queue = [] ∧ s.q.nTodo ≠ 0

lemma notify_ne_asleep (point : CheckPoint T) : point.notify ≠ .waiting false := by
  intro h
  cases point <;> cases h

lemma MasterHeard.settle (h : s.MasterHeard) (t : Option (Fin n)) (nNow : ℕ) (fOk : Bool) :
    (s.settle t nNow fOk).MasterHeard := by
  intro hasleep
  obtain ⟨hqueue, htodo, -, hthreads⟩ := s.settle_spec t nNow fOk
  by_cases ht : none = t
  · rw [← ht, settle_threads_self] at hasleep
    cases hasleep
  · rw [hthreads none ht] at hasleep
    rw [hqueue, htodo]
    split at hasleep
    · exact absurd hasleep (notify_ne_asleep _)
    · rename_i hnot
      obtain ⟨hq, hpos⟩ := h hasleep
      refine ⟨hq, fun hzero => hnot ⟨?_, hzero, rfl⟩⟩
      rintro rfl
      exact hpos hzero

lemma MasterHeard.serve (h : s.MasterHeard) (t : Option (Fin n)) : (s.serve t).MasterHeard := by
  intro hasleep
  by_cases ht : none = t
  · subst ht
    obtain ⟨-, -, -, heq⟩ | ⟨hq, htodo, heq⟩ | ⟨-, heq⟩ := s.serve_cases none
    · rw [heq] at hasleep
      simp [goTo] at hasleep
    · rw [heq]
      exact ⟨hq, fun hzero => htodo ⟨rfl, hzero⟩⟩
    · rw [heq] at hasleep
      simp [goTo] at hasleep
  · rw [serve_threads_ne s ht] at hasleep
    obtain ⟨hq, hpos⟩ := h hasleep
    obtain ⟨-, hnone, -⟩ | ⟨-, -, heq⟩ | ⟨hne, -⟩ := s.serve_cases t
    · exact absurd hnone.symm ht
    · rw [heq]
      exact ⟨hq, hpos⟩
    · exact absurd hq hne

/-- A thread goes elsewhere than to sleep, and the queue stays as it is. -/
theorem MasterHeard.move (h : s.MasterHeard)
    (hthreads : s'.threads = update s.threads t point) (hqueue : s'.q.queue = s.q.queue)
    (htodo : s'.q.nTodo = s.q.nTodo) (hpoint : point ≠ .waiting false) : s'.MasterHeard := by
  intro hasleep
  rw [hthreads] at hasleep
  rw [hqueue, htodo]
  by_cases ht : none = t
  · subst ht
    exact absurd (by simpa using hasleep) hpoint
  · rw [update_of_ne ht] at hasleep
    exact h hasleep

lemma add_threads (hs : s.add vChecks woken = some s')
    (u : Option (Fin n)) : s'.threads u = s.threads u ∨ s'.threads u = (s.threads u).notify := by
  obtain ⟨reached, rfl⟩ := exists_of_add hs
  simp only [notify]
  split
  · exact .inr rfl
  · exact .inl rfl

/-- The thread that takes the step. -/
def mover : CheckAction T n → Option (Option (Fin n))
  | .add _ _ => none
  | .enter t | .proceed t | .spurious t => some t

lemma Effect.other (h : Effect check s a s') {u : Option (Fin n)} (hu : mover a ≠ some u) :
    s'.threads u = s.threads u ∨ s'.threads u = (s.threads u).notify := by
  have hne : ∀ {t}, some t ≠ some u → u ≠ t := fun h hut => h (by rw [hut])
  cases h with
  | add vChecks woken _ _ hs => exact add_threads hs u
  | enter t ht | finish t nNow fOk ht =>
    have hut : u ≠ t := hne hu
    exact .inl (update_of_ne hut ..)
  | lock t nNow fOk ht =>
    have hut : u ≠ t := hne hu
    rw [serve_threads_ne _ hut, (s.settle_spec t nNow fOk).2.2.2 u hut]
    split
    · exact .inr rfl
    · exact .inl rfl
  | wake t notified _ ha ht =>
    have hut : u ≠ t := by rcases ha with rfl | rfl <;> exact hne hu
    rw [serve_threads_ne _ hut]
    exact .inl (update_of_ne hut ..)
  | work t c vChecks nNow fOk ht =>
    have hut : u ≠ t := hne hu
    obtain ⟨b, hb⟩ := work_threads check s t c vChecks nNow fOk
    rw [hb]
    exact .inl (update_of_ne hut ..)

lemma MasterHeard.effect (h : s.MasterHeard) (he : Effect check s a s') : s'.MasterHeard := by
  cases he with
  | add vChecks woken _ hnone hs =>
    intro hasleep
    rcases add_threads hs none with heq | heq <;> rw [heq, hnone] at hasleep <;> cases hasleep
  | enter t ht | finish t nNow fOk ht => exact h.move rfl rfl rfl (by simp)
  | lock t nNow fOk ht => exact (h.settle t nNow fOk).serve t
  | wake t notified _ ha ht =>
    have hwake : (s.wake t).MasterHeard := h.move rfl rfl rfl (by simp)
    exact hwake.serve t
  | work t c vChecks nNow fOk ht =>
    unfold work
    split
    · exact h.move rfl rfl rfl (by simp)
    · exact h.move rfl rfl rfl (by simp)

/-- No thread stops in the middle of a locked section. -/
def NoneLooking (s : CheckPool T n) : Prop := ∀ t, s.threads t ≠ .looking

variable (s t) in
lemma serve_threads_self : (s.serve t).threads t ≠ .looking := by
  obtain ⟨-, -, -, h⟩ | ⟨-, -, h⟩ | ⟨-, h⟩ := s.serve_cases t
  all_goals simp [h, goTo]

lemma NoneLooking.effect (h : s.NoneLooking) (he : Effect check s a s') : s'.NoneLooking := by
  intro u
  by_cases hu : mover a = some u
  · cases he with
    | add vChecks woken _ _ hs => cases hu
    | enter t ht | finish t nNow fOk ht =>
      cases hu
      simp [goTo]
    | lock t nNow fOk ht =>
      cases hu
      exact serve_threads_self _ _
    | wake t notified _ ha ht =>
      rcases ha with rfl | rfl <;> cases hu <;> exact serve_threads_self _ _
    | work t c vChecks nNow fOk ht =>
      cases hu
      obtain ⟨b, hb⟩ := work_threads check s u c vChecks nNow fOk
      simp [hb]
  · rcases he.other hu with heq | heq
    · rw [heq]
      exact h u
    · rw [heq]
      intro hlook
      cases hp : s.threads u with
      | looking => exact h u hp
      | _ => simp [hp, CheckPoint.notify] at hlook

/-! ## `Wait` returns -/

section

variable {nBatchSize : ℕ} {r : Run (step check) (init T n nBatchSize)} {k : ℕ}

variable (r k) in
lemma heard : (r.state k).MasterHeard ∧ (r.state k).NoneLooking := by
  refine (r.reachable k).invariant (I := fun s => s.MasterHeard ∧ s.NoneLooking) ?_ fun s a s' h hs => ?_
  · refine ⟨fun hnone => ?_, fun t ht => ?_⟩
    · cases hnone
    · cases ht
  · exact ⟨h.1.effect (effect_of_step hs), h.2.effect (effect_of_step hs)⟩

lemma Effect.nTodo_le (h : Effect check s a s') (hin : s.InWait) : s'.q.nTodo ≤ s.q.nTodo := by
  cases h with
  | add vChecks woken _ hnone hs => exact absurd hnone hin
  | enter t ht => exact le_rfl
  | lock t nNow fOk ht =>
    rw [serve_nTodo, (s.settle_spec t nNow fOk).2.1]
    omega
  | wake t notified _ ha ht => rw [serve_nTodo]; exact le_rfl
  | finish t nNow fOk ht => exact le_rfl
  | work t c vChecks nNow fOk ht =>
    unfold CheckPool.work
    split <;> exact le_rfl

lemma step_proceed (ht : (s.threads t).Active) : (s.step check (.proceed t)).isSome := by
  simp only [step]
  cases hpoint : s.threads t with
  | locking nNow fOk => rfl
  | working vChecks nNow fOk => cases vChecks <;> rfl
  | _ => simp [hpoint, CheckPoint.Active] at ht

lemma Effect.active (h : Effect check s a s') (ht : (s.threads t).Active)
    (ha : a ≠ .proceed t) : s'.threads t = s.threads t := by
  by_cases hmover : mover a = some t
  · exfalso
    cases h with
    | add vChecks woken _ _ _ => cases hmover
    | enter u hu =>
      cases hmover
      simp [hu, CheckPoint.Active] at ht
    | wake u notified _ ha' hu =>
      rcases ha' with rfl | rfl <;> cases hmover
      · exact ha rfl
      · simp [hu, CheckPoint.Active] at ht
    | _ =>
      cases hmover
      exact ha rfl
  · rcases h.other hmover with heq | heq
    · exact heq
    · rw [heq]
      cases hpoint : s.threads t with
      | waiting notified => simp [hpoint, CheckPoint.Active] at ht
      | _ => rfl

variable (hfair : ∀ t, r.Fair (· = .proceed t))

include hfair

lemma exists_proceed (hk : (r.state k).threads t = point) (hp : point.Active) :
    ∃ j, k ≤ j ∧ (r.state j).threads t = point ∧ (r.state j).step check (.proceed t) = some (r.state (j + 1)) := by
  obtain ⟨j, hkj, hj, a, rfl, hs, -⟩ := (hfair t).exists_takes (P := fun s => s.threads t = point) hk
    (fun j _ a ha hnot hj => ((effect_of_step (r.step_of_action ha)).active (hj ▸ hp) hnot).trans hj)
    fun s hs => ⟨_, rfl, step_proceed (hs ▸ hp)⟩
  exact ⟨j, hkj, hj, hs⟩

lemma never_at (hp : point.Active)
    (hleave : ∀ j, k ≤ j → (r.state j).threads t = point → (r.state j).step check (.proceed t) ≠ some (r.state (j + 1))) :
    ∀ j, k ≤ j → (r.state j).threads t ≠ point := by
  intro j hkj ht
  obtain ⟨j', hjj', ht', hs⟩ := exists_proceed hfair ht hp
  exact hleave j' (hkj.trans hjj') ht' hs

/-- While `nTodo` does not fall, no batch is settled, so that no thread has one. -/
theorem nobody_holds (hconst : ∀ j, k ≤ j → (r.state j).q.nTodo = (r.state k).q.nTodo) (t : Option (Fin n)) :
    ∀ j, k ≤ j → ((r.state j).threads t).held = 0 := by
  have hlocking : ∀ nNow fOk, 0 < nNow → ∀ j, k ≤ j → (r.state j).threads t ≠ .locking nNow fOk := by
    intro nNow fOk hpos
    refine never_at hfair trivial fun j hkj ht hs => ?_
    have hle : nNow ≤ (r.state j).q.nTodo := by
      have hsound := sound_of_reachable (r.reachable j)
      have hheld := Finset.single_le_sum (f := fun u => ((r.state j).threads u).held) (fun _ _ => zero_le _)
        (Finset.mem_univ t)
      simp only [ht, held_locking] at hheld
      have htodo := hsound.todo
      omega
    simp only [step, ht, some.injEq] at hs
    have hnext := hconst (j + 1) (by omega)
    rw [← hs, serve_nTodo, ((r.state j).settle_spec t nNow fOk).2.1] at hnext
    have hj := hconst j hkj
    omega
  have hworking : ∀ vChecks nNow fOk, 0 < nNow → ∀ j, k ≤ j → (r.state j).threads t ≠ .working vChecks nNow fOk := by
    intro vChecks
    induction vChecks with
    | nil =>
      intro nNow fOk hpos
      refine never_at hfair trivial fun j hkj ht hs => ?_
      simp only [step, ht, some.injEq] at hs
      refine hlocking nNow fOk hpos (j + 1) (by omega) ?_
      rw [← hs]
      simp [goTo]
    | cons c vChecks ih =>
      intro nNow fOk hpos
      refine never_at hfair trivial fun j hkj ht hs => ?_
      simp only [step, ht, some.injEq] at hs
      obtain ⟨b, hb⟩ := work_threads check (r.state j) t c vChecks nNow fOk
      refine ih nNow b hpos (j + 1) (by omega) ?_
      rw [← hs, hb]
      simp
  intro j hkj
  have hreg := (sound_of_reachable (r.reachable j)).regular t
  cases ht : (r.state j).threads t with
  | locking nNow fOk =>
    by_contra hne
    exact hlocking nNow fOk (pos_of_ne_zero hne) j hkj ht
  | working vChecks nNow fOk =>
    rw [ht] at hreg
    exact absurd ht (hworking vChecks nNow fOk hreg j hkj)
  | _ => rfl

lemma exists_return (k : ℕ) : ∃ j, k ≤ j ∧ ¬ (r.state j).InWait := by
  by_contra hno
  push Not at hno
  have hanti : ∀ i j, k ≤ i → i ≤ j → (r.state j).q.nTodo ≤ (r.state i).q.nTodo := by
    intro i j hki hij
    refine r.kept_from (P := fun s => s.q.nTodo ≤ (r.state i).q.nTodo) (fun m hm a ha hle => ?_) le_rfl hij
    exact ((effect_of_step (r.step_of_action ha)).nTodo_le (hno m (hki.trans hm))).trans hle
  obtain ⟨k₁, hk₁, hconst⟩ := Run.eventually_const_of_antitone hanti
  have hheld := nobody_holds hfair hconst
  have htodo : ∀ j, k₁ ≤ j → (r.state j).q.nTodo = (r.state j).q.queue.length := by
    intro j hj
    rw [(sound_of_reachable (r.reachable j)).todo, Finset.sum_eq_zero fun t _ => hheld t j hj, add_zero]
  -- a master that enters the locked section would return or get a batch
  have hserve : ∀ j, k₁ ≤ j → ∀ s : CheckPool T n, s.q.nTodo = s.q.queue.length → s.serve none ≠ r.state (j + 1) := by
    intro j hj s hs heq
    have hin := hno (j + 1) (by omega)
    have hheld := hheld none (j + 1) (by omega)
    obtain ⟨-, -, -, hout⟩ | ⟨hq, hne, -⟩ | ⟨hq, hwork⟩ := s.serve_cases none
    · rw [← heq, hout] at hin
      exact hin (by simp [goTo])
    · exact hne ⟨rfl, by rw [hs, hq]; rfl⟩
    · rw [← heq, hwork] at hheld
      have hpos := nNow_pos s.q
      simp [goTo] at hheld
      omega
  have hwaiting : ∀ j, k₁ ≤ j → (r.state j).threads none = .waiting true → ∀ a, r.action j = some a →
      mover a ≠ some none := by
    intro j hj ht a ha hmover
    generalize hs' : r.state (j + 1) = s'
    have heff := effect_of_step (r.step_of_action ha)
    rw [hs'] at heff
    cases heff with
    | add vChecks woken _ _ _ => cases hmover
    | wake u notified _ ha' hu =>
      obtain rfl : u = none := by rcases ha' with rfl | rfl <;> exact some.inj hmover
      exact hserve j hj ((r.state j).wake none) (htodo j hj) hs'.symm
    | _ u =>
      cases hmover
      simp_all
  cases ht : (r.state k₁).threads none with
  | outside => exact hno k₁ hk₁ ht
  | looking => exact (heard r k₁).2 none ht
  | locking nNow fOk =>
    have hzero : nNow = 0 := by simpa [ht] using hheld none k₁ le_rfl
    subst hzero
    obtain ⟨j, hj, htj, hs⟩ := exists_proceed hfair ht trivial
    simp only [step, htj, some.injEq] at hs
    refine hserve j hj _ ?_ hs
    obtain ⟨hq, hn, -⟩ := (r.state j).settle_spec none 0 fOk
    rw [hq, hn, Nat.sub_zero, htodo j hj]
  | working vChecks nNow fOk =>
    have hzero : nNow = 0 := by simpa [ht] using hheld none k₁ le_rfl
    have hreg := (sound_of_reachable (r.reachable k₁)).regular none
    rw [ht, hzero] at hreg
    exact absurd hreg (lt_irrefl 0)
  | waiting notified =>
    cases notified with
    | false =>
      obtain ⟨hq, hne⟩ := (heard r k₁).1 ht
      rw [htodo k₁ le_rfl, hq] at hne
      exact hne rfl
    | true =>
      obtain ⟨j, hj, htj, a, rfl, -, ha⟩ := (hfair none).exists_takes (P := fun s => s.threads none = .waiting true) ht
        (fun j hj a ha _ htj => by
          rcases (effect_of_step (r.step_of_action ha)).other (hwaiting j hj htj a ha) with heq | heq
          · exact heq.trans htj
          · rw [heq, htj]
            rfl)
        fun s hs => ⟨_, rfl, by simp [step, hs]⟩
      exact hwaiting j hj htj _ ha rfl

end

/-- **The check queue.** No check is executed more often than it was added; `Wait` returns whether all checks of the
round succeed, with none of them left; and if threads that can go on do so, it returns. -/
theorem checkQueue_correct (check : T → Bool) (n nBatchSize : ℕ) :
    (∀ s, Reachable (step check) (init T n nBatchSize) s → (s.executed : Multiset T) ≤ s.added) ∧
      (∀ s a s', Reachable (step check) (init T n nBatchSize) s → s.step check a = some s' → s.InWait → ¬ s'.InWait →
        Returned check s s') ∧
      ∀ r : Run (step check) (init T n nBatchSize), (∀ t, r.Fair (· = .proceed t)) →
        ∀ k, ∃ j, k ≤ j ∧ ¬ (r.state j).InWait := by
  refine ⟨fun s hs => ?_, fun s a s' hs hstep hin hout => ?_, fun r hfair k => exists_return hfair k⟩
  · rw [(sound_of_reachable hs).checks, add_right_comm]
    exact Multiset.le_add_left _ _
  · exact (sound_of_reachable hs).returned (effect_of_step hstep) hin hout

/-- A worker waits; the master adds two checks, each of them does one, and the master waits for the worker. -/
def twoChecks : List (CheckAction Bool 1) :=
  [.enter (some 0), .proceed (some 0), .add [true, false] none, .enter none] ++
    [none, some 0, none, some 0, none, none, some 0, some 0, none].map .proceed

lemma twoChecks_possible : (twoChecks.foldlM (step id) (init Bool 1 1)).isSome := by decide

/-- The master calls `Wait`, and returns. -/
theorem checkQueue_correct_twoChecks :
    ((Run.ofList (step id) (init Bool 1 1) twoChecks twoChecks_possible).state 4).InWait ∧
      ∃ j, 4 ≤ j ∧ ¬ ((Run.ofList (step id) (init Bool 1 1) twoChecks twoChecks_possible).state j).InWait := by
  constructor
  · intro habs
    cases habs
  · refine (checkQueue_correct id 1 1).2.2 _ (fun t => Run.fair_ofList fun a ha => ?_) 4
    subst ha
    cases t with
    | none => rfl
    | some i => rw [Fin.fin_one_eq_zero i]; rfl

end CheckPool

open CheckPool

end Soferox

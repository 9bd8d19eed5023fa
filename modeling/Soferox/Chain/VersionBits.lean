import Soferox.Chain.MedianTime

/-!
# Version bits

`versionbits.cpp`: `AbstractThresholdConditionChecker::GetStateFor`, with the cache it shares between calls, against the
recursion from period to period that the cache and the early stop are meant to speed up.

* `getStateFor` — one call, on the cache;
* `bip9State` — the recursion, without a cache;
* `getStateFor_ok` — a call returns the state of the recursion and leaves a cache of such states;
* `getStates_ok` — any sequence of calls, if the deployment does not time out before it starts.
-/

namespace Soferox

open Function Option Nat

inductive ThresholdState
  | defined
  | started
  | lockedIn
  | active
  | failed
  deriving DecidableEq, Repr

/-- `AbstractThresholdConditionChecker`: its virtual functions, at the parameters of the network. -/
structure AbstractThresholdConditionChecker (ι : Type) where
  period : ℕ
  threshold : ℤ
  beginTime : ℤ
  endTime : ℤ
  condition : ι → Bool
  period_pos : 0 < period

/-- `Consensus::BIP9Deployment::ALWAYS_ACTIVE`. -/
def alwaysActive : ℤ := -1

/-- `ThresholdConditionCache`; its keys are block pointers, `nullptr` among them. -/
abbrev ThresholdConditionCache (ι : Type) := Option ι → Option ThresholdState

namespace AbstractThresholdConditionChecker

variable {ι : Type} (c : AbstractThresholdConditionChecker ι) (T : TimedTree ι)

/-! ## The calls -/

/-- The counting loop of `GetStateFor`; `none` where it would follow a null pointer. -/
def countConditions : ℕ → Option ι → Option ℕ
  | 0, _ => some 0
  | _ + 1, none => none
  | n + 1, some pindexCount => do
    let rest ← countConditions n (T.pprev pindexCount)
    return rest + if c.condition pindexCount then 1 else 0

/-- The `switch` of `GetStateFor`: the state of the period after the one that ends with `pindexPrev`. -/
def stateNext (state : ThresholdState) (pindexPrev : ι) : Option ThresholdState :=
  match state with
  | .defined =>
    if c.endTime ≤ T.getMedianTimePast pindexPrev then some .failed
    else if c.beginTime ≤ T.getMedianTimePast pindexPrev then some .started
    else some .defined
  | .started =>
    if c.endTime ≤ T.getMedianTimePast pindexPrev then some .failed
    else do
      let count ← c.countConditions T c.period (some pindexPrev)
      return if c.threshold ≤ count then .lockedIn else .started
  | .lockedIn => some .active
  | .failed => some .failed
  | .active => some .active

/-- The last block of the period before that of a block built on `pindexPrev`. -/
def alignPrev (pindexPrev : ι) : Option ι :=
  T.getAncestorInt pindexPrev (T.nHeight pindexPrev - (T.nHeight pindexPrev + 1) % c.period : ℤ)

section Cache

variable [DecidableEq ι]

/-- The walk backwards to a block whose state is known; `vToCompute` has its back at the head. -/
def walkBack : ℕ → ThresholdConditionCache ι → Option ι → List ι → Option (ThresholdConditionCache ι × Option ι × List ι)
  | 0, _, _, _ => none
  | fuel + 1, cache, pindexPrev, vToCompute =>
    if (cache pindexPrev).isSome then some (cache, pindexPrev, vToCompute)
    else match pindexPrev with
      | none => some (Function.update cache none (some .defined), none, vToCompute)
      | some p =>
        if T.getMedianTimePast p < c.beginTime then
          some (Function.update cache (some p) (some .defined), some p, vToCompute)
        else walkBack fuel cache (T.getAncestorInt p (T.nHeight p - c.period : ℤ)) (p :: vToCompute)

/-- The walk forwards over `vToCompute`. -/
def walkForward : List ι → ThresholdState → ThresholdConditionCache ι → Option (ThresholdState × ThresholdConditionCache ι)
  | [], state, cache => some (state, cache)
  | p :: vToCompute, state, cache => do
    let next ← c.stateNext T state p
    walkForward vToCompute next (Function.update cache (some p) (some next))

/-- `GetStateFor`; `none` where an assertion fails or a null pointer is followed. -/
def getStateFor (pindexPrev : Option ι) (cache : ThresholdConditionCache ι) :
    Option (ThresholdState × ThresholdConditionCache ι) :=
  if c.beginTime = alwaysActive then some (.active, cache)
  else do
    let pindexPrev := pindexPrev.bind (c.alignPrev T)
    -- each round of the walk goes down by a period, so that this many are enough
    let (cache, pindexPrev, vToCompute) ← c.walkBack T (pindexPrev.elim 0 (T.nHeight · + 1) + 1) cache pindexPrev []
    let state ← cache pindexPrev
    c.walkForward T vToCompute state cache

/-- Calls of `GetStateFor`, one after the other, on one cache. -/
def getStates : List (Option ι) → ThresholdConditionCache ι → Option (List ThresholdState × ThresholdConditionCache ι)
  | [], cache => some ([], cache)
  | pindexPrev :: calls, cache => do
    let (state, cache) ← c.getStateFor T pindexPrev cache
    let (states, cache) ← getStates calls cache
    return (state :: states, cache)

end Cache

/-! ## The recursion -/

/-- How a period that ends with `pindex` changes the state. -/
def transition (state : ThresholdState) (pindex : ι) : ThresholdState :=
  match state with
  | .defined =>
    if c.endTime ≤ T.getMedianTimePast pindex then .failed
    else if c.beginTime ≤ T.getMedianTimePast pindex then .started
    else .defined
  | .started =>
    if c.endTime ≤ T.getMedianTimePast pindex then .failed
    else if c.threshold ≤ ((T.path pindex).take c.period).countP c.condition then .lockedIn
    else .started
  | .lockedIn => .active
  | .failed => .failed
  | .active => .active

/-- The state in period `n` of the chain that ends with `pindex`. -/
def periodState (pindex : ι) : ℕ → ThresholdState
  | 0 => .defined
  | n + 1 => (T.getAncestor pindex ((n + 1) * c.period - 1)).elim .defined (c.transition T (periodState pindex n))

/-- The period of a block built on `pindexPrev`. -/
def periodOf (pindexPrev : Option ι) : ℕ := pindexPrev.elim 0 fun p => (T.nHeight p + 1) / c.period

/-- The state of a block built on `pindexPrev`, by the recursion from period to period. -/
def bip9State (pindexPrev : Option ι) : ThresholdState :=
  pindexPrev.elim .defined fun p => c.periodState T p (c.periodOf T (some p))

/-- The state of a deployment: the recursion, unless it is declared to be always active. -/
def deploymentState (pindexPrev : Option ι) : ThresholdState :=
  if c.beginTime = alwaysActive then .active else c.bip9State T pindexPrev

/-! ### Periods of a chain -/

variable {T}

variable {n : ℕ} {e : ι}

/-- A chain and its beginning have the same states in the periods that the beginning completes. -/
theorem periodState_of_mem_path {a b : ι} (hab : a ∈ T.path b) (hn : n * c.period ≤ T.nHeight a + 1) :
    c.periodState T a n = c.periodState T b n := by
  induction n with
  | zero => rfl
  | succ n ih =>
    have hpos : n * c.period + c.period = (n + 1) * c.period := (succ_mul n c.period).symm
    obtain ⟨e, hea⟩ := T.exists_getAncestor (show (n + 1) * c.period - 1 ≤ T.nHeight a by omega)
    have heb : T.getAncestor b ((n + 1) * c.period - 1) = some e := T.getAncestor_of_mem_path hab hea
    rw [periodState, periodState, hea, heb, elim_some, elim_some, ih (by omega)]

lemma periodState_succ (he : T.nHeight e + 1 = (n + 1) * c.period) :
    c.periodState T e (n + 1) = c.transition T (c.periodState T e n) e := by
  have : T.getAncestor e ((n + 1) * c.period - 1) = some e :=
    T.getAncestor_eq_some.2 ⟨T.forest.self_mem_path e, by omega⟩
  rw [periodState, this]
  rfl

lemma periodOf_mul_le (p : ι) : c.periodOf T (some p) * c.period ≤ T.nHeight p + 1 := div_mul_le_self _ _

variable {p q : Option ι}

lemma periodOf_mono (h : T.Precedes p q) : c.periodOf T p ≤ c.periodOf T q := by
  cases p with
  | none => exact zero_le _
  | some a =>
    obtain ⟨b, rfl, hab⟩ := h a rfl
    exact Nat.div_le_div_right (succ_le_succ (T.forest.depth_le_of_mem_path hab))

lemma bip9State_of_precedes (h : T.Precedes p q) (hpq : c.periodOf T p = c.periodOf T q) :
    c.bip9State T p = c.bip9State T q := by
  cases p with
  | none =>
    cases q with
    | none => rfl
    | some b =>
      show _ = c.periodState T b (c.periodOf T (some b))
      rw [← hpq]
      rfl
  | some a =>
    obtain ⟨b, rfl, hab⟩ := h a rfl
    show c.periodState T a (c.periodOf T (some a)) = c.periodState T b (c.periodOf T (some b))
    rw [c.periodState_of_mem_path hab (c.periodOf_mul_le a), hpq]

/-- A state that no transition leaves. -/
def Final (state : ThresholdState) : Prop := state = .active ∨ state = .failed

lemma transition_of_final {state : ThresholdState} (h : Final state) (pindex : ι) :
    c.transition T state pindex = state := by
  rcases h with rfl | rfl
  · rfl
  · rfl

variable {b : ι}

lemma periodState_of_final {m n : ℕ} (hmn : m ≤ n) (hn : n * c.period ≤ T.nHeight b + 1)
    (h : Final (c.periodState T b m)) : c.periodState T b n = c.periodState T b m := by
  induction n, hmn using le_induction with
  | base => rfl
  | succ n _ ih =>
    have hsucc : n * c.period + c.period = (n + 1) * c.period := (succ_mul n c.period).symm
    obtain ⟨e, he⟩ := T.exists_getAncestor (show (n + 1) * c.period - 1 ≤ T.nHeight b by omega)
    have hprev := ih (by omega)
    rw [periodState, he, elim_some, hprev, c.transition_of_final h]

lemma bip9State_of_final (h : T.Precedes p q) (hfinal : Final (c.bip9State T p)) :
    c.bip9State T q = c.bip9State T p := by
  cases p with
  | none => rcases hfinal with h | h <;> cases h
  | some a =>
    obtain ⟨b, rfl, hab⟩ := h a rfl
    have hmono := c.periodOf_mono h
    have hstate : c.bip9State T (some a) = c.periodState T b (c.periodOf T (some a)) :=
      c.periodState_of_mem_path hab (c.periodOf_mul_le a)
    rw [hstate] at hfinal ⊢
    exact c.periodState_of_final hmono (c.periodOf_mul_le b) hfinal

/-- **The early stop**: a chain whose median time past is before the start time is `DEFINED`, if the timeout does not
come first. -/
theorem bip9State_of_lt (hle : c.beginTime ≤ c.endTime) (hlt : T.getMedianTimePast b < c.beginTime) :
    c.bip9State T (some b) = .defined := by
  have hall : ∀ n, c.periodState T b n = .defined := by
    intro n
    induction n with
    | zero => rfl
    | succ n ih =>
      rw [periodState, ih]
      cases he : T.getAncestor b ((n + 1) * c.period - 1) with
      | none => rfl
      | some e =>
        have hmono := T.getMedianTimePast_mono (T.getAncestor_eq_some.1 he).1
        rw [elim_some, transition, if_neg (by omega), if_neg (by omega)]
  exact hall _

/-! ### One period back -/

/-- The block ends a period, or there is none. -/
def Aligned (T : TimedTree ι) (p : Option ι) : Prop := ∀ b, p = some b → c.period ∣ T.nHeight b + 1

lemma getAncestorInt_periodEnd (hn : n * c.period ≤ T.nHeight b + 1) :
    (n = 0 ∧ T.getAncestorInt b (n * c.period - 1 : ℤ) = none) ∨
    ∃ e, T.getAncestorInt b (n * c.period - 1 : ℤ) = some e ∧ e ∈ T.path b ∧ T.nHeight e + 1 = n * c.period := by
  cases n with
  | zero => exact .inl ⟨rfl, if_pos (by simp)⟩
  | succ n =>
    have hpos : 0 < (n + 1) * c.period := mul_pos n.succ_pos c.period_pos
    obtain ⟨e, he⟩ := T.exists_getAncestor (show (n + 1) * c.period - 1 ≤ T.nHeight b by omega)
    have hmem := T.getAncestor_eq_some.1 he
    have hcast : (((n + 1 : ℕ) : ℤ) * c.period - 1) = ((n + 1) * c.period - 1 : ℕ) := by
      push_cast [cast_sub hpos]
      ring
    rw [hcast]
    exact .inr ⟨e, he, hmem.1, by omega⟩

lemma periodOf_periodEnd (he : T.nHeight e + 1 = n * c.period) : c.periodOf T (some e) = n := by
  rw [periodOf, elim_some, he, Nat.mul_div_cancel _ c.period_pos]

/-- `GetStateFor` goes to the end of the previous period first, which has the same state. -/
theorem alignPrev_spec (p : Option ι) :
    c.Aligned T (p.bind (c.alignPrev T)) ∧ c.bip9State T (p.bind (c.alignPrev T)) = c.bip9State T p := by
  cases p with
  | none => exact ⟨by rintro b ⟨⟩, rfl⟩
  | some b =>
    have hheight : ((T.nHeight b : ℤ) - (T.nHeight b + 1) % c.period) =
        ((c.periodOf T (some b) : ℕ) : ℤ) * c.period - 1 := by
      have hdiv := div_add_mod (T.nHeight b + 1) c.period
      rw [mul_comm] at hdiv
      rw [periodOf, elim_some]
      have hcast : (((T.nHeight b + 1) / c.period : ℕ) : ℤ) * c.period + (T.nHeight b + 1) % c.period =
          T.nHeight b + 1 := by
        exact_mod_cast hdiv
      omega
    rw [bind_some, alignPrev, hheight]
    rcases c.getAncestorInt_periodEnd (c.periodOf_mul_le b) with ⟨hzero, hnone⟩ | ⟨e, he, hmem, hend⟩
    · rw [hnone]
      refine ⟨by rintro b ⟨⟩, c.bip9State_of_precedes (by rintro b ⟨⟩) ?_⟩
      rw [hzero]
      rfl
    · rw [he]
      refine ⟨?_, c.bip9State_of_precedes ?_ (c.periodOf_periodEnd hend)⟩
      · rintro a ⟨⟩
        exact ⟨_, hend.trans (mul_comm _ _)⟩
      · rintro a ⟨⟩
        exact ⟨b, rfl, hmem⟩

lemma bip9State_step (h : c.Aligned T (some b)) : c.Aligned T (T.getAncestorInt b (T.nHeight b - c.period : ℤ)) ∧
    c.bip9State T (some b) = c.transition T (c.bip9State T (T.getAncestorInt b (T.nHeight b - c.period : ℤ))) b := by
  obtain ⟨k, hk⟩ := h b rfl
  obtain ⟨n, rfl⟩ : ∃ n, k = n + 1 := by
    cases k with
    | zero => omega
    | succ n => exact ⟨n, rfl⟩
  have hend : T.nHeight b + 1 = (n + 1) * c.period := hk.trans (mul_comm _ _)
  have hsucc : n * c.period + c.period = (n + 1) * c.period := (succ_mul n c.period).symm
  have hheight : ((T.nHeight b : ℤ) - c.period) = (n : ℤ) * c.period - 1 := by
    omega
  have hstate : c.bip9State T (some b) = c.transition T (c.periodState T b n) b := by
    rw [bip9State, elim_some, c.periodOf_periodEnd hend, c.periodState_succ hend]
  rw [hheight, hstate]
  rcases c.getAncestorInt_periodEnd (show n * c.period ≤ T.nHeight b + 1 by omega) with
    ⟨rfl, hnone⟩ | ⟨e, he, hmem, hprev⟩
  · rw [hnone]
    exact ⟨by rintro a ⟨⟩, rfl⟩
  · rw [he, bip9State, elim_some, c.periodOf_periodEnd hprev, c.periodState_of_mem_path hmem hprev.ge]
    refine ⟨?_, rfl⟩
    rintro a ⟨⟩
    exact ⟨n, hprev.trans (mul_comm _ _)⟩

lemma countConditions_eq (hn : n ≤ T.nHeight b + 1) :
    c.countConditions T n (some b) = some (((T.path b).take n).countP c.condition) := by
  induction n generalizing b with
  | zero => rfl
  | succ n ih =>
    rw [countConditions]
    cases hp : T.pprev b with
    | none =>
      have hroot : T.nHeight b = 0 := T.forest.depth_of_root hp
      obtain rfl : n = 0 := by omega
      have hpath : T.path b = [b] := T.forest.path_of_root hp
      rw [hpath]
      simp [countConditions]
    | some p =>
      have hheight : T.nHeight b = T.nHeight p + 1 := T.forest.depth_of_parent hp
      have hpath : T.path b = b :: T.path p := T.forest.path_of_parent hp
      rw [ih (by omega), hpath, List.take_succ_cons, List.countP_cons]
      rfl

lemma stateNext_eq (h : c.Aligned T (some b)) (state : ThresholdState) :
    c.stateNext T state b = some (c.transition T state b) := by
  have hlong : c.period ≤ T.nHeight b + 1 := le_of_dvd (succ_pos _) (h b rfl)
  cases state with
  | defined =>
    rw [stateNext, transition]
    split
    · rfl
    · split <;> rfl
  | started =>
    rw [stateNext, transition, c.countConditions_eq hlong]
    split
    · rfl
    · simp
  | lockedIn => rfl
  | active => rfl
  | failed => rfl

/-! ## The cache -/

section Cache

variable [DecidableEq ι]

/-- Every cached state is the one of the recursion. -/
def CacheOk (T : TimedTree ι) (cache : ThresholdConditionCache ι) : Prop :=
  ∀ p state, cache p = some state → state = c.bip9State T p

variable {cache : ThresholdConditionCache ι}

variable {c} in
lemma CacheOk.update (h : c.CacheOk T cache) (p : Option ι) :
    c.CacheOk T (Function.update cache p (some (c.bip9State T p))) := by
  intro q state hq
  by_cases hpq : q = p
  · subst hpq
    rw [update_self] at hq
    exact (some.inj hq).symm
  · rw [update_of_ne hpq] at hq
    exact h q state hq

section

variable (hle : c.beginTime ≤ c.endTime)
include hle

/-- What is left of a call once the walk backwards has come to `pindexPrev`: the walk forwards, from the state of the
recursion there. -/
theorem walkBack_ok {fuel : ℕ} {p : Option ι} (vToCompute : List ι) (hcache : c.CacheOk T cache)
    (haligned : c.Aligned T p) (hfuel : p.elim 0 (T.nHeight · + 1) < fuel) :
    ∃ cache', c.CacheOk T cache' ∧
      ((c.walkBack T fuel cache p vToCompute).bind fun r => (r.1 r.2.1).bind fun state =>
        c.walkForward T r.2.2 state r.1) = c.walkForward T vToCompute (c.bip9State T p) cache' := by
  induction fuel generalizing p vToCompute with
  | zero => exact absurd hfuel (not_lt_zero _)
  | succ fuel ih =>
    -- the walk ends at `p`, which then has its state in the cache
    have hstop : ∀ cache', cache' p = some (c.bip9State T p) →
        ((some (cache', p, vToCompute)).bind fun r => (r.1 r.2.1).bind fun state =>
          c.walkForward T r.2.2 state r.1) = c.walkForward T vToCompute (c.bip9State T p) cache' := by
      intro cache' hp
      rw [bind_some]
      dsimp only
      rw [hp, bind_some]
    cases hp : cache p with
    | some state =>
      refine ⟨cache, hcache, ?_⟩
      unfold walkBack
      rw [hp, isSome_some, if_pos rfl]
      exact hstop cache (by rw [hp, hcache p state hp])
    | none =>
      unfold walkBack
      rw [hp, isSome_none, if_neg Bool.false_ne_true]
      have hadd := hcache.update p
      have hget : update cache p (some (c.bip9State T p)) p = some (c.bip9State T p) :=
        update_self _ _ _
      cases p with
      | none => exact ⟨_, hadd, hstop _ hget⟩
      | some b =>
        dsimp only
        split_ifs with hlt
        · rw [c.bip9State_of_lt hle hlt] at hadd hget hstop ⊢
          exact ⟨_, hadd, hstop _ hget⟩
        · obtain ⟨hprev, hstep⟩ := c.bip9State_step haligned
          have hdown : (T.getAncestorInt b (T.nHeight b - c.period : ℤ)).elim 0 (T.nHeight · + 1) < fuel := by
            cases he : T.getAncestorInt b (T.nHeight b - c.period : ℤ) with
            | none =>
              have : T.nHeight b + 1 < fuel + 1 := hfuel
              exact show 0 < fuel by omega
            | some e =>
              rw [BlockTree.getAncestorInt] at he
              split at he
              · cases he
              · have hheight := (T.getAncestor_eq_some.1 he).2
                have : T.nHeight b + 1 < fuel + 1 := hfuel
                have := c.period_pos
                exact show T.nHeight e + 1 < fuel by omega
          obtain ⟨cache', hcache', heq⟩ := ih (b :: vToCompute) hprev hdown
          refine ⟨_, hcache'.update (some b), ?_⟩
          rw [heq, walkForward, c.stateNext_eq haligned, ← hstep]
          rfl

/-- **One call** returns the state of the deployment and keeps the cache right. -/
theorem getStateFor_ok (hcache : c.CacheOk T cache) (p : Option ι) :
    ∃ cache', c.getStateFor T p cache = some (c.deploymentState T p, cache') ∧ c.CacheOk T cache' := by
  rw [getStateFor, deploymentState]
  split
  · exact ⟨cache, rfl, hcache⟩
  · obtain ⟨haligned, hstate⟩ := c.alignPrev_spec p
    obtain ⟨cache', hcache', heq⟩ := c.walkBack_ok hle [] hcache haligned (lt_succ_self _)
    refine ⟨cache', ?_, hcache'⟩
    rw [← hstate]
    exact heq

lemma getStates_of_cacheOk (calls : List (Option ι)) (hcache : c.CacheOk T cache) :
    ∃ cache', c.getStates T calls cache = some (calls.map (c.deploymentState T), cache') := by
  induction calls generalizing cache with
  | nil => exact ⟨cache, rfl⟩
  | cons p calls ih =>
    obtain ⟨cache₁, hcall, hcache₁⟩ := c.getStateFor_ok hle hcache p
    obtain ⟨cache₂, hrest⟩ := ih hcache₁
    refine ⟨cache₂, ?_⟩
    rw [getStates, hcall]
    simp only [bind_eq_bind, bind_some, hrest]
    rfl

end

/-- **Version bits with a cache are version bits without one**, for deployments that do not time out before they
start; blocks of one period have one state; `ACTIVE` and `FAILED` stay. -/
theorem getStates_ok (T : TimedTree ι) (c : AbstractThresholdConditionChecker ι) (hle : c.beginTime ≤ c.endTime) :
    (∀ calls, ∃ cache, c.getStates T calls (fun _ => none) = some (calls.map (c.deploymentState T), cache)) ∧
    (∀ r p q, T.Precedes r p → T.Precedes r q → c.periodOf T r = c.periodOf T p → c.periodOf T r = c.periodOf T q →
      c.deploymentState T p = c.deploymentState T q) ∧
    (∀ p q, T.Precedes p q → c.deploymentState T p = .active → c.deploymentState T q = .active) ∧
    (∀ p q, T.Precedes p q → c.deploymentState T p = .failed → c.deploymentState T q = .failed) := by
  refine ⟨fun calls => c.getStates_of_cacheOk hle calls (by rintro p state ⟨⟩), ?_, ?_, ?_⟩
  · intro r p q hrp hrq hp hq
    rw [deploymentState, deploymentState, ← c.bip9State_of_precedes hrp hp, ← c.bip9State_of_precedes hrq hq]
  all_goals
    intro p q hpq
    rw [deploymentState, deploymentState]
    split
    · exact id
    · intro hp
      rw [c.bip9State_of_final hpq (by simp [Final, hp]), hp]

end Cache

/-- One block, with a time of ten. -/
def oneBlock : TimedTree Unit where
  pprev _ := none
  nHeight _ := 0
  nHeight_eq _ := rfl
  nTime _ := 10
  not_too_old := by rintro _ _ ⟨⟩

/-- Periods of one block, in which any block will do. -/
def everyBlock (beginTime endTime : ℤ) : AbstractThresholdConditionChecker Unit :=
  ⟨1, 1, beginTime, endTime, fun _ => true, Nat.one_pos⟩

/-- Two branches of two blocks each, 2 and 3 or 4 and 5, over the blocks 0 and 1. -/
def fork : TimedTree (Fin 6) where
  pprev i := [none, some 0, some 1, some 2, some 1, some 4].getD i none
  nHeight i := if i < 4 then i else i - 2
  nHeight_eq := by decide
  nTime i := 10 + i
  not_too_old := by decide +kernel

/-- Periods of two blocks, which both have to signal; the blocks 2 and 3 do. -/
def firstBranch : AbstractThresholdConditionChecker (Fin 6) := ⟨2, 2, 10, 100, fun i => i = 2 ∨ i = 3, Nat.two_pos⟩

theorem getStates_ok_fork :
    firstBranch.beginTime ≤ firstBranch.endTime ∧
    ∃ cache, firstBranch.getStates fork [some 3, some 5, none, some 4, some 3] (fun _ => none) =
      some ([.lockedIn, .started, .defined, .started, .lockedIn], cache) := by
  refine ⟨by decide, ?_⟩
  obtain ⟨cache, h⟩ := (getStates_ok fork firstBranch (by decide)).1 [some 3, some 5, none, some 4, some 3]
  exact ⟨cache, h.trans (congrArg (fun states => some (states, cache)) (by decide +kernel))⟩

/-- A deployment that times out before it starts is kept `DEFINED` by the early stop; one that is always active does
not follow the recursion. -/
theorem getStates_differ :
    ((everyBlock 20 5).getStates oneBlock [some ()] fun _ => none).map Prod.fst = some [.defined] ∧
    (everyBlock 20 5).bip9State oneBlock (some ()) = .failed ∧
    ((everyBlock alwaysActive 20).getStates oneBlock [none] fun _ => none).map Prod.fst = some [.active] ∧
    (everyBlock alwaysActive 20).bip9State oneBlock none = .defined := by
  decide +kernel

end AbstractThresholdConditionChecker

end Soferox

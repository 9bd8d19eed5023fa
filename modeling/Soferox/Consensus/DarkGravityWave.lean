import Soferox.Consensus.Compact

/-!
# `DarkGravityWave3`

The required difficulty is a running average of the targets of the last 24 blocks, rescaled by the
time that the blocks took. The function is translated with its faults (a division by zero in
`BN_div`, an `int64_t` that overflows); `darkGravityWave3_eq` says that none happens and which
average, timespan and rounding the loop comes to.
-/

namespace Soferox

open ArithUint256 CBigNum CompactForm List Int

/-- What `DarkGravityWave3` reads of a `CBlockIndex`. A chain is the list of these from `pindexLast` back, so that
`pprev` is the tail and `nHeight` the length. -/
structure BlockBits where
  nBits : UInt32
  nTime : UInt32

namespace DarkGravityWave

inductive Fault
  | bnDivFailed
  | int64Overflow
  | assertFailed
  deriving DecidableEq

def int64 (n : ℤ) : Except Fault ℤ :=
  if -2 ^ 63 ≤ n ∧ n < 2 ^ 63 then .ok n else .error .int64Overflow

/-- `CBigNum::operator/`: `BN_div` rounds toward zero. -/
def bnDiv (a b : ℤ) : Except Fault ℤ := if b = 0 then .error .bnDivFailed else .ok (a.tdiv b)

/-- `CBigNum().SetCompact(BlockReading->nBits)`. -/
def target (b : BlockBits) : ℤ := CBigNum.setCompact b.nBits.toNat

/-- `GetBlockTime`. -/
def time (b : BlockBits) : ℤ := b.nTime.toNat

/-- The variables of the loop; `PastDifficultyAveragePrev` is the average of the round before. -/
structure State where
  countBlocks : ℤ
  pastDifficultyAverage : ℤ
  nActualTimespan : ℤ
  lastBlockTime : ℤ
  deriving DecidableEq

/-- One round of the loop. -/
def round (s : State) (b : BlockBits) : Except Fault State := do
  let countBlocks ← int64 (s.countBlocks + 1)
  let pastDifficultyAverage ←
    if countBlocks ≤ 24 then
      if countBlocks = 1 then .ok (target b)
      else bnDiv (s.pastDifficultyAverage * countBlocks + target b) (countBlocks + 1)
    else .ok s.pastDifficultyAverage
  let nActualTimespan ←
    if s.lastBlockTime > 0 then do
      let diff ← int64 (s.lastBlockTime - time b)
      int64 (s.nActualTimespan + diff)
    else .ok s.nActualTimespan
  return ⟨countBlocks, pastDifficultyAverage, nActualTimespan, time b⟩

/-- At most the given number of rounds; genesis, at height zero, is not read. -/
def loop : ℕ → State → List BlockBits → Except Fault State
  | n + 1, s, b :: c :: chain => do
    let s ← round s b
    loop n s (c :: chain)
  | _, s, _ => .ok s

def nTargetSpacing : ℤ := 60

def darkGravityWave3 (powLimit : ArithUint256) (chain : List BlockBits) : Except Fault ℕ :=
  if chain.length < 25 then
    match powLimit.getCompact false with
    | some nCompact => .ok nCompact
    | none => .error .assertFailed
  else do
    let s ← loop 24 ⟨0, 0, 0, 0⟩ chain
    let nTargetTimespan ← int64 (s.countBlocks * nTargetSpacing)
    let nActualTimespan := if s.nActualTimespan < nTargetTimespan.tdiv 3 then nTargetTimespan.tdiv 3
      else s.nActualTimespan
    let longest ← int64 (nTargetTimespan * 3)
    let nActualTimespan := if nActualTimespan > longest then longest else nActualTimespan
    let bnNew ← bnDiv (s.pastDifficultyAverage * nActualTimespan) nTargetTimespan
    return CBigNum.getCompact (if bnNew > powLimit.value then powLimit.value else bnNew)

/-- 25 blocks with the same bits and the same time between each two. -/
def evenChain (nBits : UInt32) (spacing : ℕ) : List BlockBits :=
  (List.range 25).map fun i => ⟨nBits, .ofNat (3000 - spacing * i)⟩

/-! ### What the loop computes -/

variable {chain : List BlockBits} {a k last lo hi : ℤ} {ts : List ℤ}

/-- The running average, `k` targets having been averaged to `a`. -/
def averageFrom : ℤ → ℤ → List ℤ → ℤ
  | _, a, [] => a
  | k, a, t :: ts => averageFrom (k + 1) ((a * (k + 1) + t).tdiv (k + 2)) ts

/-- The differences between neighbouring times; one after a zero time is not counted. -/
def timespanFrom : ℤ → List ℤ → ℤ
  | _, [] => 0
  | last, t :: ts => (if last > 0 then last - t else 0) + timespanFrom t ts

def average : List ℤ → ℤ
  | [] => 0
  | t :: ts => averageFrom 1 t ts

def timespan : List ℤ → ℤ
  | [] => 0
  | t :: ts => timespanFrom t ts

/-- The targets of the last 24 blocks, the newest first. -/
def targets (chain : List BlockBits) : List ℤ := (chain.take 24).map target
def times (chain : List BlockBits) : List ℤ := (chain.take 24).map time

/-- The timespan held within a third and three times the 1440 seconds of 24 blocks. -/
def clamp (n : ℤ) : ℤ := min (max n 480) 4320

/-- The new target before it is encoded. -/
def newTarget (powLimit : ArithUint256) (average timespan : ℤ) : ℤ :=
  min ((average * clamp timespan).tdiv 1440) powLimit.value

lemma int64_ok {n : ℤ} (h : |n| < 2 ^ 63) : int64 n = .ok n := by
  rw [abs_lt] at h
  exact if_pos ⟨h.1.le, h.2⟩

variable (b : BlockBits) (powLimit : ArithUint256) (n : ℤ) {s : State}

lemma time_bounds : 0 ≤ time b ∧ time b < 2 ^ 32 :=
  ⟨natCast_nonneg _, ofNat_lt.2 b.nTime.toNat_lt⟩

/-- A round after the first: no fault, and each round moves the timespan by less than `2 ^ 32`. -/
theorem round_ok (hk : 1 ≤ s.countBlocks) (hk' : s.countBlocks < 24)
    (hspan : |s.nActualTimespan| ≤ s.countBlocks * 2 ^ 32) (hlast : 0 ≤ s.lastBlockTime ∧ s.lastBlockTime < 2 ^ 32) :
    ∃ n, n = s.nActualTimespan + (if s.lastBlockTime > 0 then s.lastBlockTime - time b else 0) ∧
      |n| ≤ (s.countBlocks + 1) * 2 ^ 32 ∧
      round s b = .ok ⟨s.countBlocks + 1, (s.pastDifficultyAverage * (s.countBlocks + 1) +
        target b).tdiv (s.countBlocks + 2), n, time b⟩ := by
  obtain ⟨h0, h1⟩ := time_bounds b
  rw [abs_le] at hspan
  refine ⟨_, rfl, ?_, ?_⟩
  · rw [abs_le]
    split <;> omega
  · have hcount : int64 (s.countBlocks + 1) = .ok (s.countBlocks + 1) :=
      int64_ok (by rw [abs_lt]; omega)
    have hdiff : int64 (s.lastBlockTime - time b) = .ok (s.lastBlockTime - time b) :=
      int64_ok (by rw [abs_lt]; omega)
    have hsum : int64 (s.nActualTimespan + (s.lastBlockTime - time b)) =
        .ok (s.nActualTimespan + (s.lastBlockTime - time b)) := int64_ok (by rw [abs_lt]; omega)
    have hdiv : bnDiv (s.pastDifficultyAverage * (s.countBlocks + 1) + target b)
        (s.countBlocks + 1 + 1) = .ok ((s.pastDifficultyAverage * (s.countBlocks + 1) +
          target b).tdiv (s.countBlocks + 2)) := by
      rw [bnDiv, if_neg (by omega), add_assoc]; rfl
    simp only [round, hcount, bind, Except.bind, if_pos (show s.countBlocks + 1 ≤ 24 by omega),
      if_neg (show s.countBlocks + 1 ≠ 1 by omega), hdiv]
    split <;> simp [hdiff, hsum, pure, Except.pure]

lemma loop_ok {l rest : List BlockBits} (hrest : rest ≠ []) (hk : 1 ≤ s.countBlocks)
    (hk' : s.countBlocks + l.length ≤ 24) (hspan : |s.nActualTimespan| ≤ s.countBlocks * 2 ^ 32)
    (hlast : 0 ≤ s.lastBlockTime ∧ s.lastBlockTime < 2 ^ 32) :
    ∃ s', loop l.length s (l ++ rest) = .ok s' ∧ s'.countBlocks = s.countBlocks + l.length ∧
      s'.pastDifficultyAverage = averageFrom s.countBlocks s.pastDifficultyAverage (l.map target) ∧
      s'.nActualTimespan = s.nActualTimespan + timespanFrom s.lastBlockTime (l.map time) := by
  induction l generalizing s with
  | nil => exact ⟨s, by simp [loop], by simp, rfl, by simp [timespanFrom]⟩
  | cons b l ih =>
    obtain ⟨n, hn, hbound, hround⟩ := round_ok b hk (by simp at hk'; omega) hspan hlast
    obtain ⟨c, chain, hchain⟩ := exists_cons_of_ne_nil (append_ne_nil_of_right_ne_nil l hrest)
    obtain ⟨s', hloop, hcount, haverage, htime⟩ := ih (s := ⟨_, _, n, time b⟩)
      (by simp; omega) (by simp at hk' ⊢; omega) hbound (time_bounds b)
    refine ⟨s', ?_, by simp at hcount ⊢; omega, haverage, ?_⟩
    · rw [cons_append, length_cons, hchain, loop, hround, ← hchain]
      exact hloop
    · rw [htime, hn, map_cons, timespanFrom, add_assoc]

lemma loop_window (h : 25 ≤ chain.length) : ∃ s, loop 24 ⟨0, 0, 0, 0⟩ chain = .ok s ∧ s.countBlocks = 24 ∧
    s.pastDifficultyAverage = average (targets chain) ∧ s.nActualTimespan = timespan (times chain) := by
  obtain _ | ⟨b, chain⟩ := chain
  · simp at h
  have hlen : (chain.take 23).length = 23 := by simp at h ⊢; omega
  have hrest : chain.drop 23 ≠ [] := by simp at h ⊢; omega
  obtain ⟨s, hloop, hcount, haverage, htime⟩ := loop_ok (s := ⟨1, target b, 0, time b⟩)
    (l := chain.take 23) hrest le_rfl (by rw [hlen]; norm_num) (by norm_num) (time_bounds b)
  obtain ⟨c, rest, rfl⟩ := exists_cons_of_ne_nil (fun h0 : chain = [] => by simp [h0] at hrest)
  refine ⟨s, ?_, by rw [hcount, hlen]; rfl, haverage, by rw [htime, zero_add]; rfl⟩
  rw [hlen, take_append_drop] at hloop
  rw [loop]
  exact hloop

lemma darkGravityWave3_eq (h : 25 ≤ chain.length) : darkGravityWave3 powLimit chain =
    .ok (getCompact (newTarget powLimit (average (targets chain)) (timespan (times chain)))) := by
  obtain ⟨s, hloop, hcount, haverage, htime⟩ := loop_window h
  have hspan : int64 (s.countBlocks * nTargetSpacing) = .ok 1440 := by rw [hcount]; rfl
  have hthree : int64 (1440 * 3) = .ok 4320 := rfl
  rw [darkGravityWave3, if_neg (by omega), hloop]
  have hclamp (n : ℤ) : (if (if n < (1440 : ℤ).tdiv 3 then (1440 : ℤ).tdiv 3 else n) > 4320 then 4320
      else if n < (1440 : ℤ).tdiv 3 then (1440 : ℤ).tdiv 3 else n) = clamp n := by
    rw [clamp, show (1440 : ℤ).tdiv 3 = 480 from rfl]
    split_ifs <;> omega
  have hlimit (n : ℤ) : (if n > powLimit.value then (powLimit.value : ℤ) else n) = min n powLimit.value := by
    split_ifs <;> omega
  simp only [bind, Except.bind, hspan, hthree, haverage, htime, hclamp]
  rw [bnDiv, if_neg (by norm_num)]
  simp only [hlimit]
  rfl

/-! ### The average -/

lemma averageFrom_mem (hk : 1 ≤ k) (hlo : 0 ≤ lo) (ha : lo ≤ a ∧ a ≤ hi) (hts : ∀ t ∈ ts, lo ≤ t ∧ t ≤ hi) :
    lo ≤ averageFrom k a ts ∧ averageFrom k a ts ≤ hi := by
  induction ts generalizing k a with
  | nil => exact ha
  | cons t ts ih =>
    rw [forall_mem_cons] at hts
    have hlow : lo * (k + 2) ≤ a * (k + 1) + t := by nlinarith [ha.1, hts.1.1]
    have hhigh : a * (k + 1) + t ≤ hi * (k + 2) := by nlinarith [ha.2, hts.1.2]
    rw [averageFrom, tdiv_eq_ediv_of_nonneg (by nlinarith)]
    exact ih (by omega) ⟨(Int.le_ediv_iff_mul_le (by omega)).2 hlow, Int.ediv_le_of_le_mul (by omega) hhigh⟩ hts.2

lemma average_mem (hne : ts ≠ []) (hlo : 0 ≤ lo) (h : ∀ t ∈ ts, lo ≤ t ∧ t ≤ hi) :
    lo ≤ average ts ∧ average ts ≤ hi := by
  obtain ⟨t, ts, rfl⟩ := exists_cons_of_ne_nil hne
  rw [forall_mem_cons] at h
  exact averageFrom_mem le_rfl hlo h.1 h.2

lemma average_nonneg (h : ∀ t ∈ ts, 0 ≤ t) : 0 ≤ average ts := by
  cases ts with
  | nil => exact le_rfl
  | cons t ts => exact (average_mem (by simp) le_rfl fun t ht => ⟨h t ht, single_le_sum h t ht⟩).1

/-- The rounding of each step is less than its divisor, and no later step scales it up. -/
theorem averageFrom_remainder (hk : 1 ≤ k) (ha : 0 ≤ a) (hts : ∀ t ∈ ts, 0 ≤ t) :
    ∃ r, (k + ts.length + 1) * averageFrom k a ts + r = (k + 1) * a + ts.sum ∧
      0 ≤ r ∧ 2 * r ≤ ts.length * (2 * k + ts.length + 1) := by
  induction ts generalizing k a with
  | nil => exact ⟨0, by simp [averageFrom], le_rfl, by simp⟩
  | cons t ts ih =>
    rw [forall_mem_cons] at hts
    have hnum : 0 ≤ a * (k + 1) + t := by nlinarith [hts.1]
    rw [averageFrom, tdiv_eq_ediv_of_nonneg hnum]
    have hmod := emod_add_mul_ediv (a * (k + 1) + t) (k + 2)
    have hmod0 := emod_nonneg (a * (k + 1) + t) (show k + 2 ≠ 0 by omega)
    have hmod1 := emod_lt_of_pos (a * (k + 1) + t) (show 0 < k + 2 by omega)
    obtain ⟨r, heq, hr0, hr1⟩ := ih (k := k + 1) (a := (a * (k + 1) + t) / (k + 2)) (by omega)
      (ediv_nonneg hnum (by omega)) hts.2
    refine ⟨r + (a * (k + 1) + t) % (k + 2), ?_, by omega, ?_⟩
    · rw [length_cons, sum_cons]
      push_cast
      linarith
    · rw [length_cons]
      push_cast
      nlinarith

/-- The mean of the targets of a block and of the 23 before it, its own counted twice. -/
def weightedMean (b : BlockBits) (chain : List BlockBits) : ℚ :=
  (2 * target b + ((chain.take 23).map target).sum : ℤ) / 25

/-- The newest target counts twice, and all the roundings together lose less than 13. -/
theorem average_weights {b : BlockBits} (h : 24 ≤ chain.length) (hpos : ∀ c ∈ b :: chain.take 23, 0 ≤ target c) :
    ∃ s, loop 24 ⟨0, 0, 0, 0⟩ (b :: chain) = .ok s ∧
      0 ≤ weightedMean b chain - s.pastDifficultyAverage ∧ weightedMean b chain - s.pastDifficultyAverage < 13 := by
  obtain ⟨s, hloop, -, haverage, -⟩ := loop_window (show 25 ≤ (b :: chain).length by simpa using h)
  have hlen : ((chain.take 23).map target).length = 23 := by simp; omega
  rw [forall_mem_cons] at hpos
  obtain ⟨r, heq, hr0, hr1⟩ := averageFrom_remainder (k := 1) le_rfl hpos.1 (forall_mem_map.2 hpos.2)
  rw [hlen] at heq hr1
  push_cast at heq hr1
  have hsum : (2 * target b + ((chain.take 23).map target).sum : ℤ) = 25 * s.pastDifficultyAverage + r := by
    rw [haverage, targets, take_succ_cons, map_cons, average]
    linarith
  have hr0' : (0 : ℚ) ≤ r := by exact_mod_cast hr0
  have hr1' : (2 * r : ℚ) ≤ 598 := by exact_mod_cast hr1
  refine ⟨s, hloop, ?_⟩
  rw [weightedMean, hsum]
  push_cast
  constructor <;> linarith

theorem average_weights_even :
    ∃ s, loop 24 ⟨0, 0, 0, 0⟩ (⟨0x01180000, 3060⟩ :: evenChain 0x01180000 60) = .ok s ∧
      0 ≤ weightedMean ⟨0x01180000, 3060⟩ (evenChain 0x01180000 60) - s.pastDifficultyAverage ∧
      weightedMean ⟨0x01180000, 3060⟩ (evenChain 0x01180000 60) - s.pastDifficultyAverage < 13 :=
  average_weights (by decide) (by decide +kernel)

/-- A target of `-1` before zeros is rounded up to zero. -/
theorem average_rounds_up :
    ∃ s, loop 24 ⟨0, 0, 0, 0⟩ (⟨0x01810000, 3060⟩ :: evenChain 0 60) = .ok s ∧
      ¬ 0 ≤ weightedMean ⟨0x01810000, 3060⟩ (evenChain 0 60) - s.pastDifficultyAverage := by
  have hsum : 2 * target ⟨0x01810000, 3060⟩ + (((evenChain 0 60).take 23).map target).sum = -2 := by decide +kernel
  refine ⟨⟨24, 0, 1380, 1680⟩, by decide +kernel, ?_⟩
  rw [weightedMean, hsum]
  norm_num

/-! ### The timespan -/

lemma timespanFrom_spacing (h0 : ∀ t ∈ ts, 0 ≤ t) (h : (last :: ts).IsChain fun t t' => t = t' + nTargetSpacing) :
    timespanFrom last ts = nTargetSpacing * ts.length := by
  induction ts generalizing last with
  | nil => simp [timespanFrom]
  | cons t ts ih =>
    rw [isChain_cons_cons] at h
    rw [forall_mem_cons] at h0
    rw [timespanFrom, ih h0.2 h.2, h.1, if_pos (by rw [nTargetSpacing]; omega), length_cons]
    push_cast
    ring

lemma timespanFrom_pos (hlast : 0 < last) (hts : ∀ t ∈ ts, 0 < t) :
    timespanFrom last ts = last - ts.getLast?.getD last := by
  induction ts generalizing last with
  | nil => simp [timespanFrom]
  | cons t ts ih =>
    rw [forall_mem_cons] at hts
    rw [timespanFrom, ih hts.1 hts.2, getLast?_cons, Option.getD_some]
    omega

/-- The time between the newest and the oldest block. -/
def spread (ts : List ℤ) : ℤ := ts.head?.getD 0 - ts.getLast?.getD 0

lemma timespan_eq_spread (h : ∀ t ∈ ts, 0 < t) : timespan ts = spread ts := by
  cases ts with
  | nil => rfl
  | cons t ts =>
    rw [forall_mem_cons] at h
    rw [timespan, timespanFrom_pos h.1 h.2, spread, getLast?_cons]
    rfl

/-! ### The new target -/

lemma clamp_mem : 480 ≤ clamp n ∧ clamp n ≤ 4320 := by
  rw [clamp]
  omega

lemma newTarget_mono {m n : ℤ} (ha : 0 ≤ a) (h : m ≤ n) : newTarget powLimit a m ≤ newTarget powLimit a n := by
  have hclamp : clamp m ≤ clamp n := by rw [clamp, clamp]; omega
  have hm := (clamp_mem m).1
  have hn := (clamp_mem n).1
  rw [newTarget, newTarget, tdiv_eq_ediv_of_nonneg (by positivity), tdiv_eq_ediv_of_nonneg (by positivity)]
  exact min_le_min_right _ (Int.ediv_le_ediv (by norm_num) (by gcongr))

lemma newTarget_mem (hlo : 0 ≤ lo) (ha : lo ≤ a ∧ a ≤ hi) (hlimit : lo ≤ powLimit.value) :
    lo / 3 ≤ newTarget powLimit a n ∧ newTarget powLimit a n ≤ 3 * hi ∧ newTarget powLimit a n ≤ powLimit.value := by
  obtain ⟨h480, h4320⟩ := clamp_mem n
  have hmul : 480 * lo ≤ a * clamp n := by nlinarith
  have hmul' : a * clamp n ≤ 4320 * hi := by nlinarith
  rw [newTarget, tdiv_eq_ediv_of_nonneg (by omega)]
  omega

/-! ### Encoded -/

lemma exists_newTarget (ha : 0 ≤ a) : ∃ v : ℕ, newTarget powLimit a n = v ∧ v < 2 ^ 256 := by
  have hmem := newTarget_mem powLimit n le_rfl ⟨ha, le_rfl⟩ (natCast_nonneg _)
  obtain ⟨v, hv⟩ := eq_ofNat_of_zero_le (show 0 ≤ newTarget powLimit a n by omega)
  exact ⟨v, hv, lt_of_le_of_lt (by omega) powLimit.value_lt⟩

lemma targets_ne_nil (h : 25 ≤ chain.length) : targets chain ≠ [] := by
  have hlen : (targets chain).length = 24 := by simp [targets]; omega
  exact fun h0 => by simp [h0] at hlen

/-- Only the timestamps at the ends of the window matter, and a longer window does not lower the target. -/
theorem depends_on_spread (powLimit : ArithUint256) {chain₁ chain₂ : List BlockBits} (h₁ : 25 ≤ chain₁.length)
    (h₂ : 25 ≤ chain₂.length) (hbits : (chain₁.take 24).map (·.nBits) = (chain₂.take 24).map (·.nBits))
    (htime₁ : ∀ t ∈ times chain₁, t ≠ 0) (htime₂ : ∀ t ∈ times chain₂, t ≠ 0) :
    (spread (times chain₁) = spread (times chain₂) →
      darkGravityWave3 powLimit chain₁ = darkGravityWave3 powLimit chain₂) ∧
    ((∀ t ∈ targets chain₁, 0 ≤ t) → spread (times chain₁) < spread (times chain₂) →
      ∃ m n, darkGravityWave3 powLimit chain₁ = .ok m ∧ darkGravityWave3 powLimit chain₂ = .ok n ∧
        CBigNum.setCompact m ≤ CBigNum.setCompact n) := by
  have htargets : targets chain₁ = targets chain₂ := by
    have h := congrArg (List.map fun n : UInt32 => CBigNum.setCompact n.toNat) hbits
    rwa [map_map, map_map] at h
  have hpos {chain : List BlockBits} (h : ∀ t ∈ times chain, t ≠ 0) : ∀ t ∈ times chain, 0 < t := by
    intro t ht
    obtain ⟨b, -, rfl⟩ := mem_map.1 ht
    exact (time_bounds b).1.lt_of_ne' (h _ ht)
  rw [darkGravityWave3_eq powLimit h₁, darkGravityWave3_eq powLimit h₂, timespan_eq_spread (hpos htime₁),
    timespan_eq_spread (hpos htime₂), ← htargets]
  refine ⟨fun hspread => by rw [hspread], fun hnonneg hlt => ⟨_, _, rfl, rfl, ?_⟩⟩
  have hmono := newTarget_mono powLimit (average_nonneg hnonneg) hlt.le
  obtain ⟨v, hv, hv256⟩ := exists_newTarget powLimit (spread (times chain₁)) (average_nonneg hnonneg)
  obtain ⟨w, hw, hw256⟩ := exists_newTarget powLimit (spread (times chain₂)) (average_nonneg hnonneg)
  rw [hv, hw] at hmono ⊢
  rw [setCompact_getCompact hv256, setCompact_getCompact hw256]
  exact_mod_cast truncate_mono (by exact_mod_cast hmono)

theorem depends_on_spread_even :
    ∃ m n, darkGravityWave3 (.ofUint64 100) (evenChain 0x01180000 10) = .ok m ∧
      darkGravityWave3 (.ofUint64 100) (evenChain 0x01180000 60) = .ok n ∧
      CBigNum.setCompact m ≤ CBigNum.setCompact n :=
  (depends_on_spread _ (by decide) (by decide) (by decide) (by decide) (by decide)).2 (by decide +kernel)
    (by decide +kernel)

/-- Targets of `-24`: the longer window gives `-23`, the shorter one `-8`. And a chain of height 23 gets the limit,
which a longer one with the same window does not. -/
theorem spread_negative :
    (evenChain 0x01980000 10).map (·.nBits) = (evenChain 0x01980000 60).map (·.nBits) ∧
      (∀ t ∈ times (evenChain 0x01980000 10), t ≠ 0) ∧ (∀ t ∈ times (evenChain 0x01980000 60), t ≠ 0) ∧
      spread (times (evenChain 0x01980000 10)) < spread (times (evenChain 0x01980000 60)) ∧
      darkGravityWave3 (.ofUint64 100) (evenChain 0x01980000 10) = .ok 0x01880000 ∧
      darkGravityWave3 (.ofUint64 100) (evenChain 0x01980000 60) = .ok 0x01970000 ∧
      CBigNum.setCompact 0x01970000 < CBigNum.setCompact 0x01880000 ∧
      times ((evenChain 0x01180000 10).take 24) = times (evenChain 0x01180000 10) ∧
      darkGravityWave3 (.ofUint64 100) ((evenChain 0x01180000 10).take 24) ≠
        darkGravityWave3 (.ofUint64 100) (evenChain 0x01180000 10) := by
  decide +kernel

/-- The number that `arith_uint256::SetCompact` sets. -/
def arithTarget (nCompact : ℕ) : ℕ := (ArithUint256.setCompact nCompact).target.value

/-- The new target is within a third and three times the targets of the window, and no fault happens. -/
theorem darkGravityWave3_range (powLimit : ArithUint256) (h : 25 ≤ chain.length)
    (htargets : ∀ b ∈ chain, (ArithUint256.setCompact b.nBits.toNat).Unflagged ∧
      0 < arithTarget b.nBits.toNat ∧ arithTarget b.nBits.toNat ≤ powLimit.value) :
    ∃ nCompact, darkGravityWave3 powLimit chain = .ok nCompact ∧ (ArithUint256.setCompact nCompact).Unflagged ∧
      arithTarget nCompact ≤ powLimit.value ∧
      (∀ hi, (∀ b ∈ chain.take 24, arithTarget b.nBits.toNat ≤ hi) → arithTarget nCompact ≤ 3 * hi) ∧
      ∀ lo, (∀ b ∈ chain.take 24, lo ≤ arithTarget b.nBits.toNat) →
        arithTarget (CBigNum.getCompact (lo / 3 : ℕ)) ≤ arithTarget nCompact := by
  have hmem {lo hi : ℕ} (hb : ∀ b ∈ chain.take 24, lo ≤ arithTarget b.nBits.toNat ∧ arithTarget b.nBits.toNat ≤ hi) :
      (lo : ℤ) ≤ average (targets chain) ∧ average (targets chain) ≤ hi := by
    refine average_mem (targets_ne_nil h) (Int.natCast_nonneg _) (forall_mem_map.2 fun b hin => ?_)
    rw [target, ← value_setCompact (htargets b (mem_of_mem_take hin)).1]
    exact_mod_cast hb b hin
  have hlimit : ∀ b ∈ chain.take 24, arithTarget b.nBits.toNat ≤ powLimit.value := fun b hin =>
    (htargets b (mem_of_mem_take hin)).2.2
  have hnonneg : 0 ≤ average (targets chain) := (hmem fun b hin => ⟨Nat.zero_le _, hlimit b hin⟩).1
  obtain ⟨v, hv, hv256⟩ := exists_newTarget powLimit (timespan (times chain)) hnonneg
  have hval : arithTarget (getCompact v) = truncate v :=
    value_setCompact_getCompact hv256
  have hle := truncate_le v
  refine ⟨_, darkGravityWave3_eq powLimit h, ?_⟩
  rw [hv, hval]
  refine ⟨setCompact_unflagged hv256, ?_, fun hi hhi => ?_, fun lo hlo => ?_⟩
  · have hpow : newTarget powLimit (average (targets chain)) (timespan (times chain)) ≤ powLimit.value :=
      min_le_right _ _
    omega
  · have hbound := newTarget_mem powLimit (timespan (times chain)) le_rfl
      (hmem fun b hin => ⟨Nat.zero_le _, hhi b hin⟩) (Int.natCast_nonneg _)
    omega
  · have hlo' : (lo : ℤ) ≤ powLimit.value := by
      obtain ⟨b, hin⟩ := exists_mem_of_ne_nil _ (show chain.take 24 ≠ [] by
        intro h0; simpa [targets, h0] using targets_ne_nil h)
      exact_mod_cast (hlo b hin).trans (hlimit b hin)
    have hbound := newTarget_mem powLimit (timespan (times chain)) (Int.natCast_nonneg _)
      (hmem fun b hin => ⟨hlo b hin, hlimit b hin⟩) hlo'
    rw [arithTarget, value_setCompact_getCompact (by omega)]
    exact truncate_mono (by omega)

theorem even_range :
    ∃ nCompact, darkGravityWave3 (.ofUint64 100) (evenChain 0x01180000 60) = .ok nCompact ∧
      arithTarget nCompact ≤ 3 * 24 := by
  obtain ⟨nCompact, hok, -, -, hhi, -⟩ := darkGravityWave3_range (.ofUint64 100)
    (show 25 ≤ (evenChain 0x01180000 60).length by decide) (by decide +kernel)
  exact ⟨nCompact, hok, hhi 24 (by decide +kernel)⟩

/-- With blocks exactly one spacing apart the 24 blocks have 23 intervals, so every target but zero shrinks. -/
theorem fixed_point_iff (powLimit : ArithUint256) {nBits : UInt32} {v : ℕ} (h : 25 ≤ chain.length)
    (hbits : ∀ b ∈ chain.take 25, b.nBits = nBits)
    (htime : (chain.take 25).IsChain fun b c => time b = time c + nTargetSpacing)
    (hdecode : CBigNum.setCompact nBits.toNat = v) (hencode : CBigNum.getCompact v = nBits.toNat)
    (hv : v ≤ powLimit.value) :
    darkGravityWave3 powLimit chain = .ok nBits.toNat ↔ nBits = 0 := by
  have hwindow : (chain.take 25).take 24 = chain.take 24 := by rw [take_take]; rfl
  have havg : average (targets chain) = v := by
    have hmem : ∀ t ∈ targets chain, (v : ℤ) ≤ t ∧ t ≤ v := forall_mem_map.2 fun b hin => by
      rw [target, hbits b (mem_of_mem_take (hwindow ▸ hin)), hdecode]
      exact ⟨le_rfl, le_rfl⟩
    exact le_antisymm (average_mem (targets_ne_nil h) (Int.natCast_nonneg v) hmem).2
      (average_mem (targets_ne_nil h) (Int.natCast_nonneg v) hmem).1
  have hspan : timespan (times chain) = 1380 := by
    have hchain : (times chain).IsChain fun t t' => t = t' + nTargetSpacing :=
      (isChain_map time).2 (hwindow ▸ htime.take 24)
    have hlen : (times chain).length = 24 := by simp [times]; omega
    have h0 : ∀ t ∈ times chain, 0 ≤ t := forall_mem_map.2 fun b _ => (time_bounds b).1
    cases htimes : times chain with
    | nil => simp [htimes] at hlen
    | cons t ts =>
      rw [htimes] at hchain hlen h0
      rw [timespan, timespanFrom_spacing (fun t ht => h0 t (mem_cons_of_mem _ ht)) hchain,
        show ts.length = 23 by simpa using hlen]
      rfl
  have hnew : newTarget powLimit v 1380 = (v * 1380 / 1440 : ℕ) := by
    rw [newTarget, show clamp 1380 = 1380 from rfl, Int.tdiv_eq_ediv_of_nonneg (by positivity)]
    omega
  have hlt := powLimit.value_lt
  rw [darkGravityWave3_eq powLimit h, havg, hspan, hnew, Except.ok.injEq]
  constructor
  · intro heq
    -- what is encoded decodes to less than the target, unless the target is zero
    have hle := truncate_le (v * 1380 / 1440)
    have htrunc := setCompact_getCompact (v := v * 1380 / 1440) (by omega)
    rw [heq] at htrunc
    have hv0 : v = 0 := by omega
    rw [hv0] at hencode
    exact UInt32.toNat_inj.1 hencode.symm
  · rintro rfl
    have hv0 : v = 0 := Int.ofNat_eq_zero.1 hdecode.symm
    rw [hv0]
    rfl

theorem even_fixed_iff :
    darkGravityWave3 (.ofUint64 100) (evenChain 0x01180000 60) = .ok (0x01180000 : UInt32).toNat ↔
      (0x01180000 : UInt32) = 0 :=
  fixed_point_iff (v := 24) _ (by decide) (by decide) (by decide +kernel) (by decide +kernel) (by decide +kernel)
    (by decide +kernel)

/-- The target 24 becomes 23. -/
theorem even_not_fixed :
    (∀ b ∈ evenChain 0x01180000 60, b.nBits = 0x01180000) ∧
      (evenChain 0x01180000 60).IsChain (fun b c => time b = time c + nTargetSpacing) ∧
      CBigNum.setCompact 0x01180000 = 24 ∧ CBigNum.getCompact 24 = 0x01180000 ∧
      darkGravityWave3 (.ofUint64 100) (evenChain 0x01180000 60) = .ok 0x01170000 := by
  decide +kernel

end DarkGravityWave

end Soferox

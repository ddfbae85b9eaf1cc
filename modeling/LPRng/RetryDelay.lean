import Mathlib.Algebra.Order.Ring.Int
import Mathlib.Data.Nat.Cast.Order.Ring

/-!
# Waiting before another attempt

`Send_job` connects again and again to a host that does not answer, and `Service_worker` waits
before a job that failed is printed once more. The time between two attempts is doubled with each
failure up to a maximum. It is computed in `int`, where a result that does not fit has no meaning.
-/

namespace LPRng

namespace RetryDelay

/-! ## Arithmetic of `int` -/

/-- The result of an operation of `int`. -/
def int (n : ℤ) : Option ℤ := if -2 ^ 31 ≤ n ∧ n < 2 ^ 31 then some n else none

/-- `1 << e`. -/
def shiftOne (e : ℤ) : Option ℤ := if 0 ≤ e then int (2 ^ e.toNat) else none

/-- `interval * (1 << e)`. -/
def doubled (interval e : ℤ) : Option ℤ := (shiftOne e).bind fun shifted => int (interval * shifted)

/-- A setting of the configuration that is not negative. -/
abbrev Setting : Type := { n : ℕ // n < 2 ^ 31 }

/-- The settings for the time between two attempts. -/
structure ConnectConfig where
  connectInterval : Setting
  connectGrace : Setting
  maxConnectInterval : Setting

/-! ## The two delays -/

section

variable (config : ConnectConfig)

/-- The time that is slept, since `plp_sleep` is only called for a time to sleep. -/
def slept (n : ℤ) : ℤ := if 0 < n then n else 0

/-- What `Send_job` does when a connection fails: it counts the failure and sleeps. -/
def retryConnect (errcount : ℤ) : Option (ℤ × ℤ) := do
  let errcount ← int (errcount + 1)
  if 0 < (config.connectInterval : ℤ) then
    let n ← doubled config.connectInterval (errcount - 1)
    let n := if (config.maxConnectInterval : ℤ) ≠ 0 ∧ (config.maxConnectInterval : ℤ) < n
      then (config.maxConnectInterval : ℤ) else n
    return (errcount, slept n)
  else return (errcount, 0)

/-- `errcount` and the last delay of `Send_job` after so many failures. -/
def failures : ℕ → Option (ℤ × ℤ)
  | 0 => some (0, 0)
  | k + 1 => (failures k).bind fun state => retryConnect config state.1

def sendJobDelay (k : ℕ) : Option ℤ := (failures config k).map Prod.snd

/-- The delay of `Service_worker` for a job whose `ATTEMPT` is given. -/
def serviceWorkerDelay (attempt : ℤ) : Option ℤ :=
  if 0 < attempt then do
    let n := if attempt < 8 then attempt else 8
    let product ← doubled config.connectInterval (n - 1)
    let n ← int (product + config.connectGrace)
    let n := if 0 < (config.maxConnectInterval : ℤ) ∧ (config.maxConnectInterval : ℤ) < n
      then (config.maxConnectInterval : ℤ) else n
    return slept n
  else some 0

/-- `ATTEMPT` after so many failures, each of which `Update_status` counts. -/
def attempts : ℕ → Option ℤ
  | 0 => some 0
  | k + 1 => (attempts k).bind fun attempt => int (attempt + 1)

def workerDelay (k : ℕ) : Option ℤ := (attempts k).bind (serviceWorkerDelay config)

/-! ## What is expected -/

/-- A time cut to the maximum, if one is set. -/
def cut (n : ℕ) : ℕ :=
  if config.maxConnectInterval.val = 0 then n else min n config.maxConnectInterval.val

/-- The exact times after `k` failures. -/
def sendJobTime (k : ℕ) : ℕ := config.connectInterval * 2 ^ (k - 1)

def workerTime (k : ℕ) : ℕ := config.connectInterval * 2 ^ (min k 8 - 1) + config.connectGrace

/-- The delay after `k` failures is the time, cut to the maximum; if the interval and the maximum
are positive then so is it, and it was no longer after any failure before. -/
structure Follows (delay : ℕ → Option ℤ) (time : ℕ → ℕ) (k : ℕ) : Prop where
  exact : delay k = some (cut config (time k) : ℤ)
  positive : 0 < config.connectInterval.val → 0 < config.maxConnectInterval.val → ∀ n ∈ delay k, 0 < n
  grows : ∀ j, 0 < j → j ≤ k → ∃ m, delay j = some m ∧ ∀ n ∈ delay k, m ≤ n

end

/-! ## Where the arithmetic goes through -/

variable {config : ConnectConfig}

theorem int_natCast (n : ℕ) : int n = if n < 2 ^ 31 then some (n : ℤ) else none := by
  unfold int
  have bounds : (-2 ^ 31 ≤ (n : ℤ) ∧ (n : ℤ) < 2 ^ 31) ↔ n < 2 ^ 31 := by omega
  rw [if_congr bounds rfl rfl]

theorem shiftOne_natCast (e : ℕ) : shiftOne e = int ((2 ^ e : ℕ) : ℤ) := by
  rw [shiftOne, if_pos (Int.natCast_nonneg e), Int.toNat_natCast, Nat.cast_pow]
  rfl

theorem slept_natCast (n : ℕ) : slept n = n := by
  unfold slept
  split <;> omega

/-- A time that is cut as the code does it. -/
theorem slept_cut (n : ℕ) {large : Prop} [Decidable large] (set_ : large ↔ config.maxConnectInterval.val ≠ 0) :
    slept (if large ∧ (config.maxConnectInterval : ℤ) < n then (config.maxConnectInterval : ℤ) else n) =
      cut config n := by
  have cast : (if large ∧ (config.maxConnectInterval : ℤ) < n then (config.maxConnectInterval : ℤ) else n) =
      (cut config n : ℤ) := by
    unfold cut
    by_cases unset : config.maxConnectInterval.val = 0
    · rw [if_pos unset, if_neg fun both => set_.mp both.1 unset]
    · rw [if_neg unset, if_congr (and_iff_right (set_.mpr unset)) rfl rfl]
      split <;> omega
  rw [cast, slept_natCast]

theorem doubled_of_small {a e : ℕ} (small : e < 31) :
    doubled a e = if a * 2 ^ e < 2 ^ 31 then some ((a * 2 ^ e : ℕ) : ℤ) else none := by
  have fits : 2 ^ e < 2 ^ 31 := Nat.pow_lt_pow_right (by omega) small
  rw [doubled, shiftOne_natCast, int_natCast, if_pos fits, Option.bind_some, ← Nat.cast_mul, int_natCast]

/-- A product with a power of two is computed exactly if it fits, and not at all else. -/
theorem doubled_natCast {a e : ℕ} (positive : 0 < a) :
    doubled a e = if a * 2 ^ e < 2 ^ 31 then some ((a * 2 ^ e : ℕ) : ℤ) else none := by
  rcases lt_or_ge e 31 with small | large
  · exact doubled_of_small small
  · have shifted : 2 ^ 31 ≤ 2 ^ e := Nat.pow_le_pow_right (by omega) large
    have product : 2 ^ e ≤ a * 2 ^ e := Nat.le_mul_of_pos_left _ positive
    rw [doubled, shiftOne_natCast, int_natCast, if_neg (by omega), if_neg (by omega)]
    rfl

/-! ## The delays of a sender -/

theorem retryConnect_natCast (k : ℕ) : retryConnect config k =
    if k + 1 < 2 ^ 31 ∧ sendJobTime config (k + 1) < 2 ^ 31 then
      some (((k + 1 : ℕ) : ℤ), (cut config (sendJobTime config (k + 1)) : ℤ))
    else none := by
  have counted : int ((k : ℤ) + 1) = int ((k + 1 : ℕ) : ℤ) := by rw [Nat.cast_succ]
  have before : ((k + 1 : ℕ) : ℤ) - 1 = k := by omega
  unfold retryConnect sendJobTime
  rw [counted, int_natCast, Nat.add_sub_cancel]
  by_cases few : k + 1 < 2 ^ 31
  swap
  · rw [if_neg few, if_neg fun both => few both.1]
    rfl
  rw [if_pos few, if_congr (and_iff_right few) rfl rfl]
  dsimp only [Option.bind_eq_bind, Option.bind_some]
  rw [before]
  by_cases positive : 0 < config.connectInterval.val
  · rw [if_pos (by omega)]
    have product := doubled_natCast (e := k) positive
    rw [product]
    split
    · exact congrArg (fun n => some (((k + 1 : ℕ) : ℤ), n)) (slept_cut _ (by omega))
    · rfl
  · have zero : config.connectInterval.val = 0 := by omega
    have uncut : cut config 0 = 0 := by
      unfold cut
      split <;> omega
    rw [if_neg (by omega), zero, Nat.zero_mul, uncut, if_pos (by omega)]
    rfl

/-- After `k` failures `Send_job` has waited as it should, or the arithmetic has failed on the way. -/
theorem failures_succ (k : ℕ) : failures config (k + 1) =
    if k + 1 < 2 ^ 31 ∧ sendJobTime config (k + 1) < 2 ^ 31 then
      some (((k + 1 : ℕ) : ℤ), (cut config (sendJobTime config (k + 1)) : ℤ))
    else none := by
  induction k with
  | zero => exact retryConnect_natCast 0
  | succ k ih =>
      rw [failures, ih]
      split
      · rw [Option.bind_some, retryConnect_natCast]
      · next large =>
          have shorter : sendJobTime config (k + 1) ≤ sendJobTime config (k + 1 + 1) :=
            Nat.mul_le_mul_left _ (Nat.pow_le_pow_right (by omega) (by omega))
          have still : ¬ (k + 1 + 1 < 2 ^ 31 ∧ sendJobTime config (k + 1 + 1) < 2 ^ 31) := by
            intro fits
            apply large
            omega
          rw [Option.bind_none, if_neg still]

theorem sendJobDelay_succ (k : ℕ) : sendJobDelay config (k + 1) =
    if k + 1 < 2 ^ 31 ∧ sendJobTime config (k + 1) < 2 ^ 31 then
      some (cut config (sendJobTime config (k + 1)) : ℤ)
    else none := by
  rw [sendJobDelay, failures_succ]
  split
  · rfl
  · rfl

/-! ## The delays of a worker -/

theorem attempts_eq (k : ℕ) : attempts k = if k < 2 ^ 31 then some (k : ℤ) else none := by
  induction k with
  | zero => rfl
  | succ k ih =>
      rw [attempts, ih]
      split
      · rw [Option.bind_some, ← Nat.cast_succ, int_natCast]
      · have still : ¬ k + 1 < 2 ^ 31 := by omega
        rw [Option.bind_none, if_neg still]

theorem serviceWorkerDelay_natCast (k : ℕ) : serviceWorkerDelay config ((k + 1 : ℕ) : ℤ) =
    if workerTime config (k + 1) < 2 ^ 31 then some (cut config (workerTime config (k + 1)) : ℤ) else none := by
  have exponent : (if ((k + 1 : ℕ) : ℤ) < 8 then ((k + 1 : ℕ) : ℤ) else 8) - 1 = ((min (k + 1) 8 - 1 : ℕ) : ℤ) := by
    split <;> omega
  have summed (n : ℕ) : ((n : ℤ) + (config.connectGrace : ℤ)) = ((n + config.connectGrace.val : ℕ) : ℤ) :=
    (Nat.cast_add _ _).symm
  unfold serviceWorkerDelay workerTime
  rw [if_pos (by omega)]
  dsimp only [Option.bind_eq_bind]
  rw [exponent]
  have small : min (k + 1) 8 - 1 < 31 := by omega
  generalize min (k + 1) 8 - 1 = e at small
  rw [doubled_of_small small]
  by_cases fits : config.connectInterval.val * 2 ^ e < 2 ^ 31
  · rw [if_pos fits, Option.bind_some, summed, int_natCast]
    split
    · exact congrArg some (slept_cut _ (by omega))
    · rfl
  · have large : ¬ config.connectInterval.val * 2 ^ e + config.connectGrace.val < 2 ^ 31 := by omega
    rw [if_neg fits, if_neg large]
    rfl

theorem workerDelay_succ (k : ℕ) : workerDelay config (k + 1) =
    if k + 1 < 2 ^ 31 ∧ workerTime config (k + 1) < 2 ^ 31 then
      some (cut config (workerTime config (k + 1)) : ℤ)
    else none := by
  rw [workerDelay, attempts_eq]
  by_cases few : k + 1 < 2 ^ 31
  · rw [if_pos few, Option.bind_some, serviceWorkerDelay_natCast, if_congr (and_iff_right few) rfl rfl]
  · rw [if_neg few, if_neg fun both => few both.1]
    rfl

/-! ## The delays as they are expected -/

theorem cut_mono {m n : ℕ} (shorter : m ≤ n) : cut config m ≤ cut config n := by
  unfold cut
  split
  · exact shorter
  · exact min_le_min_right _ shorter

theorem cut_pos {n : ℕ} (positive : 0 < n) : 0 < cut config n := by
  unfold cut
  split <;> omega

/-- A delay that is computed exactly as long as its time fits is as it is expected just then. -/
theorem follows_iff {delay : ℕ → Option ℤ} {time : ℕ → ℕ}
    (computed : ∀ k, delay (k + 1) =
      if k + 1 < 2 ^ 31 ∧ time (k + 1) < 2 ^ 31 then some (cut config (time (k + 1)) : ℤ) else none)
    (grows : ∀ j k, j ≤ k → time j ≤ time k) (positive : 0 < config.connectInterval.val → ∀ k, 0 < time k) (k : ℕ) :
    Follows config delay time (k + 1) ↔ k + 1 < 2 ^ 31 ∧ time (k + 1) < 2 ^ 31 := by
  constructor
  · intro follows
    have exact_ := follows.exact
    rw [computed] at exact_
    by_contra large
    rw [if_neg large] at exact_
    cases exact_
  · intro fits
    have now : delay (k + 1) = some (cut config (time (k + 1)) : ℤ) := by rw [computed, if_pos fits]
    refine ⟨now, ?_, ?_⟩
    · intro interval _ n given
      cases now.symm.trans given
      exact Int.natCast_pos.mpr (cut_pos (positive interval (k + 1)))
    · intro j counted below
      rcases Nat.exists_eq_succ_of_ne_zero counted.ne' with ⟨i, rfl⟩
      have shorter := grows (i + 1) (k + 1) below
      have before : delay (i + 1) = some (cut config (time (i + 1)) : ℤ) := by
        rw [computed, if_pos ⟨by omega, by omega⟩]
      refine ⟨_, before, fun n given => ?_⟩
      cases now.symm.trans given
      exact Nat.cast_le.mpr (cut_mono shorter)

/-- Each delay is as it is expected exactly as long as the count of the failures and the time before the
cut are numbers of an `int`. -/
theorem delays_follow_iff (config : ConnectConfig) (k : ℕ) :
    (Follows config (sendJobDelay config) (sendJobTime config) (k + 1) ↔
      k + 1 < 2 ^ 31 ∧ sendJobTime config (k + 1) < 2 ^ 31) ∧
    (Follows config (workerDelay config) (workerTime config) (k + 1) ↔
      k + 1 < 2 ^ 31 ∧ workerTime config (k + 1) < 2 ^ 31) := by
  have powers {i j : ℕ} (below : i ≤ j) : 2 ^ i ≤ 2 ^ j := Nat.pow_le_pow_right (by omega) below
  constructor
  · refine follows_iff sendJobDelay_succ ?_ ?_ k
    · exact fun i j below => Nat.mul_le_mul_left _ (powers (by omega))
    · exact fun interval j => Nat.mul_pos interval (Nat.two_pow_pos _)
  · refine follows_iff workerDelay_succ ?_ ?_ k
    · exact fun i j below => Nat.add_le_add_right (Nat.mul_le_mul_left _ (powers (by omega))) _
    · exact fun interval j => Nat.add_pos_left (Nat.mul_pos interval (Nat.two_pow_pos _)) _

/-- The settings with their defaults. -/
def defaults : ConnectConfig := ⟨⟨10, by omega⟩, ⟨0, by omega⟩, ⟨60, by omega⟩⟩

/-- After 29 failures there is no delay that means anything. -/
theorem no_delay_follows : ¬ ∀ config k, Follows config (sendJobDelay config) (sendJobTime config) (k + 1) ∧
    Follows config (workerDelay config) (workerTime config) (k + 1) := by
  intro claimed
  have undefined_ : sendJobDelay defaults 29 = none := by decide
  cases undefined_.symm.trans (claimed defaults 28).1.exact

end RetryDelay

end LPRng

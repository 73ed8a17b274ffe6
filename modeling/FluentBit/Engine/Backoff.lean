import Mathlib.Tactic.Linarith
import Mathlib.Tactic.Ring

/-! The wait before a retry, after `backoff_full_jitter` of `flb_scheduler.c`. -/

set_option autoImplicit false

namespace FluentBit.Backoff

open Int

/-- The doubles of the computation. All of them are integers of at most 31
significant bits times a power of two, so no product is rounded. -/
inductive Double where
  | whole (value : Int)
  | infinite (negative : Bool)
  | nan
  deriving DecidableEq, Repr

namespace Double

def ofInt (value : Int) : Double :=
  if value.natAbs.log2 < 1024 then .whole value else .infinite (value < 0)

def mul : Double → Double → Double
  | .whole left, .whole right => ofInt (left * right)
  | .whole left, .infinite negative => if left = 0 then .nan else .infinite (decide (left < 0) ^^ negative)
  | .infinite negative, .whole right => if right = 0 then .nan else .infinite (negative ^^ decide (right < 0))
  | .infinite left, .infinite right => .infinite (left ^^ right)
  | .nan, _ | _, .nan => .nan

/-- `a < b` -/
def less : Double → Double → Bool
  | .whole left, .whole right => left < right
  | .whole _, .infinite negative => !negative
  | .infinite negative, .whole _ => negative
  | .infinite left, .infinite right => left && !right
  | .nan, _ | _, .nan => false

/-- `(int) d`; what is no `int` becomes the least one, as on x86-64. -/
def toInt : Double → Int
  | .whole value => if -2 ^ 31 ≤ value ∧ value < 2 ^ 31 then value else -2 ^ 31
  | .infinite _ | .nan => -2 ^ 31

end Double

def xmin (left right : Double) : Double := if left.less right then left else right

/-- The loop of `ipow`, for an exponent that is not negative. -/
def ipowLoop (result base : Double) (exp : Nat) : Double :=
  let result := if exp % 2 = 1 then result.mul base else result
  if exp / 2 = 0 then result
  else ipowLoop result (base.mul base) (exp / 2)
termination_by exp
decreasing_by omega

def ipow (base : Double) (exp : Nat) : Double := ipowLoop (.whole 1) base exp

def randMax : Int := 2147483647

/-- The value an `int` holds after an operation. -/
def wrap (value : Int) : Int := value.bmod (2 ^ 32)

/-- What `random_uniform` does with the numbers that `rand` returns. -/
inductive Drawn where
  | divisionByZero
  | noneAccepted
  | value (value : Int)
  deriving DecidableEq, Repr

def draw (limit : Int) : List Int → Option Int
  | [] => none
  | ra :: draws => if ra < 0 ∨ limit ≤ ra then draw limit draws else some ra

def randomUniform (min max : Int) (draws : List Int) : Drawn :=
  let range := wrap (max - min + 1)
  if range = 0 then .divisionByZero
  else
    let copies := randMax.tdiv range
    let limit := wrap (range * copies)
    match draw limit draws with
    | none => .noneAccepted
    | some ra => if copies = 0 then .divisionByZero else .value (wrap (ra.tdiv copies + min))

/-- The upper bound that `backoff_full_jitter` computes. -/
def temp (base cap : Int) (n : Nat) : Int :=
  (xmin (.whole cap) ((Double.whole base).mul (ipow (.whole 2) n))).toInt

/-- `backoff_full_jitter`, as `flb_sched_request_create` calls it with what the
service section has set. -/
def backoffFullJitter (schedBase schedCap : BitVec 32) (n : Nat) (draws : List Int) : Drawn :=
  randomUniform schedBase.toInt (temp schedBase.toInt schedCap.toInt n) draws

/-! ## The upper bound -/

def power (exp : Nat) : Double := .ofInt (2 ^ exp)

private theorem pow_natAbs (exp : Nat) : ((2 : Int) ^ exp).natAbs = 2 ^ exp := by
  rw [natAbs_pow]
  rfl

private theorem pow_positive (exp : Nat) : (0 : Int) < 2 ^ exp := Int.pow_pos (by decide)

private theorem log2_scaled {value : Nat} (nonzero : value ≠ 0) (exp : Nat) :
    (value * 2 ^ exp).log2 = value.log2 + exp := by
  induction exp with
  | zero => rw [Nat.pow_zero, Nat.mul_one, Nat.add_zero]
  | succ exp ih =>
    have scaled : value * 2 ^ exp ≠ 0 := Nat.mul_ne_zero nonzero (Nat.two_pow_pos exp).ne'
    calc (value * 2 ^ (exp + 1)).log2 = (2 * (value * 2 ^ exp)).log2 := by rw [Nat.pow_succ]; congr 1; ring
      _ = (value * 2 ^ exp).log2 + 1 := Nat.log2_two_mul scaled
      _ = value.log2 + (exp + 1) := by rw [ih, Nat.add_assoc]

private theorem power_of_lt {exp : Nat} (small : exp < 1024) : power exp = .whole (2 ^ exp) := by
  have size : ((2 : Int) ^ exp).natAbs.log2 < 1024 := by rwa [pow_natAbs, Nat.log2_two_pow]
  exact if_pos size

private theorem power_of_le {exp : Nat} (large : 1024 ≤ exp) : power exp = .infinite false := by
  have size : ¬ ((2 : Int) ^ exp).natAbs.log2 < 1024 := by
    rw [pow_natAbs, Nat.log2_two_pow]
    exact Nat.not_lt.mpr large
  unfold power Double.ofInt
  rw [if_neg size]
  simp [Int.not_lt.mpr (pow_positive exp).le]

private theorem scaled_negative (value : Int) (exp : Nat) : value * 2 ^ exp < 0 ↔ value < 0 := by
  constructor
  · intro negative
    by_contra least
    exact absurd (Int.mul_nonneg (Int.not_lt.mp least) (pow_positive exp).le) (Int.not_le.mpr negative)
  · intro negative
    exact Int.mul_neg_of_neg_of_pos negative (pow_positive exp)

private theorem mul_power {value : Int} (exp : Nat) (usable : value ≠ 0 ∨ exp < 1024)
    (inside : value.natAbs.log2 < 1024) :
    (Double.ofInt value).mul (power exp) = .ofInt (value * 2 ^ exp) := by
  have start : Double.ofInt value = .whole value := if_pos inside
  cases Nat.lt_or_ge exp 1024 with
  | inl small =>
    rw [start, power_of_lt small]
    rfl
  | inr large =>
    have nonzero : value ≠ 0 := usable.resolve_right (Nat.not_lt.mpr large)
    have size : ¬ (value * 2 ^ exp).natAbs.log2 < 1024 := by
      rw [natAbs_mul, pow_natAbs, log2_scaled (natAbs_ne_zero.mpr nonzero)]
      exact Nat.not_lt.mpr (Nat.le_add_left_of_le large)
    rw [start, power_of_le large]
    unfold Double.ofInt
    rw [if_neg size]
    simp [Double.mul, nonzero, scaled_negative]

private theorem power_mul (left right : Nat) : (power left).mul (power right) = power (left + right) := by
  cases Nat.lt_or_ge left 1024 with
  | inl small =>
    have inside : ((2 : Int) ^ left).natAbs.log2 < 1024 := by rwa [pow_natAbs, Nat.log2_two_pow]
    rw [power, mul_power right (.inl (pow_positive left).ne') inside, power, Int.pow_add]
  | inr large =>
    rw [power_of_le large, power_of_le (Nat.le_add_right_of_le large)]
    cases Nat.lt_or_ge right 1024 with
    | inl small =>
      have positive := pow_positive right
      rw [power_of_lt small]
      simp [Double.mul, positive.ne', Int.not_lt.mpr positive.le]
    | inr large =>
      rw [power_of_le large]
      rfl

private theorem ipowLoop_power (result base exp : Nat) :
    ipowLoop (power result) (power base) exp = power (result + base * exp) := by
  induction exp using Nat.strong_induction_on generalizing result base with
  | _ exp ih =>
    unfold ipowLoop
    have halves : exp % 2 + 2 * (exp / 2) = exp := Nat.mod_add_div exp 2
    have multiplied : (if exp % 2 = 1 then (power result).mul (power base) else power result) =
        power (result + base * (exp % 2)) := by
      cases Nat.mod_two_eq_zero_or_one exp with
      | inl even => rw [even, if_neg (by decide), Nat.mul_zero, Nat.add_zero]
      | inr odd => rw [odd, if_pos rfl, power_mul, Nat.mul_one]
    rw [multiplied]
    by_cases last : exp / 2 = 0
    · have only : exp % 2 = exp := by omega
      rw [if_pos last, only]
    · rw [if_neg last, power_mul, ih (exp / 2) (by omega)]
      congr 1
      calc result + base * (exp % 2) + (base + base) * (exp / 2) = result + base * (exp % 2 + 2 * (exp / 2)) := by ring
        _ = result + base * exp := by rw [halves]

private theorem ipow_two (n : Nat) : ipow (.whole 2) n = power n := by
  have one : Double.whole 1 = power 0 := (power_of_lt (show 0 < 1024 by decide)).symm
  have two : Double.whole 2 = power 1 := (power_of_lt (show 1 < 1024 by decide)).symm
  unfold ipow
  rw [one, two, ipowLoop_power, Nat.zero_add, Nat.one_mul]

private theorem less_ofInt {left right : Int} (inside : left.natAbs < 2 ^ 32) :
    (Double.whole left).less (.ofInt right) = decide (left < right) := by
  unfold Double.ofInt
  split
  · rfl
  · next outside =>
    have beyond : 2 ^ 32 ≤ right.natAbs := by
      by_contra small
      have nonzero : right.natAbs ≠ 0 := by
        intro zero
        rw [zero, Nat.log2_zero] at outside
        exact outside (by decide)
      have log : right.natAbs.log2 < 32 := (Nat.log2_lt nonzero).mpr (Nat.not_le.mp small)
      exact outside (log.trans (by decide))
    cases lt_or_ge right 0 with
    | inl negative =>
      have after : ¬ left < right := by omega
      simp [Double.less, negative, after]
    | inr least =>
      have before : left < right := by omega
      simp [Double.less, Int.not_lt.mpr least, before]

private theorem small_inside {value : Int} (small : value.natAbs < 2 ^ 32) : value.natAbs.log2 < 1024 := by
  by_cases zero : value.natAbs = 0
  · rw [zero, Nat.log2_zero]
    decide
  · have log : value.natAbs.log2 < 32 := (Nat.log2_lt zero).mpr small
    exact log.trans (by decide)

theorem toInt_ofInt (value : Int) :
    (Double.ofInt value).toInt = if -2 ^ 31 ≤ value ∧ value < 2 ^ 31 then value else -2 ^ 31 := by
  unfold Double.ofInt
  split
  · rfl
  · next outside =>
    have beyond : ¬ (-2 ^ 31 ≤ value ∧ value < 2 ^ 31) := by
      intro inside
      exact outside (small_inside (by omega))
    rw [if_neg beyond]
    rfl

private theorem temp_eq {base cap : Int} {n : Nat} (baseLeast : -2 ^ 31 ≤ base) (baseMost : base < 2 ^ 31)
    (capLeast : -2 ^ 31 ≤ cap) (capMost : cap < 2 ^ 31) (usable : base ≠ 0 ∨ n < 1024) :
    temp base cap n = max (min cap (base * 2 ^ n)) (-2 ^ 31) := by
  have inside : base.natAbs.log2 < 1024 := small_inside (by omega)
  have start : Double.whole base = .ofInt base := (if_pos inside).symm
  unfold temp xmin
  rw [ipow_two, start, mul_power n usable inside, less_ofInt (by omega)]
  by_cases before : cap < base * 2 ^ n
  · simp only [before, decide_true, if_true, Double.toInt]
    omega
  · simp only [before, decide_false, Bool.false_eq_true, if_false, toInt_ofInt]
    omega

private theorem temp_nan {cap : Int} {n : Nat} (large : 1024 ≤ n) : temp 0 cap n = -2 ^ 31 := by
  unfold temp
  rw [ipow_two, power_of_le large]
  rfl

/-! ## The draw -/

/-- What `rand` returns. -/
def Rand (draws : List Int) : Prop := ∀ ra ∈ draws, 0 ≤ ra ∧ ra ≤ randMax

/-- For every random source the wait is found without a division by zero, lies
between the base and the bound, and some number of `rand` is accepted. -/
structure Keeps (schedBase schedCap : BitVec 32) (n : Nat) : Prop where
  divides : ∀ draws, Rand draws → backoffFullJitter schedBase schedCap n draws ≠ .divisionByZero
  accepts : ∃ ra, Rand [ra] ∧ ∃ seconds, backoffFullJitter schedBase schedCap n [ra] = .value seconds
  bounded : ∀ draws, Rand draws → ∀ seconds, backoffFullJitter schedBase schedCap n draws = .value seconds →
    schedBase.toInt ≤ seconds ∧
      seconds ≤ max schedBase.toInt (min schedCap.toInt (schedBase.toInt * 2 ^ n))

private theorem draw_spec {limit ra : Int} {draws : List Int} (drawn : draw limit draws = some ra) :
    ra ∈ draws ∧ 0 ≤ ra ∧ ra < limit := by
  induction draws with
  | nil => cases drawn
  | cons first draws ih =>
    unfold draw at drawn
    split at drawn
    · obtain ⟨member, inside⟩ := ih drawn
      exact ⟨List.mem_cons_of_mem _ member, inside⟩
    · next accepted =>
      cases drawn
      exact ⟨List.mem_cons_self, by omega, by omega⟩

private theorem draw_accepted {limit ra : Int} (least : 0 ≤ ra) (inside : ra < limit) : draw limit [ra] = some ra := by
  unfold draw
  rw [if_neg (by omega)]

private theorem wrap_of_inside {value : Int} (least : -2 ^ 31 ≤ value) (most : value < 2 ^ 31) : wrap value = value :=
  bmod_eq_of_le (by omega) (by omega)

private theorem randomUniform_eq {min max range copies limit : Int} (rangeEq : wrap (max - min + 1) = range)
    (nonzero : range ≠ 0) (copiesEq : randMax.tdiv range = copies) (limitEq : wrap (range * copies) = limit)
    (draws : List Int) :
    randomUniform min max draws = match draw limit draws with
      | none => .noneAccepted
      | some ra => if copies = 0 then .divisionByZero else .value (wrap (ra.tdiv copies + min)) := by
  subst rangeEq copiesEq limitEq
  unfold randomUniform
  rw [if_neg nonzero]

private theorem randomUniform_draw {min max range copies limit ra : Int} (rangeEq : wrap (max - min + 1) = range)
    (nonzero : range ≠ 0) (copiesEq : randMax.tdiv range = copies) (limitEq : wrap (range * copies) = limit)
    (copied : copies ≠ 0) (least : 0 ≤ ra) (inside : ra < limit) :
    randomUniform min max [ra] = .value (wrap (ra.tdiv copies + min)) := by
  rw [randomUniform_eq rangeEq nonzero copiesEq limitEq, draw_accepted least inside]
  simp [copied]

private theorem copies_spec {range : Int} (positive : 0 < range) (most : range ≤ randMax) :
    0 < randMax.tdiv range ∧ range * randMax.tdiv range ≤ randMax := by
  rw [tdiv_eq_ediv_of_nonneg (by decide)]
  have once : 1 * range ≤ randMax := by omega
  exact ⟨(Int.le_ediv_iff_mul_le positive).mpr once, Int.mul_ediv_self_le positive.ne'⟩

structure Draws (least top : Int) (outcome : List Int → Drawn) : Prop where
  first : outcome [0] = .value least
  between : ∀ draws, outcome draws = .noneAccepted ∨
    ∃ seconds, outcome draws = .value seconds ∧ least ≤ seconds ∧ seconds ≤ top

private theorem randomUniform_forward {min max : Int} (least : -2 ^ 31 ≤ min) (most : max < 2 ^ 31)
    (ordered : min ≤ max) (fits : max - min + 1 ≤ randMax) : Draws min max (randomUniform min max) := by
  have whole : randMax = 2147483647 := rfl
  have rangeEq : wrap (max - min + 1) = max - min + 1 := wrap_of_inside (by omega) (by omega)
  have positive : 0 < max - min + 1 := by omega
  obtain ⟨copied, inside⟩ := copies_spec positive fits
  have some_limit : 0 < (max - min + 1) * randMax.tdiv (max - min + 1) := Int.mul_pos positive copied
  have limitEq : wrap ((max - min + 1) * randMax.tdiv (max - min + 1)) = (max - min + 1) * randMax.tdiv (max - min + 1) :=
    wrap_of_inside (by omega) (by omega)
  constructor
  · rw [randomUniform_draw rangeEq positive.ne' rfl limitEq copied.ne' (Int.le_refl 0) some_limit, Int.zero_tdiv,
      Int.zero_add, wrap_of_inside least (by omega)]
  · intro draws
    rw [randomUniform_eq rangeEq positive.ne' rfl limitEq]
    cases drawn : draw ((max - min + 1) * randMax.tdiv (max - min + 1)) draws with
    | none => exact .inl rfl
    | some ra =>
      obtain ⟨-, nonnegative, below⟩ := draw_spec drawn
      have quotient : ra.tdiv (randMax.tdiv (max - min + 1)) = ra / randMax.tdiv (max - min + 1) :=
        tdiv_eq_ediv_of_nonneg nonnegative
      have start : 0 ≤ ra / randMax.tdiv (max - min + 1) := ediv_nonneg nonnegative copied.le
      have last : ra / randMax.tdiv (max - min + 1) < max - min + 1 := Int.ediv_lt_of_lt_mul copied below
      right
      simp only [copied.ne', if_false, quotient]
      rw [wrap_of_inside (by omega) (by omega)]
      exact ⟨_, rfl, by omega, by omega⟩

private theorem randomUniform_turned {min max : Int} (least : -2 ^ 31 ≤ min) (most : min < 2 ^ 31)
    (turned : max = min - 2) : Draws min min (randomUniform min max) := by
  have rangeEq : wrap (max - min + 1) = -1 := by
    rw [wrap_of_inside (by omega) (by omega)]
    omega
  have copiesEq : randMax.tdiv (-1) = -randMax := rfl
  have limitEq : wrap (-1 * -randMax) = randMax := rfl
  have copied : -randMax ≠ 0 := by decide
  constructor
  · rw [randomUniform_draw rangeEq (by decide) copiesEq limitEq copied (Int.le_refl 0) (by decide), Int.zero_tdiv,
      Int.zero_add, wrap_of_inside least most]
  · intro draws
    rw [randomUniform_eq rangeEq (by decide) copiesEq limitEq]
    cases drawn : draw randMax draws with
    | none => exact .inl rfl
    | some ra =>
      obtain ⟨-, nonnegative, below⟩ := draw_spec drawn
      have quotient : ra.tdiv (-randMax) = 0 := by
        rw [Int.tdiv_neg, Int.tdiv_eq_zero_of_lt nonnegative below]
        rfl
      right
      simp only [copied, if_false, quotient, Int.zero_add]
      rw [wrap_of_inside least most]
      exact ⟨_, rfl, Int.le_refl _, Int.le_refl _⟩

/-- Some number of `rand` shows that the draw is of no use. -/
def Fails (min : Int) (outcome : List Int → Drawn) : Prop :=
  (∃ ra, Rand [ra] ∧ outcome [ra] = .divisionByZero) ∨
  (∀ ra, Rand [ra] → outcome [ra] = .noneAccepted) ∨
  ∃ ra, Rand [ra] ∧ ∃ seconds, outcome [ra] = .value seconds ∧ seconds ≠ min

private theorem rand_single {ra : Int} (least : 0 ≤ ra) (most : ra ≤ randMax) : Rand [ra] := by
  intro other member
  cases List.mem_singleton.mp member
  exact ⟨least, most⟩

private theorem copies_inside {range : Int} (two : 2 ≤ range) (most : range ≤ randMax) :
    0 < randMax.tdiv range ∧ randMax.tdiv range < range * randMax.tdiv range ∧ range * randMax.tdiv range ≤ randMax := by
  obtain ⟨copied, inside⟩ := copies_spec (by omega) most
  have doubled : 2 * randMax.tdiv range ≤ range * randMax.tdiv range := Int.mul_le_mul_of_nonneg_right two copied.le
  exact ⟨copied, by omega, inside⟩

private theorem wrap_succ_ne {value : Int} (least : -2 ^ 31 ≤ value) (most : value < 2 ^ 31) :
    wrap (1 + value) ≠ value := by
  by_cases last : 1 + value < 2 ^ 31
  · rw [wrap_of_inside (by omega) last]
    omega
  · have edge : value = 2 ^ 31 - 1 := by omega
    subst edge
    decide

private theorem fails_of_negative {min max : Int} (minLeast : -2 ^ 31 < min) (minMost : min < 2 ^ 31)
    (least : -randMax ≤ max - min + 1) (most : max - min + 1 ≤ -2) : Fails min (randomUniform min max) := by
  have whole : randMax = 2147483647 := rfl
  obtain ⟨copied, inside, fits⟩ := copies_inside (show 2 ≤ -(max - min + 1) by omega) (by omega)
  have rangeEq : wrap (max - min + 1) = max - min + 1 := wrap_of_inside (by omega) (by omega)
  have copiesEq : randMax.tdiv (max - min + 1) = -randMax.tdiv (-(max - min + 1)) := by
    rw [Int.tdiv_neg, Int.neg_neg]
  have product : (max - min + 1) * -randMax.tdiv (-(max - min + 1)) = -(max - min + 1) * randMax.tdiv (-(max - min + 1)) := by
    rw [Int.mul_neg, Int.neg_mul]
  have limitEq : wrap ((max - min + 1) * -randMax.tdiv (-(max - min + 1))) =
      -(max - min + 1) * randMax.tdiv (-(max - min + 1)) := by
    rw [product]
    exact wrap_of_inside (by omega) (by omega)
  right
  right
  refine ⟨_, rand_single copied.le (by omega), _,
    randomUniform_draw rangeEq (by omega) copiesEq limitEq (by omega) copied.le inside, ?_⟩
  rw [Int.tdiv_neg, Int.tdiv_self copied.ne', wrap_of_inside (by omega) (by omega)]
  omega

private theorem fails_of_wrapped {min max : Int} (minMost : min < 2 ^ 31) (minLeast : -2 ^ 31 ≤ min)
    (maxLeast : -2 ^ 31 ≤ max) (most : max - min + 1 < -2 ^ 31) : Fails min (randomUniform min max) := by
  have whole : randMax = 2147483647 := rfl
  obtain ⟨copied, inside, fits⟩ := copies_inside (show 2 ≤ max - min + 1 + 2 ^ 32 by omega) (by omega)
  have rangeEq : wrap (max - min + 1) = max - min + 1 + 2 ^ 32 := by
    have turned := wrap_of_inside (show -2 ^ 31 ≤ max - min + 1 + 2 ^ 32 by omega) (by omega)
    rw [← turned]
    exact (add_bmod_right (max - min + 1) (2 ^ 32)).symm
  right
  right
  refine ⟨_, rand_single copied.le (by omega), _,
    randomUniform_draw rangeEq (by omega) rfl (wrap_of_inside (by omega) (by omega)) copied.ne' copied.le inside, ?_⟩
  rw [Int.tdiv_self copied.ne']
  exact wrap_succ_ne minLeast minMost

private theorem randomUniform_fails {min max : Int} (maxLeast : -2 ^ 31 ≤ max) (minMost : min < 2 ^ 31)
    (below : max < min) (other : max ≠ min - 2) : Fails min (randomUniform min max) := by
  have whole : randMax = 2147483647 := rfl
  by_cases zero : max = min - 1
  · -- the range is 0
    refine .inl ⟨0, rand_single (Int.le_refl 0) (by decide), ?_⟩
    have rangeEq : wrap (max - min + 1) = 0 := by
      rw [wrap_of_inside (by omega) (by omega)]
      omega
    unfold randomUniform
    rw [if_pos rangeEq]
  by_cases negative : -randMax ≤ max - min + 1
  · exact fails_of_negative (by omega) minMost negative (by omega)
  by_cases wrapped : max - min + 1 < -2 ^ 31
  · exact fails_of_wrapped minMost (by omega) maxLeast wrapped
  · -- no number has a copy
    have rangeEq : wrap (max - min + 1) = -2 ^ 31 := by
      rw [wrap_of_inside (by omega) (by omega)]
      omega
    refine .inr (.inl fun ra rand => ?_)
    have nonnegative := (rand ra List.mem_cons_self).1
    rw [randomUniform_eq rangeEq (by decide) rfl rfl]
    have limitEq : wrap (-2 ^ 31 * randMax.tdiv (-2 ^ 31)) = 0 := by decide
    have refused : draw 0 [ra] = none := by
      unfold draw
      rw [if_pos (.inr nonnegative)]
      rfl
    rw [limitEq, refused]

private theorem keeps_of_draws {schedBase schedCap : BitVec 32} {n : Nat} {top : Int}
    (drawn : Draws schedBase.toInt top (backoffFullJitter schedBase schedCap n))
    (most : top ≤ max schedBase.toInt (min schedCap.toInt (schedBase.toInt * 2 ^ n))) : Keeps schedBase schedCap n := by
  constructor
  · intro draws rand divided
    cases drawn.between draws with
    | inl none_accepted =>
      rw [none_accepted] at divided
      cases divided
    | inr found =>
      obtain ⟨seconds, result, -⟩ := found
      rw [result] at divided
      cases divided
  · exact ⟨0, rand_single (Int.le_refl 0) (by decide), schedBase.toInt, drawn.first⟩
  · intro draws rand seconds result
    cases drawn.between draws with
    | inl none_accepted =>
      rw [none_accepted] at result
      cases result
    | inr found =>
      obtain ⟨value, known, least, inside⟩ := found
      rw [known] at result
      cases result
      exact ⟨least, inside.trans most⟩

private theorem not_keeps_of_fails {schedBase schedCap : BitVec 32} {n : Nat}
    (fails : Fails schedBase.toInt (backoffFullJitter schedBase schedCap n))
    (below : min schedCap.toInt (schedBase.toInt * 2 ^ n) ≤ schedBase.toInt) : ¬ Keeps schedBase schedCap n := by
  intro keeps
  obtain ⟨ra, rand, divided⟩ | refused | ⟨ra, rand, seconds, result, wrong⟩ := fails
  · exact keeps.divides [ra] rand divided
  · obtain ⟨ra, rand, seconds, result⟩ := keeps.accepts
    rw [refused ra rand] at result
    cases result
  · obtain ⟨least, most⟩ := keeps.bounded [ra] rand seconds result
    rw [max_eq_left below] at most
    exact wrong (Int.le_antisymm most least)

private theorem toInt_inside (value : BitVec 32) : -2 ^ 31 ≤ value.toInt ∧ value.toInt < 2 ^ 31 :=
  ⟨BitVec.le_toInt value, BitVec.toInt_lt⟩

private theorem multiple_le {base : Int} (most : base ≤ 0) (n : Nat) : base * 2 ^ n ≤ base := by
  have one : (1 : Int) ≤ 2 ^ n := pow_positive n
  calc base * 2 ^ n ≤ base * 1 := Int.mul_le_mul_of_nonpos_left most one
    _ = base := Int.mul_one base

/-- The wait is as described if the cap and the multiple of the base are not below
the base; if they are, the draw still gives the base where the bound is two below
it. A base of zero is multiplied by infinity from the 1024th attempt on. -/
theorem jitter_inside_iff (schedBase schedCap : BitVec 32) (n : Nat) : Keeps schedBase schedCap n ↔
      (schedBase.toInt ≤ max (min schedCap.toInt (schedBase.toInt * 2 ^ n)) (-2 ^ 31) ∨
        max (min schedCap.toInt (schedBase.toInt * 2 ^ n)) (-2 ^ 31) = schedBase.toInt - 2) ∧
      ¬ (schedBase.toInt = 0 ∧ 1024 ≤ n) := by
  obtain ⟨baseLeast, baseMost⟩ := toInt_inside schedBase
  obtain ⟨capLeast, capMost⟩ := toInt_inside schedCap
  have whole : randMax = 2147483647 := rfl
  by_cases nan : schedBase.toInt = 0 ∧ 1024 ≤ n
  · -- the bound is no number, and so the least `int`
    obtain ⟨zero, large⟩ := nan
    have fails : Fails schedBase.toInt (backoffFullJitter schedBase schedCap n) := by
      have bound : temp schedBase.toInt schedCap.toInt n = -2 ^ 31 := by rw [zero, temp_nan large]
      unfold backoffFullJitter
      rw [bound]
      exact randomUniform_fails (Int.le_refl _) baseMost (by omega) (by omega)
    have below : min schedCap.toInt (schedBase.toInt * 2 ^ n) ≤ schedBase.toInt := by
      rw [zero, Int.zero_mul]
      exact min_le_right _ _
    constructor
    · intro keeps
      exact absurd keeps (not_keeps_of_fails fails below)
    · intro condition
      exact absurd ⟨zero, large⟩ condition.2
  have usable : schedBase.toInt ≠ 0 ∨ n < 1024 := by omega
  have bound := temp_eq baseLeast baseMost capLeast capMost usable
  constructor
  · intro keeps
    refine ⟨?_, nan⟩
    by_contra neither
    have fails : Fails schedBase.toInt (backoffFullJitter schedBase schedCap n) := by
      unfold backoffFullJitter
      rw [bound]
      exact randomUniform_fails (le_max_right _ _) baseMost (by omega) (by omega)
    exact not_keeps_of_fails fails (by omega) keeps
  · rintro ⟨reached | turned, -⟩
    · have fits : max (min schedCap.toInt (schedBase.toInt * 2 ^ n)) (-2 ^ 31) - schedBase.toInt + 1 ≤ randMax := by
        by_cases most : schedBase.toInt ≤ 0
        · have multiple := multiple_le most n
          omega
        · omega
      have drawn : Draws schedBase.toInt (max (min schedCap.toInt (schedBase.toInt * 2 ^ n)) (-2 ^ 31))
          (backoffFullJitter schedBase schedCap n) := by
        unfold backoffFullJitter
        rw [bound]
        exact randomUniform_forward baseLeast (by omega) reached fits
      exact keeps_of_draws drawn (by omega)
    · have drawn : Draws schedBase.toInt schedBase.toInt (backoffFullJitter schedBase schedCap n) := by
        unfold backoffFullJitter
        rw [bound]
        exact randomUniform_turned baseLeast baseMost turned
      exact keeps_of_draws drawn (le_max_left _ _)

/-- A cap that is one below the base gives a range of no number. -/
theorem cap_below_base : ¬ Keeps 5#32 4#32 1 := by
  intro keeps
  exact keeps.divides [0] (rand_single (Int.le_refl 0) (by decide)) (by
      have bound : temp 5 4 1 = 4 := by
        rw [temp_eq (by decide) (by decide) (by decide) (by decide) (.inl (by decide))]
        rfl
      change randomUniform 5 (temp 5 4 1) [0] = .divisionByZero
      rw [bound]
      rfl)

end FluentBit.Backoff

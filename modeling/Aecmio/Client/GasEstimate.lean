import Aecmio.Chain.TransactionBase
import Aecmio.Evm.Schedule

/-!
# Gas estimation

`ClientBase::estimateGas` tries a transaction with the gas in the middle of
two bounds until they meet.  A trial runs the transaction on a copy of the
state; here it is given as what it results in.
-/

namespace Aecmio

inductive TransactionException where
  | none
  | unknown
  | badRLP
  | invalidFormat
  | outOfGasIntrinsic
  | invalidSignature
  | invalidNonce
  | notEnoughCash
  | outOfGasBase
  | blockGasLimitReached
  | badInstruction
  | badJumpDestination
  | outOfGas
  | outOfStack
  | stackUnderflow
  | revertInstruction
  | invalidZeroSignatureFormat
  | addressAlreadyUsed
deriving DecidableEq

inductive CodeDeposit where
  | none
  | failed
  | success
deriving DecidableEq

structure ExecutionResult where
  gasUsed : U256 := 0
  excepted : TransactionException := .unknown
  newAddress : Address := TransactionBase.zeroAddress
  output : Bytes := []
  codeDeposit : CodeDeposit := .none
  gasRefunded : U256 := 0
  depositSize : Nat := 0
  gasForDeposit : U256 := 0
deriving DecidableEq

/-- `baseGasRequired`. -/
def baseGasRequired (contractCreation : Bool) (data : Bytes)
    (schedule : EVMSchedule) : Nat :=
  data.foldl
    (fun gas byte => gas + if byte ≠ 0 then schedule.txDataNonZeroGas
      else schedule.txDataZeroGas)
    (if contractCreation then schedule.txCreateGas else schedule.txGas)

def c_maxGasEstimate : Int := 50000000

/-- The upper bound that is asked for; `Invalid256` is what -1 compares to. -/
def estimateUpperBound (maxGas : Int) : Int :=
  if maxGas = -1 ∨ c_maxGasEstimate < maxGas then c_maxGasEstimate else maxGas

/-- More gas could make a difference. -/
def ExecutionResult.starved (er : ExecutionResult) : Bool :=
  er.excepted = .outOfGas ∨ er.excepted = .outOfGasBase ∨
    er.excepted = .outOfGasIntrinsic ∨ er.codeDeposit = .failed ∨
    er.excepted = .badJumpDestination

/-- The variables of the loop. -/
structure GasSearch where
  lowerBound : Int
  upperBound : Int
  er : ExecutionResult := {}
  lastGood : ExecutionResult := {}
  good : Bool := false

namespace GasSearch

def mid (search : GasSearch) : Int :=
  (search.lowerBound + search.upperBound).tdiv 2

/-- The bounds after a trial. -/
def step (search : GasSearch) (er : ExecutionResult) : GasSearch :=
  if er.starved then
    { search with
      er
      lowerBound := if search.lowerBound = search.mid then search.upperBound
        else search.mid }
  else
    { search with
      er
      lastGood := er
      upperBound := if search.upperBound = search.mid then search.lowerBound
        else search.mid
      good := true }

/-- The loop.  A trial that throws ends it. -/
def loop {ε : Type} (trial : Int → Except ε ExecutionResult) :
    Nat → GasSearch → Option (Except ε GasSearch)
  | 0, _ => none
  | fuel + 1, search =>
      if search.upperBound = search.lowerBound then some (.ok search)
      else
        match trial search.mid with
        | .error error => some (.error error)
        | .ok er => loop trial fuel (search.step er)

/-- What is returned; everything that is thrown is caught. -/
def result {ε : Type} : Except ε GasSearch → U256 × ExecutionResult
  | .ok search => (BitVec.ofInt 256 search.upperBound,
      if search.good then search.lastGood else search.er)
  | .error _ => (0, {})

end GasSearch

/-- The estimate from two bounds on. -/
def estimateBetween {ε : Type} (lowerBound upperBound : Int)
    (trial : Int → Except ε ExecutionResult) (fuel : Nat) :
    Option (U256 × ExecutionResult) :=
  (GasSearch.loop trial fuel { lowerBound, upperBound }).map GasSearch.result

/-- `estimateGas`, with the trials of the transaction by their gas. -/
def estimateGas {ε : Type} (contractCreation : Bool) (data : Bytes)
    (maxGas : Int) (trial : Int → Except ε ExecutionResult) (fuel : Nat) :
    Option (U256 × ExecutionResult) :=
  estimateBetween (baseGasRequired contractCreation data .default)
    (estimateUpperBound maxGas) trial fuel

namespace GasSearch

variable {ε : Type} {search : GasSearch} {er : ExecutionResult}

/-- How far the bounds are apart. -/
def width (search : GasSearch) : Nat :=
  (search.upperBound - search.lowerBound).natAbs

theorem mid_cases (search : GasSearch) :
    2 * search.mid = search.lowerBound + search.upperBound ∨
      2 * search.mid = search.lowerBound + search.upperBound - 1 ∨
        (search.lowerBound + search.upperBound < 0 ∧
          2 * search.mid = search.lowerBound + search.upperBound + 1) := by
  unfold mid
  have sign : Int.sign 2 = 1 := rfl
  rw [Int.tdiv_eq_ediv, sign]
  split
  · omega
  · omega

/-- Every trial brings the bounds closer. -/
theorem width_step (open_ : search.upperBound ≠ search.lowerBound) :
    (search.step er).width < search.width := by
  have middle := search.mid_cases
  unfold step width
  split
  · dsimp only
    split <;> omega
  · dsimp only
    split <;> omega

/-- The loop ends, whatever the trials result in. -/
theorem loop_ends (trial : Int → Except ε ExecutionResult) {fuel : Nat}
    (enough : search.width < fuel) :
    ∃ ended, loop trial fuel search = some ended := by
  induction fuel generalizing search with
  | zero => exact absurd enough (Nat.not_lt_zero _)
  | succ fuel induction =>
      unfold loop
      by_cases met : search.upperBound = search.lowerBound
      · exact ⟨_, if_pos met⟩
      · rw [if_neg met]
        cases trial search.mid with
        | error error => exact ⟨_, rfl⟩
        | ok er =>
            have closer : (search.step er).width < search.width :=
              width_step met
            exact induction (by omega)

/-- Trials below the lower bound fail, and the upper bound is the gas of the
last trial that did not, if there was any. -/
structure Narrows (base upper : Int) (outcome : Int → ExecutionResult)
    (search : GasSearch) : Prop where
  base_le : base ≤ search.lowerBound
  le : search.lowerBound ≤ search.upperBound
  below : ∀ gas, base ≤ gas → gas < search.lowerBound →
    (outcome gas).starved = true
  untried : search.good = false → search.upperBound = upper
  tried : search.good = true → search.upperBound < upper ∧
    (outcome search.upperBound).starved = false ∧
    search.lastGood = outcome search.upperBound

variable {base upper : Int} {outcome : Int → ExecutionResult}

theorem Narrows.upper_le (narrows : Narrows base upper outcome search) :
    search.upperBound ≤ upper := by
  cases good : search.good with
  | false => exact (narrows.untried good).le
  | true => exact (narrows.tried good).1.le

theorem Narrows.step (nonneg : 0 ≤ base)
    (monotone : ∀ gas more, base ≤ gas → gas ≤ more → more < upper →
      (outcome gas).starved = false → (outcome more).starved = false)
    (narrows : Narrows base upper outcome search)
    (open_ : search.upperBound ≠ search.lowerBound) :
    Narrows base upper outcome (search.step (outcome search.mid)) := by
  have base_le := narrows.base_le
  have le := narrows.le
  have upper_le := narrows.upper_le
  have middle := search.mid_cases
  have early : search.lowerBound ≤ search.mid := by omega
  have late : search.mid < search.upperBound := by omega
  unfold GasSearch.step
  cases starved : (outcome search.mid).starved with
  | true =>
      have below : ∀ gas, base ≤ gas → gas ≤ search.mid →
          (outcome gas).starved = true := by
        intro gas inside less
        by_contra fine
        rw [Bool.not_eq_true] at fine
        have later :=
          monotone gas search.mid inside less (by omega) fine
        rw [starved] at later
        cases later
      rw [if_pos rfl]
      by_cases pair : search.lowerBound = search.mid
      · rw [if_pos pair]
        refine ⟨by dsimp only; omega, le_rfl, ?_, narrows.untried,
          narrows.tried⟩
        intro gas inside less
        exact below gas inside (by dsimp only at less; omega)
      · rw [if_neg pair]
        refine ⟨by dsimp only; omega, late.le, ?_, narrows.untried,
          narrows.tried⟩
        intro gas inside less
        exact below gas inside less.le
  | false =>
      rw [if_neg Bool.false_ne_true, if_neg late.ne']
      refine ⟨base_le, early, narrows.below, ?_, ?_⟩
      · intro untried
        cases untried
      · intro _
        exact ⟨by dsimp only; omega, starved, rfl⟩

theorem Narrows.loop (nonneg : 0 ≤ base)
    (monotone : ∀ gas more, base ≤ gas → gas ≤ more → more < upper →
      (outcome gas).starved = false → (outcome more).starved = false)
    (narrows : Narrows base upper outcome search) {fuel : Nat}
    (enough : search.width < fuel) : ∃ last,
      GasSearch.loop (fun gas => (.ok (outcome gas) : Except ε _)) fuel search =
        some (.ok last) ∧
      last.upperBound = last.lowerBound ∧
      Narrows base upper outcome last := by
  induction fuel generalizing search with
  | zero => exact absurd enough (Nat.not_lt_zero _)
  | succ fuel induction =>
      unfold GasSearch.loop
      by_cases met : search.upperBound = search.lowerBound
      · exact ⟨search, if_pos met, met, narrows⟩
      · rw [if_neg met]
        have closer : (search.step (outcome search.mid)).width <
            search.width := width_step met
        exact induction (narrows.step nonneg monotone met) (by omega)

end GasSearch

section

variable {ε : Type}

/-- An estimate is found, whatever the bounds are and the trials result in. -/
theorem estimateBetween_ends (lowerBound upperBound : Int)
    (trial : Int → Except ε ExecutionResult) {fuel : Nat}
    (enough : (upperBound - lowerBound).natAbs < fuel) :
    ∃ estimate, estimateBetween lowerBound upperBound trial fuel =
      some estimate := by
  have width : ({ lowerBound, upperBound } : GasSearch).width < fuel := enough
  obtain ⟨ended, ran⟩ := GasSearch.loop_ends trial width
  exact ⟨GasSearch.result ended, congrArg (Option.map _) ran⟩

theorem estimateGas_ends (contractCreation : Bool) (data : Bytes)
    (maxGas : Int) (trial : Int → Except ε ExecutionResult) :
    ∃ estimate fuel, estimateGas contractCreation data maxGas trial fuel =
      some estimate := by
  obtain ⟨estimate, found⟩ := estimateBetween_ends
    (baseGasRequired contractCreation data .default)
    (estimateUpperBound maxGas) trial (Nat.lt_succ_self _)
  exact ⟨estimate, _, found⟩

/-- The search ends for all bounds and trials.  If the base is not above the
upper bound, and a trial that succeeds does so with more gas too, the estimate
is the least gas that succeeds with the result of its trial, or the upper
bound if there is none. -/
theorem estimateBetween_least (base : Nat) (upper : Int) :
    (∀ (trial : Int → Except ε ExecutionResult) (fuel : Nat),
      (upper - base).natAbs < fuel →
      ∃ estimate, estimateBetween base upper trial fuel = some estimate) ∧
    ∀ outcome : Int → ExecutionResult, base ≤ upper →
      (∀ gas more : Int, base ≤ gas → gas ≤ more → more < upper →
        (outcome gas).starved = false → (outcome more).starved = false) →
      ∀ fuel, (upper - base).natAbs < fuel → ∃ gas er,
        estimateBetween base upper
            (fun gas => (.ok (outcome gas) : Except ε _)) fuel =
          some (BitVec.ofInt 256 gas, er) ∧
        ((∃ gas : Int, base ≤ gas ∧ gas < upper ∧
            (outcome gas).starved = false) →
          IsLeast { gas : Int | base ≤ gas ∧ gas < upper ∧
            (outcome gas).starved = false } gas ∧ er = outcome gas) ∧
        ((∀ gas : Int, base ≤ gas → gas < upper →
            (outcome gas).starved = true) → gas = upper) := by
  refine ⟨fun trial fuel enough => estimateBetween_ends _ _ trial enough, ?_⟩
  intro outcome ordered monotone fuel enough
  have start : GasSearch.Narrows base upper outcome
      { lowerBound := base, upperBound := upper } := by
    refine ⟨le_rfl, ordered, ?_, fun _ => rfl, ?_⟩
    · intro gas inside less
      exact absurd less (not_lt_of_ge inside)
    · intro good
      cases good
  have width : ({ lowerBound := base, upperBound := upper } :
      GasSearch).width < fuel := enough
  obtain ⟨last, ran, met, narrows⟩ :=
    start.loop (Int.natCast_nonneg base) monotone width
  have found : estimateBetween base upper
      (fun gas => (.ok (outcome gas) : Except ε _)) fuel =
        some (GasSearch.result (.ok last : Except ε _)) :=
    congrArg (Option.map _) ran
  refine ⟨last.upperBound, _, found, ?_, ?_⟩
  · rintro ⟨fine, inside, less, succeeds⟩
    have good : last.good = true := by
      by_contra untried
      have same := narrows.untried (Bool.eq_false_of_not_eq_true untried)
      have starved := narrows.below fine inside (by omega)
      rw [succeeds] at starved
      cases starved
    obtain ⟨lower, succeeds', result⟩ := narrows.tried good
    have base_le := narrows.base_le
    refine ⟨⟨⟨by omega, lower, succeeds'⟩, ?_⟩, ?_⟩
    · rintro other ⟨inside', less', fine'⟩
      by_contra smaller
      have starved := narrows.below other inside' (by omega)
      rw [fine'] at starved
      cases starved
    · rw [if_pos good]
      exact result
  · intro starved
    cases good : last.good with
    | false => exact narrows.untried good
    | true =>
        obtain ⟨lower, succeeds, _⟩ := narrows.tried good
        have base_le := narrows.base_le
        have fails := starved last.upperBound (by omega) lower
        rw [succeeds] at fails
        cases fails

/-- Trials succeed from 21010 on. -/
def outcomeSample (gas : Int) : ExecutionResult :=
  if gas < 21010 then { excepted := .outOfGas }
  else { gasUsed := 21005, excepted := .none }

theorem estimateBetween_least_sample : ∃ gas er,
    estimateBetween 21000 21100
        (fun gas => (.ok (outcomeSample gas) : Except Empty _)) 101 =
      some (BitVec.ofInt 256 gas, er) ∧
    IsLeast { gas : Int | 21000 ≤ gas ∧ gas < 21100 ∧
      (outcomeSample gas).starved = false } gas ∧ er = outcomeSample gas := by
  have monotone : ∀ gas more : Int, (21000 : Nat) ≤ gas → gas ≤ more →
      more < 21100 → (outcomeSample gas).starved = false →
        (outcomeSample more).starved = false := by
    intro gas more inside less within fine
    unfold outcomeSample at fine ⊢
    split at fine
    · cases fine
    · rw [if_neg (by omega)]
      rfl
  obtain ⟨gas, er, found, least, _⟩ := (estimateBetween_least 21000 21100).2
    outcomeSample (by decide) monotone 101 (by decide)
  exact ⟨gas, er, found, least ⟨21050, by decide, by decide, by decide⟩⟩

end

end Aecmio

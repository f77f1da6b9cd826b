import Aecmio.Chain.BlockVerification

/-!
# The checks of a proof-of-work header

The engine computes the difficulty and the gas limit of a block from its
parent, and verifies those of a block it receives.  Seals are checked by a
library; the two checks are parameters.
-/

namespace Aecmio

/-- `c_infiniteBlockNumer`. -/
def infiniteBlockNumber : U256 := 2 ^ 63 - 1

/-- The parameters of the chain that the engine reads. -/
structure ChainOperationParams where
  maximumExtraDataSize : U256 := 1024
  minGasLimit : U256 := 0x1388
  maxGasLimit : U256 := 0x7fffffffffffffff
  gasLimitBoundDivisor : U256 := 0x0400
  homesteadForkBlock : U256 := infiniteBlockNumber
  byzantiumForkBlock : U256 := infiniteBlockNumber
  daoHardforkBlock : U256 := infiniteBlockNumber
  minimumDifficulty : U256 := 0x020000
  difficultyBoundDivisor : U256 := 0x0800
  durationLimit : U256 := 0x0d

/-- Conversion of an `int64_t` for arithmetic with `u256`. -/
def u256OfInt (value : Int) : U256 := BitVec.ofInt 256 value

/-- `hasUncles`; the bytes are the RLP of the empty list. -/
def BlockHeader.hasUncles [Hashing] (header : BlockHeader) : Bool :=
  header.sha3Uncles ≠ sha3 [0xc0]

/-- `BlockHeader::populateFromParent`. -/
def BlockHeader.populateFromParent (header parent : BlockHeader) :
    BlockHeader :=
  { header with
    stateRoot := parent.stateRoot
    number := parent.number + 1
    parentHash := parent.memo
    gasLimit := parent.gasLimit
    difficulty := parent.difficulty
    gasUsed := 0 }

namespace Aecash

section

variable (params : ChainOperationParams)

/-- The division of `u256`, which throws if the divisor is zero. -/
def divide (first second : U256) : Except VerificationError U256 :=
  if second = 0 then .error (.engine "overflow_error") else .ok (first / second)

def childGasLimit (parent : BlockHeader)
    (gasFloorTarget : U256 := BitVec.allOnes 256) :
    Except VerificationError U256 := do
  let gasFloorTarget : U256 :=
    if gasFloorTarget = BitVec.allOnes 256 then 3141562 else gasFloorTarget
  let gasLimit := parent.gasLimit
  let boundDivisor := params.gasLimitBoundDivisor
  let step ← divide gasLimit boundDivisor
  if gasLimit < gasFloorTarget then
    let raised := gasLimit + step - 1
    return if raised < gasFloorTarget then raised else gasFloorTarget
  else
    let used ← divide (parent.gasUsed * 6 / 5) boundDivisor
    let lowered := gasLimit - step + 1 + used
    return if gasFloorTarget < lowered then lowered else gasFloorTarget

/-- The number that the ice age counts, an `unsigned`. -/
def exponentialIceAgeBlockNumber (header parent : BlockHeader) : Nat :=
  let number := ((parent.number + 1) % 2 ^ 32).toNat
  if params.byzantiumForkBlock ≤ u256OfInt header.number then
    if 3000000 ≤ number then number - 3000000 else 0
  else number

/-- The term that is added for the ice age. -/
def iceAge (header parent : BlockHeader) : Nat :=
  let periodCount := exponentialIceAgeBlockNumber params header parent / 100000
  if 1 < periodCount then 2 ^ (periodCount - 2) else 0

variable [Hashing]

/-- The factor of the adjustment from Homestead on. -/
def adjFactor (header parent : BlockHeader) : Int :=
  let timestampDiff := header.timestamp - parent.timestamp
  if u256OfInt header.number < params.byzantiumForkBlock then
    max (1 - timestampDiff.tdiv 10) (-99)
  else max ((if parent.hasUncles then 2 else 1) - timestampDiff.tdiv 9) (-99)

/-- The difficulty before the ice age and the bounds. -/
def target (header parent : BlockHeader) : Except VerificationError Int :=
  if u256OfInt header.number < params.homesteadForkBlock then do
    let change ← divide parent.difficulty params.difficultyBoundDivisor
    if u256OfInt parent.timestamp + params.durationLimit ≤
        u256OfInt header.timestamp then
      return (parent.difficulty - change).toNat
    else return (parent.difficulty + change).toNat
  else return parent.difficulty.toNat +
    (parent.difficulty / 2048).toNat * adjFactor params header parent

def calculateDifficulty (header parent : BlockHeader) :
    Except VerificationError U256 := do
  if header.number = 0 then throw (.engine "GenesisBlockCannotBeCalculated")
  let target ← target params header parent
  let o := max (params.minimumDifficulty.toNat : Int)
    (target + iceAge params header parent)
  return BitVec.ofNat 256 (min o (2 ^ 256 - 1)).toNat

def populateFromParent (header parent : BlockHeader) :
    Except VerificationError BlockHeader := do
  let header := header.populateFromParent parent
  let difficulty ← calculateDifficulty params header parent
  let header := { header with difficulty }.noteDirty
  let gasLimit ← childGasLimit params parent
  return { header with gasLimit }.noteDirty

/-- The checks of `verify` that compare a header with the parameters. -/
def verifyOwn (header : BlockHeader) : Except VerificationError Unit := do
  (VerificationError.engine "InvalidDifficulty").unless
    (params.minimumDifficulty ≤ header.difficulty)
  (VerificationError.engine "InvalidGasLimit").unless
    (params.minGasLimit ≤ header.gasLimit)
  (VerificationError.engine "InvalidGasLimit").unless
    (header.gasLimit ≤ params.maxGasLimit)
  (VerificationError.engine "ExtraDataTooBig").unless (header.number = 0 ||
    header.extraData.length ≤ params.maximumExtraDataSize.toNat)
  let daoHardfork := params.daoHardforkBlock
  if daoHardfork ≠ 0 ∧ daoHardfork ≤ daoHardfork + 9 ∧
      daoHardfork ≤ u256OfInt header.number ∧
      u256OfInt header.number ≤ daoHardfork + 9 then
    (VerificationError.engine "ExtraDataIncorrect").unless (header.extraData =
      [0x64, 0x61, 0x6f, 0x2d, 0x68, 0x61, 0x72, 0x64, 0x2d, 0x66, 0x6f, 0x72,
        0x6b])

/-- The checks of `verify` that compare a header with its parent. -/
def verifyParent (header parent : BlockHeader) :
    Except VerificationError Unit := do
  let expected ← calculateDifficulty params header parent
  (VerificationError.engine "InvalidDifficulty").unless
    (header.difficulty = expected)
  let gasLimit := header.gasLimit
  let parentGasLimit := parent.gasLimit
  let step ← divide parentGasLimit params.gasLimitBoundDivisor
  (VerificationError.engine "InvalidGasLimit").unless
    (params.minGasLimit ≤ gasLimit && gasLimit ≤ params.maxGasLimit &&
      parentGasLimit - step < gasLimit && gasLimit < parentGasLimit + step)

/-- What `verify` checks after `SealEngineFace::verify`. -/
def verify (verifySeal quickVerifySeal : BlockHeader → Bool)
    (strictness : BlockHeader.Strictness) (header parent : BlockHeader) :
    Except VerificationError Unit := do
  if strictness ≠ .checkNothingNew then verifyOwn params header
  if parent.isSet then verifyParent params header parent
  if strictness = .checkEverything then
    (VerificationError.engine "InvalidBlockNonce").unless
      (header.parentHash = zeroHash 32 || verifySeal header)
  else if strictness = .quickNonce then
    (VerificationError.engine "InvalidBlockNonce").unless
      (header.parentHash = zeroHash 32 || quickVerifySeal header)

end

/-! ## The gas limit of a child -/

section GasLimit

variable {params : ChainOperationParams} {parent header : BlockHeader}

theorem divide_of_ne {first second : U256} (nonzero : second ≠ 0) :
    divide first second = .ok (first / second) :=
  if_neg nonzero

/-- A step of a gas limit, in the arithmetic of numbers. -/
theorem toNat_step (limit : U256) :
    (limit / (1024 : U256)).toNat = limit.toNat / 1024 :=
  BitVec.toNat_udiv

theorem toNat_raised {limit step : U256} (positive : 0 < step.toNat)
    (room : limit.toNat + step.toNat < 2 ^ 256) :
    (limit + step - 1).toNat = limit.toNat + step.toNat - 1 := by
  have sum := BitVec.toNat_add_of_lt room
  have one : (1 : U256) ≤ limit + step := by
    rw [BitVec.le_def, sum]
    exact Nat.le_add_left_of_le positive
  rw [BitVec.toNat_sub_of_le one, sum]
  rfl

theorem toNat_lowered {limit step used : U256}
    (below : step.toNat ≤ limit.toNat)
    (room : limit.toNat - step.toNat + 1 + used.toNat < 2 ^ 256) :
    (limit - step + 1 + used).toNat =
      limit.toNat - step.toNat + 1 + used.toNat := by
  have difference := BitVec.toNat_sub_of_le (BitVec.le_def.mpr below)
  have one : (1 : U256).toNat = 1 := rfl
  have next : (limit - step + 1).toNat = limit.toNat - step.toNat + 1 := by
    rw [BitVec.toNat_add_of_lt (by omega), difference, one]
  rw [BitVec.toNat_add_of_lt (by omega), next]

/-- The gas limit of a child lies strictly within the bounds that its parent
sets, and above the lowest one. -/
theorem childGasLimit_within
    (divisor : params.gasLimitBoundDivisor = 1024)
    (limit : 5000 ≤ parent.gasLimit.toNat)
    (used : parent.gasUsed.toNat ≤ parent.gasLimit.toNat)
    (room : parent.gasLimit.toNat + parent.gasLimit.toNat / 1024 < 2 ^ 256) :
    ∃ gasLimit, childGasLimit params parent = .ok gasLimit ∧
      5000 ≤ gasLimit.toNat ∧
      parent.gasLimit.toNat - parent.gasLimit.toNat / 1024 < gasLimit.toNat ∧
      gasLimit.toNat <
        parent.gasLimit.toNat + parent.gasLimit.toNat / 1024 := by
  have nonzero : (1024 : U256) ≠ 0 := by decide
  have step := toNat_step parent.gasLimit
  have usedStep := toNat_step (parent.gasUsed * 6 / 5)
  have usedBound : (parent.gasUsed * 6 / 5).toNat ≤
      parent.gasUsed.toNat * 6 / 5 := by
    rw [BitVec.toNat_udiv, BitVec.toNat_mul]
    exact Nat.div_le_div_right (Nat.mod_le _ _)
  have floor : (3141562 : U256).toNat = 3141562 := rfl
  rw [childGasLimit, divisor, divide_of_ne nonzero, divide_of_ne nonzero]
  generalize parent.gasLimit / (1024 : U256) = quotient at step
  generalize parent.gasUsed * 6 / 5 / (1024 : U256) = share at usedStep
  simp only [if_true]
  by_cases below : parent.gasLimit < 3141562
  · have raised : (parent.gasLimit + quotient - 1).toNat =
        parent.gasLimit.toNat + quotient.toNat - 1 :=
      toNat_raised (by omega) (by omega)
    simp only [if_pos below]
    refine ⟨_, rfl, ?_⟩
    rw [BitVec.lt_def] at below
    split
    · omega
    · rename_i notLess
      rw [BitVec.lt_def] at notLess
      omega
  · have lowered : (parent.gasLimit - quotient + 1 + share).toNat =
        parent.gasLimit.toNat - quotient.toNat + 1 + share.toNat :=
      toNat_lowered (by omega) (by omega)
    simp only [if_neg below]
    refine ⟨_, rfl, ?_⟩
    rw [BitVec.lt_def] at below
    split
    · omega
    · rename_i notLess
      rw [BitVec.lt_def] at notLess
      omega

end GasLimit

/-! ## The difficulty of a child -/

section

variable [Hashing] {params : ChainOperationParams}
  {parent header child : BlockHeader} {difficulty : U256}

theorem calculateDifficulty_ok
    (calculated : calculateDifficulty params header parent = .ok difficulty) :
    ∃ value, target params header parent = .ok value ∧
      (difficulty.toNat : Int) = min (max (params.minimumDifficulty.toNat : Int)
        (value + iceAge params header parent)) (2 ^ 256 - 1) := by
  rw [calculateDifficulty] at calculated
  obtain ⟨notGenesis, calculated⟩ := guard_ok calculated
  obtain ⟨value, found, calculated⟩ := exists_of_bind_ok calculated
  refine ⟨value, found, ?_⟩
  have minimum := params.minimumDifficulty.isLt
  rw [← Except.ok.inj calculated, BitVec.toNat_ofNat]
  omega

theorem minimumDifficulty_le
    (calculated : calculateDifficulty params header parent = .ok difficulty) :
    params.minimumDifficulty ≤ difficulty := by
  obtain ⟨value, -, bounded⟩ := calculateDifficulty_ok calculated
  have minimum := params.minimumDifficulty.isLt
  rw [BitVec.le_def]
  omega

theorem calculateDifficulty_isOk (notGenesis : header.number ≠ 0)
    (divisor : params.difficultyBoundDivisor ≠ 0) :
    ∃ difficulty, calculateDifficulty params header parent =
      .ok difficulty := by
  have targetOk : ∃ value, target params header parent = .ok value := by
    rw [target, divide_of_ne divisor]
    split
    · exact ⟨_, (apply_ite Except.ok _ _ _).symm⟩
    · exact ⟨_, rfl⟩
  obtain ⟨value, found⟩ := targetOk
  rw [calculateDifficulty, if_neg notGenesis, found]
  exact ⟨_, rfl⟩

omit [Hashing] in
theorem toNat_u256OfInt {value : Int} (positive : 0 ≤ value)
    (bounded : value < 2 ^ 63) : ((u256OfInt value).toNat : Int) = value := by
  rw [u256OfInt, BitVec.toNat_ofInt]
  omega

omit [Hashing] in
theorem tdiv_mono {first second divisor : Int} (divides : 0 < divisor)
    (positive : 0 ≤ first) (order : first ≤ second) :
    first.tdiv divisor ≤ second.tdiv divisor := by
  rw [Int.tdiv_eq_ediv_of_nonneg positive,
    Int.tdiv_eq_ediv_of_nonneg (positive.trans order)]
  exact Int.ediv_le_ediv divides order

/-- A later block has no greater adjustment. -/
theorem adjFactor_antitone {first second : BlockHeader}
    (sameNumber : first.number = second.number)
    (later : parent.timestamp < first.timestamp)
    (order : first.timestamp ≤ second.timestamp) :
    adjFactor params second parent ≤ adjFactor params first parent := by
  have positive : 0 ≤ first.timestamp - parent.timestamp := by omega
  have ordered : first.timestamp - parent.timestamp ≤
      second.timestamp - parent.timestamp := by omega
  simp only [adjFactor, sameNumber]
  split
  · have homestead := tdiv_mono (show (0 : Int) < 10 by decide) positive ordered
    exact max_le_max_right _ (Int.sub_le_sub_left homestead _)
  · have byzantium := tdiv_mono (show (0 : Int) < 9 by decide) positive ordered
    exact max_le_max_right _ (Int.sub_le_sub_left byzantium _)

theorem adjFactor_bounds (later : parent.timestamp < header.timestamp) :
    -99 ≤ adjFactor params header parent ∧
      adjFactor params header parent ≤ 2 := by
  have positive : 0 ≤ header.timestamp - parent.timestamp := by omega
  have homestead : 0 ≤ (header.timestamp - parent.timestamp).tdiv 10 :=
    Int.tdiv_nonneg positive (by decide)
  have byzantium : 0 ≤ (header.timestamp - parent.timestamp).tdiv 9 :=
    Int.tdiv_nonneg positive (by decide)
  simp only [adjFactor]
  split
  · omega
  · split <;> omega

/-- From Homestead on the difficulty changes by 99 parts of 2048 at most
downwards, and by two upwards. -/
theorem target_bounds
    (homestead : params.homesteadForkBlock ≤ u256OfInt header.number)
    (later : parent.timestamp < header.timestamp) :
    ∃ value, target params header parent = .ok value ∧
      2048 * (parent.difficulty.toNat - value) ≤
        99 * (parent.difficulty.toNat : Int) ∧
      2048 * (value - parent.difficulty.toNat) ≤
        2 * (parent.difficulty.toNat : Int) := by
  have frontier : ¬ u256OfInt header.number < params.homesteadForkBlock :=
    BitVec.not_lt.mpr homestead
  rw [target, if_neg frontier]
  refine ⟨_, rfl, ?_⟩
  obtain ⟨least, most⟩ := @adjFactor_bounds _ params parent header later
  have part : (parent.difficulty / (2048 : U256)).toNat =
      parent.difficulty.toNat / 2048 := BitVec.toNat_udiv
  rw [part]
  generalize adjFactor params header parent = factor at least most
  have down := Int.mul_le_mul_of_nonneg_left least
    (Int.natCast_nonneg (parent.difficulty.toNat / 2048))
  have up := Int.mul_le_mul_of_nonneg_left most
    (Int.natCast_nonneg (parent.difficulty.toNat / 2048))
  generalize ((parent.difficulty.toNat / 2048 : Nat) : Int) * factor =
    change at down up ⊢
  omega

/-- A later block has no greater difficulty. -/
theorem target_antitone {first second : BlockHeader} {early late : Int}
    (low : parent.difficulty.toNat < 2 ^ 255) (past : 0 ≤ parent.timestamp)
    (sameNumber : first.number = second.number)
    (later : parent.timestamp < first.timestamp)
    (order : first.timestamp ≤ second.timestamp)
    (bounded : second.timestamp < 2 ^ 63)
    (firstTarget : target params first parent = .ok early)
    (secondTarget : target params second parent = .ok late) :
    late ≤ early := by
  rw [target] at firstTarget secondTarget
  rw [sameNumber] at firstTarget
  by_cases frontier : u256OfInt second.number < params.homesteadForkBlock
  · rw [if_pos frontier] at firstTarget secondTarget
    obtain ⟨change, divided, firstTarget⟩ := exists_of_bind_ok firstTarget
    obtain ⟨other, again, secondTarget⟩ := exists_of_bind_ok secondTarget
    rw [divided] at again
    cases again
    have changeBound : change.toNat ≤ parent.difficulty.toNat := by
      rw [divide] at divided
      split at divided
      · cases divided
      · rw [← Except.ok.inj divided, BitVec.toNat_udiv]
        exact Nat.div_le_self _ _
    have less := BitVec.toNat_sub_of_le (BitVec.le_def.mpr changeBound)
    have more : (parent.difficulty + change).toNat =
        parent.difficulty.toNat + change.toNat :=
      BitVec.toNat_add_of_lt (by omega)
    have firstTime := toNat_u256OfInt (show 0 ≤ first.timestamp by omega)
      (by omega)
    have secondTime := toNat_u256OfInt (show 0 ≤ second.timestamp by omega)
      bounded
    by_cases secondLate : u256OfInt parent.timestamp + params.durationLimit ≤
        u256OfInt second.timestamp
    · rw [if_pos secondLate] at secondTarget
      rw [← Except.ok.inj secondTarget]
      split at firstTarget
      · exact (Except.ok.inj firstTarget).le
      · rw [← Except.ok.inj firstTarget]
        omega
    · have firstSoon : ¬ u256OfInt parent.timestamp + params.durationLimit ≤
          u256OfInt first.timestamp := by
        rw [BitVec.le_def] at secondLate ⊢
        omega
      rw [if_neg secondLate] at secondTarget
      rw [if_neg firstSoon] at firstTarget
      rw [← Except.ok.inj firstTarget, ← Except.ok.inj secondTarget]
  · rw [if_neg frontier] at firstTarget secondTarget
    rw [← Except.ok.inj firstTarget, ← Except.ok.inj secondTarget]
    have factor := @adjFactor_antitone _ params _ _ _ sameNumber later order
    have change := Int.mul_le_mul_of_nonneg_left factor
      (Int.natCast_nonneg (parent.difficulty / 2048).toNat)
    omega

omit [Hashing] in
theorem iceAge_congr {first second : BlockHeader}
    (sameNumber : first.number = second.number) :
    iceAge params first parent = iceAge params second parent := by
  rw [iceAge, exponentialIceAgeBlockNumber, sameNumber]
  rfl

omit [Hashing] in
/-- On each side of the Byzantium fork the term of a later block is not
smaller, as long as the number fits in an `unsigned`. -/
theorem iceAge_mono {first second firstParent secondParent : BlockHeader}
    (firstNext : first.number = firstParent.number + 1)
    (secondNext : second.number = secondParent.number + 1)
    (positive : 0 ≤ first.number) (order : first.number ≤ second.number)
    (bounded : second.number < 2 ^ 32)
    (sameSide : params.byzantiumForkBlock ≤ u256OfInt first.number ↔
      params.byzantiumForkBlock ≤ u256OfInt second.number) :
    iceAge params first firstParent ≤ iceAge params second secondParent := by
  have counted : exponentialIceAgeBlockNumber params first firstParent ≤
      exponentialIceAgeBlockNumber params second secondParent := by
    simp only [exponentialIceAgeBlockNumber, sameSide]
    split
    · split <;> split <;> omega
    · omega
  have periods := Nat.div_le_div_right (c := 100000) counted
  simp only [iceAge]
  split
  · rw [if_pos (by omega)]
    exact Nat.pow_le_pow_right (by decide) (by omega)
  · exact Nat.zero_le _

/-! ## A block that is built on its parent -/

theorem populateFromParent_ok
    (populated : populateFromParent params header parent = .ok child) :
    ∃ difficulty gasLimit,
      calculateDifficulty params (header.populateFromParent parent) parent =
        .ok difficulty ∧
      childGasLimit params parent = .ok gasLimit ∧
      child = { header.populateFromParent parent with
        difficulty, gasLimit, memo := zeroHash 32 } := by
  obtain ⟨difficulty, calculated, populated⟩ := exists_of_bind_ok populated
  obtain ⟨gasLimit, limited, populated⟩ := exists_of_bind_ok populated
  exact ⟨difficulty, gasLimit, calculated, limited,
    (Except.ok.inj populated).symm⟩

/-- A header within the bounds of its parent passes the checks. -/
theorem verifyParent_of_bounds
    (lowest : params.minGasLimit = 5000)
    (divisor : params.gasLimitBoundDivisor = 1024)
    (calculated : calculateDifficulty params header parent =
      .ok header.difficulty)
    (low : 5000 ≤ header.gasLimit.toNat)
    (above : parent.gasLimit.toNat - parent.gasLimit.toNat / 1024 <
      header.gasLimit.toNat)
    (below : header.gasLimit.toNat <
      parent.gasLimit.toNat + parent.gasLimit.toNat / 1024)
    (room : parent.gasLimit.toNat + parent.gasLimit.toNat / 1024 ≤
      params.maxGasLimit.toNat) :
    verifyParent params header parent = .ok () := by
  have nonzero : (1024 : U256) ≠ 0 := by decide
  have step := toNat_step parent.gasLimit
  have most := params.maxGasLimit.isLt
  have divided := @divide_of_ne parent.gasLimit 1024 nonzero
  generalize parent.gasLimit / (1024 : U256) = quotient at step divided
  have lowestHolds : (5000 : U256) ≤ header.gasLimit := BitVec.le_def.mpr low
  have mostHolds : header.gasLimit ≤ params.maxGasLimit := by
    rw [BitVec.le_def]
    omega
  have aboveHolds : parent.gasLimit - quotient < header.gasLimit := by
    rw [BitVec.lt_def, BitVec.toNat_sub_of_le (BitVec.le_def.mpr (by omega))]
    omega
  have belowHolds : header.gasLimit < parent.gasLimit + quotient := by
    rw [BitVec.lt_def, BitVec.toNat_add_of_lt (by omega)]
    omega
  rw [verifyParent, calculated, lowest, divisor]
  simp only [divided, Except.bind, bind, lowestHolds, mostHolds, aboveHolds,
    belowHolds, decide_true, Bool.and_true]
  rfl

/-- The header of the next block follows its parent. -/
theorem verify_of_next (memo : parent.memo ≠ zeroHash 32)
    (hash : header.parentHash = parent.memo)
    (later : parent.timestamp < header.timestamp)
    (next : header.number = parent.number + 1)
    (small : header.number ≤ 2 ^ 32 - 1) : header.verify parent = .ok () := by
  have known : parent.hash = .ok parent.memo := by
    rw [BlockHeader.hash, if_neg memo]
    rfl
  rw [BlockHeader.verify, if_neg (by omega), known, hash, next,
    if_neg (show ¬ header.timestamp ≤ parent.timestamp by omega)]
  cases parent.isSet with
  | false => rfl
  | true => simp [Except.mapError, bind, Except.bind, pure, Except.pure]

end

/-- The gas limit and the difficulty that are set for a child pass the checks
against its parent. -/
theorem populateFromParent_verified [Hashing] {params : ChainOperationParams}
    (lowest : params.minGasLimit = 5000)
    (divisor : params.gasLimitBoundDivisor = 1024) {parent : BlockHeader}
    (accepted : params.minGasLimit ≤ parent.gasLimit)
    (used : parent.gasUsed ≤ parent.gasLimit)
    (room : parent.gasLimit.toNat + parent.gasLimit.toNat / 1024 ≤
      params.maxGasLimit.toNat) {header : BlockHeader}
    (later : parent.timestamp < header.timestamp) :
    (∀ child, populateFromParent params header parent = .ok child →
      verifyParent params child parent = .ok () ∧
        params.minimumDifficulty ≤ child.difficulty ∧
        (parent.memo ≠ zeroHash 32 → parent.number < 2 ^ 32 - 1 →
          child.verify parent = .ok ())) ∧
    (0 ≤ parent.number → params.difficultyBoundDivisor ≠ 0 →
      ∃ child, populateFromParent params header parent = .ok child) := by
  have most := params.maxGasLimit.isLt
  rw [lowest, BitVec.le_def] at accepted
  obtain ⟨gasLimit, limited, low, above, below⟩ := childGasLimit_within divisor
    accepted (BitVec.le_def.mp used) (by omega)
  constructor
  · intro child populated
    obtain ⟨difficulty, other, calculated, otherLimit, rfl⟩ :=
      populateFromParent_ok populated
    rw [limited] at otherLimit
    cases otherLimit
    refine ⟨verifyParent_of_bounds lowest divisor calculated low above below
      room, ?_, ?_⟩
    · exact minimumDifficulty_le calculated
    · intro memo small
      exact verify_of_next memo rfl later rfl (by
        show parent.number + 1 ≤ 2 ^ 32 - 1
        omega)
  · intro positive divides
    have notGenesis : (header.populateFromParent parent).number ≠ 0 := by
      show parent.number + 1 ≠ 0
      omega
    obtain ⟨difficulty, calculated⟩ := @calculateDifficulty_isOk _ params
      parent _ notGenesis divides
    rw [populateFromParent, calculated, limited]
    exact ⟨_, rfl⟩

/-- The difficulty of a child: it is found unless the parent has no successor,
it is at least the minimum, a later child has no greater one, from Homestead
on it is close to that of the parent before the ice age and the minimum, and
the term of the ice age does not decrease but at the Byzantium fork. -/
theorem calculateDifficulty_spec [Hashing] {params : ChainOperationParams}
    {parent : BlockHeader} (low : parent.difficulty.toNat < 2 ^ 255)
    (past : 0 ≤ parent.timestamp) :
    (∀ header : BlockHeader, header.number ≠ 0 →
      params.difficultyBoundDivisor ≠ 0 →
      ∃ difficulty, calculateDifficulty params header parent =
        .ok difficulty) ∧
    (∀ header difficulty,
      calculateDifficulty params header parent = .ok difficulty →
      params.minimumDifficulty ≤ difficulty ∧
      ∃ value, target params header parent = .ok value ∧
        (difficulty.toNat : Int) = min (max
          (params.minimumDifficulty.toNat : Int)
          (value + iceAge params header parent)) (2 ^ 256 - 1)) ∧
    (∀ (first second : BlockHeader) early late,
      first.number = second.number → parent.timestamp < first.timestamp →
      first.timestamp ≤ second.timestamp → second.timestamp < 2 ^ 63 →
      calculateDifficulty params first parent = .ok early →
      calculateDifficulty params second parent = .ok late → late ≤ early) ∧
    (∀ header : BlockHeader,
      params.homesteadForkBlock ≤ u256OfInt header.number →
      parent.timestamp < header.timestamp →
      ∃ value, target params header parent = .ok value ∧
        2048 * (parent.difficulty.toNat - value) ≤
          99 * (parent.difficulty.toNat : Int) ∧
        2048 * (value - parent.difficulty.toNat) ≤
          2 * (parent.difficulty.toNat : Int)) ∧
    ∀ first second firstParent secondParent : BlockHeader,
      first.number = firstParent.number + 1 →
      second.number = secondParent.number + 1 →
      0 ≤ first.number → first.number ≤ second.number →
      second.number < 2 ^ 32 →
      (params.byzantiumForkBlock ≤ u256OfInt first.number ↔
        params.byzantiumForkBlock ≤ u256OfInt second.number) →
      iceAge params first firstParent ≤
        iceAge params second secondParent := by
  refine ⟨?_, ?_, ?_, ?_, ?_⟩
  · exact fun header notGenesis divisor =>
      calculateDifficulty_isOk notGenesis divisor
  · exact fun header difficulty calculated =>
      ⟨minimumDifficulty_le calculated, calculateDifficulty_ok calculated⟩
  · intro first second early late sameNumber later order bounded firstOk
      secondOk
    obtain ⟨earlyValue, earlyTarget, earlyBounded⟩ :=
      calculateDifficulty_ok firstOk
    obtain ⟨lateValue, lateTarget, lateBounded⟩ :=
      calculateDifficulty_ok secondOk
    have values := target_antitone low past sameNumber later order bounded
      earlyTarget lateTarget
    rw [iceAge_congr sameNumber] at earlyBounded
    rw [BitVec.le_def]
    omega
  · exact fun header homestead later => target_bounds homestead later
  · exact fun first second firstParent secondParent firstNext secondNext
      positive order bounded sameSide =>
        iceAge_mono firstNext secondNext positive order bounded sameSide

section Sample

/-- Every text has the hash of the empty list. -/
def difficultySampleHashing : Hashing where
  sha3 _ := hashOfNat
    0x1dcc4de8dec75d7aab85b567b6ccd41ad312451b948a7413f0a142fd40d49347
  trieRoot _ := hashOfNat 0

attribute [local instance] difficultySampleHashing

def parentSample : BlockHeader where
  sha3Uncles := hashOfNat
    0x1dcc4de8dec75d7aab85b567b6ccd41ad312451b948a7413f0a142fd40d49347
  difficulty := 0x400000
  number := 5
  gasLimit := 8000000
  gasUsed := 7999999
  timestamp := 1000
  memo := hashOfNat 1

/-- A block that the Homestead rules apply to. -/
def paramsSample : ChainOperationParams where
  homesteadForkBlock := 0

theorem populateFromParent_verified_sample :
    ∃ child, populateFromParent paramsSample { timestamp := 1013 }
        parentSample = .ok child ∧
      verifyParent paramsSample child parentSample = .ok () := by
  obtain ⟨checked, found⟩ := @populateFromParent_verified _ paramsSample rfl rfl
    parentSample (by decide) (by decide) (by decide) { timestamp := 1013 }
    (by decide)
  obtain ⟨child, populated⟩ := found (by decide) (by decide)
  exact ⟨child, populated, (checked child populated).1⟩

theorem calculateDifficulty_spec_sample :
    ∃ difficulty, calculateDifficulty paramsSample
        { number := 6, timestamp := 1013 } parentSample = .ok difficulty ∧
      paramsSample.minimumDifficulty ≤ difficulty := by
  obtain ⟨found, least, -⟩ := @calculateDifficulty_spec _ paramsSample
    parentSample (by decide) (by decide)
  obtain ⟨difficulty, calculated⟩ := found { number := 6, timestamp := 1013 }
    (by decide) (by decide)
  exact ⟨difficulty, calculated, (least _ _ calculated).1⟩

/-- The term of the ice age falls to nothing where the number no longer fits
in an `unsigned`. -/
theorem iceAge_wraps_sample :
    ¬ iceAge paramsSample { number := 2 ^ 32 - 1 } { number := 2 ^ 32 - 2 } ≤
      iceAge paramsSample { number := 2 ^ 32 } { number := 2 ^ 32 - 1 } := by
  decide +kernel

end Sample

end Aecash

end Aecmio

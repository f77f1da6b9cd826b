import Aecmio.Evm.Running

/-!
# Numbers

The instructions whose operands are signed, shifted, reduced or raised to a
power, in the arithmetic of the source, and the operations on words that
they stand for.  Signed values are numbers with a sign and a magnitude that
are converted from words and back.
-/

namespace Aecmio

open Dialogues Interpreter

namespace Numbers

/-! ## In the source's arithmetic -/

/-- A conversion to `s256` or `s512`, which drops high bits of the
magnitude. -/
def signedMagnitude (bits : Nat) (value : Int) : Int :=
  value.sign * (value.natAbs % 2 ^ bits : Nat)

def u2s (u : U256) : Int :=
  if u.getLsbD 255 then signedMagnitude 256 (-(2 ^ 256 - u.toNat))
  else signedMagnitude 256 u.toNat

def s2u (u : Int) : U256 :=
  if 0 ≤ u then BitVec.ofInt 256 u else BitVec.ofInt 256 (2 ^ 256 + u)

/-- `divWorkaround<s256>`. -/
def divWorkaround (a b : Int) : Int :=
  signedMagnitude 256
    ((signedMagnitude 512 a).tdiv (signedMagnitude 512 b))

/-- `modWorkaround<s256>`. -/
def modWorkaround (a b : Int) : Int :=
  signedMagnitude 256
    ((signedMagnitude 512 a).tmod (signedMagnitude 512 b))

/-- `(unsigned)word`. -/
def unsigned (word : U256) : Nat := word.toNat % 2 ^ 32

/-- `u512(word)`. -/
def wide (word : U256) : BitVec 512 := word.setWidth 512

end Numbers

open Numbers

/-- The instructions on numbers. -/
inductive NumberInstruction where
  | sdiv | smod | slt | sgt | signextend | sar | shl | shr | byte | addmod
  | mulmod | exp
deriving DecidableEq

namespace NumberInstruction

def instruction : NumberInstruction → Instruction
  | sdiv => .operation .sdiv
  | smod => .operation .smod
  | slt => .operation .slt
  | sgt => .operation .sgt
  | signextend => .operation .signextend
  | sar => .operation .sar
  | shl => .operation .shl
  | shr => .operation .shr
  | byte => .operation .byte
  | addmod => .operation .addmod
  | mulmod => .operation .mulmod
  | exp => .exp

/-- What the case of an instruction computes from `m_SP[0]` on. -/
def evaluate (first second third : U256) : NumberInstruction → U256
  | sdiv => if second ≠ 0 then s2u (divWorkaround (u2s first) (u2s second))
      else 0
  | smod => if second ≠ 0 then s2u (modWorkaround (u2s first) (u2s second))
      else 0
  | slt => if u2s first < u2s second then 1 else 0
  | sgt => if u2s first > u2s second then 1 else 0
  | signextend => Interpreter.signextend first second
  | sar => Interpreter.sar first second
  | shl => if 256 ≤ first then 0 else second <<< unsigned first
  | shr => if 256 ≤ first then 0 else second >>> unsigned first
  | byte => if first < 32 then
      (second >>> unsigned (8 * (31 - first))) &&& 0xff else 0
  | addmod => if third ≠ 0 then
      ((wide first + wide second) % wide third).setWidth 256 else 0
  | mulmod => if third ≠ 0 then
      ((wide first * wide second) % wide third).setWidth 256 else 0
  | exp => exp256 first second

/-- The operation that an instruction stands for. -/
def reference (first second third : U256) : NumberInstruction → U256
  | sdiv => if second = 0 then 0 else first.sdiv second
  | smod => if second = 0 then 0 else first.srem second
  | slt => if first.toInt < second.toInt then 1 else 0
  | sgt => if second.toInt < first.toInt then 1 else 0
  | signextend =>
      if first.toNat < 31 then
        (second.setWidth (8 * (first.toNat + 1))).signExtend 256
      else second
  | sar => second.sshiftRight first.toNat
  | shl => second <<< first.toNat
  | shr => second >>> first.toNat
  | byte =>
      if first.toNat < 32 then
        BitVec.ofNat 256 (second.toNat / 256 ^ (31 - first.toNat) % 256)
      else 0
  | addmod => if third = 0 then 0
      else BitVec.ofNat 256 ((first.toNat + second.toNat) % third.toNat)
  | mulmod => if third = 0 then 0
      else BitVec.ofNat 256 (first.toNat * second.toNat % third.toNat)
  | exp => BitVec.ofNat 256 (first.toNat ^ second.toNat)

/-- The price; a power costs more for every byte of its exponent. -/
def price (schedule : EVMSchedule) (second : U256) : NumberInstruction → Nat
  | exp => schedule.expGas +
      schedule.expByteGas * (Nat.digits 256 second.toNat).length
  | other => schedule.tierStepGas.getD
      other.instruction.metric.gasPriceTier.index 0

/-- Shifts came with a fork. -/
def available (schedule : EVMSchedule) : NumberInstruction → Bool
  | sar | shl | shr => schedule.haveBitwiseShifting
  | _ => true

end NumberInstruction

namespace Numbers

/-! ## Signed values -/

theorem signedMagnitude_of_lt {bits : Nat} {value : Int}
    (small : value.natAbs < 2 ^ bits) :
    signedMagnitude bits value = value := by
  rw [signedMagnitude, Nat.mod_eq_of_lt small, Int.sign_mul_natAbs]

theorem u2s_eq (u : U256) : u2s u = u.toInt := by
  have bound := u.isLt
  have sign : u.msb = u.getLsbD 255 := BitVec.msb_eq_getLsbD_last u
  have high : u.msb = decide (2 ^ 255 ≤ u.toNat) := BitVec.msb_eq_decide u
  rw [u2s, BitVec.toInt_eq_msb_cond, ← sign]
  split
  · rename_i negative
    rw [high, decide_eq_true_eq] at negative
    have small : (-(2 ^ 256 - (u.toNat : Int))).natAbs < 2 ^ 256 := by omega
    rw [signedMagnitude_of_lt small]
    omega
  · have small : (u.toNat : Int).natAbs < 2 ^ 256 := by omega
    exact signedMagnitude_of_lt small

theorem s2u_eq (u : Int) : s2u u = BitVec.ofInt 256 u := by
  unfold s2u
  split
  · rfl
  · rw [BitVec.ofInt_add]
    have : (BitVec.ofInt 256 (2 ^ 256)) = 0 := by decide
    rw [this]
    exact BitVec.zero_add _

theorem natAbs_toInt_le (u : U256) : u.toInt.natAbs ≤ 2 ^ 255 := by
  have low := u.le_toInt
  have high := u.toInt_lt
  omega

theorem signedMagnitude_toInt {bits : Nat} (wide : 256 ≤ bits) (u : U256) :
    signedMagnitude bits u.toInt = u.toInt := by
  refine signedMagnitude_of_lt ?_
  have bound := natAbs_toInt_le u
  have : 2 ^ 255 < 2 ^ bits := Nat.pow_lt_pow_right (by decide) (by omega)
  omega

theorem ofInt_tdiv (first second : U256) :
    BitVec.ofInt 256 (first.toInt.tdiv second.toInt) =
      first.sdiv second := by
  refine BitVec.eq_of_toInt_eq ?_
  rw [BitVec.toInt_ofInt, BitVec.toInt_sdiv]

theorem ofInt_tmod (first second : U256) :
    BitVec.ofInt 256 (first.toInt.tmod second.toInt) =
      first.srem second := by
  rw [← BitVec.toInt_srem, BitVec.ofInt_toInt]

theorem s2u_divWorkaround (first second : U256) :
    s2u (divWorkaround (u2s first) (u2s second)) = first.sdiv second := by
  have bound := natAbs_toInt_le first
  have quotient : (first.toInt.tdiv second.toInt).natAbs < 2 ^ 256 := by
    rw [Int.natAbs_tdiv]
    refine lt_of_le_of_lt (Nat.div_le_self _ _) ?_
    omega
  rw [s2u_eq, u2s_eq, u2s_eq, divWorkaround,
    signedMagnitude_toInt (by decide), signedMagnitude_toInt (by decide),
    signedMagnitude_of_lt quotient, ofInt_tdiv]

theorem s2u_modWorkaround (first second : U256) :
    s2u (modWorkaround (u2s first) (u2s second)) = first.srem second := by
  have remainder : first.toInt.tmod second.toInt =
      (first.srem second).toInt := (BitVec.toInt_srem first second).symm
  rw [s2u_eq, u2s_eq, u2s_eq, modWorkaround,
    signedMagnitude_toInt (by decide), signedMagnitude_toInt (by decide),
    remainder, signedMagnitude_toInt (by decide), BitVec.ofInt_toInt]

theorem getLsbD_mask {width : Nat} (inside : width < 256) (index : Nat) :
    (((1 <<< width : Nat) : U256) - 1).getLsbD index =
      decide (index < width) := by
  have small : 2 ^ width < 2 ^ 256 := Nat.pow_lt_pow_right (by decide) inside
  have value : (((1 <<< width : Nat) : U256) - 1).toNat = 2 ^ width - 1 := by
    have positive := Nat.two_pow_pos width
    rw [Nat.one_shiftLeft, BitVec.toNat_sub]
    change (2 ^ 256 - 1 + 2 ^ width % 2 ^ 256) % 2 ^ 256 = _
    rw [Nat.mod_eq_of_lt small]
    omega
  rw [BitVec.getLsbD, value, Nat.testBit_two_pow_sub_one]

theorem getLsbD_or_not_mask (number : U256) {width index : Nat}
    (inside : width < 256) (small : index < 256) :
    (number ||| ~~~(((1 <<< width : Nat) : U256) - 1)).getLsbD index =
      (decide (width ≤ index) || number.getLsbD index) := by
  rw [BitVec.getLsbD_or, BitVec.getLsbD_not, getLsbD_mask inside]
  rcases Nat.lt_or_ge index width with lower | higher
  · simp [lower, small]
  · simp [higher, small]

theorem getLsbD_and_mask (number : U256) {width : Nat} (inside : width < 256)
    (index : Nat) :
    (number &&& (((1 <<< width : Nat) : U256) - 1)).getLsbD index =
      (decide (index < width) && number.getLsbD index) := by
  rw [BitVec.getLsbD_and, getLsbD_mask inside, Bool.and_comm]

theorem signextend_eq (position number : U256) :
    signextend position number =
      if position.toNat < 31 then
        (number.setWidth (8 * (position.toNat + 1))).signExtend 256
      else number := by
  unfold signextend
  split
  · rename_i early
    -- The bit that is tested is the last one that is kept.
    have last : 8 * (position.toNat + 1) = position.toNat * 8 + 7 + 1 := by
      omega
    have inside : position.toNat * 8 + 7 < 256 := by omega
    rw [last]
    generalize position.toNat * 8 + 7 = testBit at inside ⊢
    refine BitVec.eq_of_getLsbD_eq fun index small => ?_
    rw [BitVec.getLsbD_signExtend, BitVec.msb_setWidth]
    simp only [BitVec.getLsbD_setWidth, small, decide_true, Bool.true_and]
    split
    · rename_i sign
      rw [getLsbD_or_not_mask number inside small]
      rcases Nat.lt_trichotomy index testBit with lower | same | higher
      · have kept : index < testBit + 1 := by omega
        have unmasked : ¬ testBit ≤ index := by omega
        simp [kept, unmasked]
      · simp [same, sign]
      · have beyond : ¬ index < testBit + 1 := by omega
        have masked : testBit ≤ index := by omega
        simp [beyond, masked, sign]
    · rename_i sign
      rw [Bool.not_eq_true] at sign
      rw [getLsbD_and_mask number inside]
      rcases Nat.lt_trichotomy index testBit with lower | same | higher
      · have kept : index < testBit + 1 := by omega
        simp [kept, lower]
      · simp [same, sign]
      · have beyond : ¬ index < testBit + 1 := by omega
        have masked : ¬ index < testBit := by omega
        simp [beyond, masked, sign]
  · rfl

theorem sar_eq (amount shiftee : U256) :
    sar amount shiftee = shiftee.sshiftRight amount.toNat := by
  have negative : shiftee.msb = shiftee.getLsbD 255 :=
    BitVec.msb_eq_getLsbD_last shiftee
  refine BitVec.eq_of_getLsbD_eq fun index inside => ?_
  have below : ¬ 256 ≤ index := by omega
  rw [BitVec.getLsbD_sshiftRight, negative]
  simp only [sar, below, decide_false, Bool.not_false, Bool.true_and]
  cases sign : shiftee.getLsbD 255 with
  | false =>
      simp only [Bool.false_eq_true, if_false]
      split
      · have past : ¬ amount.toNat + index < 256 := by omega
        rw [if_neg past]
        exact BitVec.getLsbD_zero
      · rw [BitVec.getLsbD_ushiftRight]
        split
        · rfl
        · rename_i past
          exact BitVec.getLsbD_of_ge shiftee _ (by omega)
  | true =>
      simp only [if_true]
      split
      · have past : ¬ amount.toNat + index < 256 := by omega
        rw [if_neg past, BitVec.getLsbD_allOnes]
        exact decide_eq_true inside
      · rw [BitVec.getLsbD_or, BitVec.getLsbD_ushiftRight,
          BitVec.getLsbD_shiftLeft, BitVec.getLsbD_allOnes]
        split
        · have unfilled : index < 256 - amount.toNat := by omega
          simp [unfilled]
        · have filled : ¬ index < 256 - amount.toNat := by omega
          have present : index - (256 - amount.toNat) < 256 := by omega
          simp [filled, present, inside]

theorem exp256Loop_eq {rounds : Nat} (result base exponent : U256)
    (enough : exponent.toNat < 2 ^ rounds) :
    exp256Loop rounds result base exponent =
      result * base ^ exponent.toNat := by
  induction rounds generalizing result base exponent with
  | zero =>
      have none : exponent.toNat = 0 := by omega
      simp [exp256Loop, none]
  | succ rounds induction =>
      have half : (exponent >>> 1).toNat = exponent.toNat / 2 := by
        rw [BitVec.toNat_ushiftRight, Nat.shiftRight_one]
      have odd : exponent.getLsbD 0 = decide (exponent.toNat % 2 = 1) :=
        Nat.testBit_zero exponent.toNat
      have squared : base ^ exponent.toNat =
          base ^ (exponent.toNat % 2) * (base * base) ^ (exponent.toNat / 2) := by
        rw [← pow_two, ← pow_mul, ← pow_add, Nat.mod_add_div]
      simp only [exp256Loop]
      split
      · rename_i done
        simp [done]
      · rw [induction _ _ _ (by omega), half, odd, squared, ← mul_assoc]
        congr 1
        rcases Nat.mod_two_eq_zero_or_one exponent.toNat with even | odd
        · simp [even]
        · simp [odd]

theorem pow_eq_ofNat (base : U256) (exponent : Nat) :
    base ^ exponent = BitVec.ofNat 256 (base.toNat ^ exponent) := by
  induction exponent with
  | zero => rfl
  | succ exponent induction =>
      rw [pow_succ, induction, pow_succ, BitVec.ofNat_mul,
        BitVec.ofNat_toNat, BitVec.setWidth_eq]

theorem exp256_eq (base exponent : U256) :
    exp256 base exponent =
      BitVec.ofNat 256 (base.toNat ^ exponent.toNat) := by
  have ran := exp256Loop_eq 1 base exponent exponent.isLt
  rw [exp256, ran, ← pow_eq_ofNat]
  exact one_mul _

/-- The bits before the first one that is set are not. -/
theorem firstBitSet_spec (word : U256) :
    word.toNat < 2 ^ (256 - firstBitSet word) ∧
      (word.toNat ≠ 0 → firstBitSet word < 256 ∧
        2 ^ (255 - firstBitSet word) ≤ word.toNat) := by
  have position : ∀ index < 256, word.getMsbD index =
      word.toNat.testBit (255 - index) := by
    intro index inside
    simp [BitVec.getMsbD, inside, BitVec.getLsbD]
  have bounded : ∀ first ≤ 256, (∀ index < first, word.getMsbD index = false) →
      word.toNat < 2 ^ (256 - first) := by
    intro first inside unset
    refine Nat.lt_pow_two_of_testBit _ fun index high => ?_
    rcases Nat.lt_or_ge index 256 with small | large
    · have earlier : 255 - index < first := by omega
      have clear := unset (255 - index) earlier
      rwa [position (255 - index) (by omega),
        show 255 - (255 - index) = index by omega] at clear
    · exact BitVec.getLsbD_of_ge word index large
  unfold firstBitSet
  cases found : (List.range 256).find? fun index => word.getMsbD index with
  | none =>
      rw [List.find?_range_eq_none] at found
      have unset : word.toNat < 2 ^ (256 - 256) :=
        bounded 256 le_rfl fun index inside => by simpa using found index inside
      refine ⟨unset, ?_⟩
      omega
  | some first =>
      obtain ⟨set, inside, unset⟩ := List.find?_range_eq_some.mp found
      rw [List.mem_range] at inside
      refine ⟨bounded first (Nat.le_of_lt inside) fun index earlier => by
        simpa using unset index earlier, fun _ => ⟨inside, ?_⟩⟩
      rw [position first inside] at set
      exact Nat.ge_two_pow_of_testBit set

/-- The bytes that an exponent is charged for. -/
theorem firstBitSet_bytes (word : U256) :
    32 - firstBitSet word / 8 = (Nat.digits 256 word.toNat).length := by
  obtain ⟨below, above⟩ := firstBitSet_spec word
  have power : ∀ count, 256 ^ count = 2 ^ (8 * count) := by
    intro count
    rw [pow_mul]
    norm_num
  refine le_antisymm ?_ ?_
  · by_cases none : word.toNat = 0
    · have zero : word = 0 := BitVec.eq_of_toNat_eq none
      rw [zero]
      decide
    · obtain ⟨inside, least⟩ := above none
      have last : 31 - firstBitSet word / 8 <
          (Nat.digits 256 word.toNat).length := by
        rw [Nat.lt_digits_length_iff (by decide), power]
        refine le_trans (Nat.pow_le_pow_right (by decide) ?_) least
        omega
      omega
  · rw [Nat.digits_length_le_iff (by decide), power]
    refine lt_of_lt_of_le below (Nat.pow_le_pow_right (by decide) ?_)
    omega

/-! ## The source computes the reference -/

theorem toNat_wide (word : U256) : (wide word).toNat = word.toNat := by
  have bound := word.isLt
  rw [wide, BitVec.toNat_setWidth, Nat.mod_eq_of_lt (by omega)]

/-- A remainder of a word fits in a word. -/
theorem setWidth_umod_wide (value : BitVec 512) (modulus : U256) :
    (value % wide modulus).setWidth 256 =
      BitVec.ofNat 256 (value.toNat % modulus.toNat) := by
  refine BitVec.eq_of_toNat_eq ?_
  rw [BitVec.toNat_setWidth, BitVec.toNat_umod, toNat_wide,
    BitVec.toNat_ofNat]

theorem shl_cases (word : U256) (amount : Nat) :
    (if 256 ≤ amount then 0 else word <<< amount) = word <<< amount := by
  split
  · rename_i far
    exact (BitVec.shiftLeft_eq_zero far).symm
  · rfl

theorem shr_cases (word : U256) (amount : Nat) :
    (if 256 ≤ amount then 0 else word >>> amount) = word >>> amount := by
  split
  · rename_i far
    exact (BitVec.ushiftRight_eq_zero far).symm
  · rfl

theorem unsigned_of_lt {word : U256} (near : word.toNat < 256) :
    unsigned word = word.toNat :=
  Nat.mod_eq_of_lt (by omega)

theorem byte_eq (word : U256) (position : Nat) :
    (word >>> (8 * (31 - position))) &&& 0xff =
      BitVec.ofNat 256 (word.toNat / 256 ^ (31 - position) % 256) := by
  refine BitVec.eq_of_toNat_eq ?_
  rw [BitVec.toNat_and, BitVec.toNat_ushiftRight, BitVec.toNat_ofNat,
    Nat.shiftRight_eq_div_pow, pow_mul]
  change _ &&& (2 ^ 8 - 1) = _
  rw [Nat.and_two_pow_sub_one_eq_mod]
  norm_num
  omega

theorem unsigned_byte {position : U256} (inside : position.toNat < 32) :
    unsigned (8 * (31 - position)) = 8 * (31 - position.toNat) := by
  have shift : (8 * (31 - position)).toNat = 8 * (31 - position.toNat) := by
    bv_omega
  rw [unsigned, shift, Nat.mod_eq_of_lt (by omega)]

theorem evaluate_eq_reference (op : NumberInstruction)
    (first second third : U256) :
    op.evaluate first second third = op.reference first second third := by
  have firstBound := first.isLt
  have secondBound := second.isLt
  cases op with
  | sdiv =>
      simp only [NumberInstruction.evaluate, NumberInstruction.reference,
        s2u_divWorkaround, ite_not]
  | smod =>
      simp only [NumberInstruction.evaluate, NumberInstruction.reference,
        s2u_modWorkaround, ite_not]
  | slt =>
      simp only [NumberInstruction.evaluate, NumberInstruction.reference,
        u2s_eq]
  | sgt =>
      simp only [NumberInstruction.evaluate, NumberInstruction.reference,
        u2s_eq, gt_iff_lt]
  | signextend => exact signextend_eq first second
  | sar => exact sar_eq first second
  | shl =>
      refine Eq.trans ?_ (shl_cases second first.toNat)
      by_cases far : 256 ≤ first.toNat
      · rw [if_pos far]
        exact if_pos far
      · rw [if_neg far, ← unsigned_of_lt (by omega)]
        exact if_neg far
  | shr =>
      refine Eq.trans ?_ (shr_cases second first.toNat)
      by_cases far : 256 ≤ first.toNat
      · rw [if_pos far]
        exact if_pos far
      · rw [if_neg far, ← unsigned_of_lt (by omega)]
        exact if_neg far
  | byte =>
      by_cases inside : first.toNat < 32
      · refine (if_pos inside).trans ?_
        rw [unsigned_byte inside, byte_eq]
        exact (if_pos inside).symm
      · exact (if_neg inside).trans (if_neg inside).symm
  | addmod =>
      simp only [NumberInstruction.evaluate, NumberInstruction.reference]
      by_cases zero : third = 0
      · rw [if_neg (not_not.mpr zero), if_pos zero]
      · have sum : (wide first).toNat + (wide second).toNat < 2 ^ 512 := by
          rw [toNat_wide, toNat_wide]
          refine (Nat.add_lt_add firstBound secondBound).trans_le ?_
          refine (add_le_mul (by norm_num) (by norm_num)).trans_eq ?_
          rw [← pow_add]
        rw [if_pos zero, if_neg zero, setWidth_umod_wide,
          BitVec.toNat_add_of_lt sum, toNat_wide, toNat_wide]
  | mulmod =>
      simp only [NumberInstruction.evaluate, NumberInstruction.reference]
      by_cases zero : third = 0
      · rw [if_neg (not_not.mpr zero), if_pos zero]
      · have product : first.toNat * second.toNat < 2 ^ 512 := by
          refine lt_of_lt_of_eq (Nat.mul_lt_mul'' firstBound secondBound) ?_
          rw [← pow_add]
        rw [if_pos zero, if_neg zero, setWidth_umod_wide, BitVec.toNat_mul,
          toNat_wide, toNat_wide, Nat.mod_eq_of_lt product]
  | exp => exact exp256_eq first second

/-! ## In the interpreter -/

theorem operationValue_eq {ext : ExtVMFace} {machine : Machine}
    {op : NumberInstruction} {word : WordOperation}
    (isWord : op.instruction = .operation word) :
    operationValue ext machine word =
      op.reference (machine.sp 0) (machine.sp 1) (machine.sp 2) := by
  cases op <;> cases isWord
  case sdiv =>
    simp only [operationValue, NumberInstruction.reference, ofInt_tdiv]
  case smod =>
    simp only [operationValue, NumberInstruction.reference, ofInt_tmod]
  case slt =>
    simp only [operationValue, NumberInstruction.reference, flag,
      decide_eq_true_eq]
  case sgt =>
    simp only [operationValue, NumberInstruction.reference, flag,
      decide_eq_true_eq]
  case signextend => exact signextend_eq _ _
  case sar => exact sar_eq _ _
  case shl => exact shl_cases _ _
  case shr => exact shr_cases _ _
  case byte =>
    simp only [operationValue, NumberInstruction.reference, byte_eq]
  case addmod => rfl
  case mulmod => rfl

theorem word_or_exp (op : NumberInstruction) :
    op = .exp ∨ ∃ word, op.instruction = .operation word := by
  cases op
  case exp => exact .inl rfl
  all_goals exact .inr ⟨_, rfl⟩

theorem supports_eq {schedule : EVMSchedule} {op : NumberInstruction}
    {word : WordOperation} (isWord : op.instruction = .operation word) :
    supports (LegacyVM.rules schedule) word = op.available schedule := by
  cases op <;> cases isWord <;> rfl

theorem price_eq {schedule : EVMSchedule} {op : NumberInstruction}
    {word : WordOperation} (isWord : op.instruction = .operation word)
    (second : U256) :
    op.price schedule second =
      (LegacyVM.rules schedule).stepGas word.metric.gasPriceTier := by
  cases op <;> cases isWord <;> rfl

theorem exp_ok {schedule : EVMSchedule} {machine : Machine}
    (small : schedule.expGas + schedule.expByteGas * 32 < 2 ^ 32)
    (enough : NumberInstruction.exp.price schedule (machine.sp 1) ≤
      machine.gas) :
    caseExp (LegacyVM.rules schedule)
        (fetched (LegacyVM.rules schedule) .exp machine) =
      .done (.ok .proceed (pushed machine
        (NumberInstruction.exp.price schedule (machine.sp 1)) 2
        (exp256 (machine.sp 0) (machine.sp 1)))) := by
  have bytes : 32 - firstBitSet (machine.sp 1) / 8 ≤ 32 := Nat.sub_le _ _
  have scaled := Nat.mul_le_mul_left schedule.expByteGas bytes
  have unwrapped : (schedule.expGas + schedule.expByteGas *
      (32 - firstBitSet (machine.sp 1) / 8)) % 2 ^ 32 =
      NumberInstruction.exp.price schedule (machine.sp 1) := by
    rw [Nat.mod_eq_of_lt (by omega), firstBitSet_bytes]
    rfl
  have unfolded : caseExp (LegacyVM.rules schedule)
        (fetched (LegacyVM.rules schedule) .exp machine) =
      (updateIOGas >>= fun _ =>
        next 2 [exp256 (machine.sp 0) (machine.sp 1)])
        { fetched (LegacyVM.rules schedule) .exp machine with
          runGas := (schedule.expGas + schedule.expByteGas *
            (32 - firstBitSet (machine.sp 1) / 8)) % 2 ^ 32 } := rfl
  rw [unfolded, unwrapped, Process.bind_apply, updateIOGas_ok enough]
  rfl

end Numbers

/-- Each of the instructions that finds its operands, its fork and its price
leaves the result of the operation it stands for, and is charged exactly the
price: for `EXP` by the byte length of the exponent.  It is what the case
computes in the arithmetic of the source. -/
theorem LegacyVM.step_number [Hashing] {ext : ExtVMFace} {program : Program}
    {machine : Machine} (optimized : Bool) (op : NumberInstruction)
    (builtIn : ext.evmSchedule ∈ EVMSchedule.builtIn)
    (executes : Executes program machine op.instruction)
    (available : op.available ext.evmSchedule = true)
    (enough : op.price ext.evmSchedule (machine.sp 1) ≤ machine.gas) :
    step (LegacyVM.variant ext optimized) program machine =
      .done (.ok .proceed (pushed machine
        (op.price ext.evmSchedule (machine.sp 1)) op.instruction.metric.args
        (op.reference (machine.sp 0) (machine.sp 1) (machine.sp 2)))) ∧
    op.evaluate (machine.sp 0) (machine.sp 1) (machine.sp 2) =
      op.reference (machine.sp 0) (machine.sp 1) (machine.sp 2) := by
  refine ⟨?_, evaluate_eq_reference op _ _ _⟩
  rw [step_of_executes executes]
  rcases word_or_exp op with rfl | ⟨word, isWord⟩
  · have small := (Priced.ofBuiltIn builtIn).exp.2
    rw [← evaluate_eq_reference]
    exact exp_ok small enough
  · rw [← supports_eq isWord] at available
    rw [price_eq isWord] at enough ⊢
    rw [isWord]
    refine (operation_ok available enough).trans ?_
    rw [operationValue_eq isWord]
    rfl

/-- Two to the tenth, with an exponent of one byte. -/
theorem LegacyVM.step_number_sample :
    @step frameSampleHashing
        (LegacyVM.variant (frameSample .byzantium [0x0a]) false)
        ⟨[0x0a], [], []⟩ { stack := [2, 10], gas := 100 } =
      .done (.ok .proceed
        (pushed { stack := [2, 10], gas := 100 } 60 2 1024)) ∧
    NumberInstruction.exp.evaluate 2 10 0 = 1024 := by
  have price : NumberInstruction.exp.price .byzantium 10 = 60 := by
    simp [NumberInstruction.price, EVMSchedule.byzantium, EVMSchedule.eip158,
      EVMSchedule.eip150, EVMSchedule.homestead]
  have value : NumberInstruction.exp.reference 2 10 0 = 1024 := by decide
  have ran := @LegacyVM.step_number frameSampleHashing
    (frameSample .byzantium [0x0a]) ⟨[0x0a], [], []⟩
    { stack := [2, 10], gas := 100 } false .exp (by decide)
    ⟨by decide, by decide, by decide⟩ rfl (price.trans_le (by decide))
  change _ = Dialogue.done (EStateM.Result.ok Flow.proceed (pushed _
    (NumberInstruction.exp.price .byzantium 10) 2
    (NumberInstruction.exp.reference 2 10 0))) ∧
      NumberInstruction.exp.evaluate 2 10 0 =
        NumberInstruction.exp.reference 2 10 0 at ran
  rw [price, value] at ran
  exact ran

/-- The one quotient that does not fit. -/
example : NumberInstruction.sdiv.evaluate (BitVec.intMin 256) (-1) 0 =
    BitVec.intMin 256 := by decide +kernel

end Aecmio

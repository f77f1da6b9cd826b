import Aecmio.Bytes

/-!
# The modular exponentiation contract

`modexp` takes three lengths of 32 bytes and three numbers of these lengths
out of its input, which counts as followed by zeros without end.  Its pricer
reads the lengths and the first bytes of the exponent.  An assertion that
fails is `none`; `powm` is the power function of the multiprecision library.
-/

namespace Aecmio

/-- `numeric_limits<size_t>::max() / 8`. -/
def bitSizeLimit : Nat := (sizeTRange - 1) / 8

def parseBigEndianRightPadded (input : Bytes) (start count : Nat) :
    Option Nat := do
  if input.length < start then return 0
  guard (count ≤ bitSizeLimit)
  -- the crop ends with the input, so that it is never the null reference
  let cropped := (input.drop start).take (min count (input.length - start))
  guard (count - cropped.length ≤ bitSizeLimit)
  return fromBigEndian cropped <<< (8 * (count - cropped.length))

def modexp (powm : Nat → Nat → Nat → Nat) (input : Bytes) :
    Option (Bool × Bytes) := do
  let baseLength ← parseBigEndianRightPadded input 0 32
  let expLength ← parseBigEndianRightPadded input 32 32
  let modLength ← parseBigEndianRightPadded input 64 32
  guard (modLength ≤ bitSizeLimit)
  guard (baseLength ≤ bitSizeLimit)
  if modLength = 0 ∧ baseLength = 0 then return (true, [])
  guard (expLength ≤ bitSizeLimit)
  let base ← parseBigEndianRightPadded input 96 baseLength
  let exp ← parseBigEndianRightPadded input (96 + baseLength) expLength
  let mod ← parseBigEndianRightPadded input (96 + baseLength + expLength)
    modLength
  let result := if mod ≠ 0 then powm base exp mod else 0
  return (true, toBigEndian result modLength)

/-- `exp ? msb(exp) : 0`. -/
def highestBit (exp : Nat) : Nat := if exp ≠ 0 then exp.log2 else 0

def expLengthAdjust (expOffset expLength : Nat) (input : Bytes) :
    Option Nat := do
  if expLength ≤ 32 then
    let exp ← parseBigEndianRightPadded input expOffset expLength
    return highestBit exp
  else
    let expFirstWord ← parseBigEndianRightPadded input expOffset 32
    return 8 * (expLength - 32) + highestBit expFirstWord

def multComplexity (x : Nat) : Nat :=
  if x ≤ 64 then x * x
  else if x ≤ 1024 then x * x / 4 + 96 * x - 3072
  else x * x / 16 + 480 * x - 199680

/-- The pricer of `modexp`. -/
def modexpPrice (input : Bytes) : Option Nat := do
  let baseLength ← parseBigEndianRightPadded input 0 32
  let expLength ← parseBigEndianRightPadded input 32 32
  let modLength ← parseBigEndianRightPadded input 64 32
  let maxLength := max modLength baseLength
  let adjustedExpLength ← expLengthAdjust (baseLength + 96) expLength input
  return multComplexity maxLength * max adjustedExpLength 1 / 20

theorem guard_holds {condition : Prop} [Decidable condition]
    (holds : condition) : (guard condition : Option Unit) = some () :=
  if_pos holds

theorem guard_fails {condition : Prop} [Decidable condition]
    (fails : ¬ condition) : (guard condition : Option Unit) = none :=
  if_neg fails

/-! ## The input with zeros behind it -/

theorem fromBigEndian_append (front back : Bytes) :
    fromBigEndian (front ++ back) =
      fromBigEndian front * 256 ^ back.length + fromBigEndian back := by
  induction back using List.reverseRecOn with
  | nil => simp
  | append_singleton back byte induction =>
      rw [← List.append_assoc, fromBigEndian_concat, fromBigEndian_concat,
        induction, List.length_append, List.length_singleton, Nat.pow_succ]
      ring

theorem fromBigEndian_zeros (count : Nat) :
    fromBigEndian (List.replicate count 0) = 0 := by
  induction count with
  | zero => rfl
  | succ count induction =>
      rw [List.replicate_succ', fromBigEndian_concat, induction]
      rfl

/-- The bytes from an offset on, with zeros behind the end of the input. -/
def extended (input : Bytes) (start count : Nat) : Bytes :=
  (List.range count).map fun index => input.getD (start + index) 0

@[simp] theorem length_extended (input : Bytes) (start count : Nat) :
    (extended input start count).length = count := by
  simp [extended]

/-- The number in a field of the extended input. -/
def fieldNumber (input : Bytes) (start count : Nat) : Nat :=
  fromBigEndian (extended input start count)

theorem fieldNumber_lt (input : Bytes) (start count : Nat) :
    fieldNumber input start count < 256 ^ count := by
  have bound := fromBigEndian_lt (extended input start count)
  rw [length_extended] at bound
  exact bound

theorem extended_eq (input : Bytes) (start count : Nat) :
    extended input start count =
      (input.drop start).take (min count (input.length - start)) ++
        List.replicate (count - (input.length - start)) 0 := by
  apply List.ext_getElem
  · simp
    omega
  · intro index below belowAppend
    simp only [extended, List.getElem_map, List.getElem_range,
      List.getD_eq_getElem?_getD]
    by_cases inside : index < input.length - start
    · rw [List.getElem_append_left (by simp at below ⊢; omega),
        List.getElem_take, List.getElem_drop,
        List.getElem?_eq_getElem (by omega), Option.getD_some]
    · rw [List.getElem_append_right (by simp at below ⊢; omega),
        List.getElem_replicate, List.getElem?_eq_none (by omega),
        Option.getD_none]

/-- Whatever fits in the memory is read as from the extended input. -/
theorem parseBigEndianRightPadded_eq (input : Bytes) (start : Nat)
    {count : Nat} (fits : count ≤ bitSizeLimit) :
    parseBigEndianRightPadded input start count =
      some (fieldNumber input start count) := by
  have number : fieldNumber input start count =
      fromBigEndian
          ((input.drop start).take (min count (input.length - start))) *
        256 ^ (count - (input.length - start)) := by
    rw [fieldNumber, extended_eq, fromBigEndian_append, fromBigEndian_zeros,
      List.length_replicate, Nat.add_zero]
  rw [parseBigEndianRightPadded, number]
  by_cases beyond : input.length < start
  · rw [if_pos beyond, List.drop_eq_nil_of_le (by omega), List.take_nil,
      fromBigEndian_nil, Nat.zero_mul]
    rfl
  · have missing : count - ((input.drop start).take
          (min count (input.length - start))).length =
        count - (input.length - start) := by
      simp only [List.length_take, List.length_drop]
      omega
    have shift : 2 ^ (8 * (count - (input.length - start))) =
        256 ^ (count - (input.length - start)) := by
      rw [Nat.pow_mul]
    have missingFits : count - (input.length - start) ≤ bitSizeLimit := by
      omega
    simp only [missing, guard_holds fits, guard_holds missingFits,
      if_neg beyond, Nat.shiftLeft_eq, shift]
    rfl

theorem parse_word (input : Bytes) (start : Nat) :
    parseBigEndianRightPadded input start 32 =
      some (fieldNumber input start 32) :=
  parseBigEndianRightPadded_eq input start (by decide)

namespace Modexp

def baseLength (input : Bytes) : Nat := fieldNumber input 0 32

def expLength (input : Bytes) : Nat := fieldNumber input 32 32

def modLength (input : Bytes) : Nat := fieldNumber input 64 32

def base (input : Bytes) : Nat := fieldNumber input 96 (baseLength input)

def exp (input : Bytes) : Nat :=
  fieldNumber input (96 + baseLength input) (expLength input)

def mod (input : Bytes) : Nat :=
  fieldNumber input (96 + baseLength input + expLength input)
    (modLength input)

/-- The number in the first 32 bytes of the exponent. -/
def expHead (input : Bytes) : Nat :=
  fieldNumber input (96 + baseLength input) (min (expLength input) 32)

/-- The adjusted length of the exponent. -/
def adjustedExpLength (input : Bytes) : Nat :=
  8 * (expLength input - 32) + highestBit (expHead input)

/-- The assertions on the lengths hold. -/
structure Affordable (input : Bytes) : Prop where
  modFits : modLength input ≤ bitSizeLimit
  baseFits : baseLength input ≤ bitSizeLimit
  expFits : modLength input = 0 ∧ baseLength input = 0 ∨
    expLength input ≤ bitSizeLimit

variable {powm : Nat → Nat → Nat → Nat} {input : Bytes}

theorem expLengthAdjust_eq (input : Bytes) :
    expLengthAdjust (baseLength input + 96) (expLength input) input =
      some (adjustedExpLength input) := by
  rw [expLengthAdjust, adjustedExpLength, expHead, Nat.add_comm]
  by_cases short : expLength input ≤ 32
  · have fits : expLength input ≤ bitSizeLimit := short.trans (by decide)
    rw [if_pos short, parseBigEndianRightPadded_eq _ _ fits,
      min_eq_left short, Nat.sub_eq_zero_of_le short, Nat.mul_zero,
      Nat.zero_add]
    rfl
  · rw [if_neg short, parse_word, min_eq_right (by omega)]
    rfl

/-- The price by the formula. -/
theorem price_eq (input : Bytes) :
    modexpPrice input = some
      (multComplexity (max (modLength input) (baseLength input)) *
        max (adjustedExpLength input) 1 / 20) := by
  have adjusted := expLengthAdjust_eq input
  rw [baseLength, expLength] at adjusted
  rw [modexpPrice, parse_word, parse_word, parse_word, Option.bind_eq_bind,
    Option.bind_some]
  simp only [Option.bind_eq_bind, Option.bind_some, adjusted]
  rfl

theorem modexp_of_empty (powm : Nat → Nat → Nat → Nat)
    (noModulus : modLength input = 0) (noBase : baseLength input = 0) :
    modexp powm input = some (true, []) := by
  rw [modLength] at noModulus
  rw [baseLength] at noBase
  simp [modexp, parse_word, noModulus, noBase, guard]

/-- The result where the lengths fit in the memory. -/
theorem modexp_of_fits (powm : Nat → Nat → Nat → Nat)
    (modFits : modLength input ≤ bitSizeLimit)
    (baseFits : baseLength input ≤ bitSizeLimit)
    (expFits : expLength input ≤ bitSizeLimit)
    (nonempty : ¬ (modLength input = 0 ∧ baseLength input = 0)) :
    modexp powm input = some (true, toBigEndian
      (if mod input ≠ 0 then powm (base input) (exp input) (mod input) else 0)
      (modLength input)) := by
  rw [mod, base, exp]
  have readMod := parseBigEndianRightPadded_eq input
    (96 + baseLength input + expLength input) modFits
  have readBase := parseBigEndianRightPadded_eq input 96 baseFits
  have readExp := parseBigEndianRightPadded_eq input (96 + baseLength input)
    expFits
  rw [modLength, baseLength, expLength] at *
  simp only [modexp, parse_word, Option.bind_eq_bind, Option.bind_some,
    guard_holds modFits, guard_holds baseFits, guard_holds expFits,
    if_neg nonempty, readMod, readBase, readExp]
  rfl

theorem affordable_of_isSome (returns : (modexp powm input).isSome) :
    Affordable input := by
  simp only [modexp, parse_word, Option.bind_eq_bind, Option.bind_some]
    at returns
  by_cases modFits : modLength input ≤ bitSizeLimit
  · by_cases baseFits : baseLength input ≤ bitSizeLimit
    · refine ⟨modFits, baseFits, ?_⟩
      by_contra fails
      rw [not_or] at fails
      rw [modLength, baseLength, expLength] at *
      simp only [guard_holds modFits, guard_holds baseFits, if_neg fails.1,
        guard_fails fails.2] at returns
      exact nomatch returns
    · rw [modLength, baseLength] at *
      simp [guard_holds modFits, guard_fails baseFits] at returns
  · rw [modLength] at modFits
    simp [guard_fails modFits] at returns

theorem isSome_iff : (modexp powm input).isSome ↔ Affordable input := by
  constructor
  · exact affordable_of_isSome
  · rintro ⟨modFits, baseFits, expFits⟩
    by_cases empty : modLength input = 0 ∧ baseLength input = 0
    · rw [modexp_of_empty powm empty.1 empty.2]
      rfl
    · rw [modexp_of_fits powm modFits baseFits
        (expFits.resolve_left empty) empty]
      rfl

/-! ## What the price pays for -/

theorem le_multComplexity {x : Nat} (wide : 4 ≤ x) :
    16 ≤ multComplexity x := by
  rw [multComplexity]
  split
  · exact Nat.mul_le_mul wide wide
  · split <;> omega

theorem multComplexity_pos {x : Nat} (positive : 0 < x) :
    0 < multComplexity x := by
  rw [multComplexity]
  split
  · exact Nat.mul_pos positive positive
  · split <;> omega

/-- A length that does not fit in the memory has a higher price. -/
theorem multComplexity_huge {x : Nat} (huge : bitSizeLimit < x) :
    20 * 2 ^ 63 ≤ multComplexity x := by
  have large : 2 ^ 61 ≤ x := huge
  have square : 2 ^ 61 * x ≤ x * x := Nat.mul_le_mul_right x large
  rw [multComplexity, if_neg (by omega), if_neg (by omega)]
  omega

theorem lengths_of_price {price : Nat}
    (priced : modexpPrice input = some price) (cheap : price ≤ 2 ^ 63 - 1) :
    max (modLength input) (baseLength input) ≤ bitSizeLimit := by
  by_contra huge
  have complexity := multComplexity_huge (Nat.lt_of_not_le huge)
  have product : 20 * 2 ^ 63 * 1 ≤
      multComplexity (max (modLength input) (baseLength input)) *
        max (adjustedExpLength input) 1 :=
    Nat.mul_le_mul complexity (le_max_right _ _)
  have amount := Option.some.inj ((price_eq input).symm.trans priced)
  omega

theorem expLength_of_price {price : Nat}
    (priced : modexpPrice input = some price) (cheap : price ≤ 2 ^ 63 - 1)
    (wide : 4 ≤ max (modLength input) (baseLength input)) :
    expLength input ≤ bitSizeLimit := by
  by_contra huge
  have long : 2 ^ 61 ≤ expLength input := Nat.lt_of_not_le huge
  have adjusted : 8 * (2 ^ 61 - 32) ≤ max (adjustedExpLength input) 1 := by
    rw [adjustedExpLength]
    omega
  have product : 16 * (8 * (2 ^ 61 - 32)) ≤
      multComplexity (max (modLength input) (baseLength input)) *
        max (adjustedExpLength input) 1 :=
    Nat.mul_le_mul (le_multComplexity wide) adjusted
  have amount := Option.some.inj ((price_eq input).symm.trans priced)
  omega

/-- The power function of the samples. -/
def powmSample (base exp mod : Nat) : Nat := base ^ exp % mod

/-- At a price that fits in 63 bits the assertions hold, unless the longer of
base and modulus has one, two or three bytes and the exponent is too long. -/
theorem affordable_iff (powm : Nat → Nat → Nat → Nat) {input : Bytes}
    {price : Nat} (priced : modexpPrice input = some price)
    (cheap : price ≤ 2 ^ 63 - 1) :
    ((modexp powm input).isSome ↔ Affordable input) ∧
      (Affordable input ↔
        ¬ (max (modLength input) (baseLength input) ∈ [1, 2, 3] ∧
          bitSizeLimit < expLength input)) := by
  refine ⟨isSome_iff, ?_⟩
  have lengths := max_le_iff.mp (lengths_of_price priced cheap)
  constructor
  · rintro ⟨-, -, expFits⟩ ⟨narrow, long⟩
    rcases expFits with ⟨noModulus, noBase⟩ | fits
    · rw [noModulus, noBase] at narrow
      exact absurd narrow (by decide)
    · exact absurd long (Nat.not_lt.mpr fits)
  · intro usual
    refine ⟨lengths.1, lengths.2, ?_⟩
    by_contra fails
    rw [not_or] at fails
    apply usual
    refine ⟨?_, Nat.lt_of_not_le fails.2⟩
    have narrow : ¬ 4 ≤ max (modLength input) (baseLength input) :=
      fun wide => fails.2 (expLength_of_price priced cheap wide)
    have nonempty := fails.1
    simp only [List.mem_cons, List.not_mem_nil, or_false]
    omega

/-- A base of one byte, to the first power, modulo a number of one byte. -/
def paidSample : Bytes :=
  (hashOfNat 1).val ++ (hashOfNat 1).val ++ (hashOfNat 1).val ++ [3, 1, 7]

theorem affordable_iff_sample : Affordable paidSample :=
  (@affordable_iff powmSample paidSample 0 (by decide +kernel)
    (by decide)).2.mpr (by decide +kernel)

/-- The input ends with the lengths of base and exponent. -/
def unpaidSample : Bytes := (hashOfNat 1).val ++ (hashOfNat (2 ^ 61)).val

/-- An exponent of 2^61 bytes is paid for and the assertion fails. -/
theorem unaffordable_sample :
    (∃ price, modexpPrice unpaidSample = some price ∧ price ≤ 2 ^ 63 - 1) ∧
      modexp powmSample unpaidSample = none ∧ ¬ Affordable unpaidSample := by
  have fails : modexp powmSample unpaidSample = none := by
    decide +kernel
  refine ⟨⟨922337203685477568, by decide +kernel, by decide⟩, fails, ?_⟩
  intro affordable
  have returns : (modexp powmSample unpaidSample).isSome :=
    isSome_iff.mpr affordable
  rw [fails] at returns
  exact nomatch returns

/-! ## The result -/

theorem fits_of_lt {length : Nat} (short : length < 2 ^ 32) :
    length ≤ bitSizeLimit :=
  (Nat.le_of_lt short).trans (by decide)

/-- `modexp` gives the power modulo the third number, in as many bytes as the
modulus has, and its price is that of the formula. -/
theorem modexp_eq (powm : Nat → Nat → Nat → Nat)
    (exact : ∀ base exp mod, mod ≠ 0 → powm base exp mod = base ^ exp % mod)
    {input : Bytes} (baseShort : baseLength input < 2 ^ 32)
    (expShort : expLength input < 2 ^ 32)
    (modShort : modLength input < 2 ^ 32) :
    (∃ output, modexp powm input = some (true, output) ∧
      output.length = modLength input ∧
      fromBigEndian output =
        if mod input = 0 then 0 else base input ^ exp input % mod input) ∧
    modexpPrice input = some
      (multComplexity (max (modLength input) (baseLength input)) *
        max (adjustedExpLength input) 1 / 20) := by
  refine ⟨?_, price_eq input⟩
  by_cases empty : modLength input = 0 ∧ baseLength input = 0
  · refine ⟨[], modexp_of_empty powm empty.1 empty.2, empty.1.symm, ?_⟩
    have noModulus : mod input = 0 := by
      rw [mod, empty.1]
      rfl
    rw [if_pos noModulus]
    rfl
  · refine ⟨_, modexp_of_fits powm (fits_of_lt modShort) (fits_of_lt baseShort)
      (fits_of_lt expShort) empty, length_toBigEndian _ _, ?_⟩
    have modBound : mod input < 256 ^ modLength input :=
      fieldNumber_lt input _ _
    by_cases noModulus : mod input = 0
    · rw [if_neg (by simpa using noModulus), if_pos noModulus]
      exact fromBigEndian_toBigEndian (Nat.pow_pos (by decide))
    · rw [if_pos noModulus, if_neg noModulus, exact _ _ _ noModulus]
      have reduced : base input ^ exp input % mod input < mod input :=
        Nat.mod_lt _ (Nat.pos_of_ne_zero noModulus)
      exact fromBigEndian_toBigEndian (reduced.trans modBound)

/-- The cube of the input's base. -/
def cubeSample : Bytes :=
  (hashOfNat 1).val ++ (hashOfNat 1).val ++ (hashOfNat 2).val ++ [7, 3, 1]

theorem modexp_eq_sample :
    ∃ output, modexp powmSample cubeSample = some (true, output) ∧
      output.length = 2 ∧ fromBigEndian output = 87 := by
  obtain ⟨output, returned, size, value⟩ := (@modexp_eq powmSample
    (fun _ _ _ _ => rfl) cubeSample (by decide +kernel)
    (by decide +kernel) (by decide +kernel)).1
  have bytes : modLength cubeSample = 2 := by decide +kernel
  have power : (if mod cubeSample = 0 then 0
      else base cubeSample ^ exp cubeSample % mod cubeSample) = 87 := by
    decide +kernel
  exact ⟨output, returned, size.trans bytes, value.trans power⟩

end Modexp

end Aecmio

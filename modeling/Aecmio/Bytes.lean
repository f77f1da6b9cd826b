import Mathlib

/-!
# Byte strings and big-endian integers

`dev::bytes` is a list of bytes.  The integer helpers of `CommonData.h` are
stated over natural numbers; a caller that uses a fixed-width type reduces
the result itself.
-/

namespace Aecmio

/-- `dev::bytes`, and the contents of a `bytesConstRef` or a `std::string`. -/
abbrev Bytes := List UInt8

/-- `FixedHash<N>`: exactly `N` raw bytes. -/
abbrev FixedHash (size : Nat) := { data : Bytes // data.length = size }

abbrev H256 := FixedHash 32

theorem length_zeroes (size : Nat) :
    (List.replicate size (0 : UInt8)).length = size :=
  List.length_replicate

theorem length_zeroes_address : (List.replicate 20 (0 : UInt8)).length = 20 :=
  length_zeroes 20

theorem length_zeroes_h256 : (List.replicate 32 (0 : UInt8)).length = 32 :=
  length_zeroes 32

/-- 32 bytes in big-endian order. -/
def hashOfNat (number : Nat) : H256 :=
  ⟨(List.range 32).map fun i => UInt8.ofNat (number >>> (8 * (31 - i))),
    by simp⟩

/-- One past the largest `size_t`. -/
def sizeTRange : Nat := 2 ^ 64

theorem sizeTRange_eq : sizeTRange = 18446744073709551616 := rfl

/-- The loop of `bytesRequired`, cut off after `fuel` shifts. -/
def bytesRequiredLoop : Nat → Nat → Nat
  | 0, _ => 0
  | fuel + 1, value =>
      if value = 0 then 0 else bytesRequiredLoop fuel (value / 256) + 1

/-- Number of bytes of the shortest big-endian representation. -/
def bytesRequired (value : Nat) : Nat := bytesRequiredLoop value value

/-- The last `size` bytes of the big-endian representation. -/
def toBigEndian (value : Nat) : Nat → Bytes
  | 0 => []
  | size + 1 => toBigEndian (value / 256) size ++ [UInt8.ofNat value]

def fromBigEndian (content : Bytes) : Nat :=
  content.foldl (fun result byte => result * 256 + byte.toNat) 0

theorem bytesRequiredLoop_enough (fuel value : Nat) (enough : value ≤ fuel) :
    bytesRequiredLoop (fuel + 1) value = bytesRequiredLoop fuel value := by
  induction fuel generalizing value with
  | zero =>
      have zero : value = 0 := by omega
      simp [bytesRequiredLoop, zero]
  | succ fuel induction =>
      by_cases zero : value = 0
      · simp [bytesRequiredLoop, zero]
      · have smaller : value / 256 ≤ fuel := by omega
        have step : ∀ count, bytesRequiredLoop (count + 1) value =
            bytesRequiredLoop count (value / 256) + 1 := by
          intro count
          rw [bytesRequiredLoop, if_neg zero]
        rw [step, step, induction _ smaller]

theorem bytesRequiredLoop_of_le {fuel value : Nat} (enough : value ≤ fuel) :
    bytesRequiredLoop fuel value = bytesRequired value := by
  induction fuel with
  | zero =>
      have zero : value = 0 := by omega
      subst zero
      rfl
  | succ fuel induction =>
      by_cases same : value = fuel + 1
      · rw [same, bytesRequired]
      · have smaller : value ≤ fuel := by omega
        rw [bytesRequiredLoop_enough fuel value smaller, induction smaller]

@[simp] theorem bytesRequired_zero : bytesRequired 0 = 0 := rfl

theorem bytesRequired_of_pos {value : Nat} (positive : 0 < value) :
    bytesRequired value = bytesRequired (value / 256) + 1 := by
  obtain ⟨fuel, rfl⟩ : ∃ fuel, value = fuel + 1 := ⟨value - 1, by omega⟩
  have smaller : (fuel + 1) / 256 ≤ fuel := by omega
  rw [bytesRequired, bytesRequiredLoop, if_neg (by omega),
    bytesRequiredLoop_of_le smaller]

/-- `bytesRequired` counts base-256 digits. -/
theorem bytesRequired_le_iff (value size : Nat) :
    bytesRequired value ≤ size ↔ value < 256 ^ size := by
  induction size generalizing value with
  | zero =>
      by_cases zero : value = 0
      · simp [zero]
      · rw [bytesRequired_of_pos (by omega)]
        simp
        omega
  | succ size induction =>
      by_cases zero : value = 0
      · simp [zero]
      · rw [bytesRequired_of_pos (by omega), Nat.succ_le_succ_iff, induction,
          Nat.div_lt_iff_lt_mul (by decide), Nat.pow_succ]

theorem lt_pow_bytesRequired (value : Nat) :
    value < 256 ^ bytesRequired value :=
  (bytesRequired_le_iff value _).mp (Nat.le_refl _)

theorem bytesRequired_pos {value : Nat} (positive : 0 < value) :
    0 < bytesRequired value := by
  rw [bytesRequired_of_pos positive]
  omega

@[simp] theorem length_toBigEndian (value size : Nat) :
    (toBigEndian value size).length = size := by
  induction size generalizing value with
  | zero => rfl
  | succ size induction => simp [toBigEndian, induction]

@[simp] theorem fromBigEndian_nil : fromBigEndian [] = 0 := rfl

theorem fromBigEndian_concat (content : Bytes) (byte : UInt8) :
    fromBigEndian (content ++ [byte]) =
      fromBigEndian content * 256 + byte.toNat := by
  simp [fromBigEndian]

theorem fromBigEndian_lt (content : Bytes) :
    fromBigEndian content < 256 ^ content.length := by
  induction content using List.reverseRecOn with
  | nil => simp
  | append_singleton content byte induction =>
      rw [fromBigEndian_concat]
      have byteBound : byte.toNat < 256 := byte.toNat_lt
      simp only [List.length_append, List.length_singleton, Nat.pow_succ]
      omega

theorem fromBigEndian_toBigEndian {value size : Nat}
    (fits : value < 256 ^ size) :
    fromBigEndian (toBigEndian value size) = value := by
  induction size generalizing value with
  | zero =>
      have zero : value = 0 := by simpa using fits
      simp [toBigEndian, zero]
  | succ size induction =>
      have smaller : value / 256 < 256 ^ size := by
        rw [Nat.div_lt_iff_lt_mul (by decide)]
        simpa [Nat.pow_succ] using fits
      rw [toBigEndian, fromBigEndian_concat, induction smaller]
      simp only [UInt8.toNat_ofNat']
      omega

theorem toBigEndian_fromBigEndian (content : Bytes) :
    toBigEndian (fromBigEndian content) content.length = content := by
  induction content using List.reverseRecOn with
  | nil => rfl
  | append_singleton content byte induction =>
      have byteBound : byte.toNat < 256 := byte.toNat_lt
      have quotient :
          (fromBigEndian content * 256 + byte.toNat) / 256 =
            fromBigEndian content := by omega
      have last :
          UInt8.ofNat (fromBigEndian content * 256 + byte.toNat) = byte := by
        apply UInt8.toNat_inj.mp
        simp only [UInt8.toNat_ofNat']
        omega
      simp only [List.length_append, List.length_singleton, toBigEndian,
        fromBigEndian_concat, quotient, induction, last]

/-- A nonzero leading byte makes a big-endian string the shortest one. -/
theorem bytesRequired_fromBigEndian {first : UInt8} {rest : Bytes}
    (nonzero : first ≠ 0) :
    bytesRequired (fromBigEndian (first :: rest)) = rest.length + 1 := by
  have positive : 0 < first.toNat := by
    have different : first.toNat ≠ 0 := by
      intro zero
      exact nonzero (UInt8.toNat_inj.mp zero)
    omega
  induction rest using List.reverseRecOn with
  | nil =>
      have bound : first.toNat < 256 := first.toNat_lt
      have value : fromBigEndian [first] = first.toNat := by
        simp [fromBigEndian]
      rw [value, bytesRequired_of_pos positive,
        Nat.div_eq_of_lt bound]
      rfl
  | append_singleton rest byte induction =>
      have byteBound : byte.toNat < 256 := byte.toNat_lt
      have inner : 0 < fromBigEndian (first :: rest) := by
        by_contra none
        have zero : fromBigEndian (first :: rest) = 0 := by omega
        rw [zero] at induction
        simp at induction
      have outer : fromBigEndian (first :: (rest ++ [byte])) =
          fromBigEndian (first :: rest) * 256 + byte.toNat := by
        rw [← List.cons_append, fromBigEndian_concat]
      have quotient :
          (fromBigEndian (first :: rest) * 256 + byte.toNat) / 256 =
            fromBigEndian (first :: rest) := by omega
      rw [outer, bytesRequired_of_pos (by omega), quotient, induction]
      simp

/-- The shortest representation of a positive number has no leading zero. -/
theorem toBigEndian_bytesRequired_cons {value : Nat} (positive : 0 < value) :
    ∃ first rest, toBigEndian value (bytesRequired value) = first :: rest ∧
      first ≠ 0 := by
  induction value using Nat.strong_induction_on with
  | h value induction =>
      rw [bytesRequired_of_pos positive, toBigEndian]
      by_cases single : value / 256 = 0
      · have small : value < 256 := by omega
        refine ⟨UInt8.ofNat value, [], by simp [single, toBigEndian], ?_⟩
        intro zero
        have toNat := congrArg UInt8.toNat zero
        simp only [UInt8.toNat_ofNat', UInt8.toNat_zero] at toNat
        omega
      · obtain ⟨first, rest, split, nonzero⟩ :=
          induction (value / 256) (by omega) (by omega)
        exact ⟨first, rest ++ [UInt8.ofNat value], by simp [split], nonzero⟩

end Aecmio

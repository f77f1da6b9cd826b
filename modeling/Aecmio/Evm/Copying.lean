import Aecmio.Evm.Memory

/-!
# Copies to memory

Call data, code and return data are buffers that stand for arrays of zeros
without an end.  The copying instructions replace a slice of memory by a
slice of such an array, whether the buffer is read by the interpreter or by
its host.
-/

namespace Aecmio

open Dialogues Interpreter Unbounded

namespace Interpreter

/-- The price of the bytes that are copied and of the memory. -/
def payCopy (rules : Rules) (offset size : U256) : VMProcess Unit := do
  setCopyMemSize size
  updateMem rules (← memNeed offset size)
  updateIOGas

/-- The instructions that copy to memory. -/
inductive CopyInstruction where
  | calldatacopy
  | codecopy
  | returndatacopy
  | extcodecopy
deriving DecidableEq

namespace CopyInstruction

def instruction : CopyInstruction → Instruction
  | calldatacopy => .calldatacopy
  | codecopy => .codecopy
  | returndatacopy => .returndatacopy
  | extcodecopy => .extcodecopy

/-- Where the offset in memory is on the stack; the index and the size follow
it. -/
def place : CopyInstruction → Nat
  | extcodecopy => 1
  | _ => 0

/-- What is paid for a copy. -/
def payment (rules : Rules) : CopyInstruction → VMProcess Unit
  | extcodecopy => do
      let machine ← get
      setRunGas rules.extcodecopyGas
      payCopy rules (machine.sp 1) (machine.sp 3)
  | calldatacopy | codecopy | returndatacopy => do
      let machine ← get
      payCopy rules (machine.sp 0) (machine.sp 2)

/-- The memory once a slice of a buffer is copied. -/
def imageAfter (machine : Machine) (source : Bytes) (op : CopyInstruction) :
    Nat → UInt8 :=
  overwrite machine.image (machine.sp op.place).toNat
    (slice (array 0 source) (machine.sp (op.place + 1)).toNat
      (machine.sp (op.place + 2)).toNat)

end CopyInstruction

/-- The machine after a copy from a buffer. -/
def LeavesCopy (machine : Machine) (op : CopyInstruction) (source : Bytes)
    (after : Machine) : Prop :=
  Leaves machine op.instruction.metric.args []
    (need (machine.sp op.place) (machine.sp (op.place + 2)))
    (op.imageAfter machine source) after

/-- An instruction that passes its gas check copies exactly the slice.  Return
data has to be as long as the access; the code of an account is as long as a
`size_t` can tell. -/
def CopiesExactly [Hashing] (variant : Variant) (program : Program)
    (op : CopyInstruction) (machine : Machine) : Prop :=
  Executes program machine op.instruction →
  ∀ paid, op.payment variant.rules
      (fetched variant.rules op.instruction machine) = .done (.ok () paid) →
    match op with
    | .calldatacopy => ∃ after,
        step variant program machine = .done (.ok .proceed after) ∧
        LeavesCopy machine op variant.ext.data after
    | .codecopy => ∃ after,
        step variant program machine = .done (.ok .proceed after) ∧
        LeavesCopy machine op variant.ext.code after
    | .returndatacopy => variant.rules.haveReturnData = true →
        (machine.sp 1).toNat + (machine.sp 2).toNat ≤
          machine.returnData.length →
        ∃ after, step variant program machine = .done (.ok .proceed after) ∧
          LeavesCopy machine op machine.returnData after
    | .extcodecopy => ∃ after : Bytes → Machine,
        step variant program machine =
          .ask (.codeAt (asAddress (machine.sp 0)))
            (fun code => .done (.ok .proceed (after code))) ∧
        ∀ code : Bytes, code.length < sizeTRange →
          LeavesCopy machine op code (after code)

/-- Return data is not read past its end. -/
def RefusesOverrun [Hashing] (variant : Variant) (program : Program)
    (machine : Machine) : Prop :=
  Executes program machine .returndatacopy →
  variant.rules.haveReturnData = true →
  machine.returnData.length <
    (machine.sp 1).toNat + (machine.sp 2).toNat →
  step variant program machine = .done (.error
    (.bufferOverrun ((machine.sp 1).toNat + (machine.sp 2).toNat)
      machine.returnData.length)
    (fetched variant.rules .returndatacopy machine))

/-- `CALLDATALOAD` pushes a slice of 32 bytes. -/
def LoadsExactly [Hashing] (variant : Variant) (program : Program)
    (machine : Machine) : Prop :=
  Executes program machine (.operation .calldataload) →
  variant.rules.stepGas .veryLow ≤ machine.gas →
  step variant program machine = .done (.ok .proceed (pushed machine
    (variant.rules.stepGas .veryLow) 1
    (wordOfBytes (slice (array 0 variant.ext.data)
      (machine.sp 0).toNat 32))))

variable {machine paid : Machine} {rules : Rules}

theorem wordOfBytes_zeros : wordOfBytes (List.replicate 32 0) = 0 := by
  decide

theorem calldataload_eq (data : Bytes) (offset : U256) :
    calldataload data offset =
      wordOfBytes (slice (array 0 data) offset.toNat 32) := by
  simp only [calldataload]
  split
  · rename_i inside
    rw [slice_inside (by omega)]
  · split
    · rename_i past
      rw [slice_array, List.drop_eq_nil_of_le past,
        Nat.sub_eq_zero_of_le past]
      exact wordOfBytes_zeros.symm
    · rfl

theorem loads_exactly [Hashing] (variant : Variant) (program : Program)
    (machine : Machine) : LoadsExactly variant program machine := by
  intro executes enough
  refine (step_of_executes executes).trans ?_
  refine (operation_ok rfl enough).trans ?_
  rw [← calldataload_eq]
  rfl

/-! ## What is copied -/

/-- What `copyDataToMemory` writes: the part of the data that there is, and
zeros. -/
theorem copied_eq (data : Bytes) (index : Nat) (size : Nat) :
    (data.drop index).take (if data.length < index + size then
        if data.length < index then 0 else data.length - index
      else size) ++
      List.replicate (size - if data.length < index + size then
        if data.length < index then 0 else data.length - index
      else size) 0 = slice (array 0 data) index size := by
  refine (slice_copied ?_).symm
  split
  · split <;> omega
  · omega

/-- The index as the source has it, in 64 bits; it is only used where it
fits. -/
def copiedBytes (data : Bytes) (bigIndex sizeWord : U256) : Bytes :=
  let index := toUInt64 bigIndex
  let size := toUInt64 sizeWord
  let sizeToBeCopied :=
    if data.length < bigIndex.toNat + size then
      if data.length < bigIndex.toNat then 0 else data.length - index
    else size
  (data.drop index).take sizeToBeCopied ++
    List.replicate (size - sizeToBeCopied) 0

theorem copiedBytes_eq {data : Bytes} (small : data.length < sizeTRange)
    (bigIndex sizeWord : U256) :
    copiedBytes data bigIndex sizeWord =
      slice (array 0 data) bigIndex.toNat (toUInt64 sizeWord) := by
  rw [← copied_eq, copiedBytes]
  rcases Nat.lt_or_ge data.length bigIndex.toNat with past | within
  · have beyond : data.length < bigIndex.toNat + toUInt64 sizeWord := by omega
    simp only [if_pos past, if_pos beyond, List.take_zero]
  · rw [sizeTRange] at small
    have index : toUInt64 bigIndex = bigIndex.toNat :=
      Nat.mod_eq_of_lt (by omega)
    simp only [index]

/-- `copyDataToMemory` writes a slice of the array of its data. -/
theorem copyDataToMemory_slice (data : Bytes) (position : Nat) :
    copyDataToMemory data position = modify fun machine =>
      machine.writeMem (toUInt64 (machine.sp position))
        (slice (array 0 data) (machine.sp (position + 1)).toNat
          (toUInt64 (machine.sp (position + 2)))) := by
  unfold copyDataToMemory
  refine congrArg modify (funext fun machine => ?_)
  rw [← copied_eq]

/-- It is what the source writes. -/
theorem copyDataToMemory_eq {data : Bytes} (position : Nat)
    (small : data.length < sizeTRange) :
    copyDataToMemory data position = modify fun machine =>
      machine.writeMem (toUInt64 (machine.sp position))
        (copiedBytes data (machine.sp (position + 1))
          (machine.sp (position + 2))) := by
  simp only [copyDataToMemory_slice, copiedBytes_eq small]

/-- The code from `codeOffset` on that the host copies, and the zeros that
the interpreter fills in. -/
theorem filled_eq (code : Bytes) (codeOffset size : Nat) :
    VM.copyCode code codeOffset size ++
      List.replicate (size - (VM.copyCode code codeOffset size).length) 0 =
        slice (array 0 code) codeOffset size := by
  unfold VM.copyCode
  split
  · rename_i past
    rw [slice_array, List.drop_eq_nil_of_le past, Nat.sub_eq_zero_of_le past,
      List.take_nil]
    rfl
  · rename_i within
    have length : ((code.drop codeOffset).take
        (min (code.length - codeOffset) size)).length =
          min (code.length - codeOffset) size := by
      rw [List.length_take, List.length_drop]
      omega
    rw [length]
    refine (slice_copied ?_).symm
    omega

/-- The clamped offset is past the code if the index is. -/
theorem slice_clamped {code : Bytes} (small : code.length < sizeTRange)
    (index : U256) (size : Nat) :
    slice (array 0 code) (if sizeTRange - 1 < index.toNat then sizeTRange - 1
        else toUInt64 index) size =
      slice (array 0 code) index.toNat size := by
  rw [sizeTRange] at small ⊢
  split
  · have clamped : code.length ≤ 2 ^ 64 - 1 := by omega
    have past : code.length ≤ index.toNat := by omega
    rw [slice_array, slice_array, List.drop_eq_nil_of_le clamped,
      List.drop_eq_nil_of_le past, Nat.sub_eq_zero_of_le clamped,
      Nat.sub_eq_zero_of_le past]
  · have kept : toUInt64 index = index.toNat := Nat.mod_eq_of_lt (by omega)
    rw [kept]

/-! ## The copying instructions -/

theorem writeMem_nil (machine : Machine) (offset : Nat) :
    machine.writeMem offset [] = machine := by
  simp [Machine.writeMem]

/-- A slice that is written where it was paid for. -/
theorem Paid.leaves_slice {offset size : U256}
    (payment : Paid machine (need offset size) paid)
    (fits : need offset size < 2 ^ 63) {data : Bytes}
    (length : data.length = size.toNat) (args : Nat) :
    Leaves machine args [] (need offset size)
      (overwrite machine.image offset.toNat data)
      ((paid.writeMem (toUInt64 offset) data).finish args [] 1) := by
  by_cases empty : size = 0
  · have nothing : data = [] := by
      rw [empty] at length
      exact List.eq_nil_of_length_eq_zero length
    rw [nothing, writeMem_nil, overwrite_nil]
    exact payment.leaves args []
  · have extent : need offset size = offset.toNat + size.toNat := if_neg empty
    have kept : toUInt64 offset = offset.toNat := by
      rw [extent] at fits
      exact Nat.mod_eq_of_lt (by omega)
    rw [kept]
    refine payment.leaves_written ?_ args
    rw [length, extent]

/-- What a payment for a copy comes to. -/
structure PaidCopy (machine : Machine) (offset size : U256) (paid : Machine) :
    Prop where
  payment : Paid machine (need offset size) paid
  fits : need offset size < 2 ^ 63
  copyMemSize : paid.copyMemSize = size.toNat
  small : size.toNat < 2 ^ 63

theorem paid_of_payCopy {offset size : U256}
    (ran : payCopy rules offset size machine = .done (.ok () paid)) :
    PaidCopy machine offset size paid := by
  have ensures : Process.Ensures (fun _ _ => True) (payCopy rules offset size)
      machine fun _ result => ∀ paid, result = .ok () paid →
        PaidCopy machine offset size paid := by
    simp only [payCopy, setCopyMemSize, bind_assoc]
    refine ensures_toInt63 (by simp) fun small => ?_
    refine Process.ensures_modify_bind.mpr ?_
    rw [← bind_pure updateIOGas]
    refine ensures_paySlice (by simp) fun paid payment same fits => ?_
    rw [Process.ensures_pure]
    intro other equal
    cases equal
    exact ⟨⟨payment.pc, payment.stack, payment.mem, payment.returnData⟩, fits,
      same, small⟩
  exact of_ensures_done ensures ran paid rfl

theorem paid_of_copy {op : CopyInstruction}
    (ran : op.payment rules (fetched rules op.instruction machine) =
      .done (.ok () paid)) :
    PaidCopy machine (machine.sp op.place) (machine.sp (op.place + 2))
      paid := by
  have moved : ∀ start : Machine, start.pc = machine.pc →
      start.stack = machine.stack → start.mem = machine.mem →
      start.returnData = machine.returnData →
      payCopy rules (machine.sp op.place) (machine.sp (op.place + 2)) start =
        .done (.ok () paid) →
      PaidCopy machine (machine.sp op.place) (machine.sp (op.place + 2))
        paid := by
    intro start pc stack mem returnData ran
    have copy := paid_of_payCopy ran
    refine ⟨⟨copy.payment.pc.trans pc, copy.payment.stack.trans stack, ?_,
      copy.payment.returnData.trans returnData⟩, copy.fits, copy.copyMemSize,
      copy.small⟩
    rw [copy.payment.mem, mem]
  cases op with
  | extcodecopy =>
      exact moved { fetched rules .extcodecopy machine with
        runGas := rules.extcodecopyGas } rfl rfl rfl rfl ran
  | calldatacopy =>
      exact moved (fetched rules .calldatacopy machine) rfl rfl rfl rfl ran
  | codecopy =>
      exact moved (fetched rules .codecopy machine) rfl rfl rfl rfl ran
  | returndatacopy =>
      exact moved (fetched rules .returndatacopy machine) rfl rfl rfl rfl ran

/-- The rest of a copy by the interpreter. -/
theorem leaves_copied {op : CopyInstruction}
    (copy : PaidCopy machine (machine.sp op.place)
      (machine.sp (op.place + 2)) paid) (source : Bytes) :
    ∃ after, (copyDataToMemory source op.place >>= fun _ =>
        next op.instruction.metric.args []) paid =
          .done (.ok .proceed after) ∧
      LeavesCopy machine op source after := by
  have size : toUInt64 (machine.sp (op.place + 2)) =
      (machine.sp (op.place + 2)).toNat :=
    Nat.mod_eq_of_lt (Nat.lt_of_lt_of_le copy.small (by decide))
  have leaves := copy.payment.leaves_slice copy.fits
    (length_slice (array 0 source) (machine.sp (op.place + 1)).toNat
      (machine.sp (op.place + 2)).toNat) op.instruction.metric.args
  have ran : (copyDataToMemory source op.place >>= fun _ =>
      next op.instruction.metric.args []) paid =
      .done (.ok .proceed ((paid.writeMem (toUInt64 (paid.sp op.place))
        (slice (array 0 source) (paid.sp (op.place + 1)).toNat
          (toUInt64 (paid.sp (op.place + 2))))).finish
            op.instruction.metric.args [] 1)) := by
    rw [copyDataToMemory_slice]
    rfl
  rw [copy.payment.sp, copy.payment.sp, copy.payment.sp, size] at ran
  exact ⟨_, ran, leaves⟩

/-- A copy from a buffer of the interpreter pays first. -/
theorem copyTo_pays (rules : Rules) (data : Bytes) :
    copyTo rules data =
      (CopyInstruction.calldatacopy.payment rules >>= fun _ =>
        copyDataToMemory data 0 >>= fun _ => next 3 []) := by
  simp only [copyTo, CopyInstruction.payment, payCopy, bind_assoc]

theorem caseReturndatacopy_ok {rules : Rules} {machine : Machine}
    (known : rules.haveReturnData = true)
    (inside : (machine.sp 1).toNat + (machine.sp 2).toNat ≤
      machine.returnData.length) :
    caseReturndatacopy rules machine =
      copyTo rules machine.returnData machine := by
  have unfolded : caseReturndatacopy rules machine =
      (if !rules.haveReturnData then throw .badInstruction
      else if machine.returnData.length <
          (machine.sp 1).toNat + (machine.sp 2).toNat then
        throw (.bufferOverrun ((machine.sp 1).toNat + (machine.sp 2).toNat)
          machine.returnData.length)
      else copyTo rules machine.returnData : VMProcess Flow) machine := rfl
  rw [unfolded, known, if_neg (by decide), if_neg (by omega)]

theorem refuses_overrun [Hashing] (variant : Variant) (program : Program)
    (machine : Machine) : RefusesOverrun variant program machine := by
  intro executes known past
  have unfolded : caseReturndatacopy variant.rules
      (fetched variant.rules .returndatacopy machine) =
      (if !variant.rules.haveReturnData then throw .badInstruction
      else if machine.returnData.length <
          (machine.sp 1).toNat + (machine.sp 2).toNat then
        throw (.bufferOverrun ((machine.sp 1).toNat + (machine.sp 2).toNat)
          machine.returnData.length)
      else copyTo variant.rules machine.returnData : VMProcess Flow)
        (fetched variant.rules .returndatacopy machine) := rfl
  refine (step_of_executes executes).trans (unfolded.trans ?_)
  rw [known, if_neg (by decide), if_pos past]
  rfl

/-- `EXTCODECOPY` of `LegacyVM`. -/
theorem LegacyVM.caseExtcodecopy_ok {ext : ExtVMFace}
    (passes : CopyInstruction.extcodecopy.payment
      (LegacyVM.rules ext.evmSchedule)
      (fetched (LegacyVM.rules ext.evmSchedule) .extcodecopy machine) =
        .done (.ok () paid))
    (copy : PaidCopy machine (machine.sp 1) (machine.sp 3) paid) :
    ∃ after : Bytes → Machine,
      LegacyVM.caseExtcodecopy ext
          (fetched (LegacyVM.rules ext.evmSchedule) .extcodecopy machine) =
        .ask (.codeAt (asAddress (machine.sp 0)))
          (fun code => .done (.ok .proceed (after code))) ∧
      ∀ code : Bytes, code.length < sizeTRange →
        LeavesCopy machine .extcodecopy code (after code) := by
  have paysFirst : LegacyVM.caseExtcodecopy ext
      (fetched (LegacyVM.rules ext.evmSchedule) .extcodecopy machine) =
      (CopyInstruction.extcodecopy.payment (LegacyVM.rules ext.evmSchedule) >>=
        fun _ => ask (.codeAt (asAddress (machine.sp 0))) >>= fun code =>
          copyDataToMemory code 1 >>= fun _ => next 4 [])
        (fetched (LegacyVM.rules ext.evmSchedule) .extcodecopy machine) := by
    simp only [LegacyVM.caseExtcodecopy, CopyInstruction.payment, payCopy,
      bind_assoc, Process.get_bind_apply, fetched_sp, LegacyVM.rules]
  choose after ran leaves using
    @leaves_copied machine paid .extcodecopy copy
  refine ⟨after, ?_, fun code _ => leaves code⟩
  refine (paysFirst.trans (Process.bind_of_ok passes)).trans ?_
  refine congrArg (Dialogue.ask (I := ExtVMFace.interface) _) ?_
  exact funext ran

theorem VM.caseExtcodecopy_ok {rev : Revision}
    (passes : CopyInstruction.extcodecopy.payment (VM.rules rev)
      (fetched (VM.rules rev) .extcodecopy machine) = .done (.ok () paid))
    (copy : PaidCopy machine (machine.sp 1) (machine.sp 3) paid) :
    ∃ after : Bytes → Machine,
      VM.caseExtcodecopy rev (fetched (VM.rules rev) .extcodecopy machine) =
        .ask (.codeAt (asAddress (machine.sp 0)))
          (fun code => .done (.ok .proceed (after code))) ∧
      ∀ code : Bytes, code.length < sizeTRange →
        LeavesCopy machine .extcodecopy code (after code) := by
  have paysFirst : VM.caseExtcodecopy rev
      (fetched (VM.rules rev) .extcodecopy machine) =
      (CopyInstruction.extcodecopy.payment (VM.rules rev) >>= fun _ => do
        let memoryOffset := toUInt64 (machine.sp 1)
        let codeOffset :=
          if sizeTRange - 1 < (machine.sp 2).toNat then sizeTRange - 1
          else toUInt64 (machine.sp 2)
        let size := (← get).copyMemSize
        let code ← ask (.codeAt (asAddress (machine.sp 0)))
        let copied := VM.copyCode code codeOffset size
        modify fun machine => machine.writeMem memoryOffset
          (copied ++ List.replicate (size - copied.length) 0)
        next 4 []) (fetched (VM.rules rev) .extcodecopy machine) := by
    simp only [VM.caseExtcodecopy, CopyInstruction.payment, payCopy,
      bind_assoc, Process.get_bind_apply, fetched_sp]
    rfl
  have filled : ∀ code : Bytes, code.length < sizeTRange →
      VM.copyCode code (if sizeTRange - 1 < (machine.sp 2).toNat then
          sizeTRange - 1 else toUInt64 (machine.sp 2)) paid.copyMemSize ++
        List.replicate (paid.copyMemSize - (VM.copyCode code
          (if sizeTRange - 1 < (machine.sp 2).toNat then sizeTRange - 1
          else toUInt64 (machine.sp 2)) paid.copyMemSize).length) 0 =
      slice (array 0 code) (machine.sp 2).toNat (machine.sp 3).toNat := by
    intro code small
    rw [filled_eq, slice_clamped small, copy.copyMemSize]
  refine ⟨_, paysFirst.trans (Process.bind_of_ok passes), fun code small => ?_⟩
  rw [filled code small]
  exact copy.payment.leaves_slice copy.fits (length_slice _ _ _) 4

/-- The cases of the two interpreters for a copy, once it is paid for. -/
theorem copies_exactly [Hashing] {ext : ExtVMFace} (kind : VMKind)
    (optimized : Bool) (program : Program) (op : CopyInstruction)
    (machine : Machine) :
    CopiesExactly (kind.variant ext optimized) program op machine := by
  intro executes paid passes
  have copy := paid_of_copy passes
  have dispatched := @step_of_executes _ (kind.variant ext optimized) program
    machine _ executes
  cases op with
  | calldatacopy =>
      obtain ⟨after, ran, leaves⟩ :=
        leaves_copied copy (kind.variant ext optimized).ext.data
      refine ⟨after, dispatched.trans ?_, leaves⟩
      refine (congrFun (copyTo_pays _ _) _).trans ?_
      exact (Process.bind_of_ok passes).trans ran
  | codecopy =>
      obtain ⟨after, ran, leaves⟩ :=
        leaves_copied copy (kind.variant ext optimized).ext.code
      refine ⟨after, dispatched.trans ?_, leaves⟩
      refine (congrFun (copyTo_pays _ _) _).trans ?_
      exact (Process.bind_of_ok passes).trans ran
  | returndatacopy =>
      intro known inside
      obtain ⟨after, ran, leaves⟩ := leaves_copied copy machine.returnData
      refine ⟨after, dispatched.trans ?_, leaves⟩
      refine (@caseReturndatacopy_ok _ (fetched _ _ machine) known
        inside).trans ?_
      refine (congrFun (copyTo_pays _ _) _).trans ?_
      exact (Process.bind_of_ok passes).trans ran
  | extcodecopy =>
      cases kind with
      | interpreter =>
          obtain ⟨after, ran, leaves⟩ := VM.caseExtcodecopy_ok passes copy
          exact ⟨after, dispatched.trans ran, leaves⟩
      | legacy =>
          obtain ⟨after, ran, leaves⟩ :=
            LegacyVM.caseExtcodecopy_ok passes copy
          exact ⟨after, dispatched.trans ran, leaves⟩

end Interpreter

/-- In both interpreters, for every program, every memory and all operands, a
copy that passes its gas check replaces exactly the slice of memory by the
slice of the zero-extended source, `RETURNDATACOPY` fails past the end of its
buffer, and `CALLDATALOAD` pushes the slice of 32 bytes. -/
theorem slices_copied [Hashing] (kind : VMKind) (ext : ExtVMFace)
    (optimized : Bool) (program : Program) (machine : Machine) :
    (∀ op, CopiesExactly (kind.variant ext optimized) program op machine) ∧
    RefusesOverrun (kind.variant ext optimized) program machine ∧
    LoadsExactly (kind.variant ext optimized) program machine :=
  ⟨fun op => copies_exactly kind optimized program op machine,
    refuses_overrun _ program machine, loads_exactly _ program machine⟩

/-- Three bytes of call data, copied from the second one on. -/
def calldataSample : ExtVMFace :=
  { frameSample .byzantium [0x37] with data := [1, 2, 3] }

theorem slices_copied_sample : ∃ after,
    @step frameSampleHashing
        (VMKind.interpreter.variant calldataSample false) ⟨[0x37], [], []⟩
        { stack := [30, 1, 4], gas := 100 } = .done (.ok .proceed after) ∧
      after.mem.length = 64 ∧ slice after.image 30 4 = [2, 3, 0, 0] := by
  have executes : Executes ⟨[0x37], [], []⟩
      { stack := [30, 1, 4], gas := 100 }
      CopyInstruction.calldatacopy.instruction :=
    ⟨rfl, by decide, by decide⟩
  obtain ⟨paid, passes⟩ : ∃ paid,
      CopyInstruction.calldatacopy.payment (VM.rules .byzantium)
        (fetched (VM.rules .byzantium) .calldatacopy
          { stack := [30, 1, 4], gas := 100 }) = .done (.ok () paid) :=
    ⟨_, rfl⟩
  obtain ⟨after, ran, leaves⟩ := (@slices_copied frameSampleHashing
    .interpreter calldataSample false ⟨[0x37], [], []⟩
    { stack := [30, 1, 4], gas := 100 }).1 .calldatacopy executes paid passes
  refine ⟨after, ran, leaves.size, ?_⟩
  rw [leaves.image]
  decide

end Aecmio

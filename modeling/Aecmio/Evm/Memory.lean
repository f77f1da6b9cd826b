import Aecmio.Evm.Running
import Aecmio.Evm.VM
import Aecmio.Logic.Unbounded

/-!
# Memory

The memory of a frame is an array of bytes without an end, of which the
machine keeps a front that grows in steps of 32 bytes.  `MLOAD`, `MSTORE`
and `MSTORE8` pay for the offset on the stack and then convert it to 32
bits; `SHA3`, the logs, `RETURN` and `REVERT` use the slice they pay for.
-/

namespace Aecmio

open Dialogues Interpreter Unbounded

/-- The memory as an array without an end. -/
def Machine.image (machine : Machine) : Nat → UInt8 := array 0 machine.mem

namespace Interpreter

/-- The machine after an instruction that replaces its arguments and lets the
memory reach `need` bytes. -/
structure Leaves (machine : Machine) (args : Nat) (results : List U256)
    (need : Nat) (image : Nat → UInt8) (after : Machine) : Prop where
  pc : after.pc = machine.pc + 1
  stack : after.stack = results ++ machine.stack.drop args
  size : after.mem.length = max machine.mem.length (inSteps need)
  image : after.image = image
  returnData : after.returnData = machine.returnData

/-! ## Words and bytes of memory -/

/-- The instructions that access memory at one offset. -/
inductive WordAccess where
  | mload
  | mstore
  | mstore8
deriving DecidableEq

namespace WordAccess

def instruction : WordAccess → Instruction
  | mload => .mload
  | mstore => .mstore
  | mstore8 => .mstore8

/-- The number of bytes that are accessed. -/
def size : WordAccess → Nat
  | mload | mstore => 32
  | mstore8 => 1

/-- The word that is loaded from an address. -/
def results (machine : Machine) (address : Nat) : WordAccess → List U256
  | mload => [wordOfBytes (slice machine.image address 32)]
  | mstore | mstore8 => []

/-- The memory once the access is made at an address. -/
def imageAfter (machine : Machine) (address : Nat) :
    WordAccess → Nat → UInt8
  | mload => machine.image
  | mstore => overwrite machine.image address (h256OfWord (machine.sp 1)).val
  | mstore8 => overwrite machine.image address
      [UInt8.ofNat (machine.sp 1).toNat]

end WordAccess

/-- An access that passes its gas check is made at the offset on the
stack. -/
def AccessesExactly [Hashing] (variant : Variant) (program : Program)
    (access : WordAccess) (machine : Machine) : Prop :=
  Executes program machine access.instruction →
  ∀ paid, touchMem variant.rules access.size
      (fetched variant.rules access.instruction machine) =
        .done (.ok () paid) →
    ∃ after, step variant program machine = .done (.ok .proceed after) ∧
      Leaves machine access.instruction.metric.args
        (access.results machine (machine.sp 0).toNat)
        ((machine.sp 0).toNat + access.size)
        (access.imageAfter machine (machine.sp 0).toNat) after

variable {machine paid : Machine} {rules : Rules}

theorem Paid.image {newMem : Nat} (payment : Paid machine newMem paid) :
    paid.image = machine.image := by
  rw [Machine.image, payment.mem]
  exact array_append_blanks machine.mem _

theorem Paid.slice {newMem offset size : Nat}
    (payment : Paid machine newMem paid) (covered : offset + size ≤ newMem) :
    paid.slice offset size = Unbounded.slice machine.image offset size := by
  have length := payment.length
  have steps := le_inSteps newMem
  rw [← payment.image]
  exact (slice_inside (by omega)).symm

/-- Bytes that are written inside what was paid for. -/
theorem Paid.writeMem {newMem offset : Nat} {data : Bytes}
    (payment : Paid machine newMem paid)
    (covered : offset + data.length ≤ newMem) :
    (paid.writeMem offset data).image =
      overwrite machine.image offset data := by
  have length := payment.length
  have steps := le_inSteps newMem
  have whole : data.take (paid.mem.length - offset) = data :=
    List.take_of_length_le (by omega)
  rw [← payment.image, Machine.image, Machine.writeMem, whole]
  exact array_overwritten (by omega)

theorem Paid.sp {newMem : Nat} (payment : Paid machine newMem paid)
    (position : Nat) : paid.sp position = machine.sp position := by
  rw [Machine.sp, payment.stack]
  rfl

theorem Paid.leaves {need : Nat} (payment : Paid machine need paid)
    (args : Nat) (results : List U256) :
    Leaves machine args results need machine.image
      (paid.finish args results 1) := by
  refine ⟨?_, ?_, payment.length, payment.image, payment.returnData⟩
  · rw [Machine.finish, payment.pc]
  · rw [Machine.finish, payment.stack]

theorem Paid.leaves_written {need offset : Nat} {data : Bytes}
    (payment : Paid machine need paid)
    (covered : offset + data.length ≤ need) (args : Nat) :
    Leaves machine args [] need (overwrite machine.image offset data)
      ((paid.writeMem offset data).finish args [] 1) := by
  refine ⟨?_, ?_, ?_, payment.writeMem covered, payment.returnData⟩
  · exact congrArg (· + 1) payment.pc
  · exact congrArg (List.drop args) payment.stack
  · exact (paid.length_writeMem offset data).trans payment.length

theorem paid_of_touchMem {size : Nat} (small : size ≤ 32)
    (ran : touchMem rules size machine = .done (.ok () paid)) :
    Paid machine ((machine.sp 0).toNat + size) paid := by
  have ensures : Process.Ensures (fun _ _ => True) (touchMem rules size)
      machine fun _ result => ∀ paid, result = .ok () paid →
        Paid machine ((machine.sp 0).toNat + size) paid := by
    refine Process.ensures_get_bind.mpr ?_
    refine ensures_toInt63 (by simp) fun fits => ?_
    rw [← bind_pure (updateIOGas)]
    refine ensures_payMem_frame (by omega) (by simp) fun paid payment _ => ?_
    rw [Process.ensures_pure]
    intro other same
    cases same
    exact payment
  exact of_ensures_done ensures ran paid rfl

/-- What an access does: it pays for the offset and takes the low 32 bits of
it for the address. -/
theorem step_access [Hashing] {variant : Variant} {program : Program}
    {access : WordAccess}
    (executes : Executes program machine access.instruction)
    (passes : touchMem variant.rules access.size
      (fetched variant.rules access.instruction machine) =
        .done (.ok () paid)) :
    ∃ after, step variant program machine = .done (.ok .proceed after) ∧
      Leaves machine access.instruction.metric.args
        (access.results machine (unsignedOffset (machine.sp 0)))
        ((machine.sp 0).toNat + access.size)
        (access.imageAfter machine (unsignedOffset (machine.sp 0))) after := by
  have low : unsignedOffset (machine.sp 0) ≤ (machine.sp 0).toNat :=
    Nat.mod_le _ _
  have small : access.size ≤ 32 := by cases access <;> decide
  have payment := (paid_of_touchMem small passes).unfetched
  change Paid machine ((machine.sp 0).toNat + access.size) paid at payment
  have dispatched := @step_of_executes _ variant program machine _ executes
  cases access with
  | mload =>
      have ran : step variant program machine =
          .done (.ok .proceed (paid.finish 1 [wordOfBytes
            (paid.slice (unsignedOffset (paid.sp 0)) 32)] 1)) :=
        dispatched.trans (Process.bind_of_ok passes)
      have word := payment.slice (Nat.add_le_add_right low 32)
      rw [payment.sp, word] at ran
      exact ⟨_, ran, payment.leaves 1 _⟩
  | mstore =>
      have ran : step variant program machine =
          .done (.ok .proceed ((paid.writeMem (unsignedOffset (paid.sp 0))
            (h256OfWord (paid.sp 1)).val).finish 2 [] 1)) :=
        dispatched.trans (Process.bind_of_ok passes)
      rw [payment.sp, payment.sp] at ran
      refine ⟨_, ran, payment.leaves_written ?_ 2⟩
      rw [(h256OfWord (machine.sp 1)).property]
      exact Nat.add_le_add_right low 32
  | mstore8 =>
      have ran : step variant program machine =
          .done (.ok .proceed ((paid.writeMem (unsignedOffset (paid.sp 0))
            [UInt8.ofNat (paid.sp 1).toNat]).finish 2 [] 1)) :=
        dispatched.trans (Process.bind_of_ok passes)
      rw [payment.sp, payment.sp] at ran
      exact ⟨_, ran, payment.leaves_written (Nat.add_le_add_right low 1) 2⟩

/-! ## Slices of memory -/

/-- The instructions that use a slice of memory. -/
inductive SliceUse where
  | sha3
  | log (topics : Fin 5)
  | return_
  | revert
deriving DecidableEq

namespace SliceUse

def instruction : SliceUse → Instruction
  | sha3 => .sha3
  | log topics => .log topics
  | return_ => .return_
  | revert => .revert

/-- The instruction is not refused before it is paid for. -/
def allowed (variant : Variant) : SliceUse → Prop
  | sha3 | return_ => True
  | log _ => variant.ext.staticCall = false
  | revert => variant.rules.haveRevert = true

/-- What is paid for the slice. -/
def payment (rules : Rules) : SliceUse → VMProcess Unit
  | sha3 => do
      let machine ← get
      setRunGas (← toInt63 (rules.sha3Gas +
        ((machine.sp 1).toNat + 31) / 32 * rules.sha3WordGas))
      updateMem rules (← memNeed (machine.sp 0) (machine.sp 1))
      updateIOGas
  | log topics => do
      logGasMem rules topics
      updateIOGas
  | return_ | revert => do
      let machine ← get
      modify fun machine => { machine with copyMemSize := 0 }
      updateMem rules (← memNeed (machine.sp 0) (machine.sp 1))
      updateIOGas

end SliceUse

/-- The memory that a slice needs; none for an empty one. -/
def need (offset size : U256) : Nat :=
  if size = 0 then 0 else offset.toNat + size.toNat

/-- An instruction that passes its gas check uses the slice of the offset and
the size on the stack, and leaves the memory as it is. -/
def UsesExactly [Hashing] (variant : Variant) (program : Program)
    (use : SliceUse) (machine : Machine) : Prop :=
  Executes program machine use.instruction → use.allowed variant →
  ∀ paid, use.payment variant.rules
      (fetched variant.rules use.instruction machine) =
        .done (.ok () paid) →
    let used := slice machine.image (machine.sp 0).toNat (machine.sp 1).toNat
    let extent := need (machine.sp 0) (machine.sp 1)
    match use with
    | .sha3 => ∃ after,
        step variant program machine = .done (.ok .proceed after) ∧
        Leaves machine 2 [wordOfBytes (sha3 used).val] extent machine.image
          after
    | .log topics => ∃ after,
        step variant program machine = .ask (.log ((List.range topics).map
            fun i => h256OfWord (machine.sp (i + 2))) used)
          (fun _ => .done (.ok .proceed after)) ∧
        Leaves machine (topics + 2) [] extent machine.image after
    | .return_ =>
        step variant program machine = .done (.ok (.halt used) paid)
    | .revert => step variant program machine =
        .done (.error (.revertInstruction used) paid)

/-- A payment for a slice lets the memory reach its end, and both ends fit in
63 bits unless the slice is empty. -/
theorem ensures_paySlice {α : Type} {offset size : U256}
    {allowed : (question : ExtVMFace.Question) →
      ExtVMFace.Answer question → Prop}
    {post : List (Dialogue.Exchange ExtVMFace.interface) →
      EStateM.Result VMException Machine α → Prop}
    {next : Unit → VMProcess α}
    (fails : ∀ failed, post [] (.error .outOfGas failed))
    (pays : ∀ paid, Paid machine (need offset size) paid →
      paid.copyMemSize = machine.copyMemSize → need offset size < 2 ^ 63 →
      Process.Ensures allowed (next ()) paid post) :
    Process.Ensures allowed (memNeed offset size >>= fun newMem =>
      updateMem rules newMem >>= fun _ => updateIOGas >>= next) machine
      post := by
  refine ensures_toInt63 (fails _) fun fits => ?_
  refine ensures_payMem_frame (by omega) fails fun paid payment same => ?_
  exact pays paid payment same fits

theorem slice_of_need {offset size : U256}
    (payment : Paid machine (need offset size) paid)
    (fits : need offset size < 2 ^ 63) :
    paid.slice (toUInt64 offset) (toUInt64 size) =
      slice machine.image offset.toNat size.toNat := by
  by_cases empty : size = 0
  · subst empty
    rfl
  · have extent : need offset size = offset.toNat + size.toNat := if_neg empty
    rw [extent] at fits
    have offsetKept : toUInt64 offset = offset.toNat :=
      Nat.mod_eq_of_lt (by omega)
    have sizeKept : toUInt64 size = size.toNat := Nat.mod_eq_of_lt (by omega)
    rw [offsetKept, sizeKept]
    exact payment.slice (Nat.le_of_eq extent.symm)

/-- What a payment for a slice comes to. -/
theorem paid_of_use {use : SliceUse}
    (ran : use.payment rules machine = .done (.ok () paid)) :
    Paid machine (need (machine.sp 0) (machine.sp 1)) paid ∧
      need (machine.sp 0) (machine.sp 1) < 2 ^ 63 := by
  have ensures : Process.Ensures (fun _ _ => True) (use.payment rules) machine
      fun _ result => ∀ paid, result = .ok () paid →
        Paid machine (need (machine.sp 0) (machine.sp 1)) paid ∧
          need (machine.sp 0) (machine.sp 1) < 2 ^ 63 := by
    have pays : ∀ start : Machine, start.pc = machine.pc →
        start.stack = machine.stack → start.mem = machine.mem →
        start.returnData = machine.returnData →
        Process.Ensures (fun _ _ => True)
          (memNeed (machine.sp 0) (machine.sp 1) >>= fun newMem =>
            updateMem rules newMem >>= fun _ => updateIOGas) start
          fun _ result => ∀ paid, result = .ok () paid →
            Paid machine (need (machine.sp 0) (machine.sp 1)) paid ∧
              need (machine.sp 0) (machine.sp 1) < 2 ^ 63 := by
      intro start pc stack mem returnData
      rw [← bind_pure updateIOGas]
      refine ensures_paySlice (by simp) fun paid payment _ fits => ?_
      rw [Process.ensures_pure]
      intro other same
      cases same
      refine ⟨⟨payment.pc.trans pc, payment.stack.trans stack, ?_,
        payment.returnData.trans returnData⟩, fits⟩
      rw [payment.mem, mem]
    cases use with
    | sha3 =>
        refine Process.ensures_get_bind.mpr ?_
        refine ensures_toInt63 (by simp) fun _ => ?_
        refine Process.ensures_modify_bind.mpr ?_
        exact pays _ rfl rfl rfl rfl
    | log topics =>
        simp only [SliceUse.payment, logGasMem, bind_assoc]
        refine Process.ensures_get_bind.mpr ?_
        refine ensures_toInt63 (by simp) fun _ => ?_
        refine Process.ensures_modify_bind.mpr ?_
        exact pays _ rfl rfl rfl rfl
    | return_ =>
        refine Process.ensures_get_bind.mpr ?_
        refine Process.ensures_modify_bind.mpr ?_
        exact pays _ rfl rfl rfl rfl
    | revert =>
        refine Process.ensures_get_bind.mpr ?_
        refine Process.ensures_modify_bind.mpr ?_
        exact pays _ rfl rfl rfl rfl
  exact of_ensures_done ensures ran paid rfl

theorem uses_exactly [Hashing] (variant : Variant) (program : Program)
    (use : SliceUse) (machine : Machine) :
    UsesExactly variant program use machine := by
  intro executes allowed paid passes
  obtain ⟨fetchedPayment, fits⟩ := paid_of_use passes
  change need (machine.sp 0) (machine.sp 1) < 2 ^ 63 at fits
  have payment : Paid machine (need (machine.sp 0) (machine.sp 1)) paid :=
    fetchedPayment.unfetched
  have used := slice_of_need payment fits
  have dispatched := @step_of_executes _ variant program machine _ executes
  cases use with
  | sha3 =>
      have paysFirst : interpretCase variant program .sha3
          (fetched variant.rules .sha3 machine) =
          (SliceUse.sha3.payment variant.rules >>= fun _ => do
            let input := (← get).slice (toUInt64 (machine.sp 0))
              (toUInt64 (machine.sp 1))
            next 2 [wordOfBytes (sha3 input).val])
            (fetched variant.rules .sha3 machine) := by
        have kept : ∀ position, (fetched variant.rules .sha3 machine).sp
            position = machine.sp position := fun _ => rfl
        simp only [interpretCase, caseSha3, SliceUse.payment, bind_assoc]
        rw [Process.get_bind_apply, Process.get_bind_apply]
        simp only [kept]
      have ran := (dispatched.trans paysFirst).trans
        (Process.bind_of_ok passes)
      have hashed : step variant program machine =
          .done (.ok .proceed (paid.finish 2 [wordOfBytes (sha3
            (paid.slice (toUInt64 (machine.sp 0))
              (toUInt64 (machine.sp 1)))).val] 1)) := ran
      rw [used] at hashed
      exact ⟨_, hashed, payment.leaves 2 _⟩
  | log topics =>
      have paysFirst : interpretCase variant program (.log topics)
          (fetched variant.rules (.log topics) machine) =
          ((SliceUse.log topics).payment variant.rules >>= fun _ => do
            let machine ← get
            ask (.log ((List.range topics).map fun i =>
                h256OfWord (machine.sp (i + 2)))
              (machine.slice (toUInt64 (machine.sp 0))
                (toUInt64 (machine.sp 1))))
            next (topics + 2) [])
            (fetched variant.rules (.log topics) machine) := by
        have dynamic : variant.ext.staticCall = false := allowed
        simp only [interpretCase, caseLog, dynamic, SliceUse.payment,
          bind_assoc]
        rfl
      have ran := (dispatched.trans paysFirst).trans
        (Process.bind_of_ok passes)
      have topic : (fun i => h256OfWord (paid.sp (i + 2))) =
          fun i => h256OfWord (machine.sp (i + 2)) :=
        funext fun i => congrArg h256OfWord (payment.sp (i + 2))
      have asked : step variant program machine =
          .ask (.log ((List.range topics).map fun i =>
              h256OfWord (paid.sp (i + 2)))
            (paid.slice (toUInt64 (paid.sp 0)) (toUInt64 (paid.sp 1))))
            (fun _ => .done (.ok .proceed
              (paid.finish (topics + 2) [] 1))) := ran
      rw [topic, payment.sp, payment.sp, used] at asked
      exact ⟨_, asked, payment.leaves (topics + 2) _⟩
  | return_ =>
      have paysFirst : interpretCase variant program .return_
          (fetched variant.rules .return_ machine) =
          (SliceUse.return_.payment variant.rules >>= fun _ => do
            let output := (← get).slice (toUInt64 (machine.sp 0))
              (toUInt64 (machine.sp 1))
            return .halt output)
            (fetched variant.rules .return_ machine) := by
        simp only [interpretCase, outputMem, SliceUse.payment, bind_assoc]
        rfl
      have ran := (dispatched.trans paysFirst).trans
        (Process.bind_of_ok passes)
      refine ran.trans ?_
      rw [← used]
      rfl
  | revert =>
      have paysFirst : interpretCase variant program .revert
          (fetched variant.rules .revert machine) =
          (SliceUse.revert.payment variant.rules >>= fun _ => do
            let output := (← get).slice (toUInt64 (machine.sp 0))
              (toUInt64 (machine.sp 1))
            throw (.revertInstruction output))
            (fetched variant.rules .revert machine) := by
        have known : variant.rules.haveRevert = true := allowed
        simp only [interpretCase, known, outputMem, SliceUse.payment,
          bind_assoc]
        rfl
      have ran := (dispatched.trans paysFirst).trans
        (Process.bind_of_ok passes)
      refine ran.trans ?_
      rw [← used]
      rfl

/-! ## Offsets from which on an access goes astray -/

/-- The prices that the two interpreters have in common. -/
structure Common (rules : Rules) : Prop where
  veryLow : rules.stepGas .veryLow = 3
  memory : rules.memoryGas = 3
  quadratic : rules.quadCoeffDiv = 512
  copy : rules.copyGas = 3

theorem common_variant {ext : ExtVMFace} (kind : VMKind) (optimized : Bool)
    (builtIn : ext.evmSchedule ∈ EVMSchedule.builtIn) :
    Common (kind.variant ext optimized).rules := by
  cases kind with
  | interpreter => exact ⟨rfl, rfl, rfl, rfl⟩
  | legacy =>
      have prices : ∀ schedule ∈ EVMSchedule.builtIn,
          schedule.tierStepGas.getD Tier.veryLow.index 0 = 3 ∧
            schedule.memoryGas = 3 ∧ schedule.quadCoeffDiv = 512 ∧
            schedule.copyGas = 3 := by
        decide
      obtain ⟨veryLow, memory, quadratic, copy⟩ := prices _ builtIn
      exact ⟨veryLow, memory, quadratic, copy⟩

/-- An access that passes has been paid for out of less than `2 ^ 63`. -/
theorem affordable_of_passes {access : WordAccess}
    (common : Common rules) (solvent : Solvent rules machine)
    (passes : touchMem rules access.size
      (fetched rules access.instruction machine) = .done (.ok () paid)) :
    3 + memCost rules (inSteps ((machine.sp 0).toNat + access.size)) <
      2 ^ 63 := by
  have price : rules.stepGas access.instruction.metric.gasPriceTier = 3 := by
    rw [← common.veryLow]
    cases access <;> rfl
  set start := fetched rules access.instruction machine with startEq
  have cheap : start.runGas = 3 := price
  have solventStart : Solvent rules start := solvent.same ⟨rfl, rfl, rfl⟩
  have small : access.size ≤ 32 := by cases access <;> decide
  have length := (paid_of_touchMem small passes).length
  have ensures : Process.Ensures (fun _ _ => True)
      (touchMem rules access.size) start fun _ result =>
        ∀ paid, result = .ok () paid → Spends rules start 3 paid := by
    refine Process.ensures_get_bind.mpr ?_
    refine ensures_toInt63 (by simp) fun _ => ?_
    rw [← bind_pure updateIOGas]
    refine ensures_payMem solventStart (by omega)
      (show (0 : Nat) < 2 ^ 63 by decide) (.inl rfl) (by rw [common.copy])
      (by simp) fun paid spends _ => ?_
    rw [Process.ensures_pure]
    intro other same
    cases same
    rw [cheap] at spends
    exact spends
  have spends := of_ensures_done ensures passes paid rfl
  have spent := spends.paid
  have bounded := solventStart.bounded
  have grown : memCost rules (inSteps ((machine.sp 0).toNat + access.size)) ≤
      memCost rules paid.mem.length := by
    refine memCost_mono rules ?_
    rw [length]
    exact le_max_right _ _
  omega

/-- A memory of this size with one byte that is not zero. -/
def markedMemory (offset size : Nat) : Bytes :=
  (List.range size).map fun position => if position = offset then 1 else 0

theorem array_markedMemory {offset size : Nat} (inside : offset < size)
    (position : Nat) :
    array 0 (markedMemory offset size) position =
      if position = offset then 1 else 0 := by
  have length : (markedMemory offset size).length = size := by
    rw [markedMemory, List.length_map, List.length_range]
  rcases Nat.lt_or_ge position size with early | late
  · rw [array_of_lt (by omega)]
    simp [markedMemory]
  · rw [array_of_ge (by omega), if_neg (by omega)]

/-- The offset of an access that is affordable is far below `2 ^ 63`. -/
theorem offset_small (common : Common rules) {reach : Nat}
    (affordable : 3 + memCost rules (inSteps reach) < 2 ^ 63) :
    reach < 2 ^ 42 := by
  have steps := le_inSteps reach
  by_contra large
  have words : 2 ^ 37 ≤ inSteps reach / 32 := by omega
  have squared : 2 ^ 37 * 2 ^ 37 ≤
      inSteps reach / 32 * (inSteps reach / 32) := Nat.mul_le_mul words words
  have price : inSteps reach / 32 * (inSteps reach / 32) / 512 ≤
      memCost rules (inSteps reach) := by
    rw [memCost, common.quadratic]
    exact Nat.le_add_left _ _
  omega

/-- A frame that executes an access, with memory that reaches it and just
enough gas. -/
def strayMachine (access : WordAccess) (offset : U256) : Machine :=
  let size := inSteps (offset.toNat + access.size)
  { stack := [offset, BitVec.allOnes 256]
    mem := markedMemory offset.toNat size
    gas := 3 }

def strayProgram (access : WordAccess) : Program :=
  match access with
  | .mload => ⟨[0x51], [], []⟩
  | .mstore => ⟨[0x52], [], []⟩
  | .mstore8 => ⟨[0x53], [], []⟩

theorem stray_executes (access : WordAccess) (offset : U256) :
    Executes (strayProgram access) (strayMachine access offset)
      access.instruction := by
  cases access <;>
    exact ⟨rfl, of_decide_eq_true rfl, of_decide_eq_true rfl⟩

/-- Nothing more is charged where the memory reaches far enough. -/
theorem updateGas_covered (covered : machine.newMemSize ≤ machine.mem.length)
    (plain : machine.copyMemSize = 0) (price : machine.runGas < 2 ^ 64)
    (enough : machine.runGas ≤ machine.gas) :
    updateGas rules machine = .done (.ok () machine) := by
  have free : chargeMemory rules machine = .done (.ok () machine) := by
    have unfolded : chargeMemory rules machine =
        (if machine.mem.length < machine.newMemSize then do
          let new ← gasForMem rules machine.newMemSize
          let old ← gasForMem rules machine.mem.length
          addRunGas (← toInt63 ((2 ^ 64 + new - old) % 2 ^ 64))
        else return : VMProcess Unit) machine := rfl
    rw [unfolded, if_neg (by omega)]
    rfl
  have copied : rules.copyGas * ((machine.copyMemSize + 31) / 32) % 2 ^ 64 =
      0 := by
    rw [plain]
    exact Nat.zero_mod _
  have added : addRunGas 0 machine = .done (.ok () machine) := by
    have kept : decide (2 ^ 64 ≤ machine.runGas + 0) = false :=
      decide_eq_false (by omega)
    have unfolded : addRunGas 0 machine = .done (.ok () { machine with
        runGas := (machine.runGas + 0) % 2 ^ 64
        wrapped := machine.wrapped ||
          decide (2 ^ 64 ≤ machine.runGas + 0) }) := rfl
    rw [unfolded, kept, Nat.add_zero, Nat.mod_eq_of_lt price, Bool.or_false]
  have rest : updateGas rules machine = (do
      addRunGas (rules.copyGas * ((machine.copyMemSize + 31) / 32) % 2 ^ 64)
      let machine ← get
      if machine.gas < machine.runGas then throw .outOfGas else return :
        VMProcess Unit) machine := Process.bind_of_ok free
  rw [rest, copied, Process.bind_of_ok added]
  refine Eq.trans (b := (if machine.gas < machine.runGas then
    throw .outOfGas else pure () : VMProcess Unit) machine) rfl ?_
  rw [if_neg (by omega)]
  rfl

theorem stray_passes {access : WordAccess} {offset : U256}
    (common : Common rules)
    (affordable : 3 + memCost rules
      (inSteps (offset.toNat + access.size)) < 2 ^ 63) :
    ∃ paid, touchMem rules access.size
      (fetched rules access.instruction (strayMachine access offset)) =
        .done (.ok () paid) := by
  have reach := offset_small common affordable
  have price : rules.stepGas access.instruction.metric.gasPriceTier = 3 := by
    rw [← common.veryLow]
    cases access <;> rfl
  set start := fetched rules access.instruction (strayMachine access offset)
    with startEq
  have runGas : start.runGas = 3 := price
  have gas : start.gas = 3 := rfl
  have length : start.mem.length = inSteps (offset.toNat + access.size) := by
    show (markedMemory _ _).length = _
    rw [markedMemory, List.length_map, List.length_range]
  have fits : toInt63 offset.toNat start = .done (.ok offset.toNat start) := by
    rw [toInt63, if_neg (by omega)]
    rfl
  -- The size is set; the memory is long enough.
  set sized : Machine := { start with newMemSize :=
    (offset.toNat + access.size + 31) % 2 ^ 64 / 32 * 32 } with sizedEq
  have charged : updateGas rules sized = .done (.ok () sized) := by
    refine updateGas_covered ?_ rfl ?_ ?_
    · show _ ≤ start.mem.length
      rw [length, inSteps]
      show (offset.toNat + access.size + 31) % 2 ^ 64 / 32 * 32 ≤ _
      omega
    · show start.runGas < _
      omega
    · show start.runGas ≤ start.gas
      omega
  have grown : updateMem rules (offset.toNat + access.size) start =
      .done (.ok () sized.growMem) := Process.bind_of_ok charged
  have paid : updateIOGas sized.growMem = _ := updateIOGas_ok (by
    show start.runGas ≤ start.gas
    omega)
  have ran : touchMem rules access.size start =
      (updateMem rules (offset.toNat + access.size) >>= fun _ =>
        updateIOGas) start := Process.bind_of_ok fits
  rw [ran, Process.bind_of_ok grown]
  exact ⟨_, paid⟩

theorem wordOfBytes_injective {left right : Bytes} (leftSize : left.length = 32)
    (rightSize : right.length = 32)
    (same : wordOfBytes left = wordOfBytes right) : left = right := by
  have leftBound := fromBigEndian_lt left
  have rightBound := fromBigEndian_lt right
  rw [leftSize] at leftBound
  rw [rightSize] at rightBound
  have numbers := congrArg BitVec.toNat same
  rw [wordOfBytes, wordOfBytes, BitVec.toNat_ofNat, BitVec.toNat_ofNat,
    Nat.mod_eq_of_lt (by omega), Nat.mod_eq_of_lt (by omega)] at numbers
  rw [← toBigEndian_fromBigEndian left, ← toBigEndian_fromBigEndian right,
    numbers, leftSize, rightSize]

/-- The low 32 bits of an offset that has more lie more than a word below. -/
theorem unsignedOffset_far {offset : U256} (far : 2 ^ 32 ≤ offset.toNat) :
    unsignedOffset offset + 32 < offset.toNat := by
  unfold unsignedOffset
  omega

theorem allOnes_bytes : (h256OfWord (BitVec.allOnes 256)).val =
    0xff :: List.replicate 31 0xff := by
  decide +kernel

/-- Data written at an address that lies further below than its length does
not show at the offset. -/
theorem overwrite_ne {image : Nat → UInt8} {address offset : Nat}
    {byte : UInt8} {rest : Bytes} (short : (byte :: rest).length ≤ 32)
    (low : address + 32 < offset) (differs : byte ≠ image offset) :
    overwrite image offset (byte :: rest) ≠
      overwrite image address (byte :: rest) := by
  intro same
  have here := congrFun same offset
  have written : overwrite image offset (byte :: rest) (offset + 0) = byte :=
    overwrite_inside (by simp)
  have there : overwrite image address (byte :: rest) offset = image offset :=
    overwrite_behind (by omega)
  exact differs (written.symm.trans (here.trans there))

theorem stray_not_exact [Hashing] {variant : Variant} {access : WordAccess}
    {offset : U256} (common : Common variant.rules)
    (affordable : 3 + memCost variant.rules
      (inSteps (offset.toNat + access.size)) < 2 ^ 63)
    (far : 2 ^ 32 ≤ offset.toNat) :
    ¬ AccessesExactly variant (strayProgram access) access
      (strayMachine access offset) := by
  intro exactly
  have low := unsignedOffset_far far
  have executes := stray_executes access offset
  obtain ⟨paid, passes⟩ := stray_passes common affordable
  obtain ⟨after, ran, leaves⟩ := exactly executes paid passes
  obtain ⟨strayed, ran', leaves'⟩ := step_access executes passes
  rw [ran] at ran'
  injection ran' with same
  injection same with _ same
  subst same
  have inside : offset.toNat < inSteps (offset.toNat + access.size) := by
    have steps := le_inSteps (offset.toNat + access.size)
    have positive : 0 < access.size := by cases access <;> decide
    omega
  have marked : ∀ position, (strayMachine access offset).image position =
      if position = offset.toNat then 1 else 0 :=
    fun position => array_markedMemory inside position
  have mark : (strayMachine access offset).image offset.toNat = 1 := by
    rw [marked, if_pos rfl]
  cases access with
  | mload =>
      have words := leaves.stack.symm.trans leaves'.stack
      injection words with word _
      have slices := wordOfBytes_injective (length_slice _ _ _)
        (length_slice _ _ _) word
      have first := congrArg (fun bytes => bytes.getD 0 0) slices
      change (strayMachine .mload offset).image (offset.toNat + 0) =
        (strayMachine .mload offset).image (unsignedOffset offset + 0) at first
      rw [Nat.add_zero, mark, marked, if_neg (by omega)] at first
      cases first
  | mstore =>
      have images : overwrite (strayMachine .mstore offset).image offset.toNat
          (h256OfWord (BitVec.allOnes 256)).val =
          overwrite (strayMachine .mstore offset).image
            (unsignedOffset offset) (h256OfWord (BitVec.allOnes 256)).val :=
        leaves.image.symm.trans leaves'.image
      rw [allOnes_bytes] at images
      exact overwrite_ne (by decide) low (by rw [mark]; decide) images
  | mstore8 =>
      have images : overwrite (strayMachine .mstore8 offset).image
          offset.toNat [UInt8.ofNat (BitVec.allOnes 256).toNat] =
          overwrite (strayMachine .mstore8 offset).image
            (unsignedOffset offset) [UInt8.ofNat (BitVec.allOnes 256).toNat] :=
        leaves.image.symm.trans leaves'.image
      exact overwrite_ne (by decide) low (by rw [mark]; decide) images

theorem stray_solvent {access : WordAccess} {offset : U256}
    (affordable : 3 + memCost rules
      (inSteps (offset.toNat + access.size)) < 2 ^ 63) :
    Solvent rules (strayMachine access offset) := by
  have length : (strayMachine access offset).mem.length =
      inSteps (offset.toNat + access.size) := by
    show (markedMemory _ _).length = _
    rw [markedMemory, List.length_map, List.length_range]
  refine ⟨?_, rfl, ?_⟩
  · rw [length]
    exact Nat.dvd_mul_left _ _
  · rw [length]
    exact affordable

end Interpreter

/-- Whatever the program, the stack and the gas below `2 ^ 63`, accesses of
memory at an offset are exact if and only if the offset is below `2 ^ 32`, or
so large that they never pass their gas check; slices always are. -/
theorem memory_exact_iff [Hashing] {ext : ExtVMFace} (kind : VMKind)
    (optimized : Bool) (builtIn : ext.evmSchedule ∈ EVMSchedule.builtIn) :
    (∀ (access : WordAccess) (offset : U256),
      (∀ program machine, machine.sp 0 = offset →
        Solvent (kind.variant ext optimized).rules machine →
        AccessesExactly (kind.variant ext optimized) program access machine) ↔
      offset.toNat < 2 ^ 32 ∨
        2 ^ 63 ≤ 3 + memCost (kind.variant ext optimized).rules
          (inSteps (offset.toNat + access.size))) ∧
    ∀ use program machine,
      UsesExactly (kind.variant ext optimized) program use machine := by
  have common := common_variant kind optimized builtIn
  refine ⟨fun access offset => ⟨?_, ?_⟩,
    fun use program machine => uses_exactly _ program use machine⟩
  · intro exactly
    by_contra astray
    rw [not_or, not_lt, not_le] at astray
    exact stray_not_exact common astray.2 astray.1
      (exactly _ _ rfl (stray_solvent astray.2))
  · rintro condition program machine rfl solvent executes paid passes
    rcases condition with small | dear
    · obtain ⟨after, ran, leaves⟩ := step_access executes passes
      have address : unsignedOffset (machine.sp 0) = (machine.sp 0).toNat :=
        Nat.mod_eq_of_lt small
      rw [address] at leaves
      exact ⟨after, ran, leaves⟩
    · have affordable := affordable_of_passes common solvent passes
      exact absurd affordable (not_lt.mpr dear)

theorem memory_exact_iff_sample :
    EVMSchedule.byzantium ∈ EVMSchedule.builtIn ∧
    ∀ program machine, machine.sp 0 = 64 →
      Solvent (LegacyVM.rules .byzantium) machine →
      @AccessesExactly frameSampleHashing
        (VMKind.legacy.variant (frameSample .byzantium []) false) program
        .mload machine :=
  ⟨by decide, ((@memory_exact_iff frameSampleHashing
    (frameSample .byzantium []) .legacy false (by decide)).1 .mload 64).mpr
      (.inl (by decide))⟩

/-- A frame with one word of memory and gas for much more. -/
def wideOffsetSample : Machine :=
  { stack := [2 ^ 32], mem := (h256OfWord 42).val, gas := 2 ^ 62 }

/-- `MLOAD` at `2 ^ 32` pays for more than four gigabytes and loads the word
at zero. -/
theorem wide_offset_loads_first_word :
    Solvent (LegacyVM.rules .byzantium) wideOffsetSample ∧
    ¬ @AccessesExactly frameSampleHashing
      (VMKind.legacy.variant (frameSample .byzantium [0x51]) false)
      ⟨[0x51], [], []⟩ .mload wideOffsetSample := by
  refine ⟨⟨by decide +kernel, rfl, by decide +kernel⟩, ?_⟩
  intro exactly
  have executes : Executes ⟨[0x51], [], []⟩ wideOffsetSample
      WordAccess.mload.instruction := ⟨rfl, by decide, by decide⟩
  obtain ⟨paid, passes⟩ : ∃ paid, touchMem (LegacyVM.rules .byzantium) 32
      (fetched (LegacyVM.rules .byzantium) .mload wideOffsetSample) =
        .done (.ok () paid) := ⟨_, rfl⟩
  obtain ⟨after, ran, leaves⟩ := exactly executes paid passes
  obtain ⟨strayed, ran', leaves'⟩ := @step_access _ _ frameSampleHashing
    (VMKind.legacy.variant (frameSample .byzantium [0x51]) false) _ .mload
    executes passes
  rw [ran] at ran'
  injection ran' with same
  injection same with _ same
  subst same
  have words := leaves.stack.symm.trans leaves'.stack
  injection words with word _
  revert word
  decide +kernel

end Aecmio

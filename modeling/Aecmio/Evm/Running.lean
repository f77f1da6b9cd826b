import Aecmio.Evm.Metering

/-!
# Running one instruction

What a round does once the instruction is fetched, and what is left by a
payment that goes through: the memory has grown in steps of 32 bytes, and
nothing but it and the accounts has changed.
-/

namespace Aecmio

open Dialogues

namespace Interpreter

/-! ## Fetching -/

/-- The instruction is the next one, and finds its arguments and the room for
its results on the stack. -/
structure Executes (program : Program) (machine : Machine)
    (op : Instruction) : Prop where
  byte : Instruction.ofByte (program.code.getD machine.pc 0) = op
  arguments : op.metric.args ≤ machine.stack.length
  limit : machine.stack.length - op.metric.args + op.metric.ret ≤ 1024

/-- The machine after the fetch. -/
def fetched (rules : Rules) (op : Instruction) (machine : Machine) : Machine :=
  { machine with
    runGas := rules.stepGas op.metric.gasPriceTier
    newMemSize := machine.mem.length
    copyMemSize := 0 }

@[simp]
theorem fetched_sp (rules : Rules) (op : Instruction) (machine : Machine)
    (position : Nat) :
    (fetched rules op machine).sp position = machine.sp position := rfl

theorem adjustStack_ok {removed added : Nat} {machine : Machine}
    (arguments : removed ≤ machine.stack.length)
    (limit : machine.stack.length - removed + added ≤ 1024) :
    adjustStack removed added machine = .done (.ok () machine) := by
  have unfolded : adjustStack removed added machine =
      (if machine.stack.length < removed then
        throw (.stackUnderflow removed ((machine.stack.length : Int) - removed))
      else if 1024 < machine.stack.length - removed + added then
        throw (.outOfStack (((added : Int) - removed) % 2 ^ 32)
          ((machine.stack.length : Int) - removed + added))
      else pure () : VMProcess Unit) machine := rfl
  rw [unfolded, if_neg (by omega), if_neg (by omega)]
  rfl

theorem step_of_executes [Hashing] {variant : Variant} {program : Program}
    {machine : Machine} {op : Instruction}
    (executes : Executes program machine op) :
    step variant program machine =
      interpretCase variant program op (fetched variant.rules op machine) := by
  have ran : fetchInstruction variant.rules program machine =
      .done (.ok op (fetched variant.rules op machine)) := by
    have unfolded : fetchInstruction variant.rules program machine =
        (adjustStack (Instruction.ofByte
            (program.code.getD machine.pc 0)).metric.args
          (Instruction.ofByte (program.code.getD machine.pc 0)).metric.ret >>=
          fun _ => do
            setRunGas (variant.rules.stepGas (Instruction.ofByte
              (program.code.getD machine.pc 0)).metric.gasPriceTier)
            modify fun machine => { machine with
              newMemSize := machine.mem.length, copyMemSize := 0 }
            return Instruction.ofByte (program.code.getD machine.pc 0))
          machine := rfl
    rw [unfolded, executes.byte, Process.bind_apply,
      adjustStack_ok executes.arguments executes.limit]
    rfl
  rw [step, Process.bind_apply, ran]
  rfl

/-! ## Instructions that push a word -/

theorem updateIOGas_ok {machine : Machine}
    (enough : machine.runGas ≤ machine.gas) :
    updateIOGas machine =
      .done (.ok () { machine with gas := machine.gas - machine.runGas }) := by
  have unfolded : updateIOGas machine = (if machine.gas < machine.runGas then
        throw .outOfGas
      else set { machine with gas := machine.gas - machine.runGas } :
        VMProcess Unit) machine := rfl
  rw [unfolded, if_neg (by omega)]
  rfl

/-- The machine that an instruction of this price leaves a word in. -/
def pushed (machine : Machine) (price args : Nat) (value : U256) : Machine :=
  { machine with
    pc := machine.pc + 1
    stack := value :: machine.stack.drop args
    gas := machine.gas - price
    runGas := price
    newMemSize := machine.mem.length
    copyMemSize := 0 }

theorem operation_ok {rules : Rules} {ext : ExtVMFace} {machine : Machine}
    {word : WordOperation} (supported : supports rules word = true)
    (enough : rules.stepGas word.metric.gasPriceTier ≤ machine.gas) :
    operation rules ext word (fetched rules (.operation word) machine) =
      .done (.ok .proceed (pushed machine
        (rules.stepGas word.metric.gasPriceTier) word.metric.args
        (operationValue ext
          { fetched rules (.operation word) machine with
            gas := machine.gas - rules.stepGas word.metric.gasPriceTier }
          word))) := by
  have unfolded : operation rules ext word =
      if !supports rules word then throw .badInstruction
      else updateIOGas >>= fun _ => get >>= fun machine =>
        next word.metric.args [operationValue ext machine word] := rfl
  rw [unfolded, supported, if_neg (by decide), Process.bind_apply,
    updateIOGas_ok enough]
  rfl

/-! ## Paying -/

/-- `newMem` bytes in steps of 32. -/
def inSteps (newMem : Nat) : Nat := (newMem + 31) / 32 * 32

theorem le_inSteps (newMem : Nat) : newMem ≤ inSteps newMem := by
  unfold inSteps
  omega

/-- The machine after a payment that lets the memory reach `newMem`. -/
structure Paid (machine : Machine) (newMem : Nat) (paid : Machine) :
    Prop where
  pc : paid.pc = machine.pc
  stack : paid.stack = machine.stack
  mem : paid.mem = machine.mem ++
    List.replicate (inSteps newMem - machine.mem.length) 0
  returnData : paid.returnData = machine.returnData

/-- The fetch changes nothing that a payment keeps. -/
theorem Paid.unfetched {rules : Rules} {op : Instruction}
    {machine paid : Machine} {newMem : Nat}
    (payment : Paid (fetched rules op machine) newMem paid) :
    Paid machine newMem paid :=
  ⟨payment.pc, payment.stack, payment.mem, payment.returnData⟩

theorem Paid.length {machine paid : Machine} {newMem : Nat}
    (payment : Paid machine newMem paid) :
    paid.mem.length = max machine.mem.length (inSteps newMem) := by
  rw [payment.mem, List.length_append, List.length_replicate]
  omega

section

variable {rules : Rules} {machine : Machine} {α : Type}
  {allowed : (question : ExtVMFace.Question) →
    ExtVMFace.Answer question → Prop}
  {post : List (Dialogue.Exchange ExtVMFace.interface) →
    EStateM.Result VMException Machine α → Prop}

/-- Whatever is charged for memory, only the price changes. -/
theorem ensures_chargeMemory_frame {next : Unit → VMProcess α}
    (fails : post [] (.error .outOfGas machine))
    (charges : ∀ runGas wrapped, Process.Ensures allowed (next ())
      { machine with runGas, wrapped } post) :
    Process.Ensures allowed (chargeMemory rules >>= next) machine post := by
  have unfolded : Process.Ensures allowed (chargeMemory rules >>= next)
      machine post ↔ Process.Ensures allowed
        ((if machine.mem.length < machine.newMemSize then do
          let new ← gasForMem rules machine.newMemSize
          let old ← gasForMem rules machine.mem.length
          addRunGas (← toInt63 ((2 ^ 64 + new - old) % 2 ^ 64))
        else pure ()) >>= next) machine post := Iff.rfl
  rw [unfolded]
  split
  · simp only [bind_assoc]
    refine ensures_toInt63 fails fun _ => ?_
    refine ensures_toInt63 fails fun _ => ?_
    refine ensures_toInt63 fails fun _ => ?_
    exact charges _ _
  · exact charges machine.runGas machine.wrapped

theorem ensures_updateIOGas_frame {next : Unit → VMProcess α}
    (fails : post [] (.error .outOfGas machine))
    (pays : ∀ gas, Process.Ensures allowed (next ())
      { machine with gas } post) :
    Process.Ensures allowed (updateIOGas >>= next) machine post := by
  have unfolded : Process.Ensures allowed (updateIOGas >>= next) machine post ↔
      Process.Ensures allowed ((if machine.gas < machine.runGas then
        throw .outOfGas
      else set { machine with gas := machine.gas - machine.runGas }) >>= next)
        machine post := Iff.rfl
  rw [unfolded]
  split
  · exact fails
  · exact pays _

/-- A payment for memory either fails or lets it grow. -/
theorem ensures_payMem_frame {newMem : Nat} {next : Unit → VMProcess α}
    (small : newMem + 31 < 2 ^ 64)
    (fails : ∀ failed, post [] (.error .outOfGas failed))
    (pays : ∀ paid, Paid machine newMem paid →
      paid.copyMemSize = machine.copyMemSize →
      Process.Ensures allowed (next ()) paid post) :
    Process.Ensures allowed
      (updateMem rules newMem >>= fun _ => updateIOGas >>= next) machine
      post := by
  have unwrapped : (newMem + 31) % 2 ^ 64 / 32 * 32 = inSteps newMem := by
    rw [Nat.mod_eq_of_lt small, inSteps]
  simp only [updateMem, updateGas, bind_assoc]
  rw [Process.ensures_modify_bind, unwrapped]
  refine ensures_chargeMemory_frame (fails _) fun runGas wrapped => ?_
  rw [Process.ensures_get_bind]
  refine Process.ensures_modify_bind.mpr ?_
  rw [Process.ensures_get_bind]
  split
  · exact fails _
  · rw [pure_bind, Process.ensures_modify_bind]
    refine ensures_updateIOGas_frame (fails _) fun gas => ?_
    exact pays _ ⟨rfl, rfl, rfl, rfl⟩ rfl

theorem of_ensures_done {paid : Machine} {process : VMProcess Unit}
    {post : List (Dialogue.Exchange ExtVMFace.interface) →
      EStateM.Result VMException Machine Unit → Prop}
    (ensures : Process.Ensures allowed process machine post)
    (ran : process machine = .done (.ok () paid)) : post [] (.ok () paid) := by
  rw [Process.Ensures, ran] at ensures
  exact ensures

end

end Interpreter

end Aecmio

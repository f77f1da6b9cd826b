import Aecmio.Evm.Interpreter

/-!
# The interpreter loop

One round fetches an instruction and goes to its case.  The cases that the
two interpreters write differently are the fields of `Variant`; the others
are here.  The synthetic instructions throw unless the build is optimised.
-/

namespace Aecmio

open Dialogues

/-- What is particular to an interpreter, a build and a frame. -/
structure Variant where
  rules : Rules
  ext : ExtVMFace
  /-- `EVM_OPTIMIZE`. -/
  optimized : Bool
  sstore : VMProcess Flow
  extcodecopy : VMProcess Flow
  blockhash : VMProcess Flow
  suicide : VMProcess Flow
  create : VMProcess Flow
  create2 : VMProcess Flow
  call : CallKind → VMProcess Flow

namespace Program

/-- The number that `count` bytes of push data after `pc` stand for. -/
def pushData (program : Program) (pc count : Nat) : U256 :=
  wordOfBytes ((List.range count).map fun i =>
    program.code.getD (pc + 1 + i) 0)

/-- `verifyJumpDest`; the destinations are sorted, so the binary search finds
every one of them. -/
def verifyJumpDest (program : Program) (dest : U256) : Bool :=
  decide (dest.toNat ≤ 0x7FFFFFFFFFFFFFFF) &&
    program.jumpDests.contains dest.toNat

end Program

namespace Interpreter

section

variable (rules : Rules) (ext : ExtVMFace) (program : Program)

/-- A jump whose destination is on the stack. -/
def jumpTo (args : Nat) (pc : Nat) : VMProcess Flow := do
  modify fun machine => { machine with
    stack := machine.stack.drop args
    pc }
  return .proceed

/-- The part that `JUMP` and a taken `JUMPI` share. -/
def jump (args : Nat) : VMProcess Flow := do
  let dest := (← get).sp 0
  if program.verifyJumpDest dest then jumpTo args dest.toNat
  else throw .badJumpDestination

def operation (op : WordOperation) : VMProcess Flow := do
  if !supports rules op then throw .badInstruction
  else
    updateIOGas
    next op.metric.args [operationValue ext (← get) op]

def caseExp : VMProcess Flow := do
  let machine ← get
  setRunGas ((rules.expGas + rules.expByteGas *
    (32 - firstBitSet (machine.sp 1) / 8)) % 2 ^ 32)
  updateIOGas
  next 2 [exp256 (machine.sp 0) (machine.sp 1)]

def caseSha3 [Hashing] : VMProcess Flow := do
  let machine ← get
  setRunGas (← toInt63 (rules.sha3Gas +
    ((machine.sp 1).toNat + 31) / 32 * rules.sha3WordGas))
  updateMem rules (← memNeed (machine.sp 0) (machine.sp 1))
  updateIOGas
  let input := (← get).slice (toUInt64 (machine.sp 0))
    (toUInt64 (machine.sp 1))
  next 2 [wordOfBytes (sha3 input).val]

/-- `updateMem(toInt63(m_SP[0]) + size)` and the payment. -/
def touchMem (size : Nat) : VMProcess Unit := do
  updateMem rules ((← toInt63 ((← get).sp 0).toNat) + size)
  updateIOGas

def caseMload : VMProcess Flow := do
  touchMem rules 32
  let machine ← get
  next 1 [wordOfBytes (machine.slice (unsignedOffset (machine.sp 0)) 32)]

def caseMstore : VMProcess Flow := do
  touchMem rules 32
  modify fun machine => machine.writeMem (unsignedOffset (machine.sp 0))
    (h256OfWord (machine.sp 1)).val
  next 2 []

def caseMstore8 : VMProcess Flow := do
  touchMem rules 1
  modify fun machine => machine.writeMem (unsignedOffset (machine.sp 0))
    [UInt8.ofNat (machine.sp 1).toNat]
  next 2 []

/-- Payment for a copy of `m_SP[2]` bytes to `m_SP[0]`, and the copy. -/
def copyTo (data : Bytes) : VMProcess Flow := do
  let machine ← get
  setCopyMemSize (machine.sp 2)
  updateMem rules (← memNeed (machine.sp 0) (machine.sp 2))
  updateIOGas
  copyDataToMemory data 0
  next 3 []

def caseReturndatacopy : VMProcess Flow := do
  let machine ← get
  let endOfAccess := (machine.sp 1).toNat + (machine.sp 2).toNat
  if !rules.haveReturnData then throw .badInstruction
  else if machine.returnData.length < endOfAccess then
    throw (.bufferOverrun endOfAccess machine.returnData.length)
  else copyTo rules machine.returnData

/-- An instruction with one argument that asks for a word. -/
def askWord (price : Nat) (question : U256 → VMProcess U256) :
    VMProcess Flow := do
  setRunGas price
  updateIOGas
  next 1 [← question ((← get).sp 0)]

def caseLog (topics : Nat) : VMProcess Flow := do
  if ext.staticCall then throw .disallowedStateChange
  else
    logGasMem rules topics
    updateIOGas
    let machine ← get
    ask (.log
      ((List.range topics).map fun i => h256OfWord (machine.sp (i + 2)))
      (machine.slice (toUInt64 (machine.sp 0)) (toUInt64 (machine.sp 1))))
    next (topics + 2) []

/-- The memory that `RETURN` and `REVERT` hand out. -/
def outputMem : VMProcess Bytes := do
  let machine ← get
  modify fun machine => { machine with copyMemSize := 0 }
  updateMem rules (← memNeed (machine.sp 0) (machine.sp 1))
  updateIOGas
  return (← get).slice (toUInt64 (machine.sp 0)) (toUInt64 (machine.sp 1))

def casePush (size : Nat) : VMProcess Flow := do
  updateIOGas
  modify fun machine =>
    machine.finish 0 [program.pushData machine.pc size] (size + 1)
  return .proceed

/-- A constant of the pool by its two-byte index; the byte after it counts
the push data that is left. -/
def casePushc : VMProcess Flow := do
  updateIOGas
  modify fun machine =>
    let off := (program.code.getD (machine.pc + 1) 0).toNat * 256 +
      (program.code.getD (machine.pc + 2) 0).toNat
    machine.finish 0 [program.pool.getD off 0]
      (3 + (program.code.getD (machine.pc + 3) 0).toNat)
  return .proceed

end

variable [Hashing] (variant : Variant) (program : Program)

def interpretCase : Instruction → VMProcess Flow
  | .stop => do
      updateIOGas
      return .halt []
  | .operation op => operation variant.rules variant.ext op
  | .exp => caseExp variant.rules
  | .sha3 => caseSha3 variant.rules
  | .balance => askWord variant.rules.balanceGas fun word =>
      ask (.balance (asAddress word))
  | .extcodesize => askWord variant.rules.extcodesizeGas fun word => do
      let size ← ask (.codeSizeAt (asAddress word))
      return BitVec.ofNat 256 size
  | .extcodecopy => variant.extcodecopy
  | .calldatacopy => copyTo variant.rules variant.ext.data
  | .codecopy => copyTo variant.rules variant.ext.code
  | .returndatacopy => caseReturndatacopy variant.rules
  | .blockhash => variant.blockhash
  | .pop => do
      updateIOGas
      next 1 []
  | .mload => caseMload variant.rules
  | .mstore => caseMstore variant.rules
  | .mstore8 => caseMstore8 variant.rules
  | .sload => askWord variant.rules.sloadGas fun word =>
      ask (.store word)
  | .sstore => variant.sstore
  | .jump => do
      updateIOGas
      jump program 1
  | .jumpi => do
      updateIOGas
      if (← get).sp 1 = 0 then next 2 [] else jump program 2
  | .jumpdest => do
      setRunGas variant.rules.jumpdestGas
      updateIOGas
      next 0 []
  | .push size => casePush program (size + 1)
  | .dup depth => do
      updateIOGas
      next 0 [(← get).sp depth]
  | .swap depth => do
      updateIOGas
      modify fun machine => machine.swap (depth + 1)
      next 0 []
  | .log topics => caseLog variant.rules variant.ext topics
  | .pushc => if variant.optimized then casePushc program
      else throw .badInstruction
  | .jumpc =>
      if variant.optimized then do
        updateIOGas
        jumpTo 1 (toUInt64 ((← get).sp 0))
      else throw .badInstruction
  | .jumpci =>
      if variant.optimized then do
        updateIOGas
        let machine ← get
        if machine.sp 1 = 0 then next 2 []
        else jumpTo 2 (toUInt64 (machine.sp 0))
      else throw .badInstruction
  | .create => variant.create
  | .create2 => variant.create2
  | .call kind => variant.call kind
  | .return_ => do
      return .halt (← outputMem variant.rules)
  | .revert =>
      if !variant.rules.haveRevert then throw .badInstruction
      else do throw (.revertInstruction (← outputMem variant.rules))
  | .suicide => variant.suicide
  | .unsupported _ => throw .badInstruction

/-- One round of the loop. -/
def step : VMProcess Flow := do
  interpretCase variant program (← fetchInstruction variant.rules program)

/-- The loop, cut off after `fuel` rounds. -/
def interpret : Nat → VMProcess (Option Bytes)
  | 0 => return none
  | fuel + 1 => do
      match ← step variant program with
      | .proceed => interpret fuel
      | .halt output => return some output

end Interpreter

end Aecmio

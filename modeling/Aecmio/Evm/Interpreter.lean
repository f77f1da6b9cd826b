import Aecmio.Evm.Face

/-!
# What the two interpreters share

`LegacyVM` and `VM` are two copies of one interpreter.  This module has the
parts that differ only in where the prices and the switches come from, with
`Rules` for these.  The stack is a list, its top first; `m_SP` points to the
stack before an instruction takes its arguments.  An unsigned sum or
difference that wraps is recorded in the machine.
-/

namespace Aecmio

open Dialogues

/-- The prices and switches of an interpreter. -/
structure Rules where
  haveDelegateCall : Bool
  haveBitwiseShifting : Bool
  haveRevert : Bool
  haveReturnData : Bool
  haveStaticCall : Bool
  stepGas : Tier → Nat
  expGas : Nat
  expByteGas : Nat
  sha3Gas : Nat
  sha3WordGas : Nat
  sloadGas : Nat
  jumpdestGas : Nat
  logGas : Nat
  logDataGas : Nat
  logTopicGas : Nat
  memoryGas : Nat
  quadCoeffDiv : Nat
  copyGas : Nat
  extcodesizeGas : Nat
  extcodecopyGas : Nat
  balanceGas : Nat

/-- The code as prepared for a run: `m_code`, `m_jumpDests` and `m_pool`. -/
structure Program where
  code : Bytes
  jumpDests : List Nat
  pool : List U256 := []
deriving DecidableEq

/-- The state of an interpreter. -/
structure Machine where
  pc : Nat := 0
  /-- The stack from `m_SP` on. -/
  stack : List U256 := []
  mem : Bytes := []
  /-- `m_io_gas`. -/
  gas : Nat
  runGas : Nat := 0
  newMemSize : Nat := 0
  copyMemSize : Nat := 0
  returnData : Bytes := []
  /-- No member of the source: an unsigned sum or difference has wrapped. -/
  wrapped : Bool := false
deriving DecidableEq

abbrev VMProcess := Process ExtVMFace.interface VMException Machine

/-- What an instruction does to the loop. -/
inductive Flow where
  | proceed
  | halt (output : Bytes)
deriving DecidableEq

namespace Machine

/-- `m_SP[position]`. -/
def sp (machine : Machine) (position : Nat) : U256 :=
  machine.stack.getD position 0

/-- `m_mem.resize(m_newMemSize)` if that is more. -/
def growMem (machine : Machine) : Machine :=
  { machine with mem := machine.mem ++
      List.replicate (machine.newMemSize - machine.mem.length) 0 }

/-- The bytes of memory from `offset` on. -/
def slice (machine : Machine) (offset size : Nat) : Bytes :=
  (machine.mem.drop offset).take size

/-- Bytes written over the memory from `offset` on. -/
def writeMem (machine : Machine) (offset : Nat) (data : Bytes) : Machine :=
  { machine with mem := machine.mem.take offset ++
      (data.take (machine.mem.length - offset) ++
        machine.mem.drop (offset + data.length)) }

/-- Replaces the arguments of an instruction by its results and moves on. -/
def finish (machine : Machine) (args : Nat) (results : List U256)
    (size : Nat) : Machine :=
  { machine with
    stack := results ++ machine.stack.drop args
    pc := machine.pc + size }

/-- `std::swap(m_SP[0], m_SP[position])`. -/
def swap (machine : Machine) (position : Nat) : Machine :=
  let exchanged := machine.stack.set 0 (machine.sp position)
  { machine with stack := exchanged.set position (machine.sp 0) }

/-- `m_io_gas += amount`. -/
def addGas (machine : Machine) (amount : Nat) : Machine :=
  { machine with
    gas := (machine.gas + amount) % 2 ^ 64
    wrapped := machine.wrapped || decide (2 ^ 64 ≤ machine.gas + amount) }

end Machine

namespace Interpreter

/-- Put a question to the environment. -/
def ask (question : ExtVMFace.Question) :
    VMProcess (ExtVMFace.Answer question) :=
  Process.ask (I := ExtVMFace.interface) question

/-! ## Metering -/

def toInt63 (value : Nat) : VMProcess Nat :=
  if 2 ^ 63 - 1 < value then throw .outOfGas else return value

def memNeed (offset size : U256) : VMProcess Nat :=
  toInt63 (if size = 0 then 0 else offset.toNat + size.toNat)

/-- `m_runGas = amount`. -/
def setRunGas (amount : Nat) : VMProcess Unit :=
  modify fun machine => { machine with runGas := amount }

/-- `m_runGas += amount`. -/
def addRunGas (amount : Nat) : VMProcess Unit :=
  modify fun machine => { machine with
    runGas := (machine.runGas + amount) % 2 ^ 64
    wrapped := machine.wrapped || decide (2 ^ 64 ≤ machine.runGas + amount) }

def updateIOGas : VMProcess Unit := do
  let machine ← get
  if machine.gas < machine.runGas then throw .outOfGas
  else set { machine with gas := machine.gas - machine.runGas }

def gasForMem (rules : Rules) (size : Nat) : VMProcess Nat :=
  let words := size / 32
  toInt63 (rules.memoryGas * words + words * words / rules.quadCoeffDiv)

/-- The first half of `updateGas`. -/
def chargeMemory (rules : Rules) : VMProcess Unit := do
  let machine ← get
  if machine.mem.length < machine.newMemSize then
    let new ← gasForMem rules machine.newMemSize
    let old ← gasForMem rules machine.mem.length
    addRunGas (← toInt63 ((2 ^ 64 + new - old) % 2 ^ 64))
  else return

def updateGas (rules : Rules) : VMProcess Unit := do
  chargeMemory rules
  let copied := ((← get).copyMemSize + 31) / 32
  addRunGas (rules.copyGas * copied % 2 ^ 64)
  let machine ← get
  if machine.gas < machine.runGas then throw .outOfGas else return

def updateMem (rules : Rules) (newMem : Nat) : VMProcess Unit := do
  modify fun machine => { machine with
    newMemSize := (newMem + 31) % 2 ^ 64 / 32 * 32 }
  updateGas rules
  modify Machine.growMem

/-- `m_copyMemSize = toInt63(size)`. -/
def setCopyMemSize (size : U256) : VMProcess Unit := do
  let copyMemSize ← toInt63 size.toNat
  modify fun machine => { machine with copyMemSize }

def logGasMem (rules : Rules) (topics : Nat) : VMProcess Unit := do
  let machine ← get
  setRunGas (← toInt63 ((rules.logGas + rules.logTopicGas * topics) % 2 ^ 32 +
    rules.logDataGas * (machine.sp 1).toNat))
  updateMem rules (← memNeed (machine.sp 0) (machine.sp 1))

/-- The checks of `adjustStack`, with the sizes that `throwBadStack` gives. -/
def adjustStack (removed added : Nat) : VMProcess Unit := do
  let size := (← get).stack.length
  if size < removed then throw (.stackUnderflow removed ((size : Int) - removed))
  else if 1024 < size - removed + added then
    throw (.outOfStack (((added : Int) - removed) % 2 ^ 32)
      ((size : Int) - removed + added))
  else return

def fetchInstruction (rules : Rules) (program : Program) :
    VMProcess Instruction := do
  let op := Instruction.ofByte (program.code.getD (← get).pc 0)
  adjustStack op.metric.args op.metric.ret
  setRunGas (rules.stepGas op.metric.gasPriceTier)
  modify fun machine => { machine with
    newMemSize := machine.mem.length, copyMemSize := 0 }
  return op

/-- The results go to the stack, and `NEXT`. -/
def next (args : Nat) (results : List U256) : VMProcess Flow := do
  modify fun machine => machine.finish args results 1
  return .proceed

/-! ## Words -/

/-- The position of the first bit that is set, from the most significant. -/
def firstBitSet (word : U256) : Nat :=
  ((List.range 256).find? fun position => word.getMsbD position).getD 256

/-- The loop of `exp256`, which shifts the exponent away. -/
def exp256Loop : Nat → U256 → U256 → U256 → U256
  | 0, result, _, _ => result
  | rounds + 1, result, base, exponent =>
      if exponent = 0 then result
      else exp256Loop rounds
        (if exponent.getLsbD 0 then result * base else result)
        (base * base) (exponent >>> 1)

def exp256 (base exponent : U256) : U256 := exp256Loop 256 1 base exponent

/-- The word of a truth value. -/
def flag (condition : Bool) : U256 := if condition then 1 else 0

def signextend (position number : U256) : U256 :=
  if position.toNat < 31 then
    let testBit := position.toNat * 8 + 7
    let mask : U256 := (1 <<< testBit) - 1
    if number.getLsbD testBit then number ||| ~~~mask else number &&& mask
  else number

def sar (amount shiftee : U256) : U256 :=
  let negative := shiftee.getLsbD 255
  if 256 ≤ amount.toNat then
    if negative then BitVec.allOnes 256 else 0
  else
    let shifted := shiftee >>> amount.toNat
    if negative then
      shifted ||| (BitVec.allOnes 256 <<< (256 - amount.toNat))
    else shifted

/-- `*(h256 const*)(data + offset)`, with zeros past the end. -/
def calldataload (data : Bytes) (offset : U256) : U256 :=
  let start := offset.toNat
  if start + 31 < data.length then wordOfBytes ((data.drop start).take 32)
  else if data.length ≤ start then 0
  else wordOfBytes ((List.range 32).map fun j => data.getD (start + j) 0)

/-- What an operation pushes. -/
def operationValue (ext : ExtVMFace) (machine : Machine) :
    WordOperation → U256
  | .add => machine.sp 0 + machine.sp 1
  | .mul => machine.sp 0 * machine.sp 1
  | .sub => machine.sp 0 - machine.sp 1
  | .div => if machine.sp 1 = 0 then 0 else machine.sp 0 / machine.sp 1
  | .sdiv => if machine.sp 1 = 0 then 0
      else BitVec.ofInt 256 ((machine.sp 0).toInt.tdiv (machine.sp 1).toInt)
  | .mod => if machine.sp 1 = 0 then 0 else machine.sp 0 % machine.sp 1
  | .smod => if machine.sp 1 = 0 then 0
      else BitVec.ofInt 256 ((machine.sp 0).toInt.tmod (machine.sp 1).toInt)
  | .addmod => if machine.sp 2 = 0 then 0
      else BitVec.ofNat 256 (((machine.sp 0).toNat + (machine.sp 1).toNat) %
        (machine.sp 2).toNat)
  | .mulmod => if machine.sp 2 = 0 then 0
      else BitVec.ofNat 256 ((machine.sp 0).toNat * (machine.sp 1).toNat %
        (machine.sp 2).toNat)
  | .signextend => signextend (machine.sp 0) (machine.sp 1)
  | .lt => flag (machine.sp 0 < machine.sp 1)
  | .gt => flag (machine.sp 1 < machine.sp 0)
  | .slt => flag ((machine.sp 0).toInt < (machine.sp 1).toInt)
  | .sgt => flag ((machine.sp 1).toInt < (machine.sp 0).toInt)
  | .eq => flag (machine.sp 0 = machine.sp 1)
  | .iszero => flag (machine.sp 0 = 0)
  | .and => machine.sp 0 &&& machine.sp 1
  | .or => machine.sp 0 ||| machine.sp 1
  | .xor => machine.sp 0 ^^^ machine.sp 1
  | .not => ~~~machine.sp 0
  | .byte =>
      if (machine.sp 0).toNat < 32 then
        (machine.sp 1 >>> (8 * (31 - (machine.sp 0).toNat))) &&& 0xff
      else 0
  | .shl => if 256 ≤ (machine.sp 0).toNat then 0
      else machine.sp 1 <<< (machine.sp 0).toNat
  | .shr => if 256 ≤ (machine.sp 0).toNat then 0
      else machine.sp 1 >>> (machine.sp 0).toNat
  | .sar => sar (machine.sp 0) (machine.sp 1)
  | .address => fromAddress ext.myAddress
  | .origin => fromAddress ext.origin
  | .caller => fromAddress ext.caller
  | .callvalue => ext.value
  | .calldataload => calldataload ext.data (machine.sp 0)
  | .calldatasize => BitVec.ofNat 256 ext.data.length
  | .codesize => BitVec.ofNat 256 ext.code.length
  | .gasprice => ext.gasPrice
  | .returndatasize => BitVec.ofNat 256 machine.returnData.length
  | .coinbase => fromAddress ext.envInfo.header.author
  | .timestamp => BitVec.ofInt 256 ext.envInfo.header.timestamp
  | .number => BitVec.ofInt 256 ext.envInfo.header.number
  | .difficulty => ext.envInfo.header.difficulty
  | .gaslimit => ext.envInfo.header.gasLimit
  | .pc => BitVec.ofNat 256 machine.pc
  | .msize => BitVec.ofNat 256 machine.mem.length
  | .gas => BitVec.ofNat 256 machine.gas

/-- Operations that came with a fork throw before it. -/
def supports (rules : Rules) : WordOperation → Bool
  | .shl | .shr | .sar => rules.haveBitwiseShifting
  | .returndatasize => rules.haveReturnData
  | _ => true

/-! ## Memory -/

/-- `copyDataToMemory(data, m_SP + position)`. -/
def copyDataToMemory (data : Bytes) (position : Nat) : VMProcess Unit :=
  modify fun machine =>
    let offset := toUInt64 (machine.sp position)
    let bigIndex := (machine.sp (position + 1)).toNat
    let size := toUInt64 (machine.sp (position + 2))
    let sizeToBeCopied :=
      if data.length < bigIndex + size then
        if data.length < bigIndex then 0 else data.length - bigIndex
      else size
    machine.writeMem offset ((data.drop bigIndex).take sizeToBeCopied ++
      List.replicate (size - sizeToBeCopied) 0)

/-- The offset of a memory access by `(unsigned)m_SP[0]`. -/
def unsignedOffset (word : U256) : Nat := word.toNat % 2 ^ 32

end Interpreter

end Aecmio

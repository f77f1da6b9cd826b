import Aecmio.Evm.Switch

/-!
# `LegacyVM`

The interpreter that takes its prices from an `EVMSchedule` and talks to the
`ExtVMFace` directly.  On entry it copies the code, collects the jump
destinations and, in an optimised build, rewrites pushes and jumps.
-/

namespace Aecmio

open Dialogues Interpreter

namespace LegacyVM

/-! ## Preparing the code -/

/-- The bytes of the instructions that `optimize` looks for or writes. -/
def byteJump : UInt8 := 0x56
def byteJumpi : UInt8 := 0x57
def byteJumpdest : UInt8 := 0x5b
def bytePushc : UInt8 := 0xac
def byteJumpc : UInt8 := 0xad
def byteJumpci : UInt8 := 0xae
def byteInvalid : UInt8 := 0xfe

/-- The number of bytes that a push instruction is followed by. -/
def pushSize (op : UInt8) : Nat :=
  if 0x60 ≤ op.toNat ∧ op.toNat ≤ 0x7f then op.toNat - 0x60 + 1 else 0

def copyCode (code : Bytes) (extraBytes : Nat) : Bytes :=
  code ++ List.replicate extraBytes 0

/-- The loop that builds the table of jump destinations; synthetic
instructions in the code become invalid. -/
def scanLoop (nBytes : Nat) : Nat → Nat → Program → Program
  | 0, _, program => program
  | fuel + 1, pc, program =>
      if pc < nBytes then
        let op := program.code.getD pc 0
        let code :=
          if op = bytePushc ∨ op = byteJumpc ∨ op = byteJumpci then
            program.code.set pc byteInvalid
          else program.code
        let jumpDests :=
          if op = byteJumpdest then program.jumpDests ++ [pc]
          else program.jumpDests
        scanLoop nBytes fuel (pc + pushSize op + 1)
          { program with code, jumpDests }
      else program

/-- A long push replaced by `PUSHC`, the two-byte index of the constant and
the number of bytes that are left. -/
def replacePush (program : Program) (pc nPush : Nat) (val : U256) : Program :=
  let poolOff := program.pool.length % 2 ^ 16
  let code := program.code.set pc bytePushc
  let code := code.set (pc + 3) (UInt8.ofNat (nPush - 2))
  let code := code.set (pc + 2) (UInt8.ofNat (poolOff % 256))
  let code := code.set (pc + 1) (UInt8.ofNat (poolOff / 256))
  { program with code, pool := program.pool ++ [val] }

/-- A jump to a constant destination replaced by one without a check. -/
def replaceJump (program : Program) (position : Nat) (val : U256) : Program :=
  let op := program.code.getD position 0
  if op = byteJump then
    if program.verifyJumpDest val then
      { program with code := program.code.set position byteJumpc }
    else program
  else if op = byteJumpi then
    if program.verifyJumpDest val then
      { program with code := program.code.set position byteJumpci }
    else program
  else program

/-- The loop of the first-pass optimisations. -/
def firstPassLoop (nBytes : Nat) : Nat → Nat → Program → Program
  | 0, _, program => program
  | fuel + 1, pc, program =>
      if pc < nBytes then
        let nPush := pushSize (program.code.getD pc 0)
        if nPush = 0 then firstPassLoop nBytes fuel (pc + 1) program
        else
          let val := program.pushData pc nPush
          let pooled :=
            if 5 < nPush then replacePush program pc nPush val else program
          firstPassLoop nBytes fuel (pc + nPush + 1)
            (replaceJump pooled (pc + nPush + 1) val)
      else program

/-- The code without the first pass. -/
def prepare (code : Bytes) : Program :=
  scanLoop code.length code.length 0 ⟨copyCode code 33, [], []⟩

def optimize (optimized : Bool) (code : Bytes) : Program :=
  if optimized then firstPassLoop code.length code.length 0 (prepare code)
  else prepare code

/-! ## Cases -/

def rules (schedule : EVMSchedule) : Rules where
  haveDelegateCall := schedule.haveDelegateCall
  haveBitwiseShifting := schedule.haveBitwiseShifting
  haveRevert := schedule.haveRevert
  haveReturnData := schedule.haveReturnData
  haveStaticCall := schedule.haveStaticCall
  stepGas tier := schedule.tierStepGas.getD tier.index 0
  expGas := schedule.expGas
  expByteGas := schedule.expByteGas
  sha3Gas := schedule.sha3Gas
  sha3WordGas := schedule.sha3WordGas
  sloadGas := schedule.sloadGas
  jumpdestGas := 1
  logGas := schedule.logGas
  logDataGas := schedule.logDataGas
  logTopicGas := schedule.logTopicGas
  memoryGas := schedule.memoryGas
  quadCoeffDiv := schedule.quadCoeffDiv
  copyGas := schedule.copyGas
  extcodesizeGas := schedule.extcodesizeGas
  extcodecopyGas := schedule.extcodecopyGas
  balanceGas := schedule.balanceGas

section

variable (ext : ExtVMFace)

/-- The price of a store; clearing a slot adds to the refunds at once. -/
def updateSSGas : VMProcess Unit := do
  let machine ← get
  let first ← ask (.store (machine.sp 0))
  if first = 0 ∧ machine.sp 1 ≠ 0 then
    setRunGas ext.evmSchedule.sstoreSetGas
  else
    let second ← ask (.store (machine.sp 0))
    if second ≠ 0 ∧ machine.sp 1 = 0 then
      setRunGas ext.evmSchedule.sstoreResetGas
      ask (.addRefund ext.evmSchedule.sstoreRefundGas)
    else setRunGas ext.evmSchedule.sstoreResetGas

def caseSstore : VMProcess Flow := do
  if ext.staticCall then throw .disallowedStateChange
  else
    updateSSGas ext
    updateIOGas
    let machine ← get
    ask (.setStore (machine.sp 0) (machine.sp 1))
    next 2 []

def caseExtcodecopy : VMProcess Flow := do
  let machine ← get
  setRunGas ext.evmSchedule.extcodecopyGas
  setCopyMemSize (machine.sp 3)
  updateMem (rules ext.evmSchedule) (← memNeed (machine.sp 1) (machine.sp 3))
  updateIOGas
  copyDataToMemory (← ask (.codeAt (asAddress (machine.sp 0)))) 1
  next 4 []

def caseBlockhash : VMProcess Flow :=
  askWord ext.evmSchedule.blockhashGas fun word => do
    let hash ← ask (.blockHash word)
    return wordOfBytes hash.val

/-- Zero-value suicides may be free of the price of a new account. -/
def chargeBeneficiary (dest : Address) : VMProcess Unit := do
  let balance ← ask (.balance ext.myAddress)
  if 0 < balance ∨
      ext.evmSchedule.zeroValueTransferChargesNewAccountGas then
    if ext.evmSchedule.suicideChargesNewAccountGas then
      let present ← ask (.exists_ dest)
      if present then return
      else addRunGas ext.evmSchedule.callNewAccountGas
    else return
  else return

def caseSuicide : VMProcess Flow := do
  if ext.staticCall then throw .disallowedStateChange
  else
    setRunGas ext.evmSchedule.suicideGas
    let dest := asAddress ((← get).sp 0)
    chargeBeneficiary ext dest
    updateIOGas
    ask (.suicide dest)
    return .halt []

/-- The gas after a creation that was given `createGas`. -/
def takeCreateGas (machine : Machine) (createGas gas : U256) : Machine :=
  { machine with
    gas := toUInt64 (BitVec.ofNat 256 machine.gas - (createGas - gas))
    wrapped := machine.wrapped ||
      decide (createGas < gas ∨ machine.gas < (createGas - gas).toNat) }

/-- The endowment, the salt and the init code's place in memory. -/
def createArgs (machine : Machine) : CreateKind → U256 × U256 × U256 × U256
  | .create => (machine.sp 0, 0, machine.sp 1, machine.sp 2)
  | .create2 => (machine.sp 0, machine.sp 1, machine.sp 2, machine.sp 3)

/-- The number of arguments on the stack. -/
def createArity : CreateKind → Nat
  | .create => 3
  | .create2 => 4

/-- The creation itself, once it is paid for. -/
def makeCreate (kind : CreateKind) (endowment salt initOff initSize : U256) :
    VMProcess Flow := do
  modify fun machine => { machine with returnData := [] }
  let balance ← ask (.balance ext.myAddress)
  if endowment ≤ balance ∧ ext.depth < 1024 then
    let machine ← get
    let all := BitVec.ofNat 256 machine.gas
    let createGas :=
      if ext.evmSchedule.staticCallDepthLimit then all else all - all / 64
    let init := machine.slice (toUInt64 initOff) (toUInt64 initSize)
    let result ← ask (.create endowment createGas init kind salt)
    modify fun machine =>
      { takeCreateGas machine createGas result.gas with
        returnData := result.output }
    next (createArity kind) [fromAddress result.address]
  else next (createArity kind) [0]

def caseCreate (kind : CreateKind) : VMProcess Flow := do
  setRunGas ext.evmSchedule.createGas
  let (endowment, salt, initOff, initSize) := createArgs (← get) kind
  updateMem (rules ext.evmSchedule) (← memNeed initOff initSize)
  updateIOGas
  makeCreate ext kind endowment salt initOff initSize

/-- `CALL` and `CALLCODE` have a value on the stack. -/
def haveValueArg : CallKind → Bool
  | .call | .callcode => true
  | .delegatecall | .staticcall => false

/-- The price of a call to an account that does not exist. -/
def chargeNewAccount (kind : CallKind) (destination : Address) (value : U256) :
    VMProcess Unit := do
  if kind = .call then
    let present ← ask (.exists_ destination)
    if present then return
    else if 0 < value ∨
        ext.evmSchedule.zeroValueTransferChargesNewAccountGas then
      addRunGas ext.evmSchedule.callNewAccountGas
    else return
  else return

/-- The price of moving value. -/
def chargeValue (kind : CallKind) (value : U256) : VMProcess Unit :=
  if haveValueArg kind ∧ 0 < value then
    addRunGas ext.evmSchedule.callValueTransferGas
  else return

/-- The gas asked for, or all but one 64th of what is left. -/
def callGas (machine : Machine) : U256 :=
  if ext.evmSchedule.staticCallDepthLimit then machine.sp 0
  else
    let left := BitVec.ofNat 256 (machine.gas - machine.gas / 64)
    if machine.sp 0 ≤ left then machine.sp 0 else left

/-- The parameters of a call once it is paid for. -/
def callParameters (kind : CallKind) (machine : Machine) (gas : U256)
    (inOff inSize : Nat) : CallParameters :=
  let destination := asAddress (machine.sp 1)
  let value := machine.sp 2
  { senderAddress :=
      if kind = .delegatecall then ext.caller else ext.myAddress
    codeAddress := destination
    receiveAddress :=
      if kind = .call ∨ kind = .staticcall then destination
      else ext.myAddress
    valueTransfer := if haveValueArg kind then value else 0
    apparentValue :=
      if haveValueArg kind then value
      else if kind = .delegatecall then ext.value else 0
    gas :=
      if haveValueArg kind ∧ 0 < value then
        gas + BitVec.ofNat 256 ext.evmSchedule.callStipend
      else gas
    data := machine.slice inOff inSize
    staticCall := decide (kind = .staticcall) || ext.staticCall }

/-- Where the input and the output of a call are in memory. -/
structure CallMemory where
  inputOffset : U256
  inputSize : U256
  outputOffset : U256
  outputSize : U256

def callMemory (kind : CallKind) (machine : Machine) : CallMemory :=
  let sizesOffset := if haveValueArg kind then 3 else 2
  { inputOffset := machine.sp sizesOffset
    inputSize := machine.sp (sizesOffset + 1)
    outputOffset := machine.sp (sizesOffset + 2)
    outputSize := machine.sp (sizesOffset + 3) }

/-- Payment for the call; its parameters, and whether it can be made. -/
def caseCallSetup (kind : CallKind) : VMProcess (CallParameters × Bool) := do
  let start ← get
  setRunGas ext.evmSchedule.callGas
  chargeNewAccount ext kind (asAddress (start.sp 1)) (start.sp 2)
  chargeValue ext kind (start.sp 2)
  let place := callMemory kind start
  let inputMemNeed ← memNeed place.inputOffset place.inputSize
  let outputMemNeed ← memNeed place.outputOffset place.outputSize
  updateMem (rules ext.evmSchedule) (max inputMemNeed outputMemNeed)
  updateIOGas
  let gas := callGas ext (← get)
  setRunGas (← toInt63 gas.toNat)
  updateIOGas
  let params := callParameters ext kind (← get) gas
    (toUInt64 place.inputOffset) (toUInt64 place.inputSize)
  let balance ← ask (.balance ext.myAddress)
  return (params, decide (params.valueTransfer ≤ balance ∧ ext.depth < 1024))

/-- The number of arguments on the stack. -/
def callArity (kind : CallKind) : Nat := if haveValueArg kind then 7 else 6

def caseCall (kind : CallKind) : VMProcess Flow := do
  let place := callMemory kind (← get)
  modify fun machine => { machine with returnData := [] }
  let (params, possible) ← caseCallSetup ext kind
  if possible then
    let result ← ask (.call params)
    modify fun machine =>
      { machine.writeMem (toUInt64 place.outputOffset)
          (result.output.take (toUInt64 place.outputSize)) with
        returnData := result.output }
    modify fun machine => machine.addGas (toUInt64 result.gas)
    next (callArity kind) [flag (result.status = .success)]
  else
    modify fun machine => machine.addGas (toUInt64 params.gas)
    next (callArity kind) [0]

/-- The checks of the case label, before the call is set up. -/
def checkCall (kind : CallKind) : VMProcess Flow := do
  let machine ← get
  if kind = .delegatecall ∧ !ext.evmSchedule.haveDelegateCall then
    throw .badInstruction
  else if kind = .staticcall ∧ !ext.evmSchedule.haveStaticCall then
    throw .badInstruction
  else if kind = .call ∧ ext.staticCall ∧ machine.sp 2 ≠ 0 then
    throw .disallowedStateChange
  else caseCall ext kind

/-- The interpreter in a frame. -/
def variant (optimized : Bool) : Variant where
  rules := rules ext.evmSchedule
  ext
  optimized
  sstore := caseSstore ext
  extcodecopy := caseExtcodecopy ext
  blockhash := caseBlockhash ext
  suicide := caseSuicide ext
  create := if ext.staticCall then throw .disallowedStateChange
    else caseCreate ext .create
  create2 := if !ext.evmSchedule.haveCreate2 then throw .badInstruction
    else caseCreate ext .create2
  call := checkCall ext

end

end LegacyVM

/-- The result of `exec`: the output or the exception, and the gas left. -/
structure ExecResult where
  outcome : Except VMException Bytes
  gas : Nat

/-- `none` stands for a loop that was cut off. -/
def ExecResult.ofRun : EStateM.Result VMException Machine (Option Bytes) →
    Option ExecResult
  | .ok (some output) machine => some ⟨.ok output, machine.gas⟩
  | .ok none _ => none
  | .error error machine => some ⟨.error error, machine.gas⟩

variable [Hashing]

/-- `LegacyVM::exec`, for at most `fuel` instructions. -/
def LegacyVM.exec (optimized : Bool) (ext : ExtVMFace) (gas : U256)
    (fuel : Nat) : Dialogue ExtVMFace.interface (Option ExecResult) :=
  (interpret (variant ext optimized) (optimize optimized ext.code) fuel
    { gas := toUInt64 gas }).bind fun result => .done (ExecResult.ofRun result)

/-! ## Sample frames -/

/-- The hashes of nothing. -/
@[reducible]
def frameSampleHashing : Hashing where
  sha3 text := if text = [] then hashOfNat
      0xc5d2460186f7233c927e7db2dcc703c0e500b653ca82273b7bfad8045d85a470
    else hashOfNat 0
  trieRoot contents := if contents = ∅ then hashOfNat
      0x56e81f171bcc55a6ff8345e692c0f86e5b48e01b996cadc001622fb5e363b421
    else hashOfNat 0

/-- A frame of block 1 that runs a code without value or input. -/
def frameSample (evmSchedule : EVMSchedule) (code : Bytes) : ExtVMFace where
  envInfo :=
    { header := { number := 1, timestamp := 1, gasLimit := 3141592 }
      lastHashes := fun hash => [hash]
      gasUsed := 0 }
  myAddress := asAddress 1
  caller := asAddress 2
  origin := asAddress 2
  value := 0
  gasPrice := 0
  data := []
  code
  depth := 0
  isCreate := false
  staticCall := false
  evmSchedule

end Aecmio

import Aecmio.Evm.Instruction

/-!
# Gas schedules

`EVMSchedule` has the prices and the switches of a fork.  The interpreter
that is called through EVMC gets a revision number instead, which is read
off the switches.
-/

namespace Aecmio

/-- The position of a tier in `tierStepGas`. -/
def Tier.index : Tier → Nat
  | .zero => 0
  | .base => 1
  | .veryLow => 2
  | .low => 3
  | .mid => 4
  | .high => 5
  | .ext => 6
  | .special => 7
  | .invalid => 8

/-- Prices are `unsigned`. -/
structure EVMSchedule where
  exceptionalFailedCodeDeposit : Bool := true
  haveDelegateCall : Bool := true
  eip150Mode : Bool := false
  eip158Mode : Bool := false
  haveBitwiseShifting : Bool := false
  haveRevert : Bool := false
  haveReturnData : Bool := false
  haveStaticCall : Bool := false
  haveCreate2 : Bool := false
  tierStepGas : List Nat := [0, 2, 3, 5, 8, 10, 20, 0]
  expGas : Nat := 10
  expByteGas : Nat := 10
  sha3Gas : Nat := 30
  sha3WordGas : Nat := 6
  sloadGas : Nat := 50
  sstoreSetGas : Nat := 20000
  sstoreResetGas : Nat := 5000
  sstoreRefundGas : Nat := 15000
  logGas : Nat := 375
  logDataGas : Nat := 8
  logTopicGas : Nat := 375
  createGas : Nat := 32000
  callGas : Nat := 40
  callStipend : Nat := 2300
  callValueTransferGas : Nat := 9000
  callNewAccountGas : Nat := 25000
  suicideRefundGas : Nat := 24000
  memoryGas : Nat := 3
  quadCoeffDiv : Nat := 512
  createDataGas : Nat := 200
  txGas : Nat := 21000
  txCreateGas : Nat := 53000
  txDataZeroGas : Nat := 4
  txDataNonZeroGas : Nat := 68
  copyGas : Nat := 3
  extcodesizeGas : Nat := 20
  extcodecopyGas : Nat := 20
  balanceGas : Nat := 20
  suicideGas : Nat := 0
  blockhashGas : Nat := 20
  maxCodeSize : Nat := 2 ^ 32 - 1
  /-- Nothing divides by zero. -/
  quadCoeffDiv_pos : 0 < quadCoeffDiv := by decide
deriving DecidableEq

namespace EVMSchedule

def staticCallDepthLimit (schedule : EVMSchedule) : Bool :=
  !schedule.eip150Mode

def suicideChargesNewAccountGas (schedule : EVMSchedule) : Bool :=
  schedule.eip150Mode

def emptinessIsNonexistence (schedule : EVMSchedule) : Bool :=
  schedule.eip158Mode

def zeroValueTransferChargesNewAccountGas (schedule : EVMSchedule) : Bool :=
  !schedule.eip158Mode

def default : EVMSchedule := {}

def frontier : EVMSchedule :=
  { exceptionalFailedCodeDeposit := false
    haveDelegateCall := false
    txCreateGas := 21000 }

def homestead : EVMSchedule := { txCreateGas := 53000 }

def eip150 : EVMSchedule :=
  { homestead with
    eip150Mode := true
    extcodesizeGas := 700
    extcodecopyGas := 700
    balanceGas := 400
    sloadGas := 200
    callGas := 700
    suicideGas := 5000 }

def eip158 : EVMSchedule :=
  { eip150 with
    expByteGas := 50
    eip158Mode := true
    maxCodeSize := 0x6000 }

def byzantium : EVMSchedule :=
  { eip158 with
    haveRevert := true
    haveReturnData := true
    haveStaticCall := true }

def ewasm : EVMSchedule :=
  { byzantium with
    maxCodeSize := 2 ^ 32 - 1
    txDataZeroGas := byzantium.txDataNonZeroGas }

def constantinople : EVMSchedule :=
  { byzantium with
    blockhashGas := 800
    haveCreate2 := true
    haveBitwiseShifting := true }

/-- The schedules of `EVMSchedule.h`. -/
def builtIn : List EVMSchedule :=
  [default, frontier, homestead, eip150, eip158, byzantium, ewasm,
    constantinople]

end EVMSchedule

/-- `evmc_revision`. -/
inductive Revision where
  | frontier
  | homestead
  | tangerineWhistle
  | spuriousDragon
  | byzantium
  | constantinople
deriving DecidableEq

namespace Revision

def index : Revision → Nat
  | frontier => 0
  | homestead => 1
  | tangerineWhistle => 2
  | spuriousDragon => 3
  | byzantium => 4
  | constantinople => 5

/-- `rev >= other`. -/
def atLeast (revision other : Revision) : Bool :=
  decide (other.index ≤ revision.index)

end Revision

def toRevision (schedule : EVMSchedule) : Revision :=
  if schedule.haveCreate2 then .constantinople
  else if schedule.haveRevert then .byzantium
  else if schedule.eip158Mode then .spuriousDragon
  else if schedule.eip150Mode then .tangerineWhistle
  else if schedule.haveDelegateCall then .homestead
  else .frontier

end Aecmio

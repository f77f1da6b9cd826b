import Aecmio.Evm.LegacyVM

/-!
# Gas metering

The gas that is left together with the price of the memory in use never
grows, and every instruction that lets the loop go on lowers it.  So the gas
of a frame bounds the number of its instructions.  The environment may answer
as it likes, as long as calls and creations hand back no more gas than they
were given.
-/

namespace Aecmio

open Dialogues Interpreter

/-- Calls and creations hand back at most the gas they were given. -/
def KeepsGas : (question : ExtVMFace.Question) →
    ExtVMFace.Answer question → Prop
  | .call params, result => result.gas ≤ params.gas
  | .create _ gas _ _ _, result => result.gas ≤ gas
  | _, _ => True

/-- The price of a memory of this size. -/
def memCost (rules : Rules) (size : Nat) : Nat :=
  rules.memoryGas * (size / 32) +
    size / 32 * (size / 32) / rules.quadCoeffDiv

theorem memCost_mono (rules : Rules) {small large : Nat}
    (le : small ≤ large) : memCost rules small ≤ memCost rules large := by
  have words : small / 32 ≤ large / 32 := Nat.div_le_div_right le
  have linear := Nat.mul_le_mul_left rules.memoryGas words
  have quadratic : small / 32 * (small / 32) / rules.quadCoeffDiv ≤
      large / 32 * (large / 32) / rules.quadCoeffDiv :=
    Nat.div_le_div_right (Nat.mul_le_mul words words)
  unfold memCost
  omega

/-- The facts about prices that the accounting rests on. -/
structure Priced (schedule : EVMSchedule) : Prop where
  step : ∀ tier ∈ ([.base, .veryLow, .low, .mid, .high] : List Tier),
    0 < schedule.tierStepGas.getD tier.index 0
  small : ∀ tier : Tier, schedule.tierStepGas.getD tier.index 0 < 2 ^ 32
  exp : 0 < schedule.expGas ∧
    schedule.expGas + schedule.expByteGas * 32 < 2 ^ 32
  sha3 : 0 < schedule.sha3Gas
  log : 0 < schedule.logGas ∧
    schedule.logGas + schedule.logTopicGas * 4 < 2 ^ 32
  sload : 0 < schedule.sloadGas
  sstore : 0 < schedule.sstoreSetGas ∧ 0 < schedule.sstoreResetGas
  create : 0 < schedule.createGas ∧ schedule.createGas < 2 ^ 32
  call : 0 < schedule.callGas ∧ schedule.callGas +
    schedule.callNewAccountGas + schedule.callValueTransferGas < 2 ^ 32
  stipend : schedule.callStipend ≤ schedule.callValueTransferGas
  suicide : schedule.suicideGas + schedule.callNewAccountGas < 2 ^ 32
  extcodesize : 0 < schedule.extcodesizeGas
  extcodecopy : 0 < schedule.extcodecopyGas ∧
    schedule.extcodecopyGas < 2 ^ 32
  balance : 0 < schedule.balanceGas
  blockhash : 0 < schedule.blockhashGas
  copy : schedule.copyGas ≤ 3

theorem Priced.ofBuiltIn {schedule : EVMSchedule}
    (builtIn : schedule ∈ EVMSchedule.builtIn) : Priced schedule := by
  have tiers : ∀ member ∈ EVMSchedule.builtIn, ∀ tier : Tier,
      member.tierStepGas.getD tier.index 0 < 2 ^ 32 := by
    intro member inside tier
    cases tier <;> revert member <;> decide
  constructor
  · revert schedule
    decide
  · exact tiers schedule builtIn
  all_goals
    revert schedule
    decide

/-! ## One step -/

/-- The accounts are in order, with less than `2 ^ 63` to spend. -/
structure Solvent (rules : Rules) (machine : Machine) : Prop where
  aligned : 32 ∣ machine.mem.length
  intact : machine.wrapped = false
  bounded : machine.gas + memCost rules machine.mem.length < 2 ^ 63

/-- At least `spent` is gone from one machine to the other. -/
structure Spends (rules : Rules) (machine : Machine) (spent : Nat)
    (machine' : Machine) : Prop where
  aligned : 32 ∣ machine'.mem.length
  intact : machine'.wrapped = false
  grows : machine.mem.length ≤ machine'.mem.length
  paid : machine'.gas + memCost rules machine'.mem.length + spent ≤
    machine.gas + memCost rules machine.mem.length

variable {rules : Rules} {machine machine' machine'' : Machine}
  {spent spent' : Nat}

theorem Solvent.spends (solvent : Solvent rules machine) :
    Spends rules machine 0 machine :=
  ⟨solvent.aligned, solvent.intact, Nat.le_refl _, Nat.le_refl _⟩

theorem Spends.solvent (spends : Spends rules machine spent machine')
    (solvent : Solvent rules machine) : Solvent rules machine' := by
  refine ⟨spends.aligned, spends.intact, ?_⟩
  have bounded := solvent.bounded
  have paid := spends.paid
  omega

theorem Spends.trans (first : Spends rules machine spent machine')
    (second : Spends rules machine' spent' machine'') :
    Spends rules machine (spent + spent') machine'' := by
  refine ⟨second.aligned, second.intact, first.grows.trans second.grows, ?_⟩
  have paidFirst := first.paid
  have paidSecond := second.paid
  omega

theorem Spends.mono (spends : Spends rules machine spent machine')
    (le : spent' ≤ spent) : Spends rules machine spent' machine' := by
  refine ⟨spends.aligned, spends.intact, spends.grows, ?_⟩
  have paid := spends.paid
  omega

theorem Spends.gas (spends : Spends rules machine spent machine') :
    machine'.gas + spent ≤ machine.gas := by
  have paid := spends.paid
  have mono := memCost_mono rules spends.grows
  omega

/-- A machine that has the same gas, memory and record of wrapping. -/
structure SameAccount (machine machine' : Machine) : Prop where
  gas : machine'.gas = machine.gas
  mem : machine'.mem.length = machine.mem.length
  wrapped : machine'.wrapped = machine.wrapped

theorem Solvent.same (solvent : Solvent rules machine)
    (same : SameAccount machine machine') : Solvent rules machine' := by
  refine ⟨?_, ?_, ?_⟩
  · rw [same.mem]
    exact solvent.aligned
  · rw [same.wrapped]
    exact solvent.intact
  · rw [same.gas, same.mem]
    exact solvent.bounded

theorem Spends.same (spends : Spends rules machine spent machine')
    (same : SameAccount machine' machine'') :
    Spends rules machine spent machine'' := by
  refine ⟨?_, ?_, ?_, ?_⟩
  · rw [same.mem]
    exact spends.aligned
  · rw [same.wrapped]
    exact spends.intact
  · rw [same.mem]
    exact spends.grows
  · rw [same.gas, same.mem]
    exact spends.paid

@[simp]
theorem Machine.length_writeMem (machine : Machine) (offset : Nat)
    (data : Bytes) :
    (machine.writeMem offset data).mem.length = machine.mem.length := by
  simp only [Machine.writeMem, List.length_append, List.length_take,
    List.length_drop]
  omega

theorem SameAccount.writeMem (machine : Machine) (offset : Nat)
    (data : Bytes) : SameAccount machine (machine.writeMem offset data) :=
  ⟨rfl, machine.length_writeMem offset data, rfl⟩

/-! ## Rules for the parts of an instruction -/

section

variable {α : Type}
  {allowed : (question : ExtVMFace.Question) →
    ExtVMFace.Answer question → Prop}
  {post : List (Dialogue.Exchange ExtVMFace.interface) →
    EStateM.Result VMException Machine α → Prop}

theorem ensures_toInt63 {value : Nat} {next : Nat → VMProcess α}
    (fails : post [] (.error .outOfGas machine))
    (fits : value < 2 ^ 63 → Process.Ensures allowed (next value) machine
      post) :
    Process.Ensures allowed (toInt63 value >>= next) machine post := by
  unfold toInt63
  split
  · exact fails
  · exact fits (by omega)

theorem ensures_updateIOGas {next : Unit → VMProcess α}
    (solvent : Solvent rules machine)
    (fails : post [] (.error .outOfGas machine))
    (pays : ∀ paid, Spends rules machine machine.runGas paid →
      paid = { machine with gas := machine.gas - machine.runGas } →
      Process.Ensures allowed (next ()) paid post) :
    Process.Ensures allowed (updateIOGas >>= next) machine post := by
  have unfolded : Process.Ensures allowed (updateIOGas >>= next) machine post ↔
      Process.Ensures allowed ((if machine.gas < machine.runGas then
        throw .outOfGas
      else set { machine with gas := machine.gas - machine.runGas }) >>= next)
        machine post := Iff.rfl
  rw [unfolded]
  split
  · exact fails
  · refine pays _ ⟨solvent.aligned, solvent.intact, Nat.le_refl _, ?_⟩ rfl
    simp only
    omega

/-- A price without wrapping. -/
theorem ensures_addRunGas {amount : Nat} {next : Unit → VMProcess α}
    (fits : machine.runGas + amount < 2 ^ 64)
    (adds : Process.Ensures allowed (next ())
      { machine with runGas := machine.runGas + amount } post) :
    Process.Ensures allowed (addRunGas amount >>= next) machine post := by
  have same : { machine with
      runGas := (machine.runGas + amount) % 2 ^ 64
      wrapped := machine.wrapped ||
        decide (2 ^ 64 ≤ machine.runGas + amount) } =
      { machine with runGas := machine.runGas + amount } := by
    have kept : decide (2 ^ 64 ≤ machine.runGas + amount) = false :=
      decide_eq_false (by omega)
    rw [Nat.mod_eq_of_lt fits, kept, Bool.or_false]
  rw [← same] at adds
  exact adds

/-- The memory price is added to what is charged. -/
theorem ensures_chargeMemory {next : Unit → VMProcess α}
    (solvent : Solvent rules machine) (price : machine.runGas < 2 ^ 63)
    (fails : post [] (.error .outOfGas machine))
    (charges : ∀ delta, delta < 2 ^ 63 →
      delta + memCost rules machine.mem.length = memCost rules
        (max machine.mem.length machine.newMemSize) →
      Process.Ensures allowed (next ())
        { machine with runGas := machine.runGas + delta } post) :
    Process.Ensures allowed (chargeMemory rules >>= next) machine post := by
  have unfolded : Process.Ensures allowed (chargeMemory rules >>= next)
      machine post ↔ Process.Ensures allowed
        ((if machine.mem.length < machine.newMemSize then do
          let new ← gasForMem rules machine.newMemSize
          let old ← gasForMem rules machine.mem.length
          addRunGas (← toInt63 ((2 ^ 64 + new - old) % 2 ^ 64))
        else pure ()) >>= next) machine post := Iff.rfl
  rw [unfolded]
  split
  · rename_i larger
    have mono := memCost_mono rules (Nat.le_of_lt larger)
    have bounded := solvent.bounded
    simp only [bind_assoc]
    refine ensures_toInt63 fails fun newFits => ?_
    refine ensures_toInt63 fails fun oldFits => ?_
    change memCost rules machine.newMemSize < _ at newFits
    have difference : (2 ^ 64 + memCost rules machine.newMemSize -
        memCost rules machine.mem.length) % 2 ^ 64 =
        memCost rules machine.newMemSize -
          memCost rules machine.mem.length := by
      omega
    refine ensures_toInt63 fails fun _ => ?_
    refine ensures_addRunGas ?_ ?_
    · change _ + (2 ^ 64 + memCost rules machine.newMemSize -
        memCost rules machine.mem.length) % 2 ^ 64 < _
      omega
    · change Process.Ensures allowed (next ()) { machine with
        runGas := machine.runGas +
          (2 ^ 64 + memCost rules machine.newMemSize -
            memCost rules machine.mem.length) % 2 ^ 64 } post
      rw [difference]
      refine charges _ (by omega) ?_
      rw [max_eq_right (Nat.le_of_lt larger)]
      omega
  · rename_i enough
    exact charges 0 (by omega) (by rw [max_eq_left (by omega)]; omega)

/-- Growing the memory and paying for the instruction. -/
theorem ensures_payMem {newMem : Nat} {next : Unit → VMProcess α}
    (solvent : Solvent rules machine) (price : machine.runGas < 2 ^ 63)
    (copied : machine.copyMemSize < 2 ^ 63)
    (cheap : machine.copyMemSize = 0 ∨ machine.runGas < 2 ^ 32)
    (copyGas : rules.copyGas ≤ 3)
    (fails : ∀ failed, SameAccount machine failed →
      post [] (.error .outOfGas failed))
    (pays : ∀ paid, Spends rules machine machine.runGas paid →
      paid.stack = machine.stack →
      Process.Ensures allowed (next ()) paid post) :
    Process.Ensures allowed
      (updateMem rules newMem >>= fun _ => updateIOGas >>= next) machine
      post := by
  simp only [updateMem, updateGas, bind_assoc]
  rw [Process.ensures_modify_bind]
  -- The size is set; nothing else has changed.
  set sized : Machine := { machine with
    newMemSize := (newMem + 31) % 2 ^ 64 / 32 * 32 } with sizedEq
  have solventSized : Solvent rules sized := solvent.same ⟨rfl, rfl, rfl⟩
  refine ensures_chargeMemory solventSized price (fails _ ⟨rfl, rfl, rfl⟩) ?_
  intro delta small cost
  have words : (machine.copyMemSize + 31) / 32 ≤ 2 ^ 58 := by omega
  have copies : rules.copyGas * ((machine.copyMemSize + 31) / 32) ≤ 2 ^ 60 :=
    (Nat.mul_le_mul copyGas words).trans (by norm_num)
  have copyPrice : machine.runGas + delta +
      rules.copyGas * ((machine.copyMemSize + 31) / 32) % 2 ^ 64 < 2 ^ 64 := by
    rcases cheap with none | low
    · rw [none]
      omega
    · omega
  rw [Process.ensures_get_bind]
  refine ensures_addRunGas copyPrice ?_
  rw [Process.ensures_get_bind]
  set charged : Machine := { sized with
    runGas := machine.runGas + delta +
      rules.copyGas * ((machine.copyMemSize + 31) / 32) % 2 ^ 64 }
    with chargedEq
  have total : charged.runGas = machine.runGas + delta +
    rules.copyGas * ((machine.copyMemSize + 31) / 32) % 2 ^ 64 := rfl
  split
  · exact fails _ ⟨rfl, rfl, rfl⟩
  · rename_i enough
    rw [pure_bind, Process.ensures_modify_bind]
    have length : charged.growMem.mem.length =
        max machine.mem.length sized.newMemSize := by
      show (machine.mem ++ List.replicate
        (sized.newMemSize - machine.mem.length) 0).length = _
      rw [List.length_append, List.length_replicate]
      omega
    have affordable : ¬ charged.growMem.gas < charged.growMem.runGas := enough
    rw [updateIOGas, bind_assoc, Process.ensures_get_bind,
      if_neg affordable, Process.ensures_set_bind]
    refine pays _ ⟨?_, solvent.intact, ?_, ?_⟩ rfl
    · rw [length]
      rcases le_total machine.mem.length sized.newMemSize with le | le
      · rw [max_eq_right le]
        exact Nat.dvd_mul_left _ _
      · rw [max_eq_left le]
        exact solvent.aligned
    · rw [length]
      exact le_max_left _ _
    · rw [length]
      change charged.gas - charged.runGas + _ + _ ≤ charged.gas + _
      change _ = memCost rules (max machine.mem.length sized.newMemSize)
        at cost
      change delta + memCost rules machine.mem.length = _ at cost
      omega

end

/-! ## What an instruction accounts for -/

/-- The machine that a run leaves behind. -/
def machineOf {α : Type} : EStateM.Result VMException Machine α → Machine
  | .ok _ machine => machine
  | .error _ machine => machine

/-- What one round has to pay: anything when the loop goes on. -/
def leastPrice : EStateM.Result VMException Machine Flow → Nat
  | .ok .proceed _ => 1
  | _ => 0

/-- A call or creation hands back no more than was taken for it and the
stipend, which the price of moving value pays for. -/
def HandsBack (schedule : EVMSchedule) (before after : Machine) :
    Dialogue.Exchange ExtVMFace.interface → Prop
  | ⟨.call params, result⟩ =>
      after.gas + params.gas.toNat + schedule.callGas +
        (if 0 < params.valueTransfer then
          schedule.callValueTransferGas - schedule.callStipend else 0) ≤
        before.gas + result.gas.toNat
  | ⟨.create _ gas _ _ _, result⟩ =>
      after.gas + gas.toNat + schedule.createGas ≤
        before.gas + result.gas.toNat
  | _ => True

/-- One round from a machine, with what it asked, is paid for. -/
structure Accounted (schedule : EVMSchedule) (machine : Machine)
    (exchanges : List (Dialogue.Exchange ExtVMFace.interface))
    (result : EStateM.Result VMException Machine Flow) : Prop where
  spends : Spends (LegacyVM.rules schedule) machine (leastPrice result)
    (machineOf result)
  handsBack : ∀ exchange ∈ exchanges,
    HandsBack schedule machine (machineOf result) exchange

/-- Questions other than calls and creations. -/
def Harmless : ExtVMFace.Question → Prop
  | .call _ | .create .. => False
  | _ => True

section

variable {schedule : EVMSchedule} {current : Machine}

theorem Spends.accounted_error {error : VMException}
    (spends : Spends (LegacyVM.rules schedule) machine spent current) :
    Accounted schedule machine [] (.error error current) :=
  ⟨spends.mono (Nat.zero_le _), by simp⟩

theorem Spends.accounted_halt {output : Bytes}
    (spends : Spends (LegacyVM.rules schedule) machine spent current) :
    Accounted schedule machine [] (.ok (.halt output) current) :=
  ⟨spends.mono (Nat.zero_le _), by simp⟩

theorem Spends.accounted_proceed
    (spends : Spends (LegacyVM.rules schedule) machine spent current)
    (positive : 0 < spent) :
    Accounted schedule machine [] (.ok .proceed current) :=
  ⟨spends.mono positive, by simp⟩

theorem Spends.accounted_next {args : Nat} {results : List U256}
    (spends : Spends (LegacyVM.rules schedule) machine spent current)
    (positive : 0 < spent) :
    Process.Ensures KeepsGas (next args results) current
      (Accounted schedule machine) := by
  have moved : Spends (LegacyVM.rules schedule) machine spent
      (current.finish args results 1) := spends.same ⟨rfl, rfl, rfl⟩
  exact moved.accounted_proceed positive

theorem accounted_ask {question : ExtVMFace.Question}
    {next : ExtVMFace.Answer question → VMProcess Flow}
    (harmless : Harmless question)
    (continues : ∀ answer, Process.Ensures KeepsGas (next answer) current
      (Accounted schedule machine)) :
    Process.Ensures KeepsGas (ask question >>= next) current
      (Accounted schedule machine) := by
  refine Process.ensures_ask_bind.mpr ?_
  intro answer _
  refine (continues answer).mono ?_
  intro exchanges result accounted
  refine ⟨accounted.spends, ?_⟩
  intro exchange member
  rcases List.mem_cons.mp member with first | later
  · subst first
    cases question <;> first | exact trivial | exact harmless.elim
  · exact accounted.handsBack exchange later

theorem accounted_toInt63 {value : Nat} {next : Nat → VMProcess Flow}
    (spends : Spends (LegacyVM.rules schedule) machine spent current)
    (fits : value < 2 ^ 63 → Process.Ensures KeepsGas (next value) current
      (Accounted schedule machine)) :
    Process.Ensures KeepsGas (toInt63 value >>= next) current
      (Accounted schedule machine) :=
  ensures_toInt63 spends.accounted_error fits

theorem accounted_updateIOGas {next : Unit → VMProcess Flow}
    (solvent : Solvent (LegacyVM.rules schedule) machine)
    (spends : Spends (LegacyVM.rules schedule) machine spent current)
    (pays : ∀ paid,
      Spends (LegacyVM.rules schedule) machine (spent + current.runGas) paid →
      paid = { current with gas := current.gas - current.runGas } →
      Process.Ensures KeepsGas (next ()) paid (Accounted schedule machine)) :
    Process.Ensures KeepsGas (updateIOGas >>= next) current
      (Accounted schedule machine) := by
  refine ensures_updateIOGas (spends.solvent solvent) spends.accounted_error ?_
  intro paid more same
  exact pays paid (spends.trans more) same

theorem accounted_payMem {newMem : Nat} {next : Unit → VMProcess Flow}
    (priced : Priced schedule)
    (solvent : Solvent (LegacyVM.rules schedule) machine)
    (spends : Spends (LegacyVM.rules schedule) machine spent current)
    (price : current.runGas < 2 ^ 63)
    (copied : current.copyMemSize < 2 ^ 63)
    (cheap : current.copyMemSize = 0 ∨ current.runGas < 2 ^ 32)
    (pays : ∀ paid,
      Spends (LegacyVM.rules schedule) machine (spent + current.runGas) paid →
      paid.stack = current.stack →
      Process.Ensures KeepsGas (next ()) paid (Accounted schedule machine)) :
    Process.Ensures KeepsGas
      (updateMem (LegacyVM.rules schedule) newMem >>= fun _ =>
        updateIOGas >>= next) current (Accounted schedule machine) := by
  refine ensures_payMem (spends.solvent solvent) price copied cheap
    priced.copy ?_ ?_
  · intro failed same
    exact (spends.same same).accounted_error
  · intro paid more same
    exact pays paid (spends.trans more) same

/-! ## The cases -/

/-- The machine after the fetch, with the price of the tier. -/
structure Fetched (schedule : EVMSchedule) (tier : Tier)
    (machine current : Machine) : Prop where
  same : SameAccount machine current
  runGas : current.runGas = schedule.tierStepGas.getD tier.index 0
  copyMemSize : current.copyMemSize = 0

variable {tier : Tier}

theorem Fetched.spends (fetched : Fetched schedule tier machine current)
    (solvent : Solvent (LegacyVM.rules schedule) machine) :
    Spends (LegacyVM.rules schedule) machine 0 current :=
  solvent.spends.same fetched.same

theorem Fetched.cheap (fetched : Fetched schedule tier machine current)
    (priced : Priced schedule) : current.runGas < 2 ^ 32 := by
  rw [fetched.runGas]
  exact priced.small tier

/-- Instructions that cost their tier and then go on without spending. -/
theorem accounted_tier {next : Unit → VMProcess Flow}
    (solvent : Solvent (LegacyVM.rules schedule) machine)
    (fetched : Fetched schedule tier machine current)
    (pays : ∀ paid, Spends (LegacyVM.rules schedule) machine
        (schedule.tierStepGas.getD tier.index 0) paid →
      Process.Ensures KeepsGas (next ()) paid (Accounted schedule machine)) :
    Process.Ensures KeepsGas (updateIOGas >>= next) current
      (Accounted schedule machine) := by
  refine accounted_updateIOGas solvent (fetched.spends solvent) ?_
  intro paid spends _
  rw [fetched.runGas, Nat.zero_add] at spends
  exact pays paid spends

/-- Instructions that set a price of their own and pay it. -/
theorem accounted_price {price : Nat} {next : Unit → VMProcess Flow}
    (solvent : Solvent (LegacyVM.rules schedule) machine)
    (fetched : Fetched schedule tier machine current)
    (pays : ∀ paid, Spends (LegacyVM.rules schedule) machine price paid →
      Process.Ensures KeepsGas (next ()) paid (Accounted schedule machine)) :
    Process.Ensures KeepsGas
      (setRunGas price >>= fun _ => updateIOGas >>= next) current
      (Accounted schedule machine) := by
  refine Process.ensures_modify_bind.mpr ?_
  refine accounted_updateIOGas solvent
    ((fetched.spends solvent).same ⟨rfl, rfl, rfl⟩) ?_
  intro paid spends _
  exact pays paid (spends.mono (by simp))

theorem WordOperation.tier_priced (priced : Priced schedule)
    (op : WordOperation) :
    0 < schedule.tierStepGas.getD op.metric.gasPriceTier.index 0 := by
  refine priced.step _ ?_
  cases op <;> decide

theorem accounted_operation {ext : ExtVMFace} (priced : Priced schedule)
    (solvent : Solvent (LegacyVM.rules schedule) machine)
    (op : WordOperation)
    (fetched : Fetched schedule op.metric.gasPriceTier machine current) :
    Process.Ensures KeepsGas
      (operation (LegacyVM.rules schedule) ext op) current
      (Accounted schedule machine) := by
  unfold operation
  split
  · exact (fetched.spends solvent).accounted_error
  · refine accounted_tier solvent fetched ?_
    intro paid spends
    refine Process.ensures_get_bind.mpr ?_
    exact spends.accounted_next (op.tier_priced priced)

theorem accounted_exp (priced : Priced schedule)
    (solvent : Solvent (LegacyVM.rules schedule) machine)
    (fetched : Fetched schedule tier machine current) :
    Process.Ensures KeepsGas (caseExp (LegacyVM.rules schedule)) current
      (Accounted schedule machine) := by
  refine Process.ensures_get_bind.mpr ?_
  refine accounted_price solvent fetched ?_
  intro paid spends
  refine spends.accounted_next ?_
  obtain ⟨positive, small⟩ := priced.exp
  have bytes : 32 - firstBitSet (current.sp 1) / 8 ≤ 32 := Nat.sub_le _ _
  have scaled := Nat.mul_le_mul_left schedule.expByteGas bytes
  show 0 < (schedule.expGas + schedule.expByteGas *
    (32 - firstBitSet (current.sp 1) / 8)) % 2 ^ 32
  rw [Nat.mod_eq_of_lt (by omega)]
  omega

theorem accounted_sha3 [Hashing] (priced : Priced schedule)
    (solvent : Solvent (LegacyVM.rules schedule) machine)
    (fetched : Fetched schedule tier machine current) :
    Process.Ensures KeepsGas (caseSha3 (LegacyVM.rules schedule)) current
      (Accounted schedule machine) := by
  have spends := fetched.spends solvent
  refine Process.ensures_get_bind.mpr ?_
  refine accounted_toInt63 spends fun price => ?_
  refine Process.ensures_modify_bind.mpr ?_
  have spendsSet : Spends (LegacyVM.rules schedule) machine 0 { current with
      runGas := (LegacyVM.rules schedule).sha3Gas +
        ((current.sp 1).toNat + 31) / 32 *
          (LegacyVM.rules schedule).sha3WordGas } :=
    spends.same ⟨rfl, rfl, rfl⟩
  refine accounted_toInt63 spendsSet fun _ => ?_
  refine accounted_payMem priced solvent spendsSet price
    (by rw [fetched.copyMemSize]; omega) (.inl fetched.copyMemSize) ?_
  intro paid spends _
  refine Process.ensures_get_bind.mpr ?_
  refine spends.accounted_next ?_
  have positive : 0 < (LegacyVM.rules schedule).sha3Gas := priced.sha3
  simp only
  omega

theorem accounted_touchMem {size : Nat} {next : Unit → VMProcess Flow}
    (priced : Priced schedule)
    (solvent : Solvent (LegacyVM.rules schedule) machine)
    (fetched : Fetched schedule .veryLow machine current)
    (pays : ∀ paid, Spends (LegacyVM.rules schedule) machine
        (schedule.tierStepGas.getD Tier.veryLow.index 0) paid →
      Process.Ensures KeepsGas (next ()) paid (Accounted schedule machine)) :
    Process.Ensures KeepsGas
      (touchMem (LegacyVM.rules schedule) size >>= next) current
      (Accounted schedule machine) := by
  simp only [touchMem, bind_assoc]
  have spends := fetched.spends solvent
  have cheap := fetched.cheap priced
  refine Process.ensures_get_bind.mpr ?_
  refine accounted_toInt63 spends fun _ => ?_
  refine accounted_payMem priced solvent spends (by omega)
    (by rw [fetched.copyMemSize]; omega) (.inr cheap) ?_
  intro paid spends _
  rw [fetched.runGas, Nat.zero_add] at spends
  exact pays paid spends

theorem Priced.veryLow (priced : Priced schedule) :
    0 < schedule.tierStepGas.getD Tier.veryLow.index 0 :=
  priced.step .veryLow (by simp)

theorem accounted_mload (priced : Priced schedule)
    (solvent : Solvent (LegacyVM.rules schedule) machine)
    (fetched : Fetched schedule .veryLow machine current) :
    Process.Ensures KeepsGas (caseMload (LegacyVM.rules schedule)) current
      (Accounted schedule machine) := by
  refine accounted_touchMem priced solvent fetched ?_
  intro paid spends
  refine Process.ensures_get_bind.mpr ?_
  exact spends.accounted_next priced.veryLow

theorem accounted_mstore (priced : Priced schedule)
    (solvent : Solvent (LegacyVM.rules schedule) machine)
    (fetched : Fetched schedule .veryLow machine current) :
    Process.Ensures KeepsGas (caseMstore (LegacyVM.rules schedule)) current
      (Accounted schedule machine) := by
  refine accounted_touchMem priced solvent fetched ?_
  intro paid spends
  refine Process.ensures_modify_bind.mpr ?_
  exact (spends.same (.writeMem _ _ _)).accounted_next priced.veryLow

theorem accounted_mstore8 (priced : Priced schedule)
    (solvent : Solvent (LegacyVM.rules schedule) machine)
    (fetched : Fetched schedule .veryLow machine current) :
    Process.Ensures KeepsGas (caseMstore8 (LegacyVM.rules schedule)) current
      (Accounted schedule machine) := by
  refine accounted_touchMem priced solvent fetched ?_
  intro paid spends
  refine Process.ensures_modify_bind.mpr ?_
  exact (spends.same (.writeMem _ _ _)).accounted_next priced.veryLow

/-- Payment for a copy, at a price below `2 ^ 32`. -/
theorem accounted_payCopy {offset size : U256} {next : Unit → VMProcess Flow}
    (priced : Priced schedule)
    (solvent : Solvent (LegacyVM.rules schedule) machine)
    (spends : Spends (LegacyVM.rules schedule) machine 0 current)
    (cheap : current.runGas < 2 ^ 32)
    (pays : ∀ paid,
      Spends (LegacyVM.rules schedule) machine current.runGas paid →
      Process.Ensures KeepsGas (next ()) paid (Accounted schedule machine)) :
    Process.Ensures KeepsGas
      (setCopyMemSize size >>= fun _ => memNeed offset size >>= fun need =>
        updateMem (LegacyVM.rules schedule) need >>= fun _ =>
          updateIOGas >>= next) current (Accounted schedule machine) := by
  simp only [setCopyMemSize, bind_assoc]
  refine accounted_toInt63 spends fun fits => ?_
  refine Process.ensures_modify_bind.mpr ?_
  have spendsSet : Spends (LegacyVM.rules schedule) machine 0
      { current with copyMemSize := size.toNat } :=
    spends.same ⟨rfl, rfl, rfl⟩
  refine accounted_toInt63 spendsSet fun _ => ?_
  refine accounted_payMem priced solvent spendsSet
    (show current.runGas < _ by omega) fits (.inr cheap) ?_
  intro paid spends _
  rw [Nat.zero_add] at spends
  exact pays paid spends

theorem accounted_copyTo {data : Bytes} (priced : Priced schedule)
    (solvent : Solvent (LegacyVM.rules schedule) machine)
    (fetched : Fetched schedule .veryLow machine current) :
    Process.Ensures KeepsGas (copyTo (LegacyVM.rules schedule) data) current
      (Accounted schedule machine) := by
  refine Process.ensures_get_bind.mpr ?_
  refine accounted_payCopy priced solvent (fetched.spends solvent)
    (fetched.cheap priced) ?_
  intro paid spends
  rw [fetched.runGas] at spends
  refine Process.ensures_modify_bind.mpr ?_
  exact (spends.same (.writeMem _ _ _)).accounted_next priced.veryLow

theorem accounted_returndatacopy (priced : Priced schedule)
    (solvent : Solvent (LegacyVM.rules schedule) machine)
    (fetched : Fetched schedule .veryLow machine current) :
    Process.Ensures KeepsGas (caseReturndatacopy (LegacyVM.rules schedule))
      current (Accounted schedule machine) := by
  refine Process.ensures_get_bind.mpr ?_
  split
  · exact (fetched.spends solvent).accounted_error
  · simp only
    split
    · exact (fetched.spends solvent).accounted_error
    · exact accounted_copyTo priced solvent fetched

/-- A word that is asked for without a call or a creation. -/
theorem accounted_askWord {price : Nat} {word : U256 → VMProcess U256}
    (solvent : Solvent (LegacyVM.rules schedule) machine)
    (fetched : Fetched schedule tier machine current) (positive : 0 < price)
    (asks : ∀ (argument : U256) (paid : Machine)
      (rest : U256 → VMProcess Flow),
      (∀ value, Process.Ensures KeepsGas (rest value) paid
        (Accounted schedule machine)) →
      Process.Ensures KeepsGas (word argument >>= rest) paid
        (Accounted schedule machine)) :
    Process.Ensures KeepsGas (askWord price word) current
      (Accounted schedule machine) := by
  refine accounted_price solvent fetched ?_
  intro paid spends
  refine Process.ensures_get_bind.mpr ?_
  refine asks _ _ _ fun value => ?_
  exact spends.accounted_next positive

theorem accounted_log {ext : ExtVMFace} {topics : Nat}
    (priced : Priced schedule)
    (solvent : Solvent (LegacyVM.rules schedule) machine)
    (fetched : Fetched schedule tier machine current) (few : topics ≤ 4) :
    Process.Ensures KeepsGas
      (caseLog (LegacyVM.rules schedule) ext topics) current
      (Accounted schedule machine) := by
  have spends := fetched.spends solvent
  unfold caseLog
  split
  · exact spends.accounted_error
  · simp only [logGasMem, bind_assoc]
    refine Process.ensures_get_bind.mpr ?_
    refine accounted_toInt63 spends fun price => ?_
    refine Process.ensures_modify_bind.mpr ?_
    refine accounted_toInt63 (spends.same ⟨rfl, rfl, rfl⟩) fun _ => ?_
    refine accounted_payMem priced solvent (spends.same ⟨rfl, rfl, rfl⟩)
      price (show current.copyMemSize < _ by rw [fetched.copyMemSize]; omega)
      (.inl fetched.copyMemSize) ?_
    intro paid spends _
    refine Process.ensures_get_bind.mpr ?_
    refine accounted_ask trivial fun _ => ?_
    refine spends.accounted_next ?_
    obtain ⟨positive, small⟩ := priced.log
    have scaled := Nat.mul_le_mul_left schedule.logTopicGas few
    have unwrapped : (schedule.logGas + schedule.logTopicGas * topics) %
        2 ^ 32 = schedule.logGas + schedule.logTopicGas * topics :=
      Nat.mod_eq_of_lt (by omega)
    show 0 < 0 + ((schedule.logGas + schedule.logTopicGas * topics) % 2 ^ 32 +
      schedule.logDataGas * (current.sp 1).toNat)
    omega

theorem accounted_outputMem {next : Bytes → VMProcess Flow}
    (priced : Priced schedule)
    (solvent : Solvent (LegacyVM.rules schedule) machine)
    (fetched : Fetched schedule tier machine current)
    (gives : ∀ output paid,
      Spends (LegacyVM.rules schedule) machine 0 paid →
      Process.Ensures KeepsGas (next output) paid
        (Accounted schedule machine)) :
    Process.Ensures KeepsGas
      (outputMem (LegacyVM.rules schedule) >>= next) current
      (Accounted schedule machine) := by
  have spends := fetched.spends solvent
  have cheap := fetched.cheap priced
  simp only [outputMem, bind_assoc]
  refine Process.ensures_get_bind.mpr ?_
  refine Process.ensures_modify_bind.mpr ?_
  refine accounted_toInt63 (spends.same ⟨rfl, rfl, rfl⟩) fun _ => ?_
  refine accounted_payMem priced solvent (spends.same ⟨rfl, rfl, rfl⟩)
    (show current.runGas < _ by omega) (show 0 < 2 ^ 63 by omega) (.inl rfl)
    ?_
  intro paid spends _
  refine Process.ensures_get_bind.mpr ?_
  rw [pure_bind]
  exact gives _ paid (spends.mono (Nat.zero_le _))

theorem Spends.accounted_jumpTo {args pc : Nat}
    (spends : Spends (LegacyVM.rules schedule) machine spent current)
    (positive : 0 < spent) :
    Process.Ensures KeepsGas (jumpTo args pc) current
      (Accounted schedule machine) := by
  have moved : Spends (LegacyVM.rules schedule) machine spent
      { current with stack := current.stack.drop args, pc } :=
    spends.same ⟨rfl, rfl, rfl⟩
  exact moved.accounted_proceed positive

theorem Spends.accounted_jump {program : Program} {args : Nat}
    (spends : Spends (LegacyVM.rules schedule) machine spent current)
    (positive : 0 < spent) :
    Process.Ensures KeepsGas (jump program args) current
      (Accounted schedule machine) := by
  refine Process.ensures_get_bind.mpr ?_
  simp only
  split
  · exact spends.accounted_jumpTo positive
  · exact spends.accounted_error

theorem accounted_push {program : Program} {size : Nat}
    (priced : Priced schedule)
    (solvent : Solvent (LegacyVM.rules schedule) machine)
    (fetched : Fetched schedule .veryLow machine current) :
    Process.Ensures KeepsGas (casePush program size) current
      (Accounted schedule machine) := by
  refine accounted_tier solvent fetched ?_
  intro paid spends
  refine Process.ensures_modify_bind.mpr ?_
  have moved : Spends (LegacyVM.rules schedule) machine _
      (paid.finish 0 [program.pushData paid.pc size] (size + 1)) :=
    spends.same ⟨rfl, rfl, rfl⟩
  exact moved.accounted_proceed priced.veryLow

theorem accounted_pushc {program : Program} (priced : Priced schedule)
    (solvent : Solvent (LegacyVM.rules schedule) machine)
    (fetched : Fetched schedule .veryLow machine current) :
    Process.Ensures KeepsGas (casePushc program) current
      (Accounted schedule machine) := by
  refine accounted_tier solvent fetched ?_
  intro paid spends
  refine Process.ensures_modify_bind.mpr ?_
  refine Spends.accounted_proceed (spends.same ?_) priced.veryLow
  exact ⟨rfl, rfl, rfl⟩

variable {ext : ExtVMFace}

theorem accounted_sstore (priced : Priced ext.evmSchedule)
    (solvent : Solvent (LegacyVM.rules ext.evmSchedule) machine)
    (fetched : Fetched ext.evmSchedule tier machine current) :
    Process.Ensures KeepsGas (LegacyVM.caseSstore ext) current
      (Accounted ext.evmSchedule machine) := by
  obtain ⟨setGas, resetGas⟩ := priced.sstore
  -- What follows once a price is set.
  have finishes : ∀ price, 0 < price →
      Process.Ensures KeepsGas (updateIOGas >>= fun _ => do
        let machine ← get
        ask (.setStore (machine.sp 0) (machine.sp 1))
        next 2 []) { current with runGas := price }
        (Accounted ext.evmSchedule machine) := by
    intro price positive
    refine accounted_updateIOGas solvent
      ((fetched.spends solvent).same ⟨rfl, rfl, rfl⟩) ?_
    intro paid spends _
    refine Process.ensures_get_bind.mpr ?_
    refine accounted_ask trivial fun _ => ?_
    exact spends.accounted_next (by simpa using positive)
  unfold LegacyVM.caseSstore
  split
  · exact (fetched.spends solvent).accounted_error
  · simp only [LegacyVM.updateSSGas, bind_assoc]
    refine Process.ensures_get_bind.mpr ?_
    refine accounted_ask trivial fun first => ?_
    split
    · refine Process.ensures_modify_bind.mpr ?_
      exact finishes _ setGas
    · simp only [bind_assoc]
      refine accounted_ask trivial fun second => ?_
      split
      · simp only [bind_assoc]
        refine Process.ensures_modify_bind.mpr ?_
        refine accounted_ask trivial fun _ => ?_
        exact finishes _ resetGas
      · refine Process.ensures_modify_bind.mpr ?_
        exact finishes _ resetGas

theorem accounted_extcodecopy (priced : Priced ext.evmSchedule)
    (solvent : Solvent (LegacyVM.rules ext.evmSchedule) machine)
    (fetched : Fetched ext.evmSchedule tier machine current) :
    Process.Ensures KeepsGas (LegacyVM.caseExtcodecopy ext) current
      (Accounted ext.evmSchedule machine) := by
  refine Process.ensures_get_bind.mpr ?_
  refine Process.ensures_modify_bind.mpr ?_
  refine accounted_payCopy priced solvent
    ((fetched.spends solvent).same ⟨rfl, rfl, rfl⟩) priced.extcodecopy.2 ?_
  intro paid spends
  refine accounted_ask trivial fun code => ?_
  refine Process.ensures_modify_bind.mpr ?_
  exact (spends.same (.writeMem _ _ _)).accounted_next priced.extcodecopy.1

theorem accounted_suicide (priced : Priced ext.evmSchedule)
    (solvent : Solvent (LegacyVM.rules ext.evmSchedule) machine)
    (fetched : Fetched ext.evmSchedule tier machine current) :
    Process.Ensures KeepsGas (LegacyVM.caseSuicide ext) current
      (Accounted ext.evmSchedule machine) := by
  have price := priced.suicide
  have spends := fetched.spends solvent
  -- What follows once the price is known.
  have finishes : ∀ dest price,
      Process.Ensures KeepsGas (updateIOGas >>= fun _ => do
        ask (.suicide dest)
        return .halt []) { current with runGas := price }
        (Accounted ext.evmSchedule machine) := by
    intro dest price
    refine accounted_updateIOGas solvent (spends.same ⟨rfl, rfl, rfl⟩) ?_
    intro paid spends _
    refine accounted_ask trivial fun _ => ?_
    exact spends.accounted_halt
  unfold LegacyVM.caseSuicide
  split
  · exact spends.accounted_error
  · simp only [LegacyVM.chargeBeneficiary, bind_assoc]
    refine Process.ensures_modify_bind.mpr ?_
    refine Process.ensures_get_bind.mpr ?_
    refine accounted_ask trivial fun balance => ?_
    split
    · split
      · simp only [bind_assoc]
        refine accounted_ask trivial fun present => ?_
        split
        · exact finishes _ _
        · refine ensures_addRunGas (show ext.evmSchedule.suicideGas + _ < _ by
            omega) ?_
          exact finishes _ _
      · exact finishes _ _
    · exact finishes _ _

/-! ### Creations and calls -/

theorem Spends.accounted_exchange
    {exchange : Dialogue.Exchange ExtVMFace.interface}
    (spends : Spends (LegacyVM.rules schedule) machine spent current)
    (positive : 0 < spent)
    (handsBack : HandsBack schedule machine current exchange) :
    Accounted schedule machine [exchange] (.ok .proceed current) := by
  refine ⟨spends.mono positive, ?_⟩
  intro other member
  rw [List.mem_singleton.mp member]
  exact handsBack

/-- Gas that comes back from what was spent. -/
theorem Spends.addGas {amount rest : Nat}
    (spends : Spends rules machine (amount + rest) current)
    (solvent : Solvent rules machine) :
    Spends rules machine rest (current.addGas amount) ∧
      (current.addGas amount).gas = current.gas + amount := by
  have bounded := solvent.bounded
  have paid := spends.paid
  have sum : (current.addGas amount).gas = current.gas + amount :=
    Nat.mod_eq_of_lt (by omega)
  refine ⟨⟨spends.aligned, ?_, spends.grows, ?_⟩, sum⟩
  · show (current.wrapped || decide (2 ^ 64 ≤ current.gas + amount)) = false
    rw [spends.intact, decide_eq_false (by omega)]
    rfl
  · rw [sum]
    show _ + memCost rules current.mem.length + _ ≤ _
    omega

/-- A creation that hands back part of its gas takes the rest. -/
theorem LegacyVM.takeCreateGas_eq {createGas gas : U256}
    (available : createGas.toNat ≤ machine.gas)
    (small : machine.gas < 2 ^ 63) (le : gas ≤ createGas) :
    LegacyVM.takeCreateGas machine createGas gas =
      { machine with gas := machine.gas - (createGas.toNat - gas.toNat) } := by
  have leNat : gas.toNat ≤ createGas.toNat := BitVec.le_def.mp le
  have taken : (createGas - gas).toNat = createGas.toNat - gas.toNat :=
    BitVec.toNat_sub_of_le le
  have whole : (BitVec.ofNat 256 machine.gas).toNat = machine.gas := by
    rw [BitVec.toNat_ofNat]
    exact Nat.mod_eq_of_lt (by omega)
  have covered : createGas - gas ≤ BitVec.ofNat 256 machine.gas := by
    rw [BitVec.le_def, taken, whole]
    omega
  have left : toUInt64 (BitVec.ofNat 256 machine.gas - (createGas - gas)) =
      machine.gas - (createGas.toNat - gas.toNat) := by
    rw [toUInt64, BitVec.toNat_sub_of_le covered, taken, whole]
    exact Nat.mod_eq_of_lt (by omega)
  have kept : decide (createGas < gas ∨
      machine.gas < (createGas - gas).toNat) = false := by
    refine decide_eq_false ?_
    rw [taken, BitVec.lt_def]
    omega
  rw [LegacyVM.takeCreateGas, left, kept, Bool.or_false]

/-- What a creation may use is part of what is left. -/
theorem LegacyVM.createGas_le {limited : Bool} {gas : Nat}
    (small : gas < 2 ^ 63) :
    (if limited then BitVec.ofNat 256 gas
      else BitVec.ofNat 256 gas - BitVec.ofNat 256 gas / 64).toNat ≤ gas := by
  have whole : (BitVec.ofNat 256 gas).toNat = gas := by
    rw [BitVec.toNat_ofNat]
    exact Nat.mod_eq_of_lt (by omega)
  split
  · exact whole.le
  · have part : BitVec.ofNat 256 gas / 64 ≤ BitVec.ofNat 256 gas := by
      rw [BitVec.le_def, BitVec.toNat_udiv]
      exact Nat.div_le_self _ _
    rw [BitVec.toNat_sub_of_le part, whole]
    exact Nat.sub_le _ _

theorem accounted_makeCreate {kind : CreateKind}
    {endowment salt initOff initSize : U256}
    (priced : Priced ext.evmSchedule)
    (solvent : Solvent (LegacyVM.rules ext.evmSchedule) machine)
    (spends : Spends (LegacyVM.rules ext.evmSchedule) machine
      ext.evmSchedule.createGas current) :
    Process.Ensures KeepsGas
      (LegacyVM.makeCreate ext kind endowment salt initOff initSize) current
      (Accounted ext.evmSchedule machine) := by
  obtain ⟨positive, small⟩ := priced.create
  refine Process.ensures_modify_bind.mpr ?_
  set cleared : Machine := { current with returnData := [] } with clearedEq
  have spendsCleared : Spends (LegacyVM.rules ext.evmSchedule) machine
    ext.evmSchedule.createGas cleared := spends.same ⟨rfl, rfl, rfl⟩
  refine accounted_ask trivial fun balance => ?_
  split
  · refine Process.ensures_get_bind.mpr ?_
    refine Process.ensures_ask_bind.mpr ?_
    intro result keeps
    have bounded := (spendsCleared.solvent solvent).bounded
    have gasSmall : cleared.gas < 2 ^ 63 := by omega
    have available := @LegacyVM.createGas_le
      ext.evmSchedule.staticCallDepthLimit cleared.gas gasSmall
    refine Process.ensures_modify_bind.mpr ?_
    rw [LegacyVM.takeCreateGas_eq available gasSmall keeps]
    have keepsNat : result.gas.toNat ≤ _ := BitVec.le_def.mp keeps
    have paid := spendsCleared.paid
    have gas := spendsCleared.gas
    refine @Spends.accounted_exchange _ ext.evmSchedule.createGas _ _ _
      ⟨spends.aligned, spends.intact, spends.grows, ?_⟩ positive ?_
    · show cleared.gas - _ + memCost _ cleared.mem.length + _ ≤ _
      omega
    · show cleared.gas - _ + _ + _ ≤ _
      omega
  · exact spendsCleared.accounted_next positive

theorem accounted_create {kind : CreateKind} (priced : Priced ext.evmSchedule)
    (solvent : Solvent (LegacyVM.rules ext.evmSchedule) machine)
    (fetched : Fetched ext.evmSchedule tier machine current) :
    Process.Ensures KeepsGas (LegacyVM.caseCreate ext kind) current
      (Accounted ext.evmSchedule machine) := by
  have small := priced.create.2
  have spendsSet : Spends (LegacyVM.rules ext.evmSchedule) machine 0
      { current with runGas := ext.evmSchedule.createGas } :=
    (fetched.spends solvent).same ⟨rfl, rfl, rfl⟩
  refine Process.ensures_modify_bind.mpr ?_
  refine Process.ensures_get_bind.mpr ?_
  refine accounted_toInt63 spendsSet fun _ => ?_
  refine accounted_payMem priced solvent spendsSet
    (show ext.evmSchedule.createGas < _ by omega)
    (show current.copyMemSize < _ by rw [fetched.copyMemSize]; omega)
    (.inl fetched.copyMemSize) ?_
  intro paid spends _
  rw [Nat.zero_add] at spends
  exact accounted_makeCreate priced solvent spends

/-- The charge for an account that does not exist adds at most its price. -/
theorem accounted_chargeNewAccount {kind : CallKind} {destination : Address}
    {value : U256} {next : Unit → VMProcess Flow}
    (priced : Priced ext.evmSchedule)
    (price : current.runGas = ext.evmSchedule.callGas)
    (charges : ∀ more, more ≤ ext.evmSchedule.callNewAccountGas →
      Process.Ensures KeepsGas (next ())
        { current with runGas := ext.evmSchedule.callGas + more }
        (Accounted ext.evmSchedule machine)) :
    Process.Ensures KeepsGas
      (LegacyVM.chargeNewAccount ext kind destination value >>= next) current
      (Accounted ext.evmSchedule machine) := by
  have small := priced.call.2
  have free := charges 0 (Nat.zero_le _)
  rw [Nat.add_zero, ← price] at free
  unfold LegacyVM.chargeNewAccount
  split
  · rw [bind_assoc]
    refine accounted_ask trivial fun present => ?_
    split
    · exact free
    · split
      · refine ensures_addRunGas (by omega) ?_
        rw [price]
        exact charges _ (Nat.le_refl _)
      · exact free
  · exact free

/-- The price of moving value, if any is moved. -/
def valueGas (schedule : EVMSchedule) (kind : CallKind) (value : U256) : Nat :=
  if LegacyVM.haveValueArg kind ∧ 0 < value then
    schedule.callValueTransferGas else 0

theorem ensures_chargeValue {kind : CallKind} {value : U256}
    {next : Unit → VMProcess Flow}
    (fits : current.runGas + ext.evmSchedule.callValueTransferGas < 2 ^ 64)
    (charges : Process.Ensures KeepsGas (next ()) { current with
        runGas := current.runGas + valueGas ext.evmSchedule kind value }
      (Accounted ext.evmSchedule machine)) :
    Process.Ensures KeepsGas (LegacyVM.chargeValue ext kind value >>= next)
      current (Accounted ext.evmSchedule machine) := by
  unfold LegacyVM.chargeValue
  unfold valueGas at charges
  split
  · rename_i moved
    rw [if_pos moved] at charges
    exact ensures_addRunGas fits charges
  · rename_i unmoved
    rw [if_neg unmoved] at charges
    exact charges

/-- What is taken for a call beyond its price. -/
def takenFor (schedule : EVMSchedule) (params : CallParameters) : Nat :=
  params.gas.toNat + schedule.callGas +
    (if 0 < params.valueTransfer then
      schedule.callValueTransferGas - schedule.callStipend else 0)

theorem LegacyVM.valueTransfer_pos {kind : CallKind} {gas : U256}
    {inOff inSize : Nat} :
    0 < (LegacyVM.callParameters ext kind current gas inOff
      inSize).valueTransfer ↔
      LegacyVM.haveValueArg kind ∧ 0 < current.sp 2 := by
  show 0 < (if LegacyVM.haveValueArg kind then current.sp 2 else (0 : U256)) ↔
    _
  split
  · rename_i value
    exact ⟨fun positive => ⟨value, positive⟩, And.right⟩
  · rename_i none
    exact ⟨fun positive => absurd positive (by decide),
      fun both => absurd both.1 none⟩

/-- The stipend is covered by the price of moving value. -/
theorem takenFor_le {kind : CallKind} {gas : U256} {inOff inSize more : Nat}
    (priced : Priced ext.evmSchedule) (small : gas.toNat < 2 ^ 63) :
    takenFor ext.evmSchedule
      (LegacyVM.callParameters ext kind current gas inOff inSize) ≤
      ext.evmSchedule.callGas + more +
        valueGas ext.evmSchedule kind (current.sp 2) + gas.toNat := by
  have stipend := priced.stipend
  have prices := priced.call.2
  have given : (LegacyVM.callParameters ext kind current gas inOff
      inSize).gas = if LegacyVM.haveValueArg kind ∧ 0 < current.sp 2 then
        gas + BitVec.ofNat 256 ext.evmSchedule.callStipend else gas := rfl
  unfold takenFor valueGas
  rw [given]
  by_cases moved : LegacyVM.haveValueArg kind ∧ 0 < current.sp 2
  · have sum : (gas + BitVec.ofNat 256 ext.evmSchedule.callStipend).toNat =
        gas.toNat + ext.evmSchedule.callStipend := by
      rw [BitVec.toNat_add, BitVec.toNat_ofNat]
      omega
    rw [if_pos moved, if_pos moved,
      if_pos (LegacyVM.valueTransfer_pos.mpr moved), sum]
    omega
  · rw [if_neg moved, if_neg moved,
      if_neg (mt LegacyVM.valueTransfer_pos.mp moved)]
    omega

theorem accounted_callSetup {kind : CallKind}
    {next : CallParameters × Bool → VMProcess Flow}
    (priced : Priced ext.evmSchedule)
    (solvent : Solvent (LegacyVM.rules ext.evmSchedule) machine)
    (fetched : Fetched ext.evmSchedule tier machine current)
    (pays : ∀ params possible paid,
      Spends (LegacyVM.rules ext.evmSchedule) machine
        (takenFor ext.evmSchedule params) paid →
      Process.Ensures KeepsGas (next (params, possible)) paid
        (Accounted ext.evmSchedule machine)) :
    Process.Ensures KeepsGas (LegacyVM.caseCallSetup ext kind >>= next)
      current (Accounted ext.evmSchedule machine) := by
  have prices := priced.call.2
  have spends := fetched.spends solvent
  simp only [LegacyVM.caseCallSetup, bind_assoc, pure_bind]
  refine Process.ensures_get_bind.mpr ?_
  refine Process.ensures_modify_bind.mpr ?_
  refine accounted_chargeNewAccount priced rfl ?_
  intro more moreLe
  refine ensures_chargeValue
    (show ext.evmSchedule.callGas + more + _ < _ by omega) ?_
  -- The price of the call is complete but for the memory.
  have valueLe : valueGas ext.evmSchedule kind (current.sp 2) ≤
      ext.evmSchedule.callValueTransferGas := by
    unfold valueGas
    split <;> omega
  set priceCall := ext.evmSchedule.callGas + more +
    valueGas ext.evmSchedule kind (current.sp 2) with priceCallEq
  have spendsSet : Spends (LegacyVM.rules ext.evmSchedule) machine 0
      { current with runGas := priceCall } := spends.same ⟨rfl, rfl, rfl⟩
  refine accounted_toInt63 spendsSet fun _ => ?_
  refine accounted_toInt63 spendsSet fun _ => ?_
  refine accounted_payMem priced solvent spendsSet
    (show priceCall < _ by omega)
    (show current.copyMemSize < _ by rw [fetched.copyMemSize]; omega)
    (.inl fetched.copyMemSize) ?_
  intro paid spendsPaid sameStack
  rw [Nat.zero_add] at spendsPaid
  refine Process.ensures_get_bind.mpr ?_
  refine accounted_toInt63 spendsPaid fun gasSmall => ?_
  refine Process.ensures_modify_bind.mpr ?_
  refine accounted_updateIOGas solvent
    (spendsPaid.same ⟨rfl, rfl, rfl⟩) ?_
  intro final spendsFinal finalEq
  refine Process.ensures_get_bind.mpr ?_
  refine accounted_ask trivial fun balance => ?_
  refine pays _ _ final (spendsFinal.mono ?_)
  have same : final.sp 2 = current.sp 2 := by
    rw [finalEq]
    show paid.stack.getD 2 0 = current.stack.getD 2 0
    rw [sameStack]
  have covered := @takenFor_le final ext kind (LegacyVM.callGas ext paid)
    (toUInt64 (LegacyVM.callMemory kind current).inputOffset)
    (toUInt64 (LegacyVM.callMemory kind current).inputSize) more priced
    gasSmall
  rw [same] at covered
  exact covered

theorem accounted_call {kind : CallKind} (priced : Priced ext.evmSchedule)
    (solvent : Solvent (LegacyVM.rules ext.evmSchedule) machine)
    (fetched : Fetched ext.evmSchedule tier machine current) :
    Process.Ensures KeepsGas (LegacyVM.caseCall ext kind) current
      (Accounted ext.evmSchedule machine) := by
  refine Process.ensures_get_bind.mpr ?_
  refine Process.ensures_modify_bind.mpr ?_
  have fetchedCleared : Fetched ext.evmSchedule tier machine
      { current with returnData := [] } :=
    ⟨⟨fetched.same.gas, fetched.same.mem, fetched.same.wrapped⟩,
      fetched.runGas, fetched.copyMemSize⟩
  refine accounted_callSetup priced solvent fetchedCleared ?_
  intro params possible paid spends
  have price := priced.call.1
  have bounded := solvent.bounded
  have gas := spends.gas
  have taken : params.gas.toNat + ext.evmSchedule.callGas ≤
      takenFor ext.evmSchedule params := by
    unfold takenFor
    omega
  -- Some of the gas comes back, and the price of the call stays paid.
  have returns : ∀ word : U256, word.toNat ≤ params.gas.toNat →
      toUInt64 word = word.toNat ∧
      takenFor ext.evmSchedule params = word.toNat +
        (takenFor ext.evmSchedule params - word.toNat) ∧
      0 < takenFor ext.evmSchedule params - word.toNat := by
    intro word le
    exact ⟨Nat.mod_eq_of_lt (by omega), by omega, by omega⟩
  cases possible with
  | true =>
      refine Process.ensures_ask_bind.mpr ?_
      intro result keeps
      obtain ⟨unwrapped, parts, rest⟩ := returns _ (BitVec.le_def.mp keeps)
      refine Process.ensures_modify_bind.mpr ?_
      refine Process.ensures_modify_bind.mpr ?_
      rw [unwrapped]
      rw [parts] at spends
      obtain ⟨spendsAdded, sum⟩ := spends.addGas solvent
      refine Spends.accounted_exchange (spendsAdded.same ⟨rfl, ?_, rfl⟩) rest
        ?_
      · exact paid.length_writeMem _ _
      · show (paid.addGas result.gas.toNat).gas + _ + _ + _ ≤ _
        unfold takenFor at gas
        omega
  | false =>
      obtain ⟨unwrapped, parts, rest⟩ := returns _ (Nat.le_refl _)
      refine Process.ensures_modify_bind.mpr ?_
      rw [unwrapped]
      rw [parts] at spends
      exact (spends.addGas solvent).1.accounted_next rest

theorem accounted_checkCall {kind : CallKind}
    (priced : Priced ext.evmSchedule)
    (solvent : Solvent (LegacyVM.rules ext.evmSchedule) machine)
    (fetched : Fetched ext.evmSchedule tier machine current) :
    Process.Ensures KeepsGas (LegacyVM.checkCall ext kind) current
      (Accounted ext.evmSchedule machine) := by
  have fails : ∀ error, Accounted ext.evmSchedule machine []
      (.error error current) := fun _ =>
    (fetched.spends solvent).accounted_error
  refine Process.ensures_get_bind.mpr ?_
  split
  · exact fails _
  · split
    · exact fails _
    · split
      · exact fails _
      · exact accounted_call priced solvent fetched

/-! ## The whole switch -/

variable [Hashing] {optimized : Bool} {program : Program}

theorem accounted_interpretCase (priced : Priced ext.evmSchedule)
    (solvent : Solvent (LegacyVM.rules ext.evmSchedule) machine)
    (instruction : Instruction)
    (fetched : Fetched ext.evmSchedule instruction.metric.gasPriceTier machine
      current) :
    Process.Ensures KeepsGas
      (interpretCase (LegacyVM.variant ext optimized) program instruction)
      current (Accounted ext.evmSchedule machine) := by
  have spends := fetched.spends solvent
  have fails : ∀ error, Accounted ext.evmSchedule machine []
      (.error error current) := fun _ => spends.accounted_error
  cases instruction with
  | stop =>
      refine accounted_tier solvent fetched ?_
      intro paid spends
      exact spends.accounted_halt
  | operation op => exact accounted_operation priced solvent op fetched
  | exp => exact accounted_exp priced solvent fetched
  | sha3 => exact accounted_sha3 priced solvent fetched
  | balance =>
      simp only [interpretCase]
      refine accounted_askWord solvent fetched priced.balance ?_
      intro argument paid rest continues
      exact accounted_ask trivial continues
  | extcodesize =>
      simp only [interpretCase]
      refine accounted_askWord solvent fetched priced.extcodesize ?_
      intro argument paid rest continues
      simp only [bind_assoc, pure_bind]
      exact accounted_ask trivial fun size => continues _
  | extcodecopy => exact accounted_extcodecopy priced solvent fetched
  | calldatacopy => exact accounted_copyTo priced solvent fetched
  | codecopy => exact accounted_copyTo priced solvent fetched
  | returndatacopy => exact accounted_returndatacopy priced solvent fetched
  | blockhash =>
      simp only [interpretCase, LegacyVM.variant, LegacyVM.caseBlockhash]
      refine accounted_askWord solvent fetched priced.blockhash ?_
      intro argument paid rest continues
      simp only [bind_assoc, pure_bind]
      exact accounted_ask trivial fun hash => continues _
  | pop =>
      refine accounted_tier solvent fetched ?_
      intro paid spends
      exact spends.accounted_next (priced.step .base (by decide))
  | mload => exact accounted_mload priced solvent fetched
  | mstore => exact accounted_mstore priced solvent fetched
  | mstore8 => exact accounted_mstore8 priced solvent fetched
  | sload =>
      simp only [interpretCase]
      refine accounted_askWord solvent fetched priced.sload ?_
      intro argument paid rest continues
      exact accounted_ask trivial continues
  | sstore => exact accounted_sstore priced solvent fetched
  | jump =>
      refine accounted_tier solvent fetched ?_
      intro paid spends
      exact spends.accounted_jump (priced.step .mid (by decide))
  | jumpi =>
      refine accounted_tier solvent fetched ?_
      intro paid spends
      have positive := priced.step .high (by decide)
      refine Process.ensures_get_bind.mpr ?_
      split
      · exact spends.accounted_next positive
      · exact spends.accounted_jump positive
  | jumpdest =>
      refine accounted_price solvent fetched ?_
      intro paid spends
      exact spends.accounted_next Nat.one_pos
  | push size => exact accounted_push priced solvent fetched
  | dup depth =>
      refine accounted_tier solvent fetched ?_
      intro paid spends
      refine Process.ensures_get_bind.mpr ?_
      exact spends.accounted_next priced.veryLow
  | swap depth =>
      refine accounted_tier solvent fetched ?_
      intro paid spends
      refine Process.ensures_modify_bind.mpr ?_
      have swapped : Spends (LegacyVM.rules ext.evmSchedule) machine _
        (paid.swap (depth + 1)) := spends.same ⟨rfl, rfl, rfl⟩
      exact swapped.accounted_next priced.veryLow
  | log topics => exact accounted_log priced solvent fetched (by omega)
  | pushc =>
      simp only [interpretCase]
      split
      · exact accounted_pushc priced solvent fetched
      · exact fails _
  | jumpc =>
      simp only [interpretCase]
      split
      · refine accounted_tier solvent fetched ?_
        intro paid spends
        refine Process.ensures_get_bind.mpr ?_
        exact spends.accounted_jumpTo (priced.step .mid (by decide))
      · exact fails _
  | jumpci =>
      simp only [interpretCase]
      split
      · refine accounted_tier solvent fetched ?_
        intro paid spends
        have positive := priced.step .high (by decide)
        refine Process.ensures_get_bind.mpr ?_
        split
        · exact spends.accounted_next positive
        · exact spends.accounted_jumpTo positive
      · exact fails _
  | create =>
      simp only [interpretCase, LegacyVM.variant]
      split
      · exact fails _
      · exact accounted_create priced solvent fetched
  | create2 =>
      simp only [interpretCase, LegacyVM.variant]
      split
      · exact fails _
      · exact accounted_create priced solvent fetched
  | call kind => exact accounted_checkCall priced solvent fetched
  | return_ =>
      refine accounted_outputMem priced solvent fetched ?_
      intro output paid spends
      exact spends.accounted_halt
  | revert =>
      simp only [interpretCase]
      split
      · exact fails _
      · refine accounted_outputMem priced solvent fetched ?_
        intro output paid spends
        exact spends.accounted_error
  | suicide => exact accounted_suicide priced solvent fetched
  | unsupported byte => exact fails _

/-- One round is paid for. -/
theorem accounted_step (priced : Priced ext.evmSchedule)
    (solvent : Solvent (LegacyVM.rules ext.evmSchedule) machine) :
    Process.Ensures KeepsGas
      (step (LegacyVM.variant ext optimized) program) machine
      (Accounted ext.evmSchedule machine) := by
  have fails : ∀ error, Accounted ext.evmSchedule machine []
      (.error error machine) := fun _ => solvent.spends.accounted_error
  simp only [step, fetchInstruction, adjustStack, bind_assoc]
  refine Process.ensures_get_bind.mpr ?_
  refine Process.ensures_get_bind.mpr ?_
  split
  · exact fails _
  · split
    · exact fails _
    · refine Process.ensures_modify_bind.mpr ?_
      refine Process.ensures_modify_bind.mpr ?_
      exact accounted_interpretCase priced solvent _
        ⟨⟨rfl, rfl, rfl⟩, rfl, rfl⟩

/-! ## Runs -/

/-- The machines that some number of rounds lead to. -/
inductive Reached (variant : Variant) (program : Program) (start : Machine) :
    Nat → Machine → Prop
  | start : Reached variant program start 0 start
  | round {rounds : Nat} {machine machine' : Machine}
      {exchanges : List (Dialogue.Exchange ExtVMFace.interface)}
      (before : Reached variant program start rounds machine)
      (goes : Dialogue.Yields KeepsGas (step variant program machine)
        exchanges (.ok .proceed machine')) :
      Reached variant program start (rounds + 1) machine'

/-- What each round of a frame finds and leaves in order: the gas that is
left, the memory and what was spent on it. -/
structure InOrder (schedule : EVMSchedule) (gas : Nat) (machine : Machine) :
    Prop where
  atMost : machine.gas ≤ gas
  intact : machine.wrapped = false
  aligned : 32 ∣ machine.mem.length
  spent : ∃ price, gasForMem (LegacyVM.rules schedule) machine.mem.length =
    pure price ∧ price ≤ gas - machine.gas

omit [Hashing] in
theorem Spends.inOrder {start : Machine}
    (spends : Spends (LegacyVM.rules schedule) start spent machine)
    (fresh : start.mem = []) (small : start.gas < 2 ^ 63) :
    InOrder schedule start.gas machine := by
  have paid := spends.paid
  have nothing : memCost (LegacyVM.rules schedule) start.mem.length = 0 := by
    rw [fresh]
    exact (Nat.zero_add _).trans (Nat.zero_div _)
  refine ⟨by omega, spends.intact, spends.aligned,
    memCost (LegacyVM.rules schedule) machine.mem.length, ?_, by omega⟩
  show toInt63 (memCost (LegacyVM.rules schedule) machine.mem.length) = _
  exact if_neg (by omega)

/-- Every round costs gas, so their number is bounded. -/
theorem Reached.spends {start : Machine} {rounds : Nat}
    (reached : Reached (LegacyVM.variant ext optimized) program start rounds
      machine) (priced : Priced ext.evmSchedule)
    (solvent : Solvent (LegacyVM.rules ext.evmSchedule) start) :
    Spends (LegacyVM.rules ext.evmSchedule) start rounds machine := by
  induction reached with
  | start => exact solvent.spends
  | round before goes induction =>
      have accounted := Dialogue.ensures_iff_yields.mp
        (accounted_step priced (induction.solvent solvent)) _ _ goes
      exact induction.trans accounted.spends

/-- With more rounds than gas, the loop is not cut off. -/
theorem ensures_interpret (priced : Priced ext.evmSchedule) :
    ∀ (fuel : Nat) (machine : Machine),
      Solvent (LegacyVM.rules ext.evmSchedule) machine →
      machine.gas + memCost (LegacyVM.rules ext.evmSchedule)
        machine.mem.length < fuel →
      Process.Ensures KeepsGas
        (interpret (LegacyVM.variant ext optimized) program fuel) machine
        fun _ result => (ExecResult.ofRun result).isSome ∧
          Spends (LegacyVM.rules ext.evmSchedule) machine 0
            (machineOf result) := by
  intro fuel
  induction fuel with
  | zero =>
      intro machine _ enough
      exact absurd enough (Nat.not_lt_zero _)
  | succ fuel induction =>
      intro machine solvent enough
      rw [interpret, Process.ensures_bind]
      refine (accounted_step priced solvent).mono ?_
      intro exchanges result accounted
      have spends := accounted.spends
      cases result with
      | error error failed => exact ⟨rfl, spends⟩
      | ok flow machine' =>
          cases flow with
          | halt output => exact ⟨rfl, spends⟩
          | proceed =>
              have paid := spends.paid
              refine Process.Ensures.mono (induction machine'
                (spends.solvent solvent) ?_) ?_
              · change machine'.gas + memCost _ machine'.mem.length + 1 ≤ _
                  at paid
                omega
              · intro later result both
                exact ⟨both.1,
                  (spends.trans both.2).mono (Nat.zero_le _)⟩

/-- A frame of any program ends, after at most as many rounds as it has gas,
whatever the environment answers; every round finds its accounts in order
and leaves them so, and calls and creations hand back no more than was taken
for them. -/
theorem LegacyVM.exec_metered (optimized : Bool) (ext : ExtVMFace) (gas : U256)
    (builtIn : ext.evmSchedule ∈ EVMSchedule.builtIn)
    (small : gas.toNat < 2 ^ 63) :
    (∀ fuel, gas.toNat < fuel →
      (LegacyVM.exec optimized ext gas fuel).Ensures KeepsGas
        fun _ result => ∃ ended, result = some ended ∧
          ended.gas ≤ gas.toNat) ∧
    ∀ rounds machine,
      Reached (LegacyVM.variant ext optimized)
        (LegacyVM.optimize optimized ext.code) { gas := gas.toNat } rounds
        machine →
      rounds ≤ gas.toNat ∧ InOrder ext.evmSchedule gas.toNat machine ∧
      Process.Ensures KeepsGas
        (step (LegacyVM.variant ext optimized)
          (LegacyVM.optimize optimized ext.code)) machine
        fun exchanges result =>
          InOrder ext.evmSchedule gas.toNat (machineOf result) ∧
          (machineOf result).gas + leastPrice result ≤ machine.gas ∧
          ∀ exchange ∈ exchanges,
            HandsBack ext.evmSchedule machine (machineOf result) exchange := by
  have priced := Priced.ofBuiltIn builtIn
  have nothing : memCost (LegacyVM.rules ext.evmSchedule) 0 = 0 :=
    (Nat.zero_add _).trans (Nat.zero_div _)
  have solvent : Solvent (LegacyVM.rules ext.evmSchedule)
      { gas := gas.toNat } := by
    refine ⟨Nat.dvd_zero _, rfl, ?_⟩
    show gas.toNat + memCost _ 0 < _
    omega
  constructor
  · intro fuel enough
    have unwrapped : toUInt64 gas = gas.toNat := Nat.mod_eq_of_lt (by omega)
    unfold LegacyVM.exec
    rw [unwrapped, Dialogue.ensures_bind]
    refine Dialogue.Ensures.mono (ensures_interpret priced fuel _ solvent ?_) ?_
    · show gas.toNat + memCost _ 0 < _
      omega
    · intro exchanges result both
      obtain ⟨ended, spends⟩ := both
      have atMost := spends.gas
      cases result with
      | error error failed => exact ⟨_, rfl, atMost⟩
      | ok output machine =>
          cases output with
          | none => cases ended
          | some output => exact ⟨_, rfl, atMost⟩
  · intro rounds machine reached
    have spends := reached.spends priced solvent
    have few := spends.gas
    refine ⟨?_, spends.inOrder rfl small, ?_⟩
    · change machine.gas + rounds ≤ gas.toNat at few
      omega
    · refine Process.Ensures.mono
        (accounted_step priced (spends.solvent solvent)) ?_
      intro exchanges result accounted
      exact ⟨(spends.trans accounted.spends).inOrder rfl small,
        accounted.spends.gas, accounted.handsBack⟩

end

/-- `JUMPDEST PUSH1 0 JUMP` goes round until its gas is spent. -/
theorem LegacyVM.exec_metered_sample :
    EVMSchedule.byzantium ∈ EVMSchedule.builtIn ∧
    ∀ fuel, 100 < fuel →
      (@LegacyVM.exec frameSampleHashing true
        (frameSample .byzantium [0x5b, 0x60, 0x00, 0x56]) 100 fuel).Ensures
        KeepsGas fun _ result => ∃ ended, result = some ended ∧
          ended.gas ≤ 100 :=
  ⟨by decide, (@LegacyVM.exec_metered frameSampleHashing true
    (frameSample .byzantium [0x5b, 0x60, 0x00, 0x56]) 100 (by decide)
    (by decide)).1⟩

end Aecmio

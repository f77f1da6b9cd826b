import Aecmio.Evm.Metering
import Aecmio.Logic.Asking

/-!
# What `LegacyVM` asks

A call or a creation is asked for only right after the frame was told that its
balance covers the value, and only above the depth limit, and it is given no
more gas than the frame had.  Value leaves no account but that of the frame.
A static frame asks for no change, except for creations by `CREATE2`, which is
not checked.
-/

namespace Aecmio

open Dialogues Interpreter Process

/-- The frame was told last that its balance covers the value. -/
def Affordable (ext : ExtVMFace)
    (past : List (Dialogue.Exchange ExtVMFace.interface)) (value : U256) :
    Prop :=
  ∃ balance : U256, value ≤ balance ∧
    past.head? = some ⟨.balance ext.myAddress, balance⟩

/-- What a frame may ask. -/
def Legal (ext : ExtVMFace)
    (past : List (Dialogue.Exchange ExtVMFace.interface)) :
    ExtVMFace.Question → Prop
  | .setStore _ _ | .addRefund _ | .suicide _ | .log _ _ =>
      ext.staticCall = false
  | .create endowment _ _ op _ =>
      ext.depth < 1024 ∧ Affordable ext past endowment ∧
        (ext.staticCall = true →
          op = .create2 ∧ ext.evmSchedule.haveCreate2 = true)
  | .call params =>
      ext.depth < 1024 ∧ Affordable ext past params.valueTransfer ∧
        (params.valueTransfer ≠ 0 → params.senderAddress = ext.myAddress) ∧
        (params.receiveAddress = params.codeAddress ∨
          params.receiveAddress = ext.myAddress) ∧
        (ext.staticCall = true → params.staticCall = true ∧
          (params.valueTransfer ≠ 0 → params.receiveAddress = ext.myAddress))
  | _ => True

/-! ## Actions that ask nothing -/

section

variable {I : Interface} {ε σ α β : Type}
  {allowed : (question : ExtVMFace.Question) →
    ExtVMFace.Answer question → Prop}
  {legal : List (Dialogue.Exchange ExtVMFace.interface) →
    ExtVMFace.Question → Prop}
  {rules : Rules} {ext : ExtVMFace} {program : Program}

theorem always_toInt63 (value : Nat) :
    Always allowed legal (toInt63 value) :=
  always_ite (always_throw _) (always_pure _)

theorem always_memNeed (offset size : U256) :
    Always allowed legal (memNeed offset size) :=
  always_toInt63 _

theorem always_setRunGas (amount : Nat) :
    Always allowed legal (setRunGas amount) :=
  always_modify _

theorem always_addRunGas (amount : Nat) :
    Always allowed legal (addRunGas amount) :=
  always_modify _

theorem always_updateIOGas : Always allowed legal updateIOGas := by
  refine always_bind always_get fun machine => ?_
  exact always_ite (always_throw _) (always_set _)

theorem always_gasForMem (size : Nat) :
    Always allowed legal (gasForMem rules size) :=
  always_toInt63 _

theorem always_chargeMemory : Always allowed legal (chargeMemory rules) := by
  refine always_bind always_get fun machine => always_ite ?_ (always_pure _)
  refine always_bind (always_gasForMem _) fun new => ?_
  refine always_bind (always_gasForMem _) fun old => ?_
  exact always_bind (always_toInt63 _) fun price => always_addRunGas _

theorem always_updateGas : Always allowed legal (updateGas rules) := by
  refine always_bind always_chargeMemory fun _ => ?_
  refine always_bind always_get fun machine => ?_
  refine always_bind (always_addRunGas _) fun _ => ?_
  refine always_bind always_get fun machine => ?_
  exact always_ite (always_throw _) (always_pure _)

theorem always_updateMem (newMem : Nat) :
    Always allowed legal (updateMem rules newMem) := by
  refine always_bind (always_modify _) fun _ => ?_
  exact always_bind always_updateGas fun _ => always_modify _

theorem always_setCopyMemSize (size : U256) :
    Always allowed legal (setCopyMemSize size) :=
  always_bind (always_toInt63 _) fun _ => always_modify _

theorem always_adjustStack (removed added : Nat) :
    Always allowed legal (adjustStack removed added) := by
  refine always_bind always_get fun machine => ?_
  exact always_ite (always_throw _)
    (always_ite (always_throw _) (always_pure _))

theorem always_fetchInstruction :
    Always allowed legal (fetchInstruction rules program) := by
  refine always_bind always_get fun machine => ?_
  refine always_bind (always_adjustStack _ _) fun _ => ?_
  refine always_bind (always_setRunGas _) fun _ => ?_
  exact always_bind (always_modify _) fun _ => always_pure _

theorem always_next (args : Nat) (results : List U256) :
    Always allowed legal (next args results) :=
  always_bind (always_modify _) fun _ => always_pure _

theorem always_jumpTo (args pc : Nat) :
    Always allowed legal (jumpTo args pc) :=
  always_bind (always_modify _) fun _ => always_pure _

theorem always_jump (args : Nat) :
    Always allowed legal (jump program args) := by
  refine always_bind always_get fun machine => ?_
  exact always_ite (always_jumpTo _ _) (always_throw _)

/-- The rest of an instruction once it is paid for. -/
theorem always_paid {rest : VMProcess α} (asks : Always allowed legal rest) :
    Always allowed legal (updateIOGas >>= fun _ => rest) :=
  always_bind always_updateIOGas fun _ => asks

theorem always_priced {price : Nat} {rest : VMProcess α}
    (asks : Always allowed legal rest) :
    Always allowed legal
      (setRunGas price >>= fun _ => updateIOGas >>= fun _ => rest) :=
  always_bind (always_setRunGas _) fun _ => always_paid asks

theorem always_touched {newMem : Nat} {rest : VMProcess α}
    (asks : Always allowed legal rest) :
    Always allowed legal (updateMem rules newMem >>= fun _ =>
      updateIOGas >>= fun _ => rest) :=
  always_bind (always_updateMem _) fun _ => always_paid asks

end

/-! ## Instructions -/

section

variable {allowed : (question : ExtVMFace.Question) →
    ExtVMFace.Answer question → Prop}
  {legal : List (Dialogue.Exchange ExtVMFace.interface) →
    ExtVMFace.Question → Prop}
  {rules : Rules} {ext : ExtVMFace} {program : Program}

theorem always_operation (op : WordOperation) :
    Always allowed legal (operation rules ext op) := by
  refine always_ite (always_throw _) (always_paid ?_)
  exact always_bind always_get fun machine => always_next _ _

theorem always_caseExp : Always allowed legal (caseExp rules) := by
  refine always_bind always_get fun machine => ?_
  exact always_priced (always_next _ _)

theorem always_caseSha3 [Hashing] :
    Always allowed legal (caseSha3 rules) := by
  refine always_bind always_get fun machine => ?_
  refine always_bind (always_toInt63 _) fun price => ?_
  refine always_bind (always_setRunGas _) fun _ => ?_
  refine always_bind (always_memNeed _ _) fun need => always_touched ?_
  exact always_bind always_get fun machine => always_next _ _

theorem always_touchMem (size : Nat) :
    Always allowed legal (touchMem rules size) := by
  refine always_bind always_get fun machine => ?_
  refine always_bind (always_toInt63 _) fun offset => ?_
  exact always_bind (always_updateMem _) fun _ => always_updateIOGas

theorem always_caseMload : Always allowed legal (caseMload rules) := by
  refine always_bind (always_touchMem _) fun _ => ?_
  exact always_bind always_get fun machine => always_next _ _

theorem always_caseMstore : Always allowed legal (caseMstore rules) := by
  refine always_bind (always_touchMem _) fun _ => ?_
  exact always_bind (always_modify _) fun _ => always_next _ _

theorem always_caseMstore8 : Always allowed legal (caseMstore8 rules) := by
  refine always_bind (always_touchMem _) fun _ => ?_
  exact always_bind (always_modify _) fun _ => always_next _ _

theorem always_copyTo (data : Bytes) :
    Always allowed legal (copyTo rules data) := by
  refine always_bind always_get fun machine => ?_
  refine always_bind (always_setCopyMemSize _) fun _ => ?_
  refine always_bind (always_memNeed _ _) fun need => always_touched ?_
  exact always_bind (always_modify _) fun _ => always_next _ _

theorem always_caseReturndatacopy :
    Always allowed legal (caseReturndatacopy rules) := by
  refine always_bind always_get fun machine => ?_
  exact always_ite (always_throw _)
    (always_ite (always_throw _) (always_copyTo _))

theorem always_askWord {price : Nat} {question : U256 → VMProcess U256}
    (asks : ∀ word, Always allowed legal (question word)) :
    Always allowed legal (askWord price question) := by
  refine always_priced (always_bind always_get fun machine => ?_)
  exact always_bind (asks _) fun word => always_next _ _

theorem always_outputMem : Always allowed legal (outputMem rules) := by
  refine always_bind always_get fun machine => ?_
  refine always_bind (always_modify _) fun _ => ?_
  refine always_bind (always_memNeed _ _) fun need => always_touched ?_
  exact always_bind always_get fun machine => always_pure _

theorem always_casePush (size : Nat) :
    Always allowed legal (casePush program size) :=
  always_paid (always_bind (always_modify _) fun _ => always_pure _)

theorem always_casePushc : Always allowed legal (casePushc program) :=
  always_paid (always_bind (always_modify _) fun _ => always_pure _)

end

/-! ## Instructions that ask -/

section

variable {allowed : (question : ExtVMFace.Question) →
    ExtVMFace.Answer question → Prop} {ext : ExtVMFace}

/-- Questions that are legal whatever came before. -/
theorem always_askOf {question : ExtVMFace.Question}
    (allows : ∀ past, Legal ext past question) :
    Always allowed (Legal ext) (Interpreter.ask question) :=
  always_ask allows

theorem always_caseLog (rules : Rules) (topics : Nat) :
    Always allowed (Legal ext) (caseLog rules ext topics) := by
  unfold caseLog
  split
  · exact always_throw _
  · rename_i changes
    have dynamic : ext.staticCall = false := Bool.eq_false_iff.mpr changes
    unfold logGasMem
    refine always_bind (always_bind always_get fun machine =>
      always_bind (always_toInt63 _) fun price =>
        always_bind (always_setRunGas _) fun _ =>
          always_bind (always_memNeed _ _) fun need => always_updateMem _)
      fun _ => always_paid ?_
    refine always_bind always_get fun machine => ?_
    exact always_bind (always_askOf fun _ => dynamic) fun _ => always_next _ _

namespace LegacyVM

theorem always_updateSSGas (dynamic : ext.staticCall = false) :
    Always allowed (Legal ext) (updateSSGas ext) := by
  refine always_bind always_get fun machine => ?_
  refine always_bind (always_askOf fun _ => trivial) fun first => ?_
  refine always_ite (always_setRunGas _) ?_
  refine always_bind (always_askOf fun _ => trivial) fun second => ?_
  refine always_ite ?_ (always_setRunGas _)
  exact always_bind (always_setRunGas _) fun _ => always_askOf fun _ => dynamic

theorem always_caseSstore : Always allowed (Legal ext) (caseSstore ext) := by
  unfold caseSstore
  split
  · exact always_throw _
  · rename_i changes
    have dynamic : ext.staticCall = false := Bool.eq_false_iff.mpr changes
    refine always_bind (always_updateSSGas dynamic) fun _ => always_paid ?_
    refine always_bind always_get fun machine => ?_
    exact always_bind (always_askOf fun _ => dynamic) fun _ => always_next _ _

theorem always_caseExtcodecopy :
    Always allowed (Legal ext) (caseExtcodecopy ext) := by
  refine always_bind always_get fun machine => ?_
  refine always_bind (always_setRunGas _) fun _ => ?_
  refine always_bind (always_setCopyMemSize _) fun _ => ?_
  refine always_bind (always_memNeed _ _) fun need => always_touched ?_
  refine always_bind (always_askOf fun _ => trivial) fun code => ?_
  exact always_bind (always_modify _) fun _ => always_next _ _

theorem always_caseBlockhash :
    Always allowed (Legal ext) (caseBlockhash ext) := by
  refine always_askWord fun word => ?_
  exact always_bind (always_askOf fun _ => trivial) fun hash => always_pure _

theorem always_chargeBeneficiary (dest : Address) :
    Always allowed (Legal ext) (chargeBeneficiary ext dest) := by
  refine always_bind (always_askOf fun _ => trivial) fun balance => ?_
  refine always_ite (always_ite ?_ (always_pure _)) (always_pure _)
  refine always_bind (always_askOf fun _ => trivial) fun present => ?_
  exact always_ite (always_pure _) (always_addRunGas _)

theorem always_caseSuicide : Always allowed (Legal ext) (caseSuicide ext) := by
  unfold caseSuicide
  split
  · exact always_throw _
  · rename_i changes
    have dynamic : ext.staticCall = false := Bool.eq_false_iff.mpr changes
    refine always_bind (always_setRunGas _) fun _ => ?_
    refine always_bind always_get fun machine => ?_
    refine always_bind (always_chargeBeneficiary _) fun _ => always_paid ?_
    exact always_bind (always_askOf fun _ => dynamic) fun _ => always_pure _

/-- The balance is asked for right before the creation. -/
theorem always_makeCreate {kind : CreateKind}
    (dynamic : ext.staticCall = true →
      kind = .create2 ∧ ext.evmSchedule.haveCreate2 = true)
    (endowment salt initOff initSize : U256) :
    Always allowed (Legal ext)
      (makeCreate ext kind endowment salt initOff initSize) := by
  refine always_bind (always_modify _) fun _ => ?_
  intro state past
  refine asks_ask_bind.mpr ⟨trivial, fun balance _ => ?_⟩
  simp only
  split
  · rename_i possible
    refine asks_ask_bind.mpr ⟨⟨possible.2, ⟨balance, possible.1, rfl⟩,
      dynamic⟩, fun result _ => ?_⟩
    exact always_bind (always_modify _) (fun _ => always_next _ _) _ _
  · exact always_next _ _ _ _

theorem always_caseCreate {kind : CreateKind}
    (dynamic : ext.staticCall = true →
      kind = .create2 ∧ ext.evmSchedule.haveCreate2 = true) :
    Always allowed (Legal ext) (caseCreate ext kind) := by
  refine always_bind (always_setRunGas _) fun _ => ?_
  refine always_bind always_get fun machine => ?_
  refine always_bind (always_memNeed _ _) fun need => always_touched ?_
  exact always_makeCreate dynamic _ _ _ _

theorem always_chargeNewAccount (kind : CallKind) (destination : Address)
    (value : U256) :
    Always allowed (Legal ext) (chargeNewAccount ext kind destination value) :=
  by
  refine always_ite ?_ (always_pure _)
  refine always_bind (always_askOf fun _ => trivial) fun present => ?_
  refine always_ite (always_pure _) ?_
  exact always_ite (always_addRunGas _) (always_pure _)

theorem always_chargeValue (kind : CallKind) (value : U256) :
    Always allowed (Legal ext) (chargeValue ext kind value) :=
  always_ite (always_addRunGas _) (always_pure _)

/-! ### The stack under a call -/

section

variable {rules : Rules} {stack : List U256}

theorem leaves_toInt63 (value : Nat) :
    Leaves allowed (fun machine => machine.stack = stack)
      (toInt63 value) :=
  leaves_ite (leaves_throw _) (leaves_pure _)

theorem leaves_addRunGas (amount : Nat) :
    Leaves allowed (fun machine => machine.stack = stack)
      (addRunGas amount) :=
  leaves_modify fun _ same => same

theorem leaves_updateIOGas :
    Leaves allowed (fun machine => machine.stack = stack) updateIOGas := by
  intro machine same
  refine Process.ensures_get_bind.mpr ?_
  split
  · rintro _ _ ⟨⟩
  · rintro _ _ ⟨⟩
    exact same

theorem leaves_updateMem (newMem : Nat) :
    Leaves allowed (fun machine => machine.stack = stack)
      (updateMem rules newMem) := by
  have charge : Leaves allowed (fun machine => machine.stack = stack)
      (chargeMemory rules) := by
    refine leaves_bind leaves_get fun machine =>
      leaves_ite ?_ (leaves_pure _)
    refine leaves_bind (leaves_toInt63 _) fun new => ?_
    refine leaves_bind (leaves_toInt63 _) fun old => ?_
    exact leaves_bind (leaves_toInt63 _) fun price => leaves_addRunGas _
  refine leaves_bind (leaves_modify fun _ same => same) fun _ => ?_
  refine leaves_bind (leaves_bind charge fun _ => ?_) fun _ =>
    leaves_modify fun _ same => same
  refine leaves_bind leaves_get fun machine => ?_
  refine leaves_bind (leaves_addRunGas _) fun _ => ?_
  refine leaves_bind leaves_get fun machine => ?_
  exact leaves_ite (leaves_throw _) (leaves_pure _)

theorem leaves_chargeNewAccount (kind : CallKind) (destination : Address)
    (value : U256) :
    Leaves allowed (fun machine => machine.stack = stack)
      (chargeNewAccount ext kind destination value) := by
  refine leaves_ite ?_ (leaves_pure _)
  refine leaves_bind (leaves_ask _) fun present => ?_
  refine leaves_ite (leaves_pure _) ?_
  exact leaves_ite (leaves_addRunGas _) (leaves_pure _)

/-- The setup of a call ends with the question for the balance, and the
arguments are still on the stack then. -/
theorem asks_callSetup {kind : CallKind}
    {rest : CallParameters × Bool → VMProcess Flow} {start : Machine}
    {past : List (Dialogue.Exchange ExtVMFace.interface)}
    (asks : ∀ machine gas inOff inSize (balance : U256) past,
      machine.stack = start.stack →
      Process.Asks allowed (Legal ext)
        (rest (callParameters ext kind machine gas inOff inSize,
          decide ((callParameters ext kind machine gas inOff
            inSize).valueTransfer ≤ balance ∧ ext.depth < 1024))) machine
        (⟨.balance ext.myAddress, balance⟩ :: past)) :
    Process.Asks allowed (Legal ext) (caseCallSetup ext kind >>= rest) start
      past := by
  simp only [caseCallSetup, bind_assoc, pure_bind]
  have setsRunGas : ∀ amount, Leaves allowed
      (fun machine => machine.stack = start.stack) (setRunGas amount) :=
    fun _ => leaves_modify fun _ same => same
  refine asks_get_bind.mpr ?_
  refine Always.asks_bind (always_setRunGas _) (setsRunGas _) rfl
    fun _ _ _ same => ?_
  refine Always.asks_bind (always_chargeNewAccount _ _ _)
    (leaves_chargeNewAccount _ _ _) same fun _ _ _ same => ?_
  refine Always.asks_bind (always_chargeValue _ _)
    (leaves_ite (leaves_addRunGas _) (leaves_pure _)) same
    fun _ _ _ same => ?_
  refine Always.asks_bind (always_memNeed _ _) (leaves_toInt63 _) same
    fun _ _ _ same => ?_
  refine Always.asks_bind (always_memNeed _ _) (leaves_toInt63 _) same
    fun _ _ _ same => ?_
  refine Always.asks_bind (always_updateMem _) (leaves_updateMem _) same
    fun _ _ _ same => ?_
  refine Always.asks_bind always_updateIOGas leaves_updateIOGas same
    fun _ _ _ same => asks_get_bind.mpr ?_
  refine Always.asks_bind (always_toInt63 _) (leaves_toInt63 _) same
    fun _ _ _ same => ?_
  refine Always.asks_bind (always_setRunGas _) (setsRunGas _) same
    fun _ _ _ same => ?_
  refine Always.asks_bind always_updateIOGas leaves_updateIOGas same
    fun _ machine past same => asks_get_bind.mpr ?_
  refine asks_ask_bind.mpr ⟨trivial, fun balance _ => ?_⟩
  exact asks machine _ _ _ balance past same

end

theorem asks_caseCall {kind : CallKind} {start : Machine}
    {past : List (Dialogue.Exchange ExtVMFace.interface)}
    (static : ext.staticCall = true → kind = .call → start.sp 2 = 0) :
    Process.Asks allowed (Legal ext) (caseCall ext kind) start past := by
  refine asks_get_bind.mpr ?_
  refine asks_modify_bind.mpr ?_
  refine asks_callSetup ?_
  intro machine gas inOff inSize balance past same
  simp only
  split
  · rename_i possible
    obtain ⟨covered, shallow⟩ := of_decide_eq_true possible
    refine asks_ask_bind.mpr ⟨⟨shallow, ⟨balance, covered, rfl⟩, ?_, ?_, ?_⟩,
      fun result _ => ?_⟩
    · intro moves
      cases kind with
      | call => rfl
      | callcode => rfl
      | delegatecall => exact absurd rfl moves
      | staticcall => rfl
    · cases kind with
      | call => exact .inl rfl
      | staticcall => exact .inl rfl
      | callcode => exact .inr rfl
      | delegatecall => exact .inr rfl
    · intro isStatic
      refine ⟨by simp [callParameters, isStatic], ?_⟩
      intro moves
      cases kind with
      | call =>
          have nothing : machine.sp 2 = 0 := by
            rw [← static isStatic rfl]
            exact congrArg (fun stack : List U256 => stack.getD 2 0) same
          exact absurd nothing moves
      | callcode => rfl
      | delegatecall => exact absurd rfl moves
      | staticcall => exact absurd rfl moves
    · refine always_bind (always_modify _) (fun _ => ?_) _ _
      exact always_bind (always_modify _) fun _ => always_next _ _
  · exact always_bind (always_modify _) (fun _ => always_next _ _) _ _

/-- A static frame may not call with a value. -/
theorem always_checkCall (kind : CallKind) :
    Always allowed (Legal ext) (checkCall ext kind) := by
  intro state past
  refine asks_get_bind.mpr ?_
  split
  · exact always_throw _ _ _
  · split
    · exact always_throw _ _ _
    · split
      · exact always_throw _ _ _
      · rename_i unchecked
        refine asks_caseCall ?_
        intro isStatic isCall
        by_contra moves
        exact unchecked ⟨isCall, isStatic, moves⟩

/-! ## The whole run -/

variable [Hashing] {optimized : Bool} {program : Program}

theorem always_interpretCase (instruction : Instruction) :
    Always allowed (Legal ext)
      (interpretCase (variant ext optimized) program instruction) := by
  cases instruction with
  | stop => exact always_paid (always_pure _)
  | operation op => exact always_operation op
  | exp => exact always_caseExp
  | sha3 => exact always_caseSha3
  | balance =>
      simp only [interpretCase]
      exact always_askWord fun word => always_askOf fun _ => trivial
  | extcodesize =>
      simp only [interpretCase]
      refine always_askWord fun word => ?_
      exact always_bind (always_askOf fun _ => trivial)
        fun size => always_pure _
  | extcodecopy => exact always_caseExtcodecopy
  | calldatacopy => exact always_copyTo _
  | codecopy => exact always_copyTo _
  | returndatacopy => exact always_caseReturndatacopy
  | blockhash => exact always_caseBlockhash
  | pop => exact always_paid (always_next _ _)
  | mload => exact always_caseMload
  | mstore => exact always_caseMstore
  | mstore8 => exact always_caseMstore8
  | sload =>
      simp only [interpretCase]
      exact always_askWord fun word => always_askOf fun _ => trivial
  | sstore => exact always_caseSstore
  | jump => exact always_paid (always_jump _)
  | jumpi =>
      refine always_paid (always_bind always_get fun machine => ?_)
      exact always_ite (always_next _ _) (always_jump _)
  | jumpdest => exact always_priced (always_next _ _)
  | push size => exact always_casePush _
  | dup depth =>
      refine always_paid (always_bind always_get fun machine => ?_)
      exact always_next _ _
  | swap depth =>
      refine always_paid (always_bind (always_modify _) fun _ => ?_)
      exact always_next _ _
  | log topics => exact always_caseLog _ _
  | pushc => exact always_ite always_casePushc (always_throw _)
  | jumpc =>
      refine always_ite (always_paid ?_) (always_throw _)
      exact always_bind always_get fun machine => always_jumpTo _ _
  | jumpci =>
      refine always_ite (always_paid ?_) (always_throw _)
      refine always_bind always_get fun machine => ?_
      exact always_ite (always_next _ _) (always_jumpTo _ _)
  | create =>
      simp only [interpretCase, variant]
      split
      · exact always_throw _
      · rename_i dynamic
        exact always_caseCreate fun isStatic => absurd isStatic dynamic
  | create2 =>
      simp only [interpretCase, variant]
      split
      · exact always_throw _
      · rename_i known
        refine always_caseCreate fun _ => ⟨rfl, ?_⟩
        simpa using known
  | call kind => exact always_checkCall kind
  | return_ =>
      exact always_bind always_outputMem fun output => always_pure _
  | revert =>
      refine always_ite (always_throw _) ?_
      exact always_bind always_outputMem fun output => always_throw _
  | suicide => exact always_caseSuicide
  | unsupported byte => exact always_throw _

theorem always_step :
    Always allowed (Legal ext) (step (variant ext optimized) program) :=
  always_bind always_fetchInstruction fun instruction =>
    always_interpretCase instruction

theorem always_interpret (fuel : Nat) :
    Always allowed (Legal ext)
      (interpret (variant ext optimized) program fuel) := by
  induction fuel with
  | zero => exact always_pure _
  | succ fuel induction =>
      refine always_bind always_step fun flow => ?_
      cases flow with
      | proceed => exact induction
      | halt output => exact always_pure _

/-! ## The gas that is given away -/

/-- A call or a creation is given no more gas than this. -/
def Funded (limit : Nat) : ExtVMFace.Question → Prop
  | .call params => params.gas.toNat ≤ limit
  | .create _ gas _ _ _ => gas.toNat ≤ limit
  | _ => True

omit [Hashing] in
theorem Funded.mono {small large : Nat} {question : ExtVMFace.Question}
    (funded : Funded small question) (le : small ≤ large) :
    Funded large question := by
  cases question with
  | call params => exact Nat.le_trans funded le
  | create endowment gas init op salt => exact Nat.le_trans funded le
  | _ => trivial

/-- If nothing is handed back, what was given away is still paid for. -/
theorem asks_step_funded {machine : Machine}
    {past : List (Dialogue.Exchange ExtVMFace.interface)}
    (priced : Priced ext.evmSchedule)
    (solvent : Solvent (LegacyVM.rules ext.evmSchedule) machine) :
    Process.Asks KeepsGas (fun _ question => Funded machine.gas question)
      (step (variant ext optimized) program) machine past := by
  refine Dialogue.Ensures.asks (accounted_step priced solvent) ?_
  intro question
  cases question with
  | call params =>
      refine ⟨⟨.success, [], 0⟩, BitVec.le_def.mpr (Nat.zero_le _), ?_⟩
      intro exchanges result member accounted
      have back := accounted.handsBack _ member
      change _ + _ + _ + _ ≤ _ + 0 at back
      show params.gas.toNat ≤ _
      omega
  | create endowment gas init op salt =>
      refine ⟨⟨.success, [], asAddress 0, 0⟩,
        BitVec.le_def.mpr (Nat.zero_le _), ?_⟩
      intro exchanges result member accounted
      have back := accounted.handsBack _ member
      change _ + _ + _ ≤ _ + 0 at back
      show gas.toNat ≤ _
      omega
  | store key => exact ⟨(0 : U256), trivial, fun _ _ _ _ => trivial⟩
  | setStore key value => exact ⟨(), trivial, fun _ _ _ _ => trivial⟩
  | addRefund amount => exact ⟨(), trivial, fun _ _ _ _ => trivial⟩
  | balance addr => exact ⟨(0 : U256), trivial, fun _ _ _ _ => trivial⟩
  | codeAt addr => exact ⟨([] : Bytes), trivial, fun _ _ _ _ => trivial⟩
  | codeSizeAt addr => exact ⟨(0 : Nat), trivial, fun _ _ _ _ => trivial⟩
  | exists_ addr => exact ⟨true, trivial, fun _ _ _ _ => trivial⟩
  | suicide beneficiary => exact ⟨(), trivial, fun _ _ _ _ => trivial⟩
  | log topics data => exact ⟨(), trivial, fun _ _ _ _ => trivial⟩
  | blockHash number =>
      exact ⟨hashOfNat 0, trivial, fun _ _ _ _ => trivial⟩

theorem asks_interpret_funded (priced : Priced ext.evmSchedule) (limit : Nat) :
    ∀ (fuel : Nat) (machine : Machine)
      (past : List (Dialogue.Exchange ExtVMFace.interface)),
      Solvent (LegacyVM.rules ext.evmSchedule) machine →
      machine.gas ≤ limit →
      Process.Asks KeepsGas (fun _ question => Funded limit question)
        (interpret (variant ext optimized) program fuel) machine past := by
  intro fuel
  induction fuel with
  | zero =>
      intro machine past _ _
      trivial
  | succ fuel induction =>
      intro machine past solvent le
      refine Dialogue.asks_bind.mpr ⟨(asks_step_funded priced solvent).mono
        (fun _ _ => id) fun _ _ funded => funded.mono le, ?_⟩
      intro exchanges result yields
      have accounted := Dialogue.ensures_iff_yields.mp
        (accounted_step priced solvent) _ _ yields
      have spends := accounted.spends
      cases result with
      | error error machine' => trivial
      | ok flow machine' =>
          cases flow with
          | halt output => trivial
          | proceed =>
              refine induction machine' _ (spends.solvent solvent) ?_
              have less : machine'.gas + 1 ≤ machine.gas := spends.gas
              omega

omit [Hashing] in
/-- A frame that starts with so little gas can pay for its memory. -/
theorem solvent_start {gas : Nat} (small : gas < 2 ^ 63) :
    Solvent (LegacyVM.rules ext.evmSchedule) { gas } ∧
      memCost (LegacyVM.rules ext.evmSchedule) 0 = 0 := by
  have nothing : memCost (LegacyVM.rules ext.evmSchedule) 0 = 0 :=
    (Nat.zero_add _).trans (Nat.zero_div _)
  refine ⟨⟨Nat.dvd_zero _, rfl, ?_⟩, nothing⟩
  show gas + memCost _ 0 < _
  omega

/-! ## Whole runs -/

/-- What a static frame may ask as long as there is no `CREATE2`. -/
def ReadsOnly (ext : ExtVMFace) : ExtVMFace.Question → Prop
  | .setStore _ _ | .addRefund _ | .suicide _ | .log _ _ | .create .. => False
  | .call params => params.staticCall = true ∧
      (params.valueTransfer ≠ 0 → params.senderAddress = ext.myAddress ∧
        params.receiveAddress = ext.myAddress)
  | _ => True

omit [Hashing] in
theorem readsOnly_of_legal {past : List (Dialogue.Exchange ExtVMFace.interface)}
    {question : ExtVMFace.Question} (legal : Legal ext past question)
    (isStatic : ext.staticCall = true)
    (unknown : ext.evmSchedule.haveCreate2 = false) :
    ReadsOnly ext question := by
  have changes : ext.staticCall ≠ false := by simp [isStatic]
  cases question with
  | setStore key value => exact changes legal
  | addRefund amount => exact changes legal
  | suicide beneficiary => exact changes legal
  | log topics data => exact changes legal
  | create endowment gas init op salt =>
      have known := (legal.2.2 isStatic).2
      rw [unknown] at known
      cases known
  | call params =>
      obtain ⟨_, _, pays, _, static⟩ := legal
      exact ⟨(static isStatic).1, fun moves =>
        ⟨pays moves, (static isStatic).2 moves⟩⟩
  | _ => trivial

section

variable {gas : U256} {fuel : Nat}
  {exchanges before later : List (Dialogue.Exchange ExtVMFace.interface)}
  {exchange : Dialogue.Exchange ExtVMFace.interface}
  {result : Option ExecResult}

theorem asks_exec : (LegacyVM.exec optimized ext gas fuel).Asks allowed
    (Legal ext) [] :=
  Dialogue.asks_bind.mpr ⟨always_interpret fuel _ _, fun _ _ _ => trivial⟩

/-- Whatever a frame is answered, each of its questions is legal in view of
the questions and answers before it. -/
theorem legal_exec
    (yields : Dialogue.Yields allowed (LegacyVM.exec optimized ext gas fuel)
      exchanges result)
    (split : exchanges = before ++ exchange :: later) :
    Legal ext before.reverse exchange.1 := by
  have legal := asks_exec.legal_of_yields yields split
  rwa [List.append_nil] at legal

/-- Whatever a static frame is answered, it asks for no change, and its calls
are static and take nothing from it, unless the schedule has `CREATE2`. -/
theorem static_exec (isStatic : ext.staticCall = true)
    (unknown : ext.evmSchedule.haveCreate2 = false)
    (yields : Dialogue.Yields allowed (LegacyVM.exec optimized ext gas fuel)
      exchanges result)
    (member : exchange ∈ exchanges) : ReadsOnly ext exchange.1 := by
  obtain ⟨before, later, split⟩ := List.append_of_mem member
  exact readsOnly_of_legal (asks_exec.legal_of_yields yields split) isStatic
    unknown

/-- No call or creation is given more gas than the frame had at first, if none
hands back more than it was given. -/
theorem funded_exec (builtIn : ext.evmSchedule ∈ EVMSchedule.builtIn)
    (small : gas.toNat < 2 ^ 63)
    (yields : Dialogue.Yields KeepsGas (LegacyVM.exec optimized ext gas fuel)
      exchanges result)
    (member : exchange ∈ exchanges) : Funded gas.toNat exchange.1 := by
  obtain ⟨before, later, split⟩ := List.append_of_mem member
  have unwrapped : toUInt64 gas = gas.toNat := Nat.mod_eq_of_lt (by omega)
  have asks : (LegacyVM.exec optimized ext gas fuel).Asks KeepsGas
      (fun _ question => Funded gas.toNat question) [] := by
    unfold LegacyVM.exec
    rw [unwrapped]
    refine Dialogue.asks_bind.mpr ⟨?_, fun _ _ _ => trivial⟩
    exact asks_interpret_funded (Priced.ofBuiltIn builtIn) gas.toNat fuel _ _
      (solvent_start small).1 (Nat.le_refl _)
  exact asks.legal_of_yields yields split

end

end LegacyVM

end

/-! ## A sample

The code calls account 2, and the frame is told that it has 5. -/

section Sample

attribute [local instance] frameSampleHashing

def callingSample (value : UInt8) (staticCall : Bool) : ExtVMFace :=
  { frameSample .byzantium [0x60, 0, 0x60, 0, 0x60, 0, 0x60, 0, 0x60, value,
      0x60, 2, 0x60, 0, 0xf1] with staticCall }

def answersSample :
    (question : ExtVMFace.Question) → ExtVMFace.Answer question
  | .store _ => (0 : U256)
  | .balance _ => (5 : U256)
  | .codeAt _ => ([] : Bytes)
  | .codeSizeAt _ => (0 : Nat)
  | .exists_ _ => true
  | .create .. => ⟨.success, [], asAddress 0, 0⟩
  | .call _ => ⟨.success, [], 0⟩
  | .blockHash _ => hashOfNat 0
  | .setStore _ _ | .addRefund _ | .suicide _ | .log _ _ => ()

/-- What is asked, and the end. -/
def askedSample (ext : ExtVMFace) :=
  (LegacyVM.exec false ext 50000 20).transcript answersSample

theorem askedSample_yields (ext : ExtVMFace) :
    Dialogue.Yields KeepsGas (LegacyVM.exec false ext 50000 20)
      (askedSample ext).1 (askedSample ext).2 := by
  refine Dialogue.yields_transcript (fun question => ?_) _
  cases question with
  | call params => exact BitVec.le_def.mpr (Nat.zero_le _)
  | create endowment gas init op salt =>
      exact BitVec.le_def.mpr (Nat.zero_le _)
  | _ => trivial

theorem LegacyVM.legal_exec_sample :
    (askedSample (callingSample 5 false)).1.length = 3 ∧
      ∀ before exchange later,
        (askedSample (callingSample 5 false)).1 = before ++ exchange :: later →
          Legal (callingSample 5 false) before.reverse exchange.1 :=
  ⟨by decide +kernel, fun _ _ _ => LegacyVM.legal_exec (askedSample_yields _)⟩

theorem LegacyVM.static_exec_sample :
    (askedSample (callingSample 0 true)).1.length = 3 ∧
      ∀ exchange ∈ (askedSample (callingSample 0 true)).1,
        LegacyVM.ReadsOnly (callingSample 0 true) exchange.1 :=
  ⟨by decide +kernel, fun _ => LegacyVM.static_exec rfl rfl
    (askedSample_yields _)⟩

theorem LegacyVM.funded_exec_sample :
    (askedSample (callingSample 5 false)).2.isSome ∧
      ∀ exchange ∈ (askedSample (callingSample 5 false)).1,
        LegacyVM.Funded 50000 exchange.1 :=
  ⟨by decide +kernel, fun _ => LegacyVM.funded_exec (by decide) (by decide)
    (askedSample_yields _)⟩

end Sample

end Aecmio

import Aecmio.Rlp.Fields

/-!
# What a failing reader does

Where a method of `RLP` fails it throws; it neither reads outside the bytes
it views nor goes on for ever.
-/

namespace Aecmio

/-- Only the marks of a read outside the memory and of a loop without end are
no exceptions. -/
def RLPError.isException : RLPError → Bool
  | .outOfBounds => false
  | .diverges => false
  | _ => true

/-- A computation that either returns or throws. -/
def Raises {α : Type} (result : Except RLPError α) : Prop :=
  ∀ error, result = .error error → error.isException = true

namespace Raises

variable {α β : Type}

theorem ok (value : α) : Raises (.ok value) := by
  intro error failed
  cases failed

theorem pure (value : α) : Raises (pure value) := ok value

theorem error {raised : RLPError} (exception : raised.isException = true) :
    Raises (.error raised : Except RLPError α) := by
  intro other failed
  cases failed
  exact exception

theorem throw {raised : RLPError} (exception : raised.isException = true) :
    Raises (throw raised : Except RLPError α) := error exception

theorem bind {first : Except RLPError α} {next : α → Except RLPError β}
    (one : Raises first) (others : ∀ value, first = .ok value →
      Raises (next value)) : Raises (first >>= next) := by
  cases first with
  | error raised => exact error (one raised rfl)
  | ok value => exact others value rfl

theorem ite {condition : Prop} [Decidable condition]
    {positive negative : Except RLPError α} (one : Raises positive)
    (other : Raises negative) :
    Raises (if condition then positive else negative) := by
  split
  · exact one
  · exact other

end Raises

namespace RLP

theorem requireGood_raises (view : Bytes) : Raises (requireGood view) := by
  unfold requireGood
  split
  · exact .error rfl
  · apply Raises.ite (.ok _)
    split
    · exact .error rfl
    · exact .ite (.error rfl) (.ok _)

theorem longLength_raises (view : Bytes) (lengthSize minimum : Nat) :
    Raises (longLength view lengthSize minimum) := by
  unfold longLength
  apply Raises.ite (.error rfl)
  apply Raises.ite (.error rfl)
  apply Raises.ite (.error rfl)
  exact .ite (.error rfl) (.ite (.error rfl) (.ok _))

theorem length_raises (view : Bytes) : Raises (RLP.length view) := by
  cases view with
  | nil => exact .ok _
  | cons first tail =>
      apply Raises.bind (requireGood_raises _)
      intro _ _
      apply Raises.ite (.ok _)
      apply Raises.ite (.ok _)
      apply Raises.ite (longLength_raises _ _ _)
      exact .ite (.ok _) (longLength_raises _ _ _)

theorem actualSize_raises (view : Bytes) : Raises (actualSize view) := by
  unfold actualSize
  apply Raises.ite (.pure _)
  apply Raises.ite (.pure _)
  apply Raises.bind (length_raises view)
  intro _ _
  exact .pure _

/-- A strict constructor looks at the size, and at nothing else. -/
theorem construct_throwIfTooSmall_eq (view : Bytes) :
    construct view .throwIfTooSmall = (actualSize view >>= fun total =>
      if view.length < total then .error .undersizeRLP else .ok view) := by
  cases result : actualSize view with
  | error error =>
      simp [construct, Strictness.throwIfTooSmall, result, bind, Except.bind]
  | ok total =>
      by_cases small : view.length < total
      · simp [construct, Strictness.throwIfTooSmall, result, small, bind,
          Except.bind, throw, throwThe, MonadExceptOf.throw]
      · simp [construct, Strictness.throwIfTooSmall, result, small, bind,
          Except.bind, pure, Except.pure]

theorem construct_veryStrict_eq (view : Bytes) :
    construct view .veryStrict = (actualSize view >>= fun total =>
      if total < view.length then .error .oversizeRLP
      else if view.length < total then .error .undersizeRLP
      else .ok view) := by
  cases result : actualSize view with
  | error error =>
      simp [construct, Strictness.veryStrict, result, bind, Except.bind]
  | ok total =>
      by_cases big : total < view.length
      · simp [construct, Strictness.veryStrict, result, big, bind,
          Except.bind, throw, throwThe, MonadExceptOf.throw]
      by_cases small : view.length < total
      · simp [construct, Strictness.veryStrict, result, big, small, bind,
          Except.bind, throw, throwThe, MonadExceptOf.throw]
      · simp [construct, Strictness.veryStrict, result, big, small, bind,
          Except.bind, pure, Except.pure]

theorem construct_throwIfTooSmall_raises (view : Bytes) :
    Raises (construct view .throwIfTooSmall) := by
  rw [construct_throwIfTooSmall_eq]
  apply Raises.bind (actualSize_raises view)
  intro _ _
  exact .ite (.error rfl) (.ok _)

theorem construct_veryStrict_raises (view : Bytes) :
    Raises (construct view .veryStrict) := by
  rw [construct_veryStrict_eq]
  apply Raises.bind (actualSize_raises view)
  intro _ _
  exact .ite (.error rfl) (.ite (.error rfl) (.ok _))

theorem sizeAsEncoded_raises (view : Bytes) : Raises (sizeAsEncoded view) := by
  apply Raises.bind (construct_throwIfTooSmall_raises view)
  intro constructed _
  exact actualSize_raises constructed

theorem payload_raises (view : Bytes) : Raises (RLP.payload view) := by
  apply Raises.bind
  · apply Raises.bind (length_raises view)
    intro _ _
    apply Raises.ite
    · exact .bind (.throw rfl) fun _ _ => .pure _
    · exact .bind (.pure _) fun _ _ => .pure _
  · intro _ _
    exact .pure _

theorem isInt_raises (view : Bytes) : Raises (isInt view) := by
  cases view with
  | nil => exact .ok _
  | cons first rest =>
      apply Raises.bind (requireGood_raises _)
      intro _ _
      apply Raises.ite (.pure _)
      apply Raises.ite (.pure _)
      apply Raises.ite
      · cases rest with
        | nil => exact .throw rfl
        | cons second others => exact .pure _
      · apply Raises.ite
        · apply Raises.ite
          · exact .bind (.throw rfl) fun _ _ => .pure _
          · exact .bind (.pure _) fun _ _ => .pure _
        · exact .pure _

theorem toInt_raises (type : IntType) (view : Bytes) (flags : Strictness) :
    Raises (toInt type view flags) := by
  have converted : ∀ accepted : Bool, Raises (do
      if !accepted || isList view || isNull view then
        if flags.throwOnFail then throw .badCast
        return 0
      let content ← RLP.payload view
      if type.maxSize < content.length && flags.failIfTooBig then
        if flags.throwOnFail then throw .badCast
        return 0
      return fromBigEndianAs type content : Except RLPError Nat) := by
    intro accepted
    apply Raises.ite
    · apply Raises.ite
      · exact .bind (.throw rfl) fun _ _ => .pure _
      · exact .bind (.pure _) fun _ _ => .pure _
    · apply Raises.bind (payload_raises view)
      intro _ _
      apply Raises.ite
      · apply Raises.ite
        · exact .bind (.throw rfl) fun _ _ => .pure _
        · exact .bind (.pure _) fun _ _ => .pure _
      · exact .pure _
  unfold toInt
  apply Raises.bind (requireGood_raises view)
  intro _ _
  apply Raises.ite
  · exact .bind (.pure _) fun accepted _ => converted accepted
  · exact .bind (isInt_raises view) fun accepted _ => converted accepted

theorem toHash_raises (size : Nat) (view : Bytes) (flags : Strictness) :
    Raises (toHash size view flags) := by
  apply Raises.bind (requireGood_raises view)
  intro _ _
  apply Raises.bind (payload_raises view)
  intro _ _
  apply Raises.ite
  · apply Raises.ite
    · exact .bind (.throw rfl) fun _ _ => .pure _
    · exact .bind (.pure _) fun _ _ => .pure _
  · exact .pure _

theorem nthPart_raises (position : Nat) (content : Bytes) :
    Raises (nthPart position content) := by
  induction position generalizing content with
  | zero => exact .bind (sizeAsEncoded_raises content) fun _ _ => .pure _
  | succ position induction =>
      apply Raises.bind (sizeAsEncoded_raises content)
      intro _ _
      exact .ite (.pure _) (induction _)

theorem payload_length_le {view content : Bytes}
    (found : RLP.payload view = .ok content) :
    content.length ≤ view.length := by
  obtain ⟨place, -, read⟩ := exists_of_bind_ok found
  cases Except.ok.inj read
  unfold VectorRef.contents
  split
  · simp
  · rw [List.length_take, List.length_drop]
    omega

theorem at_raises {view : Bytes} (bounded : view.length < sizeTRange - 1)
    {position : Nat} (inRange : position < sizeTRange - 1) :
    Raises (at_ view position) := by
  cases found : RLP.payload view with
  | ok content =>
      have inside := payload_length_le found
      rw [at_eq found (by omega) inRange]
      exact nthPart_raises position content
  | error raised =>
      have stuck : at_ view position = .error raised := by
        rw [at_eq_outcome]
        simp only [index, EStateM.run_bind, EStateM.run_get, inRange, if_true,
          found, lift]
        rfl
      rw [stuck]
      exact .error (payload_raises view raised found)

theorem itemsLoop_raises {fuel : Nat} {view : Bytes}
    (enough : view.length ≤ fuel) (bounded : view.length < sizeTRange - 1) :
    Raises (itemsLoop fuel view) := by
  induction fuel generalizing view with
  | zero =>
      cases view with
      | nil => exact .ok _
      | cons first rest => cases enough
  | succ fuel induction =>
      by_cases empty : view = []
      · subst empty
        exact .ok _
      · rw [itemsLoop_cons empty]
        apply Raises.bind (sizeAsEncoded_raises view)
        intro size read
        obtain ⟨part, rest, isPart, split, length⟩ := part_of_size empty read
        have positive := isPart.length_pos
        have total := congrArg List.length split
        rw [List.length_append] at total
        have shorter : (croppedFrom view size).length = rest.length := by
          rw [croppedFrom_eq (by omega), List.length_drop]
          omega
        apply Raises.bind (induction (by omega) (by omega))
        intro _ _
        exact .pure _

theorem itemCount_raises {view : Bytes}
    (bounded : view.length < sizeTRange - 1) : Raises (itemCount view) := by
  apply Raises.ite _ (.ok _)
  apply Raises.ite _ (.ok _)
  apply Raises.bind (payload_raises view)
  intro content found
  have inside := payload_length_le found
  exact itemsLoop_raises (Nat.le_refl _) (by omega)

end RLP

end Aecmio

import Mathlib.Data.List.AList

/-!
# Finite maps that are inverse to each other

Two maps that are kept side by side, one for each direction.  One key of the
first may stand for "unknown", and then nothing is said of it.
-/

namespace Inverses

variable {α β : Type} [DecidableEq α] [DecidableEq β]

theorem lookup_insert_eq (map : AList fun _ : α => β) (key other : α)
    (value : β) :
    (map.insert key value).lookup other =
      if other = key then some value else map.lookup other := by
  split
  · next same => rw [same, AList.lookup_insert]
  · next different => rw [AList.lookup_insert_ne different]

theorem lookup_erase_eq (map : AList fun _ : α => β) (key other : α) :
    (map.erase key).lookup other =
      if other = key then none else map.lookup other := by
  split
  · next same => rw [same, AList.lookup_erase]
  · next different => rw [AList.lookup_erase_ne different]

/-- The maps are inverse to each other, whatever the unknown key has. -/
def Inverse (unknown : α) (forward : AList fun _ : α => β)
    (back : AList fun _ : β => α) : Prop :=
  ∀ key value, key ≠ unknown →
    (forward.lookup key = some value ↔ back.lookup value = some key)

/-- A key and a value that are at most bound to each other. -/
structure Fits (unknown : α) (forward : AList fun _ : α => β)
    (back : AList fun _ : β => α) (key : α) (value : β) : Prop where
  free : key ≠ unknown → ∀ other, forward.lookup key = some other →
    other = value
  unbound : ∀ other, other ≠ unknown → back.lookup value = some other →
    other = key

variable {unknown : α} {forward : AList fun _ : α => β}
  {back : AList fun _ : β => α} {key : α} {value : β}

namespace Inverse

theorem insert (inverse : Inverse unknown forward back)
    (fits : Fits unknown forward back key value) :
    Inverse unknown (forward.insert key value) (back.insert value key) := by
  intro other found known
  rw [lookup_insert_eq, lookup_insert_eq]
  by_cases here : other = key
  · by_cases there : found = value
    · rw [if_pos here, if_pos there, here, there]
      exact iff_of_true rfl rfl
    · rw [if_pos here, if_neg there]
      refine iff_of_false (fun same => there (Option.some.inj same).symm) ?_
      intro back
      rw [← inverse other found known] at back
      rw [here] at known back
      exact there (fits.free known found back)
  · by_cases there : found = value
    · rw [if_neg here, if_pos there]
      refine iff_of_false ?_ (fun same => here (Option.some.inj same).symm)
      intro bound
      rw [inverse other found known, there] at bound
      exact here (fits.unbound other known bound)
    · rw [if_neg here, if_neg there]
      exact inverse other found known

theorem erase (inverse : Inverse unknown forward back)
    (fits : Fits unknown forward back key value) :
    Inverse unknown (forward.erase key) (back.erase value) := by
  intro other found known
  rw [lookup_erase_eq, lookup_erase_eq]
  by_cases here : other = key
  · rw [if_pos here]
    refine iff_of_false (fun none => by cases none) ?_
    by_cases there : found = value
    · rw [if_pos there]
      exact fun none => by cases none
    · rw [if_neg there, ← inverse other found known]
      intro bound
      rw [here] at known bound
      exact there (fits.free known found bound)
  · rw [if_neg here]
    by_cases there : found = value
    · rw [if_pos there]
      refine iff_of_false ?_ (fun none => by cases none)
      intro bound
      rw [inverse other found known, there] at bound
      exact here (fits.unbound other known bound)
    · rw [if_neg there]
      exact inverse other found known

/-- No key but the unknown one shares its value. -/
theorem injective (inverse : Inverse unknown forward back) {other : β}
    (known : key ≠ unknown) (one : back.lookup value = some key)
    (two : back.lookup other = some key) : value = other := by
  rw [← inverse _ _ known] at one two
  exact Option.some.inj (one.symm.trans two)

/-- A bound key fits its value, and so does a key that is not bound if the
value is not. -/
theorem fits (inverse : Inverse unknown forward back)
    (bound : forward.lookup key = some value) (known : key ≠ unknown) :
    Fits unknown forward back key value := by
  refine ⟨fun _ other found => ?_, fun other _ found => ?_⟩
  · exact Option.some.inj (found.symm.trans bound)
  · rw [inverse _ _ known, found] at bound
    exact Option.some.inj bound

end Inverse

end Inverses

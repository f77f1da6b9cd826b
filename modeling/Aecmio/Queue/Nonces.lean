import Aecmio.Queue.TransactionQueue

/-!
# Maps from nonces and from senders

What the operations on the two-level maps of the transaction queue do to
their members and to the number of these.
-/

namespace Aecmio

namespace TransactionQueue

/-! ## Maps from nonces -/

namespace NonceMap

variable {nonces : NonceMap} {transaction other : Transaction} {nonce : U256}

theorem nodup (nonces : NonceMap) : nonces.transactions.Nodup := by
  refine nonces.ordered.imp ?_
  intro first second lower same
  rw [same] at lower
  exact absurd lower (BitVec.lt_irrefl _)

theorem eq_of_nonce (first : transaction ∈ nonces.transactions)
    (second : other ∈ nonces.transactions)
    (same : transaction.nonce = other.nonce) : transaction = other := by
  by_contra different
  have apart : nonces.transactions.Pairwise fun first second =>
      first.nonce ≠ second.nonce := by
    refine nonces.ordered.imp ?_
    intro first second lower equal
    rw [equal] at lower
    exact absurd lower (BitVec.lt_irrefl _)
  have symmetric : Std.Symm fun first second : Transaction =>
      first.nonce ≠ second.nonce := ⟨fun _ _ => Ne.symm⟩
  exact apart.forall first second different same

theorem of_find (found : nonces.find nonce = some transaction) :
    transaction ∈ nonces.transactions ∧ transaction.nonce = nonce := by
  have same := List.find?_some found
  exact ⟨List.mem_of_find?_eq_some found, of_decide_eq_true same⟩

theorem find_eq_some :
    nonces.find nonce = some transaction ↔
      transaction ∈ nonces.transactions ∧ transaction.nonce = nonce := by
  constructor
  · exact of_find
  · intro both
    obtain ⟨member, rfl⟩ := both
    have found : (nonces.find transaction.nonce).isSome :=
      List.find?_isSome.mpr ⟨transaction, member, decide_eq_true rfl⟩
    obtain ⟨other, otherEq⟩ := Option.isSome_iff_exists.mp found
    obtain ⟨otherMember, same⟩ := of_find otherEq
    rw [otherEq, eq_of_nonce otherMember member same]

theorem mem_filter {test : Transaction → Bool} :
    other ∈ (nonces.filter test).transactions ↔
      other ∈ nonces.transactions ∧ test other := List.mem_filter

theorem mem_erase :
    other ∈ (nonces.erase nonce).transactions ↔
      other ∈ nonces.transactions ∧ other.nonce ≠ nonce := by
  simp only [erase, mem_filter, decide_eq_true_eq]

theorem mem_assign :
    other ∈ (nonces.assign transaction).transactions ↔
      other = transaction ∨
        other ∈ nonces.transactions ∧ other.nonce ≠ transaction.nonce := by
  simp only [assign, List.mem_append, List.mem_cons, List.mem_filter,
    decide_eq_true_eq]
  constructor
  · intro cases_
    rcases cases_ with ⟨member, lower⟩ | same | ⟨member, higher⟩
    · exact .inr ⟨member, BitVec.ne_of_lt lower⟩
    · exact .inl same
    · exact .inr ⟨member, (BitVec.ne_of_lt higher).symm⟩
  · intro cases_
    rcases cases_ with same | ⟨member, different⟩
    · exact .inr (.inl same)
    · rcases Nat.lt_or_gt_of_ne (mt BitVec.eq_of_toNat_eq different) with
        lower | higher
      · exact .inl ⟨member, lower⟩
      · exact .inr (.inr ⟨member, higher⟩)

theorem assign_ne_empty : (nonces.assign transaction).isEmpty = false := by
  simp [assign, isEmpty]

theorem eq_empty (none : nonces.isEmpty) : nonces = .empty := by
  obtain ⟨transactions, ordered⟩ := nonces
  obtain rfl : transactions = [] := List.isEmpty_iff.mp none
  rfl

theorem length_assign
    (fresh : ∀ other ∈ nonces.transactions,
      other.nonce ≠ transaction.nonce) :
    (nonces.assign transaction).transactions.length =
      nonces.transactions.length + 1 := by
  have same : (nonces.assign transaction).transactions.Perm
      (transaction :: nonces.transactions) := by
    refine (List.perm_ext_iff_of_nodup (nodup _) ?_).mpr ?_
    · refine List.nodup_cons.mpr ⟨?_, nonces.nodup⟩
      intro member
      exact fresh transaction member rfl
    · intro other
      rw [mem_assign, List.mem_cons]
      constructor
      · intro cases_
        exact cases_.imp id And.left
      · intro cases_
        exact cases_.imp id fun member => ⟨member, fresh other member⟩
  rw [same.length_eq, List.length_cons]

theorem emplace_eq_assign
    (fresh : ∀ other ∈ nonces.transactions,
      other.nonce ≠ transaction.nonce) :
    nonces.emplace transaction = nonces.assign transaction := by
  unfold emplace
  refine if_neg ?_
  intro found
  obtain ⟨other, otherEq⟩ := Option.isSome_iff_exists.mp found
  obtain ⟨member, same⟩ := find_eq_some.mp otherEq
  exact fresh other member same

/-- Taking part of a map away. -/
theorem length_filter_not {part : List Transaction}
    (sub : ∀ other ∈ part, other ∈ nonces.transactions)
    (nodupPart : part.Nodup) :
    (nonces.filter fun other => other ∉ part).transactions.length +
      part.length = nonces.transactions.length := by
  have taken : (nonces.transactions.filter fun other =>
      decide (other ∈ part)).Perm part := by
    refine (List.perm_ext_iff_of_nodup (nonces.nodup.filter _)
      nodupPart).mpr ?_
    intro other
    rw [List.mem_filter, decide_eq_true_eq]
    exact ⟨And.right, fun member => ⟨sub other member, member⟩⟩
  have split := List.length_eq_length_filter_add
    (l := nonces.transactions) fun other => decide (other ∈ part)
  rw [taken.length_eq] at split
  have same : (nonces.transactions.filter fun other =>
      !decide (other ∈ part)) =
      (nonces.filter fun other => other ∉ part).transactions := by
    simp [filter]
  rw [same] at split
  omega

theorem length_erase (member : transaction ∈ nonces.transactions) :
    (nonces.erase transaction.nonce).transactions.length + 1 =
      nonces.transactions.length := by
  have same : nonces.erase transaction.nonce =
      nonces.filter fun other => other ∉ [transaction] := by
    unfold erase filter
    congr 1
    refine List.filter_congr ?_
    intro other otherMember
    refine decide_eq_decide.mpr ?_
    rw [List.mem_singleton, ne_eq, not_iff_not]
    exact ⟨eq_of_nonce otherMember member, congrArg Transaction.nonce⟩
  rw [same]
  exact length_filter_not (by simpa using member) (List.nodup_singleton _)

theorem consecutive_sublist (list : List Transaction) :
    (consecutive nonce list).Sublist list := by
  induction list generalizing nonce with
  | nil => exact .slnil
  | cons transaction rest induction =>
      unfold consecutive
      split
      · exact .cons_cons _ induction
      · exact List.nil_sublist _

theorem chain_sublist :
    (nonces.chain nonce).Sublist nonces.transactions :=
  (consecutive_sublist _).trans (List.dropWhile_sublist _)

theorem emplaceAll (moved : List Transaction) (target : NonceMap)
    (fresh : ∀ other ∈ target.transactions, ∀ entered ∈ moved,
      other.nonce ≠ entered.nonce)
    (ordered : moved.Pairwise fun first second =>
      first.nonce ≠ second.nonce) :
    (∀ other, other ∈ (moved.foldl NonceMap.emplace target).transactions ↔
      other ∈ target.transactions ∨ other ∈ moved) ∧
    (moved.foldl NonceMap.emplace target).transactions.length =
      target.transactions.length + moved.length := by
  induction moved generalizing target with
  | nil => simp
  | cons entered rest induction =>
      obtain ⟨apart, orderedRest⟩ := List.pairwise_cons.mp ordered
      have freshEntered : ∀ other ∈ target.transactions,
          other.nonce ≠ entered.nonce :=
        fun other member => fresh other member entered (by simp)
      have memAssign : ∀ other, other ∈ (target.assign entered).transactions ↔
          other ∈ target.transactions ∨ other = entered := by
        intro other
        rw [mem_assign]
        constructor
        · intro cases_
          exact cases_.elim .inr fun both => .inl both.1
        · intro cases_
          exact cases_.elim (fun member =>
            .inr ⟨member, freshEntered other member⟩) .inl
      have freshRest : ∀ other ∈ (target.assign entered).transactions,
          ∀ later ∈ rest, other.nonce ≠ later.nonce := by
        intro other member later laterMember
        rcases (memAssign other).mp member with old | equal
        · exact fresh other old later (List.mem_cons_of_mem _ laterMember)
        · rw [equal]
          exact apart later laterMember
      obtain ⟨members, length⟩ := induction (target.assign entered) freshRest
        orderedRest
      rw [List.foldl_cons, emplace_eq_assign freshEntered]
      constructor
      · intro other
        rw [members, memAssign, List.mem_cons]
        tauto
      · rw [length, length_assign freshEntered, List.length_cons]
        omega

end NonceMap

/-! ## Maps from senders -/

namespace BySender

variable {index : BySender} {sender other : Address} {nonces : NonceMap}

theorem get_of_lookup (found : index.lookup sender = some nonces) :
    index.get sender = nonces := by
  rw [get, found, Option.getD_some]

theorem lookup_of_mem {transaction : Transaction}
    (member : transaction ∈ (index.get sender).transactions) :
    index.lookup sender = some (index.get sender) := by
  cases found : index.lookup sender with
  | none =>
      rw [get, found] at member
      cases member
  | some nonces => rw [get_of_lookup found]

@[simp]
theorem get_insert :
    BySender.get (index.insert sender nonces) sender = nonces := by
  rw [get, AList.lookup_insert, Option.getD_some]

theorem get_insert_ne (different : other ≠ sender) :
    BySender.get (index.insert sender nonces) other = index.get other := by
  rw [get, AList.lookup_insert_ne different, get]

@[simp]
theorem get_put : (index.put sender nonces).get sender = nonces := by
  unfold put
  split
  · rename_i none
    rw [get, AList.lookup_erase, NonceMap.eq_empty none]
    rfl
  · exact get_insert

theorem lookup_put_ne (different : other ≠ sender) :
    (index.put sender nonces).lookup other = index.lookup other := by
  unfold put
  split
  · exact AList.lookup_erase_ne different
  · exact AList.lookup_insert_ne different

theorem get_put_ne (different : other ≠ sender) :
    (index.put sender nonces).get other = index.get other := by
  rw [get, lookup_put_ne different, get]

/-- An entry that `put` leaves is not empty. -/
theorem lookup_put {found : NonceMap}
    (lookup : (index.put sender nonces).lookup sender = some found) :
    found = nonces ∧ nonces.isEmpty = false := by
  unfold put at lookup
  split at lookup
  · rw [AList.lookup_erase] at lookup
    cases lookup
  · rename_i some_
    rw [AList.lookup_insert] at lookup
    exact ⟨(Option.some.inj lookup).symm, Bool.eq_false_of_not_eq_true some_⟩

theorem count_erase (index : BySender) (sender : Address) :
    BySender.count (index.erase sender) +
      (index.get sender).transactions.length = index.count := by
  obtain ⟨entries, nodupKeys⟩ := index
  unfold count get
  simp only [AList.erase, AList.lookup]
  induction entries with
  | nil => rfl
  | cons entry rest induction =>
      obtain ⟨key, value⟩ := entry
      have nodupRest := (List.nodupKeys_cons.mp nodupKeys).2
      by_cases same : sender = key
      · subst same
        simp [List.kerase_cons_eq, List.dlookup_cons_eq, Nat.add_comm]
      · have step := induction nodupRest
        rw [List.kerase_cons_ne same, List.dlookup_cons_ne _ _ same]
        simp only [List.map_cons, List.sum_cons]
        omega

theorem count_insert (index : BySender) (sender : Address)
    (nonces : NonceMap) :
    BySender.count (index.insert sender nonces) +
      (index.get sender).transactions.length =
      index.count + nonces.transactions.length := by
  have erased := count_erase index sender
  have entered : BySender.count (index.insert sender nonces) =
      nonces.transactions.length + BySender.count (index.erase sender) := by
    simp [count, AList.entries_insert, AList.erase]
  omega

theorem count_put (index : BySender) (sender : Address) (nonces : NonceMap) :
    (index.put sender nonces).count +
      (index.get sender).transactions.length =
      index.count + nonces.transactions.length := by
  unfold put
  split
  · rename_i none
    rw [NonceMap.eq_empty none]
    exact count_erase index sender
  · exact count_insert index sender nonces

end BySender

end TransactionQueue

end Aecmio

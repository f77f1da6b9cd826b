import Aecmio.Chain.LogFilter
import Aecmio.Logic.Paging

/-!
# The logs of a receipt that a filter matches

`LogFilter::matches` of a receipt looks at the bloom first and then at every
log: at the address, and at the four topics in order.  The check that a log
has a topic to compare is off by one, so that a log with exactly as many
topics as come before a position is read one past its topics.  Such a read is
`none`.
-/

namespace Aecmio

namespace LogFilter

/-- The test of the topic at a position: whether the log goes on to the next
one. -/
def passesTopic (filter : LogFilter) (entry : LogEntry) (index : Fin 4) :
    Option Bool :=
  if filter.topics index = [] then some true
  else if entry.topics.length < index then some false
  else entry.topics[index.val]?.map fun topic =>
    (filter.topics index).contains topic

/-- The loop over the topics. -/
def passesTopics (filter : LogFilter) (entry : LogEntry) :
    List (Fin 4) → Option Bool
  | [] => some true
  | index :: rest => do
      if ← filter.passesTopic entry index then
        filter.passesTopics entry rest
      else some false

theorem lawfulBEq_address : LawfulBEq Address := inferInstance

attribute [local instance] lawfulBEq_address

/-- Whether the log is put into the result. -/
def keeps (filter : LogFilter) (entry : LogEntry) : Option Bool :=
  if filter.addresses ≠ [] ∧ entry.address ∉ filter.addresses then some false
  else filter.passesTopics entry (List.finRange 4)

/-- The loop over the logs. -/
def matchingLogs (filter : LogFilter) : List LogEntry → Option (List LogEntry)
  | [] => some []
  | entry :: rest => do
      let kept ← filter.keeps entry
      let others ← filter.matchingLogs rest
      return if kept then entry :: others else others

/-- `matches(TransactionReceipt)`. -/
def matchesReceipt [Hashing] (filter : LogFilter)
    (receipt : TransactionReceipt) : Option (List LogEntry) :=
  if filter.isRangeFilter then some receipt.log
  else if filter.matchesBloom receipt.bloom then
    filter.matchingLogs receipt.log
  else some []

variable {filter : LogFilter} {entry : LogEntry} {index : Fin 4}

/-- The log has an alternative for the position, where there are any. -/
def HasTopic (filter : LogFilter) (entry : LogEntry) (index : Fin 4) : Prop :=
  filter.topics index ≠ [] →
    ∃ topic ∈ filter.topics index, entry.topics[index.val]? = some topic

instance (filter : LogFilter) (entry : LogEntry) (index : Fin 4) :
    Decidable (filter.HasTopic entry index) :=
  inferInstanceAs (Decidable (_ → _))

/-- The log passes up to a position with alternatives that is just behind its
topics. -/
def Overruns (filter : LogFilter) (entry : LogEntry) : Prop :=
  (filter.addresses ≠ [] → entry.address ∈ filter.addresses) ∧
    ∃ index : Fin 4, entry.topics.length = index ∧
      filter.topics index ≠ [] ∧
        ∀ earlier < index, filter.HasTopic entry earlier

instance (filter : LogFilter) (entry : LogEntry) :
    Decidable (filter.Overruns entry) :=
  inferInstanceAs (Decidable (_ ∧ _))

theorem passesTopic_eq_some {passes : Bool}
    (ran : filter.passesTopic entry index = some passes) :
    passes = true ↔ filter.HasTopic entry index := by
  unfold passesTopic at ran
  unfold HasTopic
  by_cases none : filter.topics index = []
  · rw [if_pos none] at ran
    cases ran
    simp [none]
  rw [if_neg none] at ran
  by_cases short : entry.topics.length < index
  · rw [if_pos short] at ran
    cases ran
    have missing : entry.topics[index.val]? = Option.none :=
      List.getElem?_eq_none_iff.mpr short.le
    simp [none, missing]
  · rw [if_neg short] at ran
    obtain ⟨topic, found, same⟩ := Option.map_eq_some_iff.mp ran
    rw [← same, found]
    simp [none]

/-- The topic is read past the end. -/
theorem passesTopic_eq_none : filter.passesTopic entry index = none ↔
    entry.topics.length = index ∧ filter.topics index ≠ [] := by
  unfold passesTopic
  split
  · simp_all
  · split
    · have different : entry.topics.length ≠ index := by omega
      simp [different]
    · rw [Option.map_eq_none_iff, List.getElem?_eq_none_iff]
      constructor
      · intro long
        exact ⟨by omega, by assumption⟩
      · rintro ⟨same, -⟩
        omega

theorem passesTopics_eq_some {indices : List (Fin 4)} {passes : Bool}
    (ran : filter.passesTopics entry indices = some passes) :
    passes = true ↔ ∀ index ∈ indices, filter.HasTopic entry index := by
  induction indices with
  | nil =>
      cases ran
      simp
  | cons index rest induction =>
      rw [passesTopics] at ran
      obtain ⟨first, tested, ran⟩ := Option.bind_eq_some_iff.mp ran
      have meaning := passesTopic_eq_some tested
      rw [List.forall_mem_cons, ← meaning]
      cases first with
      | true =>
          rw [if_pos rfl] at ran
          rw [induction ran]
          simp
      | false =>
          cases ran
          simp

/-- A topic is read past the end, and those before it are passed. -/
theorem passesTopics_eq_none {indices : List (Fin 4)} :
    filter.passesTopics entry indices = none ↔ ∃ front index back,
      indices = front ++ index :: back ∧
        (∀ earlier ∈ front, filter.HasTopic entry earlier) ∧
          filter.passesTopic entry index = none := by
  induction indices with
  | nil => simp [passesTopics]
  | cons index rest induction =>
      rw [passesTopics]
      cases tested : filter.passesTopic entry index with
      | none =>
          exact iff_of_true rfl ⟨[], index, rest, rfl, by simp, tested⟩
      | some passes =>
          have meaning := passesTopic_eq_some tested
          have later : (∃ front other back,
              index :: rest = front ++ other :: back ∧
                (∀ earlier ∈ front, filter.HasTopic entry earlier) ∧
                  filter.passesTopic entry other = none) ↔
              filter.HasTopic entry index ∧ ∃ front other back,
                rest = front ++ other :: back ∧
                  (∀ earlier ∈ front, filter.HasTopic entry earlier) ∧
                    filter.passesTopic entry other = none := by
            constructor
            · rintro ⟨front, other, back, split, before, missing⟩
              cases front with
              | nil =>
                  cases split
                  rw [tested] at missing
                  cases missing
              | cons first front =>
                  cases split
                  exact ⟨before index List.mem_cons_self, front, other, back,
                    rfl, fun earlier member =>
                      before earlier (List.mem_cons_of_mem _ member), missing⟩
            · rintro ⟨has, front, other, back, rfl, before, missing⟩
              exact ⟨index :: front, other, back, rfl,
                List.forall_mem_cons.mpr ⟨has, before⟩, missing⟩
          rw [later, ← induction, ← meaning]
          cases passes with
          | true => simp
          | false => simp

theorem keeps_eq_some {kept : Bool} (ran : filter.keeps entry = some kept) :
    kept = true ↔ filter.Selects entry := by
  unfold keeps at ran
  split at ran
  next other =>
      cases ran
      have rejected : ¬filter.Selects entry :=
        fun selects => other.2 (selects.1 other.1)
      simp [rejected]
  next own =>
      rw [passesTopics_eq_some ran, Selects]
      constructor
      · intro topics
        refine ⟨?_, fun index => topics index (List.mem_finRange index)⟩
        intro some
        by_contra missing
        exact own ⟨some, missing⟩
      · rintro ⟨-, topics⟩ index -
        exact topics index

/-- A log is read past its topics exactly if it overruns. -/
theorem keeps_eq_none : filter.keeps entry = none ↔ filter.Overruns entry := by
  unfold keeps Overruns
  split
  next other =>
      refine iff_of_false (Option.some_ne_none _) ?_
      rintro ⟨own, -⟩
      exact other.2 (own other.1)
  next own =>
      have listed : filter.addresses ≠ [] →
          entry.address ∈ filter.addresses := by
        intro some
        by_contra missing
        exact own ⟨some, missing⟩
      rw [passesTopics_eq_none, and_iff_right listed]
      constructor
      · rintro ⟨front, index, back, split, before, missing⟩
        obtain ⟨length, some⟩ := passesTopic_eq_none.mp missing
        refine ⟨index, length, some, ?_⟩
        intro earlier less
        have ordered := List.pairwise_lt_finRange 4
        have member : earlier ∈ front ++ index :: back :=
          split ▸ List.mem_finRange earlier
        rw [split] at ordered
        exact before earlier (Paging.Increasing.mem_front ordered member less)
      · rintro ⟨index, length, some, before⟩
        obtain ⟨front, back, split⟩ :=
          List.append_of_mem (List.mem_finRange index)
        refine ⟨front, index, back, split, ?_,
          passesTopic_eq_none.mpr ⟨length, some⟩⟩
        intro earlier member
        have ordered := List.pairwise_lt_finRange 4
        rw [split] at ordered
        exact before earlier
          (Paging.Increasing.lt_of_split ordered |>.1 earlier member)

theorem matchingLogs_eq_some {logs kept : List LogEntry}
    (ran : filter.matchingLogs logs = some kept) :
    kept = logs.filter fun entry => filter.Selects entry := by
  induction logs generalizing kept with
  | nil =>
      cases ran
      rfl
  | cons entry rest induction =>
      rw [matchingLogs] at ran
      obtain ⟨selected, tested, ran⟩ := Option.bind_eq_some_iff.mp ran
      obtain ⟨others, same, ran⟩ := Option.bind_eq_some_iff.mp ran
      cases ran
      have meaning := keeps_eq_some tested
      rw [List.filter_cons, ← induction same]
      cases selected with
      | true => simp [meaning.mp rfl]
      | false =>
          have rejected : ¬filter.Selects entry := by simpa using meaning
          simp [rejected]

theorem matchingLogs_eq_none {logs : List LogEntry} :
    filter.matchingLogs logs = none ↔
      ∃ entry ∈ logs, filter.Overruns entry := by
  induction logs with
  | nil => simp [matchingLogs]
  | cons entry rest induction =>
      rw [matchingLogs, List.exists_mem_cons_iff, ← induction, ← keeps_eq_none]
      cases filter.keeps entry with
      | none => simp
      | some kept =>
          cases filter.matchingLogs rest with
          | none => simp
          | some others => simp

/-- Without a read past the end the result is right. -/
theorem matchingLogs_iff {logs : List LogEntry} :
    filter.matchingLogs logs =
        some (logs.filter fun entry => filter.Selects entry) ↔
      ∀ entry ∈ logs, ¬filter.Overruns entry := by
  cases ran : filter.matchingLogs logs with
  | none =>
      obtain ⟨entry, member, overruns⟩ := matchingLogs_eq_none.mp ran
      exact iff_of_false (Option.some_ne_none _).symm
        fun none => none entry member overruns
  | some kept =>
      refine iff_of_true (congrArg some (matchingLogs_eq_some ran)) ?_
      intro entry member overruns
      have missing := matchingLogs_eq_none.mpr ⟨entry, member, overruns⟩
      rw [ran] at missing
      cases missing

theorem isRangeFilter_iff : filter.isRangeFilter = true ↔
    filter.addresses = [] ∧ ∀ index, filter.topics index = [] := by
  simp [isRangeFilter, topicSets]

end LogFilter

/-- The logs that a filter selects are returned, and no topic is read past the
end of a log, if and only if the bloom rules the receipt out or no log of it
passes up to a position right behind its topics. -/
theorem LogFilter.matchesReceipt_iff [Hashing] {filter : LogFilter}
    {receipt : TransactionReceipt}
    (united : receipt.bloom = logsBloom receipt.log) :
    filter.matchesReceipt receipt =
        some (receipt.log.filter fun entry => filter.Selects entry) ↔
      (filter.matchesBloom receipt.bloom = true →
        ∀ entry ∈ receipt.log, ¬filter.Overruns entry) := by
  unfold matchesReceipt
  by_cases everything : filter.isRangeFilter = true
  · rw [if_pos everything]
    obtain ⟨noAddress, noTopic⟩ := isRangeFilter_iff.mp everything
    have all : (receipt.log.filter fun entry => filter.Selects entry) =
        receipt.log := by
      rw [List.filter_eq_self]
      intro entry _
      simp [Selects, noAddress, noTopic]
    refine iff_of_true (congrArg some all.symm) ?_
    rintro - entry - ⟨-, index, -, some, -⟩
    exact some (noTopic index)
  rw [if_neg everything]
  by_cases possible : filter.matchesBloom receipt.bloom = true
  · rw [if_pos possible, matchingLogs_iff, forall_prop_of_true possible]
  · rw [if_neg possible]
    refine iff_of_true (congrArg some ?_) fun matched => absurd matched possible
    symm
    rw [List.filter_eq_nil_iff]
    intro entry member selects
    rw [united] at possible
    exact possible (matchesBloom_of_selects (of_decide_eq_true selects)
      (contains_logsBloom member))

section Sample

attribute [local instance] filterSampleHashing

theorem LogFilter.matchesReceipt_iff_sample :
    topicSample.matchesReceipt receiptSample =
      some (receiptSample.log.filter fun entry => topicSample.Selects entry) :=
  (LogFilter.matchesReceipt_iff rfl).mpr (by decide +kernel)

/-- A log with the topic, and one without topics from the same contract. -/
def pairSample : TransactionReceipt :=
  .ofLogs (.statusCode 1) 21000 [entrySample, ⟨addressSample, [], []⟩]

/-- The first topic of the second log is read, which has none. -/
theorem LogFilter.matchesReceipt_overruns :
    pairSample.bloom = logsBloom pairSample.log ∧
      topicSample.matchesReceipt pairSample ≠
        some (pairSample.log.filter fun entry =>
          topicSample.Selects entry) := by
  decide +kernel

end Sample

end Aecmio

import Mathlib
import Shipstern.Kafka.SlotSink

/-!
# Transactional slot writes start clean

Every exit of `execute_transactional` is listed once, with what it leaves behind. All exits
but two leave no transaction open: an abort that failed for good, and a commit that failed
with an error that does not require an abort. The second is returned without an abort. In
every run the transaction is closed whenever no abort has failed for good if and only if no
commit ends in that way; what becomes visible is always a prefix of the slots, each once.
-/

open Shipstern.Core

namespace Shipstern.Kafka

open BlockCoordinator

/-! ## Answers to a commit -/

namespace Broker

variable (broker : Broker) (n : Nat)

/-- The n-th commit is tried again while attempts are left. -/
def commitRetried : Bool :=
  (broker.commitTransaction n).any fun err => !err.requiresAbort && err.isRetriable

/-- The n-th commit succeeds, or fails with an error that requires an abort. -/
def commitSettled : Bool := (broker.commitTransaction n).all (·.requiresAbort)

/-- The n-th commit fails with an error that neither requires an abort nor is retriable. -/
def commitGivesUp : Bool :=
  (broker.commitTransaction n).any fun err => !err.requiresAbort && !err.isRetriable

variable {broker n}

theorem not_retried_of_settled (h : broker.commitSettled n = true) :
    broker.commitRetried n = false := by
  cases hanswer : broker.commitTransaction n with
  | none => simp [commitRetried, hanswer]
  | some err =>
      simp only [commitSettled, hanswer, Option.all_some] at h
      simp [commitRetried, hanswer, h]

theorem not_givesUp_of_settled (h : broker.commitSettled n = true) :
    broker.commitGivesUp n = false := by
  cases hanswer : broker.commitTransaction n with
  | none => simp [commitGivesUp, hanswer]
  | some err =>
      simp only [commitSettled, hanswer, Option.all_some] at h
      simp [commitGivesUp, hanswer, h]

theorem not_givesUp_of_retried (h : broker.commitRetried n = true) :
    broker.commitGivesUp n = false := by
  cases hanswer : broker.commitTransaction n with
  | none => simp [commitGivesUp, hanswer]
  | some err =>
      simp only [commitRetried, hanswer, Option.any_some, Bool.and_eq_true] at h
      simp [commitGivesUp, hanswer, h.2]

end Broker

/-- Of the first `made` commit calls none fails with an error that neither requires an abort
nor is retriable, and no `max_attempts` of them in a row fail with retriable errors that
require no abort. -/
structure CommitsSettle (broker : Broker) (maxAttempts made : Nat) : Prop where
  resolved : ∀ n < made, broker.commitGivesUp n = false
  patient : ∀ n, n + max maxAttempts 1 ≤ made →
    ∃ k < max maxAttempts 1, broker.commitRetried (n + k) = false

/-- The commit calls from `start` on are one operation: `n` that are retried and a last one. -/
structure CommitOp (broker : Broker) (maxAttempts start stop n : Nat) : Prop where
  bounded : n < max maxAttempts 1
  stop_eq : stop = start + n + 1
  retried : ∀ k < n, broker.commitRetried (start + k) = true

/-- The operation ends with a success or with an error that requires an abort. -/
def Settles (broker : Broker) (maxAttempts start stop : Nat) : Prop :=
  ∃ n, CommitOp broker maxAttempts start stop n ∧ broker.commitSettled (start + n) = true

/-- The operation gives up on an error that does not require an abort. -/
def Fails (broker : Broker) (maxAttempts start stop : Nat) : Prop :=
  ∃ n, CommitOp broker maxAttempts start stop n ∧
    (broker.commitGivesUp (start + n) = true ∨
      broker.commitRetried (start + n) = true ∧ n + 1 = max maxAttempts 1)

section Commits

variable {broker : Broker} {maxAttempts made stop : Nat}

theorem CommitsSettle.zero : CommitsSettle broker maxAttempts 0 where
  resolved := by simp
  patient := by
    intro n hn
    omega

/-- No row of retried calls runs across the end of an operation. -/
theorem CommitsSettle.settles (h : CommitsSettle broker maxAttempts made)
    (hedge : ∀ n, made = n + 1 → broker.commitSettled n = true)
    (hop : Settles broker maxAttempts made stop) : CommitsSettle broker maxAttempts stop := by
  obtain ⟨n, hop, hlast⟩ := hop
  have hstop := hop.stop_eq
  have hbound := hop.bounded
  constructor
  · intro i hi
    obtain hold | hnew := Nat.lt_or_ge i made
    · exact h.resolved i hold
    · obtain ⟨k, rfl⟩ := Nat.exists_eq_add_of_le hnew
      obtain hk | rfl : k < n ∨ k = n := by omega
      · exact Broker.not_givesUp_of_retried (hop.retried k hk)
      · exact Broker.not_givesUp_of_settled hlast
  · intro i hi
    obtain hold | hcross := Nat.lt_or_ge made (i + max maxAttempts 1)
    · obtain hlate | hearly := Nat.lt_or_ge i made
      · -- The row crosses the end of the previous operation.
        obtain ⟨edge, rfl⟩ : ∃ edge, made = edge + 1 := ⟨made - 1, by omega⟩
        refine ⟨edge - i, by omega, ?_⟩
        rw [show i + (edge - i) = edge by omega]
        exact Broker.not_retried_of_settled (hedge edge rfl)
      · -- The row starts inside the operation, so it reaches its last call.
        refine ⟨made + n - i, by omega, ?_⟩
        rw [show i + (made + n - i) = made + n by omega]
        exact Broker.not_retried_of_settled hlast
    · exact h.patient i hcross

theorem Settles.edge (hop : Settles broker maxAttempts made stop) (n : Nat) (hn : stop = n + 1) :
    broker.commitSettled n = true := by
  obtain ⟨m, hop, hlast⟩ := hop
  have hstop := hop.stop_eq
  obtain rfl : n = made + m := by omega
  exact hlast

theorem Fails.not_settle (hop : Fails broker maxAttempts made stop) :
    ¬ CommitsSettle broker maxAttempts stop := by
  obtain ⟨n, hop, hlast⟩ := hop
  have hstop := hop.stop_eq
  intro h
  obtain hgivesUp | ⟨hretried, hfull⟩ := hlast
  · have := h.resolved (made + n) (by omega)
    simp [hgivesUp] at this
  · obtain ⟨k, hk, hnot⟩ := h.patient made (by omega)
    obtain hk | rfl : k < n ∨ k = n := by omega
    · simp [hop.retried k hk] at hnot
    · simp [hretried] at hnot

end Commits

/-! ## The retried operations -/

section Operations

variable {broker : Broker} {maxAttempts : Nat} {context : Text} {p p' : Producer}

/-- What failures of the operation preserve holds before its last run. -/
theorem runTransactionalOp_cases {op : TransactionalOp} {P : Producer → Prop}
    {r : Except SinkError Unit}
    (keep : ∀ p err, (op p).1 = some err → P p → P (op p).2) (start : P p)
    (h : runTransactionalOp maxAttempts context op p = (r, p')) :
    ∃ t, P t ∧ ((r = .ok () ∧ op t = (none, p')) ∨
      ∃ err e, r = .error e ∧ op t = (some err, p')) := by
  obtain ⟨n, t, -, hrepeats, hlast, -⟩ := Retry.tries_spec op
    (fun outcome => outcome.any (·.isRetriable)) (max maxAttempts 1 - 1) p
  have hkept : P t := by
    refine hrepeats.invariant (fun p hp hasked => ?_) start
    cases herr : (op p).1 with
    | none => simp [herr] at hasked
    | some err => exact keep p err herr hp
  rw [runTransactionalOp, Retry.retry, hlast] at h
  refine ⟨t, hkept, ?_⟩
  cases hop : op t with
  | mk answer q =>
      rw [hop] at h
      cases answer with
      | none =>
          cases h
          exact .inl ⟨rfl, rfl⟩
      | some err =>
          cases h
          exact .inr ⟨err, _, rfl, rfl⟩

theorem begin_cases {r : Except SinkError Unit}
    (h : runTransactionalOp maxAttempts context (·.beginTransaction broker) p = (r, p')) :
    (r = .ok () ∧ p.isOpen = false ∧
        ∃ b, p' = { p with begins := b, isOpen := true, pending := [] }) ∨
      ∃ e b, r = .error e ∧ p' = { p with begins := b } := by
  have keep : ∀ (q : Producer) (err : KafkaError), (q.beginTransaction broker).1 = some err →
      (∃ b, q = { p with begins := b }) →
      ∃ b, (q.beginTransaction broker).2 = { p with begins := b } := by
    rintro q err herr ⟨b, rfl⟩
    refine ⟨b + 1, ?_⟩
    rw [Producer.beginTransaction] at herr ⊢
    split
    · rfl
    · split
      · simp_all
      · rfl
  obtain ⟨t, ⟨b, rfl⟩, hlast⟩ := runTransactionalOp_cases keep ⟨p.begins, rfl⟩ h
  simp only [Producer.beginTransaction] at hlast
  split at hlast
  · obtain ⟨-, hlast⟩ | ⟨err, e, hr, hlast⟩ := hlast
    · cases hlast
    · cases hlast
      exact .inr ⟨e, _, hr, rfl⟩
  · next hclosed =>
      split at hlast
      · obtain ⟨hr, hlast⟩ | ⟨err, e, hr, hlast⟩ := hlast
        · cases hlast
          exact .inl ⟨hr, by simpa using hclosed, _, rfl⟩
        · cases hlast
      · obtain ⟨hr, hlast⟩ | ⟨err, e, hr, hlast⟩ := hlast
        · cases hlast
        · cases hlast
          exact .inr ⟨e, _, hr, rfl⟩

theorem abort_cases {r : Except SinkError Unit}
    (h : runTransactionalOp maxAttempts context (·.abortTransaction broker) p = (r, p')) :
    (r = .ok () ∧ ∃ a, p' = { p with aborts := a, isOpen := false, pending := [] }) ∨
      ∃ e a, r = .error e ∧ p' = { p with aborts := a } := by
  have keep : ∀ (q : Producer) (err : KafkaError), (q.abortTransaction broker).1 = some err →
      (∃ a, q = { p with aborts := a }) →
      ∃ a, (q.abortTransaction broker).2 = { p with aborts := a } := by
    rintro q err herr ⟨a, rfl⟩
    refine ⟨a + 1, ?_⟩
    rw [Producer.abortTransaction] at herr ⊢
    split
    · simp_all
    · rfl
  obtain ⟨t, ⟨a, rfl⟩, hlast⟩ := runTransactionalOp_cases keep ⟨p.aborts, rfl⟩ h
  simp only [Producer.abortTransaction] at hlast
  split at hlast
  · obtain ⟨hr, hlast⟩ | ⟨err, e, hr, hlast⟩ := hlast
    · cases hlast
      exact .inl ⟨hr, _, rfl⟩
    · cases hlast
  · obtain ⟨hr, hlast⟩ | ⟨err, e, hr, hlast⟩ := hlast
    · cases hlast
    · cases hlast
      exact .inr ⟨e, _, hr, rfl⟩

/-- The calls of a commit that are tried again only count. -/
theorem commit_repeats {n : Nat} {t : Producer}
    (h : Retry.Repeats (·.commitTransaction broker)
      (fun outcome => outcome.any fun err => !err.requiresAbort && err.isRetriable) n p t) :
    t = { p with commits := p.commits + n } ∧
      ∀ k < n, broker.commitRetried (p.commits + k) = true := by
  induction h with
  | none => simp
  | @more n s t asked _ ih =>
      obtain ⟨rfl, hretried⟩ := ih
      have hanswer : ∃ err, broker.commitTransaction s.commits = some err := by
        rw [Producer.commitTransaction] at asked
        split at asked
        · simp at asked
        · next err herr => exact ⟨err, herr⟩
      obtain ⟨err, herr⟩ := hanswer
      have hstep : s.commitTransaction broker = (some err, { s with commits := s.commits + 1 }) := by
        simp [Producer.commitTransaction, herr]
      simp only [hstep] at asked hretried ⊢
      refine ⟨by simp [Nat.add_assoc, Nat.add_comm 1 n], ?_⟩
      intro k hk
      cases k with
      | zero => simpa [Broker.commitRetried, herr] using asked
      | succ k =>
          have := hretried k (by omega)
          rwa [Nat.add_assoc, Nat.add_comm 1 k] at this

theorem commit_cases {r : Except TransactionCommitError Unit}
    (h : commitTransactionalOp maxAttempts context (·.commitTransaction broker) p = (r, p')) :
    (r = .ok () ∧ ∃ c, Settles broker maxAttempts p.commits c ∧
        p' = { p with
          commits := c
          isOpen := false
          pending := []
          committed := p.committed ++ [p.pending] }) ∨
      (∃ e c, r = .error (.abortRequired e) ∧ Settles broker maxAttempts p.commits c ∧
        p' = { p with commits := c }) ∨
      ∃ e c, r = .error (.failed e) ∧ Fails broker maxAttempts p.commits c ∧
        p' = { p with commits := c } := by
  obtain ⟨n, t, hle, hrepeats, hlast, hfull⟩ := Retry.tries_spec
    (·.commitTransaction broker)
    (fun outcome => outcome.any fun err => !err.requiresAbort && err.isRetriable)
    (max maxAttempts 1 - 1) p
  obtain ⟨rfl, hretried⟩ := commit_repeats hrepeats
  rw [commitTransactionalOp, Retry.retry, hlast] at h
  have hop : CommitOp broker maxAttempts p.commits (p.commits + n + 1) n :=
    ⟨by omega, rfl, hretried⟩
  simp only [Producer.commitTransaction] at h hfull
  cases hanswer : broker.commitTransaction (p.commits + n) with
  | none =>
      simp only [hanswer] at h
      cases h
      exact .inl ⟨rfl, _, ⟨n, hop, by simp [Broker.commitSettled, hanswer]⟩, rfl⟩
  | some err =>
      simp only [hanswer, Option.any_some, Bool.and_eq_true] at h hfull
      cases hrequires : err.requiresAbort with
      | true =>
          simp only [hrequires] at h
          cases h
          exact .inr (.inl ⟨_, _, rfl,
            ⟨n, hop, by simp [Broker.commitSettled, hanswer, hrequires]⟩, rfl⟩)
      | false =>
          simp only [hrequires] at h hfull
          cases h
          refine .inr (.inr ⟨_, _, rfl, ⟨n, hop, ?_⟩, rfl⟩)
          cases hretriable : err.isRetriable with
          | true =>
              have hn : n = max maxAttempts 1 - 1 := hfull ⟨rfl, hretriable⟩
              exact .inr ⟨by simp [Broker.commitRetried, hanswer, hrequires, hretriable], by omega⟩
          | false =>
              exact .inl (by simp [Broker.commitGivesUp, hanswer, hrequires, hretriable])

end Operations

/-! ## Publishing -/

section Publish

variable {broker : Broker} {p p' : Producer}

/-- Inside a transaction a send is counted and logged, and makes its record pending. -/
theorem Producer.send_open {purpose : Purpose} {slot : Nat} {record : FutureRecord}
    {result : Option Text} (hopen : p.isOpen = true)
    (h : p.send broker purpose slot record = (result, p')) :
    ∃ s q l, p' = { p with sends := s, pending := q, log := l } ∧
      (result = none → q = p.pending ++ [record]) := by
  rw [Producer.send] at h
  split at h
  · dsimp only [Producer.note] at h
    rw [if_pos hopen] at h
    cases h
    exact ⟨_, _, _, rfl, fun _ => rfl⟩
  · cases h
    exact ⟨_, _, _, rfl, nofun⟩

theorem sendAll_open {slot : Nat} {records : List FutureRecord} {results : List (Option Text)}
    (hopen : p.isOpen = true) (h : sendAll broker slot records p = (results, p')) :
    ∃ s q l, p' = { p with sends := s, pending := q, log := l } ∧
      (results.findSome? id = none → q = p.pending ++ records) := by
  induction records generalizing p results with
  | nil =>
      cases h
      exact ⟨_, _, _, rfl, by simp⟩
  | cons record records ih =>
      rw [sendAll] at h
      cases hsend : p.send broker .data slot record with
      | mk result mid =>
          cases hrest : sendAll broker slot records mid with
          | mk results' last =>
              simp only [hsend, hrest] at h
              cases h
              obtain ⟨s, q, l, rfl, hq⟩ := Producer.send_open hopen hsend
              obtain ⟨s', q', l', rfl, hq'⟩ := ih (by exact hopen) hrest
              refine ⟨s', q', l', rfl, fun hnone => ?_⟩
              cases result with
              | none =>
                  rw [hq' (by simpa using hnone), hq rfl]
                  simp
              | some err => simp at hnone

theorem publishPlan_open {plan : SlotWritePlan} {r : Except SinkError Unit}
    (hopen : p.isOpen = true) (h : SlotWriteExecutor.publishPlan broker plan p = (r, p')) :
    ∃ s q l, p' = { p with sends := s, pending := q, log := l } ∧
      (r = .ok () → q = p.pending ++ plan.messages) := by
  rw [SlotWriteExecutor.publishPlan, batchPublishRecords] at h
  cases hsent : sendAll broker plan.slot (plan.records.map PreparedRecord.toFuture) p with
  | mk results mid =>
      obtain ⟨s, q, l, rfl, hq⟩ := sendAll_open hopen hsent
      rw [hsent] at h
      cases hfirst : results.findSome? id with
      | some err =>
          simp only [hfirst] at h
          cases h
          exact ⟨s, q, l, rfl, by simp⟩
      | none =>
          simp only [hfirst, SlotWritePlan.publishCheckpoint] at h
          split at h
          · next hsend =>
              obtain ⟨s', q', l', rfl, hq'⟩ := Producer.send_open (by exact hopen) hsend
              cases h
              refine ⟨s', q', l', rfl, fun _ => ?_⟩
              simp [hq' rfl, hq hfirst, SlotWritePlan.messages]
          · next hsend =>
              obtain ⟨s', q', l', rfl, -⟩ := Producer.send_open (by exact hopen) hsend
              cases h
              exact ⟨s', q', l', rfl, by simp⟩

end Publish

/-! ## The exits of a transactional write -/

/-- How `execute_transactional` can return, and what it leaves behind. -/
inductive Exit (broker : Broker) (maxAttempts : Nat) (plan : SlotWritePlan) (p p' : Producer) :
    Except SinkError Unit → Prop
  | refused (e : SinkError) (isOpen : p'.isOpen = p.isOpen)
      (committed : p'.committed = p.committed) (commits : p'.commits = p.commits)
      (abortFailed : p'.abortFailed = p.abortFailed) : Exit broker maxAttempts plan p p' (.error e)
  | written (closed : p.isOpen = false) (isOpen : p'.isOpen = false)
      (committed : p'.committed = p.committed ++ [plan.messages])
      (commits : Settles broker maxAttempts p.commits p'.commits)
      (abortFailed : p'.abortFailed = p.abortFailed) : Exit broker maxAttempts plan p p' (.ok ())
  | aborted (e : SinkError) (closed : p.isOpen = false) (isOpen : p'.isOpen = false)
      (committed : p'.committed = p.committed)
      (commits : p'.commits = p.commits ∨ Settles broker maxAttempts p.commits p'.commits)
      (abortFailed : p'.abortFailed = p.abortFailed) : Exit broker maxAttempts plan p p' (.error e)
  | abortFailed (e : SinkError) (closed : p.isOpen = false) (isOpen : p'.isOpen = true)
      (committed : p'.committed = p.committed)
      (commits : p'.commits = p.commits ∨ Settles broker maxAttempts p.commits p'.commits)
      (abortFailed : p'.abortFailed = true) : Exit broker maxAttempts plan p p' (.error e)
  | stranded (e : SinkError) (closed : p.isOpen = false) (isOpen : p'.isOpen = true)
      (committed : p'.committed = p.committed)
      (commits : Fails broker maxAttempts p.commits p'.commits)
      (abortFailed : p'.abortFailed = p.abortFailed) : Exit broker maxAttempts plan p p' (.error e)

section Exits

variable {broker : Broker} {executor : SlotWriteExecutor} {plan : SlotWritePlan}
  {p p' : Producer} {r : Except SinkError Unit}

theorem abortTransaction_cases {slot : Nat} {cause : Text}
    (h : executor.abortTransaction broker slot cause p = (r, p')) :
    (r = .ok () ∧ ∃ a, p' = { p with aborts := a, isOpen := false, pending := [] }) ∨
      ∃ e a, r = .error e ∧ p' = { p with aborts := a, abortFailed := true } := by
  rw [SlotWriteExecutor.abortTransaction] at h
  cases hrun : runTransactionalOp executor.transactionMaxAttempts
      "Failed to abort Kafka transaction".toList (·.abortTransaction broker) p with
  | mk result mid =>
      rw [hrun] at h
      obtain ⟨rfl, a, rfl⟩ | ⟨e, a, rfl, rfl⟩ := abort_cases hrun
      · cases h
        exact .inl ⟨rfl, a, rfl⟩
      · cases h
        exact .inr ⟨_, a, rfl, rfl⟩

theorem writeTransaction_exit (h : executor.writeTransaction broker plan p = (r, p')) :
    Exit broker executor.transactionMaxAttempts plan p p' r ∧ p'.attempts = p.attempts := by
  rw [SlotWriteExecutor.writeTransaction] at h
  cases hbegin : runTransactionalOp executor.transactionMaxAttempts
      "Failed to begin Kafka transaction".toList (·.beginTransaction broker) p with
  | mk begun p₁ =>
  obtain ⟨rfl, hclosed, b, rfl⟩ | ⟨e, b, rfl, rfl⟩ := begin_cases hbegin
  · cases hpublish : SlotWriteExecutor.publishPlan broker plan
        { p with begins := b, isOpen := true, pending := [] } with
    | mk published p₂ =>
    obtain ⟨s, q, l, rfl, hq⟩ := publishPlan_open rfl hpublish
    simp only [hbegin, hpublish] at h
    cases published with
    | error err =>
        simp only at h
        cases habort : executor.abortTransaction broker plan.slot
            "Kafka transactional slot write failed".toList
            { p with begins := b, sends := s, isOpen := true, pending := q, log := l } with
        | mk aborted p₃ =>
        simp only [habort] at h
        obtain ⟨rfl, a, rfl⟩ | ⟨e, a, rfl, rfl⟩ := abortTransaction_cases habort
        · cases h
          exact ⟨.aborted err hclosed rfl rfl (.inl rfl) rfl, rfl⟩
        · cases h
          exact ⟨.abortFailed _ hclosed rfl rfl (.inl rfl) rfl, rfl⟩
    | ok =>
        simp only at h
        cases hcommit : commitTransactionalOp executor.transactionMaxAttempts
            "Failed to commit Kafka transaction".toList (·.commitTransaction broker)
            { p with begins := b, sends := s, isOpen := true, pending := q, log := l } with
        | mk finished p₃ =>
        simp only [hcommit] at h
        obtain ⟨rfl, c, hsettles, rfl⟩ | ⟨e, c, rfl, hsettles, rfl⟩ | ⟨e, c, rfl, hfails, rfl⟩ :=
          commit_cases hcommit
        · cases h
          have hmessages : q = plan.messages := by simpa using hq rfl
          exact ⟨.written hclosed rfl (by simp [hmessages]) hsettles rfl, rfl⟩
        · simp only at h
          cases habort : executor.abortTransaction broker plan.slot
              "Kafka transaction commit requires abort".toList
              { p with
                begins := b, sends := s, commits := c, isOpen := true, pending := q, log := l } with
          | mk aborted p₄ =>
          simp only [habort] at h
          obtain ⟨rfl, a, rfl⟩ | ⟨e', a, rfl, rfl⟩ := abortTransaction_cases habort
          · cases h
            exact ⟨.aborted e hclosed rfl rfl (.inr hsettles) rfl, rfl⟩
          · cases h
            exact ⟨.abortFailed _ hclosed rfl rfl (.inr hsettles) rfl, rfl⟩
        · cases h
          exact ⟨.stranded e hclosed rfl rfl hfails rfl, rfl⟩
  · rw [hbegin] at h
    cases h
    exact ⟨.refused e rfl rfl rfl rfl, rfl⟩

theorem executeTransactional_exit (h : executor.executeTransactional broker plan p = (r, p')) :
    Exit broker executor.transactionMaxAttempts plan p p' r ∧
      p'.attempts = p.attempts ++
        [⟨plan.slot, p.isOpen, p.abortFailed, p'.isOpen, p'.abortFailed⟩] := by
  rw [SlotWriteExecutor.executeTransactional] at h
  cases hwrite : executor.writeTransaction broker plan p with
  | mk result mid =>
      obtain ⟨hexit, hattempts⟩ := writeTransaction_exit hwrite
      rw [hwrite] at h
      cases h
      refine ⟨?_, by simp [hattempts]⟩
      cases hexit with
      | refused e isOpen committed commits abortFailed =>
          exact .refused e isOpen committed commits abortFailed
      | written closed isOpen committed commits abortFailed =>
          exact .written closed isOpen committed commits abortFailed
      | aborted e closed isOpen committed commits abortFailed =>
          exact .aborted e closed isOpen committed commits abortFailed
      | abortFailed e closed isOpen committed commits abortFailed =>
          exact .abortFailed e closed isOpen committed commits abortFailed
      | stranded e closed isOpen committed commits abortFailed =>
          exact .stranded e closed isOpen committed commits abortFailed

end Exits

/-! ## Runs -/

/-- No transaction is open at a return before which no abort has failed for good. -/
def Producer.ReturnsClosed (p : Producer) : Prop :=
  ∀ a ∈ p.attempts, a.abortFailedAfter = false → a.openAfter = false

/-- No transaction is open when a write starts before which no abort has failed for good. -/
def Producer.StartsClosed (p : Producer) : Prop :=
  ∀ a ∈ p.attempts, a.abortFailedBefore = false → a.openBefore = false

/-- Every commit so far was settled, so a transaction is open only after an abort that failed
for good. -/
structure Clean (broker : Broker) (maxAttempts : Nat) (p : Producer) : Prop where
  settle : CommitsSettle broker maxAttempts p.commits
  edge : ∀ n, p.commits = n + 1 → broker.commitSettled n = true
  isOpen : p.isOpen = p.abortFailed
  returns : p.ReturnsClosed
  starts : p.StartsClosed

/-- A commit gave up and left its transaction open, which no later step closes. -/
structure Stranded (broker : Broker) (maxAttempts : Nat) (p : Producer) : Prop where
  unsettled : ¬ CommitsSettle broker maxAttempts p.commits
  isOpen : p.isOpen = true
  returned : ∃ a ∈ p.attempts, a.abortFailedAfter = false ∧ a.openAfter = true

section Runs

variable {broker : Broker} {maxAttempts : Nat} {plan : SlotWritePlan} {p p' : Producer}
  {r : Except SinkError Unit}

theorem Clean.start : Clean broker maxAttempts {} where
  settle := .zero
  edge := by simp
  isOpen := rfl
  returns := by simp [Producer.ReturnsClosed]
  starts := by simp [Producer.StartsClosed]

theorem Stranded.exit (h : Stranded broker maxAttempts p) (hexit : Exit broker maxAttempts plan p p' r)
    {a : Attempt} (hattempts : p'.attempts = p.attempts ++ [a]) : Stranded broker maxAttempts p' := by
  obtain ⟨a', ha', hreturned⟩ := h.returned
  have hopen := h.isOpen
  cases hexit with
  | refused e isOpen committed commits abortFailed =>
      exact ⟨commits ▸ h.unsettled, isOpen.trans hopen,
        ⟨a', by simp [hattempts, ha'], hreturned⟩⟩
  | written closed => simp [closed] at hopen
  | aborted e closed => simp [closed] at hopen
  | abortFailed e closed => simp [closed] at hopen
  | stranded e closed => simp [closed] at hopen

/-- A write that leaves a transaction open only if an abort failed for good keeps the run
clean. -/
theorem Clean.extend (h : Clean broker maxAttempts p)
    (hcommits : p'.commits = p.commits ∨ Settles broker maxAttempts p.commits p'.commits)
    (hopen : p'.isOpen = p'.abortFailed) {slot : Nat}
    (hattempts : p'.attempts = p.attempts ++
      [⟨slot, p.isOpen, p.abortFailed, p'.isOpen, p'.abortFailed⟩]) :
    Clean broker maxAttempts p' where
  settle := by
    obtain hsame | hsettles := hcommits
    · exact hsame ▸ h.settle
    · exact h.settle.settles h.edge hsettles
  edge := by
    obtain hsame | hsettles := hcommits
    · exact hsame ▸ h.edge
    · exact hsettles.edge
  isOpen := hopen
  returns := by
    intro a ha hfailed
    rw [hattempts] at ha
    obtain ha | ha := List.mem_append.mp ha
    · exact h.returns a ha hfailed
    · cases List.mem_singleton.mp ha
      exact hopen.trans hfailed
  starts := by
    intro a ha hfailed
    rw [hattempts] at ha
    obtain ha | ha := List.mem_append.mp ha
    · exact h.starts a ha hfailed
    · cases List.mem_singleton.mp ha
      exact h.isOpen.trans hfailed

theorem Clean.exit (h : Clean broker maxAttempts p) (hexit : Exit broker maxAttempts plan p p' r)
    (hattempts : p'.attempts = p.attempts ++
      [⟨plan.slot, p.isOpen, p.abortFailed, p'.isOpen, p'.abortFailed⟩]) :
    Clean broker maxAttempts p' ∨ Stranded broker maxAttempts p' := by
  have hopen := h.isOpen
  cases hexit with
  | refused e isOpen committed commits abortFailed =>
      exact .inl (h.extend (.inl commits) (by rw [isOpen, abortFailed, hopen]) hattempts)
  | written closed isOpen committed commits abortFailed =>
      exact .inl (h.extend (.inr commits) (by rw [isOpen, abortFailed, ← hopen, closed]) hattempts)
  | aborted e closed isOpen committed commits abortFailed =>
      exact .inl (h.extend commits (by rw [isOpen, abortFailed, ← hopen, closed]) hattempts)
  | abortFailed e closed isOpen committed commits abortFailed =>
      exact .inl (h.extend commits (by rw [isOpen, abortFailed]) hattempts)
  | stranded e closed isOpen committed commits abortFailed =>
      have hlast : ⟨plan.slot, p.isOpen, p.abortFailed, p'.isOpen, p'.abortFailed⟩ ∈
          p'.attempts := by
        rw [hattempts]
        simp
      have hfailed : p'.abortFailed = false := by rw [abortFailed, ← hopen, closed]
      exact .inr ⟨commits.not_settle, isOpen, ⟨_, hlast, hfailed, isOpen⟩⟩

/-- Every state of a run: either everything was settled so far, or a commit left its
transaction open; and the writes that are visible. -/
structure Tracked (broker : Broker) (maxAttempts : Nat) (visible : List (List FutureRecord))
    (p : Producer) : Prop where
  history : Clean broker maxAttempts p ∨ Stranded broker maxAttempts p
  visible : p.committed = visible

variable {visible : List (List FutureRecord)}

theorem Tracked.exit (h : Tracked broker maxAttempts visible p)
    (hexit : Exit broker maxAttempts plan p p' r)
    (hattempts : p'.attempts = p.attempts ++
      [⟨plan.slot, p.isOpen, p.abortFailed, p'.isOpen, p'.abortFailed⟩]) :
    Tracked broker maxAttempts (if r.isOk then visible ++ [plan.messages] else visible) p' where
  history := by
    obtain hclean | hstranded := h.history
    · exact hclean.exit hexit hattempts
    · exact .inr (hstranded.exit hexit hattempts)
  visible := by
    cases hexit with
    | written closed isOpen committed commits abortFailed => rw [committed, h.visible]; rfl
    | refused e isOpen committed commits abortFailed => rw [committed, h.visible]; rfl
    | aborted e closed isOpen committed commits abortFailed => rw [committed, h.visible]; rfl
    | abortFailed e closed isOpen committed commits abortFailed => rw [committed, h.visible]; rfl
    | stranded e closed isOpen committed commits abortFailed => rw [committed, h.visible]; rfl

section Executor

variable {executor : SlotWriteExecutor} {id : Text}

/-- The log is no part of what is tracked. -/
theorem Tracked.note (h : Tracked broker maxAttempts visible p) (entry : LogEntry) :
    Tracked broker maxAttempts visible (p.note entry) where
  history := by
    obtain hclean | hstranded := h.history
    · exact .inl ⟨hclean.settle, hclean.edge, hclean.isOpen, hclean.returns, hclean.starts⟩
    · exact .inr ⟨hstranded.unsettled, hstranded.isOpen, hstranded.returned⟩
  visible := h.visible

theorem Tracked.execute (hid : executor.delivery = .transactional id)
    (h : Tracked broker executor.transactionMaxAttempts visible p) (plan : SlotWritePlan) :
    Tracked broker executor.transactionMaxAttempts
      (if (executor.execute broker plan p).1.isOk then visible ++ [plan.messages] else visible)
      (executor.execute broker plan p).2 := by
  simp only [SlotWriteExecutor.execute, hid]
  have hrun : executor.executeTransactional broker plan (p.note (.attempt plan.slot)) =
      ((executor.executeTransactional broker plan (p.note (.attempt plan.slot))).1,
        (executor.executeTransactional broker plan (p.note (.attempt plan.slot))).2) := rfl
  obtain ⟨hexit, hattempts⟩ := executeTransactional_exit hrun
  exact (h.note (.attempt plan.slot)).exit hexit hattempts

/-- A slot that is tried until it is written becomes visible once. -/
theorem Tracked.withRetry (hid : executor.delivery = .transactional id)
    (h : Tracked broker executor.transactionMaxAttempts visible p) (context : Text) (slot : Nat)
    (hrun : withRetry executor.writeMaxAttempts context slot (executor.execute broker plan) p =
      (r, p')) :
    Tracked broker executor.transactionMaxAttempts
      (if r.isOk then visible ++ [plan.messages] else visible) p' := by
  obtain ⟨n, t, -, hrepeats, hlast, -⟩ := Retry.tries_spec
    (executor.execute broker plan) (fun outcome => !outcome.isOk)
    (max executor.writeMaxAttempts 1 - 1) p
  have hbefore : Tracked broker executor.transactionMaxAttempts visible t := by
    refine hrepeats.invariant (fun q hq hagain => ?_) h
    have hq := hq.execute hid plan
    rwa [if_neg (by simpa using hagain)] at hq
  have hafter := hbefore.execute hid plan
  rw [Kafka.withRetry, Retry.retry, hlast] at hrun
  cases hresult : executor.execute broker plan t with
  | mk result q =>
      rw [hresult] at hrun hafter
      cases result with
      | ok =>
          cases hrun
          exact hafter
      | error e =>
          cases hrun
          exact hafter

theorem Tracked.writeSlots {α : Type} (hid : executor.delivery = .transactional id)
    (context : Text) (slot : α → Nat) (plan : α → SlotWritePlan) (items : List α)
    (h : Tracked broker executor.transactionMaxAttempts visible p) :
    ∃ n, Tracked broker executor.transactionMaxAttempts
      (visible ++ (items.take n).map fun item => (plan item).messages)
      (executor.writeSlots broker context slot (fun item => .ok (plan item)) items p).2 := by
  induction items generalizing p visible with
  | nil => exact ⟨0, by simpa [SlotWriteExecutor.writeSlots] using h⟩
  | cons item items ih =>
      rw [SlotWriteExecutor.writeSlots]
      cases hwrite : Kafka.withRetry executor.writeMaxAttempts context (slot item)
          (executor.execute broker (plan item)) p with
      | mk result q =>
          have hq := h.withRetry hid context (slot item) hwrite
          cases result with
          | error e =>
              rw [if_neg (by simp [Except.isOk, Except.toBool])] at hq
              exact ⟨0, by simpa [hwrite] using hq⟩
          | ok =>
              rw [if_pos (by simp [Except.isOk, Except.toBool])] at hq
              obtain ⟨n, hn⟩ := ih (hq.note (.completed (slot item)))
              refine ⟨n + 1, ?_⟩
              simpa [hwrite] using hn

theorem initializeTransactions_inits (broker : Broker) (executor : SlotWriteExecutor)
    (p : Producer) :
    ∃ i, (executor.initializeTransactions broker p).2 = { p with inits := i } := by
  rw [SlotWriteExecutor.initializeTransactions]
  split
  · exact ⟨p.inits, rfl⟩
  · split
    · exact ⟨p.inits, rfl⟩
    · have keep : ∀ (q : Producer) (err : KafkaError), (q.initTransactions broker).1 = some err →
          (∃ i, q = { p with inits := i }) →
          ∃ i, (q.initTransactions broker).2 = { p with inits := i } := by
        rintro q err - ⟨i, rfl⟩
        exact ⟨i + 1, rfl⟩
      cases hrun : runTransactionalOp executor.transactionMaxAttempts
          "Failed to initialize Kafka transactions".toList (·.initTransactions broker) p with
      | mk result q =>
          obtain ⟨t, ⟨i, rfl⟩, hlast⟩ := runTransactionalOp_cases keep ⟨p.inits, rfl⟩ hrun
          obtain ⟨-, hlast⟩ | ⟨err, e, -, hlast⟩ := hlast
          · exact ⟨i + 1, (congrArg Prod.snd hlast).symm⟩
          · exact ⟨i + 1, (congrArg Prod.snd hlast).symm⟩

theorem Tracked.initializeTransactions
    (h : Tracked broker executor.transactionMaxAttempts visible p) :
    Tracked broker executor.transactionMaxAttempts visible
      (executor.initializeTransactions broker p).2 := by
  obtain ⟨i, hinit⟩ := initializeTransactions_inits broker executor p
  rw [hinit]
  refine ⟨?_, h.visible⟩
  obtain hclean | hstranded := h.history
  · exact .inl ⟨hclean.settle, hclean.edge, hclean.isOpen, hclean.returns, hclean.starts⟩
  · exact .inr ⟨hstranded.unsettled, hstranded.isOpen, hstranded.returned⟩

/-- What a run promises about the slots with these messages: a transaction is open at a
return or at a start only after an abort that failed for good, and what is visible are the
complete writes of the first slots, in order and each once. -/
structure WritesClean (slots : List (List FutureRecord)) (p : Producer) : Prop where
  returns : p.ReturnsClosed
  starts : p.StartsClosed
  ordered : p.committed <+: slots

theorem run_writesClean_iff {α : Type} (hid : executor.delivery = .transactional id)
    (broker : Broker) (context : Text) (slot : α → Nat) (plan : α → SlotWritePlan)
    (items : List α) :
    let p := (executor.run broker context slot (fun item => .ok (plan item)) items {}).2
    CommitsSettle broker executor.transactionMaxAttempts p.commits ↔
      WritesClean (items.map fun item => (plan item).messages) p := by
  have hstart : Tracked broker executor.transactionMaxAttempts [] {} := ⟨.inl .start, rfl⟩
  have htracked : ∃ n, Tracked broker executor.transactionMaxAttempts
      ((items.take n).map fun item => (plan item).messages)
      (executor.run broker context slot (fun item => .ok (plan item)) items {}).2 := by
    have hinit : Tracked broker executor.transactionMaxAttempts []
        (executor.initializeTransactions broker {}).2 := hstart.initializeTransactions
    rw [SlotWriteExecutor.run]
    cases hrun : executor.initializeTransactions broker {} with
    | mk result q =>
        rw [hrun] at hinit
        cases result with
        | error e => exact ⟨0, by simpa using hinit⟩
        | ok => simpa using hinit.writeSlots hid context slot plan items
  obtain ⟨n, htracked⟩ := htracked
  intro p
  constructor
  · intro hsettle
    obtain hclean | hstranded := htracked.history
    · refine ⟨hclean.returns, hclean.starts, ?_⟩
      rw [htracked.visible, List.map_take]
      exact List.take_prefix n _
    · exact absurd hsettle hstranded.unsettled
  · intro hwrites
    obtain hclean | hstranded := htracked.history
    · exact hclean.settle
    · obtain ⟨a, ha, hfailed, hopen⟩ := hstranded.returned
      have := hwrites.returns a ha hfailed
      simp [hopen] at this

end Executor

end Runs

/-- For every broker and every sequence of slots, a sink with a transactional id writes
clean if and only if none of its commits ends with an error that requires no abort. -/
theorem slot_writes_clean_iff (bs58 : Bs58) (broker : Broker) (id : Text)
    (sink : TransactionSlotSink) (hsink : sink.executor.delivery = .transactional id)
    (slots : List (InstructionSlot PreparedRecord)) (acctSink : AccountSlotSink)
    (hacct : acctSink.executor.delivery = .transactional id)
    (acctSlots : List (AccountSlot PreparedRecord)) :
    (CommitsSettle broker sink.executor.transactionMaxAttempts
          (sink.run bs58 broker slots {}).2.commits ↔
        WritesClean (slots.map fun s => (sink.plan bs58 s).messages)
          (sink.run bs58 broker slots {}).2) ∧
      (CommitsSettle broker acctSink.executor.transactionMaxAttempts
          (acctSink.run broker acctSlots {}).2.commits ↔
        WritesClean (acctSlots.map fun s => (acctSink.plan s).messages)
          (acctSink.run broker acctSlots {}).2) :=
  ⟨run_writesClean_iff hsink broker _ _ (sink.plan bs58) slots,
    run_writesClean_iff hacct broker _ _ acctSink.plan acctSlots⟩

/-- Two attempts for a write and two for an operation of a transaction. -/
def testConfig : KafkaSinkConfig where
  transactionalId := some "writer".toList
  kafkaWriteMaxAttempts := 2
  kafkaTransactionOpMaxAttempts := 2
  transactionSlotsTopic := "transaction.slots".toList
  accountSlotsTopic := "account.slots".toList

/-- Everything succeeds but the commits that are listed. -/
def testBroker (commitErrors : List (Option KafkaError)) : Broker where
  initTransactions := fun _ => none
  beginTransaction := fun _ => none
  refuseBegin := fun _ => .other "Erroneous state".toList
  send := fun _ => none
  commitTransaction := fun n => commitErrors[n]?.getD none
  abortTransaction := fun _ => none

def testError (isRetriable txnRequiresAbort : Bool) : KafkaError :=
  .transaction ⟨"commit failed".toList, "Timeout".toList, isRetriable, txnRequiresAbort, false⟩

def testInstructionSlot (slot : Nat) : InstructionSlot PreparedRecord :=
  ⟨slot, slot - 1, Vector.replicate 32 0, 0, [], 0, 0, 0, 0⟩

def testAccountSlot (slot : Nat) : AccountSlot PreparedRecord := ⟨slot, [], 0, 0, 0⟩

/-- The first commit is retried, the second requires an abort, the third succeeds: both slots
are visible, the first of them from its second write on. -/
theorem slot_writes_clean_of_retries :
    let broker := testBroker [some (testError true false), some (testError false true)]
    let sink := TransactionSlotSink.new testConfig
    let slots := [testInstructionSlot 7, testInstructionSlot 9]
    let acctSink := AccountSlotSink.new testConfig .confirmed
    let acctSlots := [testAccountSlot 7, testAccountSlot 9]
    (sink.run .bitcoin broker slots {}).2.attempts.map (·.slot) = [7, 7, 9] ∧
      WritesClean (slots.map fun s => (sink.plan .bitcoin s).messages)
        (sink.run .bitcoin broker slots {}).2 ∧
      WritesClean (acctSlots.map fun s => (acctSink.plan s).messages)
        (acctSink.run broker acctSlots {}).2 := by
  intro broker sink slots acctSink acctSlots
  have hclean := slot_writes_clean_iff .bitcoin broker "writer".toList sink rfl slots acctSink rfl
    acctSlots
  have hsettle : CommitsSettle broker 2 4 := by
    refine ⟨by decide, ?_⟩
    intro n hn
    have hn : n ≤ 2 := by simpa using hn
    interval_cases n
    · exact ⟨1, by decide⟩
    · exact ⟨0, by decide⟩
    · exact ⟨0, by decide⟩
  refine ⟨by decide +kernel, hclean.1.mp ?_, hclean.2.mp ?_⟩
  · rw [show (sink.run .bitcoin broker slots {}).2.commits = 4 by decide +kernel]
    exact hsettle
  · rw [show (acctSink.run broker acctSlots {}).2.commits = 4 by decide +kernel]
    exact hsettle

/-- A commit that fails with an error that is neither retriable nor requires an abort: the
write returns with its transaction open although no abort has failed, and the second attempt
is refused at its begin. -/
theorem failed_commit_leaves_transaction_open :
    let sink := TransactionSlotSink.new testConfig
    let p := (sink.run .bitcoin (testBroker [some (testError false false)])
      [testInstructionSlot 7] {}).2
    p.attempts = [⟨7, false, false, true, false⟩, ⟨7, true, false, true, false⟩] ∧
      ¬ WritesClean ([testInstructionSlot 7].map fun s => (sink.plan .bitcoin s).messages) p := by
  intro sink p
  have hattempts :
      p.attempts = [⟨7, false, false, true, false⟩, ⟨7, true, false, true, false⟩] := by
    decide +kernel
  refine ⟨hattempts, fun hclean => ?_⟩
  have := hclean.returns ⟨7, false, false, true, false⟩ (by simp [hattempts]) rfl
  simp at this

end Shipstern.Kafka

import ExpenseSettlement.Core.Theorems
import ExpenseSettlement.Process.Lemmas.Effects
import ExpenseSettlement.Process.Lemmas.History

/-!
# The process

What holds while clients, the relay daemon and the worker take their steps in any order.
-/

namespace ExpenseSettlement

open Lib Process

variable {ι : Type} [DecidableEq ι]

/-! ## Events -/

/-- The worker gets the events of the outbox in the order in which they are appended, each once. A
message that it is done with is counted as processed or as failed. The queue is bounded, and nothing
reaches the dead-letter list. -/
theorem process_handles_in_order (R : Runtime) (p : ι → PostExpense) (steps : List (ProcessStep ι)) :
    let s := run (Process.step R p) .start steps
    s.ended.map (·.1) ++ s.current.toList ++ s.queue.queue = s.published ∧
    s.published.map Message.content <+: s.world.outbox.events.map OutboxEvent.content ∧
    (s.published.map (·.id)).Nodup ∧
    s.processed = s.ended.countP (·.2) ∧ s.processed + s.failed = s.ended.length ∧
    s.queue.queue.length ≤ queueMaxsize ∧ s.queue.dlq = [] := by
  have h := run_orderly (R := R) (p := p) steps
  refine ⟨h.flowing.handed.symm, h.flowing.contents, h.flowing.distinct, h.processed, ?_, h.room, h.dlq⟩
  rw [h.processed, h.failed, List.length_eq_countP_add_countP (·.2)]
  simp

/-- Whatever else goes on, rounds in which the daemon and the worker take their steps bring every event
to its end, within four rounds for each event up to it that is not handled yet. -/
theorem process_handles_every_event (R : Runtime) (p : ι → PostExpense) (steps : List (ProcessStep ι))
    (rounds : List (List (ProcessStep ι)))
    (hfair : ∀ round ∈ rounds, .wake ∈ round ∧ .put ∈ round ∧ .consume ∈ round ∧
      ∃ fails, .handle fails ∈ round) :
    let s := run (Process.step R p) .start steps
    let s' := run (Process.step R p) s rounds.flatten
    ∀ n ≤ s.world.outbox.events.length, 4 * (n - s.ended.length) ≤ rounds.length →
      (s.world.outbox.events.take n).map OutboxEvent.content <+: s'.ended.map (·.1.content) := by
  intro s s' n hn hrounds
  have h : s.Orderly R := run_orderly steps
  refine h.handles_contents hn (fun round hround => ?_) hrounds
  obtain ⟨hwake, hput, hconsume, fails, hhandle⟩ := hfair round hround
  exact fairRound_of_mem hwake hput hconsume hhandle

/-- A settlement is requested for a new group. -/
def settleTrip : List (ProcessStep Empty) :=
  [.client (.createGroup "Trip"), .client (.settle (Runtime.sequential.uuid4 0) "alice")]

def backgroundRound {ι : Type} : List (ProcessStep ι) := [.wake, .put, .consume, .handle none]

def noPosts : Empty → PostExpense := nofun

theorem process_handles_every_event_settleTrip :
    let s := run (Process.step Runtime.sequential noPosts) .start settleTrip
    let s' := run (Process.step Runtime.sequential noPosts) s (List.replicate 4 backgroundRound).flatten
    (s.world.outbox.events.take 1).map OutboxEvent.content <+: s'.ended.map (·.1.content) := by
  apply process_handles_every_event Runtime.sequential noPosts settleTrip
  · intro round hround
    obtain rfl := List.eq_of_mem_replicate hround
    exact ⟨.head _, .tail _ (.head _), .tail _ (.tail _ (.head _)), none,
      .tail _ (.tail _ (.tail _ (.head _)))⟩
  · decide
  · decide

/-! ## Settlements -/

/-- Journals, saved records and completion events tell of the same payments after every step, if and
only if no handler with something to pay fails between its first journal and its completion event. -/
theorem settlements_agree_iff (R : Runtime) (p : ι → PostExpense) (steps : List (ProcessStep ι)) :
    AtEach (Process.step R p) .start steps (fun s c => SettlementsAgree (s.step R p c).world) ↔
    AtEach (Process.step R p) .start steps (fun s c => ¬ s.BreaksOff R c) := by
  apply atEach_step_iff_atEach (Consistent R) fun s => SettlementsAgree s.world
  · exact fun _ c h => h.step c
  · exact .start
  · exact .init
  · exact fun _ c h ha => h.agree_iff ha c

/-- Completion events answer requests, each another one and in their order. -/
theorem completions_answer_requests (R : Runtime) (p : ι → PostExpense) (steps : List (ProcessStep ι)) :
    let w := (run (Process.step R p) .start steps).world
    (w.groupsOf .settlementCompleted).Sublist (w.groupsOf .settlementRequested) := by
  intro w
  have h : (run (Process.step R p) .start steps).Orderly R := run_orderly steps
  rw [groupsOf_requested]
  exact (run_completions_sublist steps).trans (h.ended_contents.sublist.filterMap asked)

/-- If no handler of a group with expenses raises, every request that waits for the group is completed,
within four rounds for each event up to it that is not handled yet. -/
theorem requests_are_completed (R : Runtime) (p : ι → PostExpense) (steps : List (ProcessStep ι))
    (rounds : List (List (ProcessStep ι)))
    (hfair : ∀ round ∈ rounds, .wake ∈ round ∧ .put ∈ round ∧ .consume ∈ round ∧
      ∃ fails, .handle fails ∈ round) :
    let s := run (Process.step R p) .start steps
    let s' := run (Process.step R p) s rounds.flatten
    ∀ groupId ≠ "", s.world.store.getExpensesForGroup groupId ≠ [] →
      AtEach (Process.step R p) s rounds.flatten (fun s c => ¬ s.HandlerRaises R groupId c) →
      ∀ n ≤ s.world.outbox.events.length, 4 * (n - s.ended.length) ≤ rounds.length →
        let waiting := (s.world.outbox.events.take n).drop s.ended.length
        ((waiting.map OutboxEvent.content).filterMap asked).count groupId +
            (s.world.groupsOf .settlementCompleted).count groupId ≤
          (s'.world.groupsOf .settlementCompleted).count groupId := by
  intro s s' groupId hg hx hreturns n hn hrounds waiting
  have h : s.Consistent R := run_consistent steps
  have hround : ∀ round ∈ rounds, FairRound ProcessStep.IsAt round := by
    intro round hround
    obtain ⟨hwake, hput, hconsume, fails, hhandle⟩ := hfair round hround
    exact fairRound_of_mem hwake hput hconsume hhandle
  have hanswering : Answering R groupId s s' :=
    run_invariant_of_atEach (Answering R groupId s) (fun _ c h hc => h.step hg hc)
      ⟨h, mt List.map_eq_nil_iff.mp hx, Nat.le_refl _⟩ hreturns
  have hwaiting : s.answered.count groupId +
      ((waiting.map OutboxEvent.content).filterMap asked).count groupId ≤ s'.answered.count groupId := by
    have hended : s.ended <+: s'.ended := (h.toOrderly.run_grows rounds.flatten).2.2
    have hall := prefix_append_drop (hended.map (·.1.content)) (h.handles_contents hn hround hrounds)
    rw [List.length_map, ← List.map_drop] at hall
    have hcount := ((hall.sublist.filterMap asked).count_le groupId)
    rw [List.filterMap_append, List.count_append] at hcount
    exact hcount
  have hkept := hanswering.kept
  omega

/-- alice puts in a taxi for herself and bob, and a settlement is requested. -/
def taxiTrip : List (ProcessStep Unit) :=
  let uuid4 := Runtime.sequential.uuid4
  [.client (.createUser "Alice" "alice@example.com"), .client (.createUser "Bob" "bob@example.com"),
    .client (.createGroup "Trip"), .client (.addMember (uuid4 2) (uuid4 0)),
    .client (.addMember (uuid4 2) (uuid4 1)), .post () 0 0, .post () 0 0, .post () 0 0,
    .client (.settle (uuid4 2) "alice")]

def shareTaxi (_ : Unit) : PostExpense where
  groupId := Runtime.sequential.uuid4 2
  body := ⟨Runtime.sequential.uuid4 0, "Taxi", 100, "EQUAL", none, none⟩
  xIdempotencyKey := none

theorem taxi_handler_returns :
    AtEach (Process.step Runtime.sequential shareTaxi)
      (run (Process.step Runtime.sequential shareTaxi) .start taxiTrip)
      (List.replicate 8 backgroundRound).flatten
      fun s c => ¬ s.HandlerRaises Runtime.sequential (Runtime.sequential.uuid4 2) c := by
  have hprintable : AtEach (Process.step Runtime.sequential shareTaxi)
      (run (Process.step Runtime.sequential shareTaxi) .start taxiTrip)
      (List.replicate 8 backgroundRound).flatten
      fun s _ => ∀ amount ∈ (getGroupNetBalances (Runtime.sequential.uuid4 2) s.world).values,
        Printable amount := by
    decide +kernel
  rintro pre c post hp ⟨m, fails, -, rfl, -, -, -, hraises⟩
  have hnone : fails = none := by
    have hmem : ProcessStep.handle fails ∈ (List.replicate 8 (backgroundRound (ι := Unit))).flatten :=
      hp ▸ List.mem_append_right pre List.mem_cons_self
    simpa [backgroundRound] using hmem
  obtain hunread | ⟨-, hfails | hunsummed⟩ := hraises
  · rw [hnone] at hunread
    cases hunread
  · exact hfails hnone
  · exact hunsummed (.of_printable (fun _ _ => rfl) (hprintable pre _ post hp))

theorem requests_are_completed_taxi :
    let s := run (Process.step Runtime.sequential shareTaxi) .start taxiTrip
    let s' := run (Process.step Runtime.sequential shareTaxi) s (List.replicate 8 backgroundRound).flatten
    1 ≤ (s'.world.groupsOf .settlementCompleted).count (Runtime.sequential.uuid4 2) := by
  have hcompleted := requests_are_completed Runtime.sequential shareTaxi taxiTrip
    (List.replicate 8 backgroundRound) (by
      intro round hround
      obtain rfl := List.eq_of_mem_replicate hround
      exact ⟨.head _, .tail _ (.head _), .tail _ (.tail _ (.head _)), none,
        .tail _ (.tail _ (.tail _ (.head _)))⟩)
    (Runtime.sequential.uuid4 2) (by decide +kernel) (by decide +kernel) taxi_handler_returns 2
    (by decide +kernel) (by decide +kernel)
  have hwaiting : ((((run (Process.step Runtime.sequential shareTaxi) .start taxiTrip).world.outbox.events.take
      2).drop (run (Process.step Runtime.sequential shareTaxi) .start taxiTrip).ended.length).map
        OutboxEvent.content |>.filterMap asked).count (Runtime.sequential.uuid4 2) = 1 := by
    decide +kernel
  dsimp only at hcompleted ⊢
  omega

/-- What the simplify route has listed is what the worker saves when it handles a request of the
group, under the same checksum, if the group has the same expenses by then. -/
theorem settlement_is_previewed (R : Runtime) (p : ι → PostExpense) (steps : List (ProcessStep ι))
    {m : Message EventPayload} {w : World} {body : SimplifyResponse}
    (hcurrent : (run (Process.step R p) .start steps).current = some m)
    (htype : m.eventType = EventType.settlementRequested.value)
    (hbody : simplifyDebts R m.payload.groupId w = .success body)
    (hsame : w.transactionsFor m.payload.groupId =
      (run (Process.step R p) .start steps).world.transactionsFor m.payload.groupId) :
    let s := run (Process.step R p) .start steps
    ∃ records, (s.step R p (.handle none)).world.store.settlements.values =
        s.world.store.settlements.values ++ records ∧
      records.map (·.payment.item) = body.settlements ∧
      ∀ r ∈ records, r.groupId = m.payload.groupId ∧ r.isExecuted = true ∧ r.checksum = body.checksum := by
  intro s
  have h : s.Consistent R := run_consistent steps
  obtain ⟨listed, hlisted, hitems, hsum⟩ := simplifyDebts_success hbody
  obtain ⟨hplan, hplansum⟩ := getSimplifiedDebts_ok hlisted
  have hchecksummable := (getSimplifiedDebts_returns_iff R m.payload.groupId w).mp ⟨listed, hlisted⟩
  have hnet : getGroupNetBalances m.payload.groupId w = getGroupNetBalances m.payload.groupId s.world :=
    congrArg DebtSimplifier.computeNetBalances hsame
  rw [hnet] at hplan hplansum hchecksummable
  rw [hplan] at hitems
  rcases handle_world_cases h.toOrderly p none with ⟨-, hother⟩ | ⟨m', ok, hm', -, hstep⟩
  · exact absurd htype (hother m hcurrent)
  · obtain rfl := Option.some.inj (hcurrent.symm.trans hm')
    generalize (s.step R p (.handle none)).world = w' at hstep ⊢
    cases hstep with
    | nothing hn =>
        have hx := (h.wellFormed.payments_of_no_expenses hn).1
        rw [getGroupNetBalances, hx] at hitems
        exact ⟨[], (List.append_nil _).symm, hitems.symm, by simp⟩
    | unsummed hx => exact absurd hchecksummable hx.unsummed
    | @completed result acc hp =>
        refine ⟨acc.records, values_settled h.wellFormed hp.records, ?_, fun r hr => ?_⟩
        · rw [hitems, ← hp.records.payments, List.map_map]
          rfl
        · obtain ⟨hexecuted, hchecksum⟩ := hp.executed r hr
          refine ⟨hp.records.group r hr, hexecuted, ?_⟩
          have hsame : Except.ok result.checksum = .ok listed.checksum := hp.checksum.symm.trans hplansum
          rw [hchecksum, Except.ok.inj hsame, hsum]

/-- The worker has taken the request. -/
def taxiTaken : List (ProcessStep Unit) := taxiTrip ++ [.wake, .put, .put, .consume, .handle none, .consume]

theorem settlement_is_previewed_taxi :
    let s := run (Process.step Runtime.sequential shareTaxi) .start taxiTaken
    ∃ body records, simplifyDebts Runtime.sequential (Runtime.sequential.uuid4 2) s.world = .success body ∧
      (s.step Runtime.sequential shareTaxi (.handle none)).world.store.settlements.values =
        s.world.store.settlements.values ++ records ∧
      records.map (·.payment.item) = body.settlements := by
  intro s
  have htaken : s.current.map (fun m => (m.eventType, m.payload.groupId)) =
      some (EventType.settlementRequested.value, Runtime.sequential.uuid4 2) := by
    decide +kernel
  obtain ⟨m, hcurrent, hm⟩ := Option.map_eq_some_iff.mp htaken
  obtain ⟨htype, hgroup⟩ := Prod.mk.inj hm
  have hfound : (s.world.store.groups.get? (Runtime.sequential.uuid4 2)).isSome := by decide +kernel
  obtain ⟨group, hg⟩ := Option.isSome_iff_exists.mp hfound
  have hlt : ∀ balance ∈ (getGroupNetBalances (Runtime.sequential.uuid4 2) s.world).items,
      |balance.2| < 100 * floatLimit := by
    decide +kernel
  obtain ⟨body, hbody⟩ := simplifyDebts_of_lt (R := Runtime.sequential) hg hlt fun _ _ => rfl
  refine ⟨body, ?_⟩
  rw [← hgroup] at hbody ⊢
  obtain ⟨records, hsaved, hitems, -⟩ :=
    settlement_is_previewed Runtime.sequential shareTaxi taxiTaken hcurrent htype hbody rfl
  dsimp only [s] at hbody ⊢
  exact ⟨records, hbody, hsaved, hitems⟩

/-! ## Idempotency keys -/

/-- Every key that is marked as being processed has a request under way after every step, if and only if
no request crashes over a total that rounds to no float while it alone is under way for a marked key. So
long as none does, no key is marked any more when all requests have ended. -/
theorem keys_released_iff (R : Runtime) (p : ι → PostExpense) (steps : List (ProcessStep ι)) :
    (AtEach (Process.step R p) .start steps (fun s c => (s.step R p c).LocksHeld p) ↔
      AtEach (Process.step R p) .start steps fun s c => ¬ s.Overflows R p c) ∧
    let s := run (Process.step R p) .start steps
    AtEach (Process.step R p) .start steps (fun s c => ¬ s.Overflows R p c) →
      (∀ i, ¬ (s.route.phase i).Holding) →
        ∀ key, s.world.cache.store.get? (IdempotencyManager.makeKey key) ≠ some .processing := by
  refine ⟨?_, ?_⟩
  · apply atEach_step_iff_atEach (Orderly R) (LocksHeld p)
    · exact fun _ c ho => (ho.step c).1
    · exact .start
    · exact .start p
    · exact fun _ c ho h => h.step_iff ho c
  · intro s hgood hended key hmarked
    have hlocks : s.Orderly R ∧ s.LocksHeld p := by
      apply run_invariant_of_atEach (fun s => s.Orderly R ∧ s.LocksHeld p) _ ⟨.start, .start p⟩ hgood
      rintro s c ⟨ho, h⟩ hc
      exact ⟨(ho.step c).1, (h.step_iff ho c).mpr hc⟩
    obtain ⟨i, -, hholding⟩ := hlocks.2 key hmarked
    exact hended i hholding

/-! ## Balances -/

/-- Balances that come from the cache have been computed by an earlier request for the group, by the
clock at most a minute before, and no settlement of the group has been completed since. -/
theorem cached_balances_recent (R : Runtime) (p : ι → PostExpense) (steps : List (ProcessStep ι))
    (groupId : String) (now now' now'' : ℚ) {w' : World} {body : GroupBalancesResponse}
    (h : getBalances R groupId now now' now'' (run (Process.step R p) .start steps).world =
      (.success body, w')) (hc : body.cached = true) :
    ∃ (pre post : List (ProcessStep ι)) (t t' t'' : ℚ), steps = pre ++ .balances groupId t t' t'' :: post ∧
      now ≤ t'' + balancesTtlSeconds ∧
      let earlier := run (Process.step R p) .start pre
      (getBalances R groupId t t' t'' earlier.world).1 = .success { body with cached := false } ∧
      body.listed = (getGroupNetBalances groupId earlier.world).items ∧
      (run (Process.step R p) .start steps).completedCount groupId = earlier.completedCount groupId := by
  obtain ⟨stored, hfound, rfl⟩ := getBalances_cached h hc
  obtain ⟨expiry, hentry, halive⟩ := InMemoryCache.entry_of_get hfound
  obtain ⟨pre, t, t', t'', post, computed, rfl, hbody, he, hcount⟩ := run_entry steps hentry
  cases he
  refine ⟨pre, post, t, t', t'', rfl, halive _ rfl, ?_, hbody.listed, hcount⟩
  rw [hbody.answers, ← hbody.computed]

/-- What alice gets who asks for the balances twice within two seconds. -/
def cachedTaxi : GroupBalancesResponse :=
  { balancesResponse (Runtime.sequential.uuid4 2)
      [⟨Runtime.sequential.uuid4 0, 50, 1 / 2, "CREDITOR"⟩,
        ⟨Runtime.sequential.uuid4 1, -50, -1 / 2, "DEBTOR"⟩]
    with cached := true }

theorem cached_balances_recent_taxi :
    let steps := taxiTrip ++ [.balances (Runtime.sequential.uuid4 2) 0 0 0]
    ∃ (pre post : List (ProcessStep Unit)) (t t' t'' : ℚ),
      steps = pre ++ .balances (Runtime.sequential.uuid4 2) t t' t'' :: post ∧
      2 ≤ t'' + balancesTtlSeconds ∧
      cachedTaxi.listed = (getGroupNetBalances (Runtime.sequential.uuid4 2)
        (run (Process.step Runtime.sequential shareTaxi) .start pre).world).items := by
  intro steps
  have hcached : (getBalances Runtime.sequential (Runtime.sequential.uuid4 2) 2 2 2
      (run (Process.step Runtime.sequential shareTaxi) .start steps).world).1 = .success cachedTaxi := by
    decide +kernel
  have hresult : getBalances Runtime.sequential (Runtime.sequential.uuid4 2) 2 2 2
      (run (Process.step Runtime.sequential shareTaxi) .start steps).world =
        (.success cachedTaxi, (getBalances Runtime.sequential (Runtime.sequential.uuid4 2) 2 2 2
          (run (Process.step Runtime.sequential shareTaxi) .start steps).world).2) := by
    rw [← hcached]
  obtain ⟨pre, post, t, t', t'', hsteps, hrecent, -, hlisted, -⟩ :=
    cached_balances_recent Runtime.sequential shareTaxi steps (Runtime.sequential.uuid4 2) 2 2 2 hresult rfl
  exact ⟨pre, post, t, t', t'', hsteps, hrecent, hlisted⟩

/-! ## Audits -/

/-- While the clock does not step back, the audits of both ledgers can be taken at any time, also between
and after handlers that fail, and the amounts balance. The audit of the worker's ledger is clean. That of
the service's is while the heads of its accounts are the hashes of their last entries, which they are after
every step if and only if no posting of a request breaks off between two entries. -/
theorem process_audits_clean (R : Runtime) (hm : Monotone R.time) (p : ι → PostExpense)
    (steps : List (ProcessStep ι)) :
    let w := (run (Process.step R p) .start steps).world
    (∃ report, AuditsBalance R w.serviceLedger report) ∧
    (∃ report, AuditsClean R w.workerLedger report) ∧
    (AtEach (Process.step R p) .start steps (fun s c => HeadsCurrent (s.step R p c).world.serviceLedger) ↔
      AtEach (Process.step R p) .start steps fun s c => ¬ s.LeavesHeads R p c) ∧
    (AtEach (Process.step R p) .start steps (fun s c => ¬ s.LeavesHeads R p c) →
      ∃ report, AuditsClean R w.serviceLedger report) := by
  intro w
  have haudited : Audited R w := .run hm steps
  have hstep : ∀ (s : Process ι) (c : ProcessStep ι),
      s.Consistent R ∧ Sound R s.world.draws s.world.serviceLedger → ¬ s.LeavesHeads R p c →
        (s.step R p c).Consistent R ∧
          Sound R (s.step R p c).world.draws (s.step R p c).world.serviceLedger := by
    rintro s c ⟨h, hs⟩ hc
    exact ⟨h.step c, h.step_sound hm hs hc⟩
  have hstart : (Process.start : Process ι).Consistent R ∧
      Sound R (Process.start : Process ι).world.draws (Process.start : Process ι).world.serviceLedger :=
    ⟨.start, .init R ⟨0, 0⟩⟩
  refine ⟨haudited.service.auditsBalance, haudited.worker.auditsClean, ?_, fun hkept => ?_⟩
  · exact atEach_iff_atEach _ hstep hstart fun s c ⟨h, hs⟩ => h.headsCurrent_iff hm hs c
  · obtain ⟨-, hsound⟩ := run_invariant_of_atEach _ hstep hstart hkept
    exact haudited.service.auditsClean hsound.verifies

/-- The taxi is put in and the trip is settled. -/
def taxiSettled : List (ProcessStep Unit) := taxiTrip ++ (List.replicate 8 backgroundRound).flatten

theorem process_audits_clean_taxi :
    let w := (run (Process.step Runtime.sequential shareTaxi) .start taxiSettled).world
    w.serviceLedger.journals.items.length = 1 ∧ w.workerLedger.journals.items.length = 1 ∧
    (∃ report, AuditsClean Runtime.sequential w.serviceLedger report) ∧
      ∃ report, AuditsClean Runtime.sequential w.workerLedger report := by
  intro w
  obtain ⟨-, hworker, -, hservice⟩ :=
    process_audits_clean Runtime.sequential sequential_monotone shareTaxi taxiSettled
  have hhashable : AtEach (Process.step Runtime.sequential shareTaxi) .start taxiSettled fun s c =>
      ∀ call ∈ s.posting Runtime.sequential shareTaxi c, call.Hashable Runtime.sequential := by
    decide +kernel
  refine ⟨by decide +kernel, by decide +kernel, hservice ?_, hworker⟩
  rintro pre c post hp ⟨call, hcall, hnot⟩
  exact hnot (.inr (.inr (hhashable pre c post hp call hcall)))

/-! ## Serial runs -/

/-- However the requests, the daemon and the worker interleave, one serial run of the operations goes
along with the process. It gets some of the process's ids, and some of its clock readings in their order.
At every point it has the same store and the same ledgers, and the operation that comes next is answered
the same. Only the journals of requests that fail at saving their records are missing in its worker's
ledger. -/
theorem process_serializable (R : Runtime) (p : ι → PostExpense) (steps : List (ProcessStep ι)) :
    ∃ (σ : ℕ ↪ ℕ) (τ : ℕ →o ℕ), ∀ pre post, steps = pre ++ post →
      let s := run (Process.step R p) .start pre
      let w := World.run (R.reindex σ τ) (operations R p .start pre)
      w.store = s.world.store ∧ w.serviceLedger = s.world.serviceLedger ∧
      (w.workerLedger = s.world.workerLedger ↔
        AtEach (Process.step R p) .start pre fun s c => ¬ s.LosesJournals R c) ∧
      ∀ c rest op, post = c :: rest → s.operation p c = some op →
        w.answer (R.reindex σ τ) op = s.world.answer R op := by
  obtain ⟨ids, times, hids, htimes, hserial⟩ :=
    (Consistent.start (R := R)).exists_places (p := p) steps ⟨0, 0⟩ (Nat.le_refl _)
  refine ⟨⟨ids, hids.injective⟩, ⟨times, htimes.monotone⟩, fun pre post hp => ?_⟩
  have hheads : HeadsEncode (R.reindex ⟨ids, hids.injective⟩ ⟨times, htimes.monotone⟩)
      World.init.workerLedger.accountHeads :=
    fun _ _ h => by cases h
  obtain ⟨hpre, hanswers⟩ := hserial ⟨ids, hids.injective⟩ ⟨times, htimes.monotone⟩ .init (fun _ _ => rfl)
    (fun _ _ => rfl) rfl ⟨rfl, rfl⟩ hheads pre post hp
  refine ⟨hpre.books.store, hpre.books.serviceLedger, ?_, hanswers⟩
  constructor
  · intro hsame
    by_contra hlost
    have hless := hpre.lost hlost
    rw [World.run] at hsame
    rw [hsame] at hless
    exact Nat.lt_irrefl _ hless
  · intro hkept
    exact (hpre.replay hkept).workerLedger rfl

/-- The expenses of the serial run are put in for different requests, which are those that the service has
been called for. A repeated request is answered with the response of another one under its key, and groups
are settled for different requests in the order of the outbox. -/
theorem requests_take_effect_once (R : Runtime) (p : ι → PostExpense) (steps : List (ProcessStep ι)) :
    let s := run (Process.step R p) .start steps
    let ops := operations R p .start steps
    (∃ requests : List ι, requests.Nodup ∧ (∀ i, i ∈ requests ↔ (s.route.phase i).TookEffect) ∧
      ops.filterMap Operation.request = requests.map fun i => (p i).args) ∧
    (∀ i body, s.route.phase i = .done (.replayed body) → ∃ key j, truthy (p i).idemKey = some key ∧
      truthy (p j).idemKey = some key ∧ s.route.phase j = .done (.success body)) ∧
    (ops.filterMap Operation.settledGroup).Sublist (s.world.groupsOf .settlementRequested) := by
  intro s ops
  have hserved : s.Replies p ∧ ∃ requests, Served p s ops requests := run_served steps
  obtain ⟨hreplies, requests, hrequests⟩ := hserved
  refine ⟨⟨requests, hrequests.distinct, hrequests.tookEffect, hrequests.created⟩, fun i body hi => ?_, ?_⟩
  · obtain ⟨key, hkey, j, hj, hdone⟩ := hreplies.replayed i body hi
    exact ⟨key, j, hkey, hj, hdone⟩
  · have h : s.Orderly R := run_orderly steps
    rw [groupsOf_requested]
    exact (run_settled_sublist steps).trans (h.ended_contents.sublist.filterMap asked)

/-! ## History -/

/-- Nothing that has been recorded is taken back or put in another place, whatever comes later. The
expenses that a group lists stay listed, with another journal at most, and a group whose expenses cannot
be listed never lists any again. -/
theorem process_keeps_history (R : Runtime) (p : ι → PostExpense) (steps steps' : List (ProcessStep ι)) :
    let w := (run (Process.step R p) .start steps).world
    let w' := (run (Process.step R p) .start (steps ++ steps')).world
    History w w' ∧
    (∀ groupId responses', listExpenses R groupId w' = .ok responses' →
      ∃ responses, listExpenses R groupId w = .ok responses ∧
        responses.map (·.unjournaled) <+: responses'.map (·.unjournaled)) ∧
    ∀ groupId e, listExpenses R groupId w = .error e → ∃ e', listExpenses R groupId w' = .error e' := by
  intro w w'
  have hkept : History w w' := by
    have hrun := (run_consistent (R := R) (p := p) steps).history_run (p := p) steps'
    rwa [← run_append] at hrun
  refine ⟨hkept, fun groupId responses' hlisted => hkept.listed hlisted, fun groupId e he => ?_⟩
  cases hlisted : listExpenses R groupId w' with
  | error e' => exact ⟨e', rfl⟩
  | ok responses' =>
      obtain ⟨responses, hok, -⟩ := hkept.listed hlisted
      rw [he] at hok
      cases hok

end ExpenseSettlement

import ExpenseSettlement.Core.Lemmas.Checksum
import ExpenseSettlement.Core.Lemmas.OccProgress
import ExpenseSettlement.Core.Lemmas.OccRetry
import ExpenseSettlement.Core.Lemmas.Rejected
import Mathlib.Tactic.NormNum

/-!
# The ledger, the simplifier and optimistic locking

The simplifier settles every balance, the ledger and the net balances agree on expenses, a run of
journals stays verifiable, and where settlements and rejected journals break the books. Optimistic
locking loses no update.
-/

namespace ExpenseSettlement

open Lib LedgerEngine DebtSimplifier

/-! ## Simplification -/

/-- On balances that sum to zero the loop ends with both heaps empty, never discards a pair, and its
settlements bring every user exactly the user's net balance. They are returned if and only if the users
they are between have ids that can be encoded, and no creditor and debtor both have an amount of too many
digits. -/
theorem simplify_settles_exactly_iff (R : Runtime) (netBalances : Dict String ℤ) (originalTxCount : ℤ)
    (hz : netBalances.values.sum = 0) :
    ((∃ result, simplify R netBalances originalTxCount = .ok result ∧
        ∀ u, received u result.settlements - paid u result.settlements = netBalances.getD u 0) ↔
      Checksummable R netBalances) ∧
    (∃ final, matching.Visits (initialState netBalances) final ∧ matchStep final = none ∧
      final.creditors.items = [] ∧ final.debtors.items = [] ∧ final.settlements = settle netBalances) ∧
    (∀ s, matching.Visits (initialState netBalances) s →
      ∀ c creditors d debtors, s.creditors.pop? = some (c, creditors) →
        s.debtors.pop? = some (d, debtors) → ¬ min c.amount d.amount < 1) ∧
    ∀ u, received u (settle netBalances) - paid u (settle netBalances) = netBalances.getD u 0 := by
  refine ⟨?_, ?_, ?_, settle_accounted hz⟩
  · rw [← simplify_returns_iff hz originalTxCount]
    constructor
    · rintro ⟨result, hr, -⟩
      exact ⟨result, hr⟩
    · rintro ⟨result, hr⟩
      refine ⟨result, hr, fun u => ?_⟩
      rw [(simplifiesTo_settle R hz originalTxCount).settlements result hr]
      exact settle_accounted hz u
  · have hdone := matching.run_done (initialState netBalances)
    have hm := matched_of_visits hz (matching.visits_run (initialState netBalances))
    exact ⟨_, matching.visits_run _, hdone, (hm.done hdone).1, (hm.done hdone).2.1, rfl⟩
  · intro s hv c creditors d debtors hc hd
    have hm := matched_of_visits hz hv
    have hcpos := (hm.creditors_pos.pop hc).1
    have hdpos := (hm.debtors_pos.pop hd).1
    omega

def dinner : List Transaction :=
  [⟨"alice", [⟨"alice", 30⟩, ⟨"bob", 30⟩, ⟨"carol", 30⟩]⟩, ⟨"bob", [⟨"alice", 10⟩, ⟨"bob", 10⟩]⟩]

theorem sum_dinner : (computeNetBalances dinner).values.sum = 0 := by decide

theorem checksummable_dinner : Checksummable Runtime.sequential (computeNetBalances dinner) :=
  .of_printable (fun _ _ => rfl) (by decide +kernel)

theorem simplify_settles_exactly_iff_dinner :
    ∃ result, simplify Runtime.sequential (computeNetBalances dinner) 2 = .ok result ∧
      ∀ u, received u result.settlements - paid u result.settlements =
        (computeNetBalances dinner).getD u 0 :=
  (simplify_settles_exactly_iff Runtime.sequential (computeNetBalances dinner) 2 sum_dinner).1.mpr
    checksummable_dinner

/-- Bob owes alice an amount of 4301 digits. -/
def hugeDebt : Dict String ℤ := owing (by decide : "bob" ≠ "alice") (10 ^ maxStrDigits)

/-- The payment is found, and then its amount has no text. -/
theorem huge_debt_raises :
    hugeDebt.values.sum = 0 ∧
      ∃ message, simplify Runtime.sequential hugeDebt 1 = .error (.valueError message) := by
  have hz : hugeDebt.values.sum = 0 := sum_owing
  have hpos : (1 : ℤ) ≤ 10 ^ maxStrDigits := one_le_pow₀ (by decide)
  obtain ⟨message, he⟩ := strInt_of_not_printable (n := 10 ^ maxStrDigits) fun h =>
    absurd ((printable_iff hpos).mp h) (lt_irrefl _)
  have hsum : checksum Runtime.sequential (settle hugeDebt) = .error (.valueError message) := by
    rw [hugeDebt, settle_owing hpos]
    simp [checksum, checksumInput, recordTexts, he]
  refine ⟨hz, message, ?_⟩
  rcases simplify_cases Runtime.sequential hz 1 with ⟨result, -, -, hc⟩ | ⟨e, hs, hc⟩
  · rw [hsum] at hc
    cases hc
  · rw [hsum] at hc
    cases hc
    exact hs

/-! ## Expenses -/

def expenseCalls (txs : List (Transaction × String)) : List LedgerCall :=
  txs.map fun (tx, description) => .expense tx.payerId tx.splits description

theorem sum_walletDelta_expenseCalls (u : String) (txs : List (Transaction × String)) :
    ((expenseCalls txs).map (·.walletDelta u)).sum =
      (computeNetBalances (txs.map Prod.fst)).getD u 0 := by
  rw [getD_computeNetBalances, expenseCalls, List.map_map, List.map_map]
  rfl

theorem wallet_eq_net_balance (R : Runtime) (d : Draws) (txs : List (Transaction × String))
    (h : AllPosted R (.init d) (expenseCalls txs)) (u : String) :
    (run (LedgerState.step R) (.init d) (expenseCalls txs)).engine.getAccountBalance (userWallet u) =
      (computeNetBalances (txs.map Prod.fst)).getD u 0 := by
  rw [LedgerState.run_wallet u h, sum_walletDelta_expenseCalls]
  exact zero_add _

def dinnerCalls : List (Transaction × String) := dinner.map fun tx => (tx, "Dinner")

theorem dinnerCalls_posted : AllPosted Runtime.sequential (.init ⟨0, 0⟩) (expenseCalls dinnerCalls) :=
  LedgerState.allPosted_of_hashable (.init _ _) (by decide +kernel)

theorem wallet_eq_net_balance_dinner :
    (run (LedgerState.step Runtime.sequential) (.init ⟨0, 0⟩)
      (expenseCalls dinnerCalls)).engine.getAccountBalance "USER_WALLET:bob" =
      (computeNetBalances dinner).getD "bob" 0 :=
  wallet_eq_net_balance Runtime.sequential ⟨0, 0⟩ dinnerCalls dinnerCalls_posted "bob"

/-! ## Runs of expense and settlement journals -/

/-- Every run of expense and settlement journals, rejected ones included, leaves a ledger of the journals
that were returned, in which the books balance, the clearing accounts are empty and the wallets cancel.
With a clock that does not step back, and while no call breaks off between two of its entries, the ledger
verifies and its heads agree with its entries. -/
theorem ledger_run_invariant (R : Runtime) (hm : Monotone R.time) (d : Draws)
    (calls : List LedgerCall) :
    let L := (run (LedgerState.step R) (.init d) calls).engine
    let returned := LedgerState.returned R (.init d) calls
    (AtEach (LedgerState.step R) (.init d) calls fun s c =>
      ∀ message, c.result R s ≠ .error (.ledgerImbalanceError message)) ∧
    L.journals.values = returned ∧ (∀ p ∈ L.journals.items, p.2.journalId = p.1) ∧
    L.entries = returned.flatMap (·.entries) ∧
    sumOf .debit L.entries = sumOf .credit L.entries ∧
    (∀ id, L.getAccountBalance (expenseClearing id) = 0 ∧
      L.getAccountBalance (settlementClearing id) = 0) ∧
    (∀ S : Finset String, (∀ e ∈ L.entries, ∀ u, e.accountId = userWallet u → u ∈ S) →
      ∑ u ∈ S, L.getAccountBalance (userWallet u) = 0) ∧
    ((∀ c ∈ calls, c.Guarded R) → verifyChainIntegrity R L = .ok (true, []) ∧
      ∀ a, L.accountHeads.get? a = (onAccount a L.entries).getLast?.map (·.entryHash)) := by
  intro L returned
  have hk : Kept R _ L := LedgerState.run_kept (s := .init d) (.init R d) calls
  have hc : Cleared L := LedgerState.run_cleared d calls
  have hjournals : L.journals.values = returned := LedgerState.run_journals (s := .init d) (.init R d) calls
  refine ⟨?_, hjournals, hk.filed, hjournals ▸ hk.recorded, hk.sumOf_eq, fun id => ?_, fun S hS => ?_, ?_⟩
  · intro pre c post _ message he
    obtain ⟨htext, -⟩ := LedgerCall.exec_error he
    cases htext
  · rw [getAccountBalance_eq, getAccountBalance_eq]
    exact ⟨hc.cleared _ ⟨id, Or.inl rfl⟩, hc.cleared _ ⟨id, Or.inr rfl⟩⟩
  · refine hc.wallets hk.balanced fun p hp u hu => ?_
    obtain ⟨e, he, rfl⟩ := List.mem_map.mp hp
    exact hS e he u hu
  · intro hguard
    have hs : Sound R _ L := LedgerState.run_sound hm d hguard
    exact ⟨hs.verifies, hs.linked.head⟩

theorem sequential_monotone : Monotone Runtime.sequential.time := fun _ _ h => Nat.cast_le.mpr h

theorem ledger_run_invariant_dinner :
    verifyChainIntegrity Runtime.sequential
      (run (LedgerState.step Runtime.sequential) (.init ⟨0, 0⟩)
        (expenseCalls dinnerCalls ++ [.settlement "carol" "alice" 0 "rejected"])).engine = .ok (true, []) := by
  obtain ⟨-, -, -, -, -, -, -, hverify⟩ := ledger_run_invariant Runtime.sequential sequential_monotone ⟨0, 0⟩
    (expenseCalls dinnerCalls ++ [.settlement "carol" "alice" 0 "rejected"])
  refine (hverify ?_).1
  intro c hc
  rcases List.mem_append.mp hc with hc | hc
  · have hall : ∀ c ∈ expenseCalls dinnerCalls, c.Hashable Runtime.sequential := by decide +kernel
    exact .inr (.inr (hall c hc))
  · rw [List.mem_singleton.mp hc]
    exact .inl (by decide)

/-- Bob's share is fine, but carol's has 4301 digits. Bob then takes part in another expense. -/
def brokenOff : List LedgerCall :=
  [.expense "alice" [⟨"bob", 30⟩, ⟨"carol", 10 ^ maxStrDigits⟩] "Island",
   .expense "alice" [⟨"bob", 30⟩] "Dinner"]

/-- The first call raises with two heads moved, and the entry of the second is chained to one of them. -/
theorem broken_off_leaves_heads :
    Monotone Runtime.sequential.time ∧
    verifyChainIntegrity Runtime.sequential
      (run (LedgerState.step Runtime.sequential) (.init ⟨0, 0⟩) brokenOff).engine ≠ .ok (true, []) ∧
    ¬ ∀ a, (run (LedgerState.step Runtime.sequential) (.init ⟨0, 0⟩)
        (brokenOff.take 1)).engine.accountHeads.get? a =
      (onAccount a (run (LedgerState.step Runtime.sequential) (.init ⟨0, 0⟩)
        (brokenOff.take 1)).engine.entries).getLast?.map (·.entryHash) := by
  refine ⟨sequential_monotone, by decide +kernel, fun h => ?_⟩
  have hbob := h "USER_WALLET:bob"
  revert hbob
  decide +kernel

/-! ## Settlements on the books -/

def settlementCalls (plan : List Settlement) : List LedgerCall :=
  plan.map fun s => .settlement s.payerId s.payeeId s.amountCents "Settlement"

theorem sum_walletDelta_settlementCalls (u : String) (plan : List Settlement) :
    ((settlementCalls plan).map (·.walletDelta u)).sum = received u plan - paid u plan := by
  induction plan with
  | nil => rfl
  | cons s plan ih =>
      simp only [settlementCalls, List.map_cons, List.sum_cons, received, paid] at ih ⊢
      rw [ih]
      simp only [LedgerCall.walletDelta]
      ring

theorem settlementCalls_posted {R : Runtime} {s : LedgerState} (hs : Kept R s.draws s.engine)
    {plan : List Settlement} (h : ∀ t ∈ plan, 1 ≤ t.amountCents) (hhash : ∀ t ∈ plan, t.Hashable R) :
    AllPosted R s (settlementCalls plan) := by
  refine LedgerState.allPosted_of_hashable hs fun c hc => ?_
  obtain ⟨t, ht, rfl⟩ := List.mem_map.mp hc
  have hhash := hhash t ht
  exact ⟨h t ht, ⟨hhash.payer, hhash.amount⟩, ⟨hhash.payee, hhash.amount⟩⟩

theorem AllPosted.append {R : Runtime} {s : LedgerState} {calls calls' : List LedgerCall}
    (h : AllPosted R s calls) (h' : AllPosted R (run (LedgerState.step R) s calls) calls') :
    AllPosted R s (calls ++ calls') := by
  induction calls generalizing s with
  | nil => exact h'
  | cons c calls ih =>
      obtain ⟨hc, hrest⟩ := atEach_cons.mp h
      exact atEach_cons.mpr ⟨hc, ih hrest h'⟩

/-- Settling on the same ledger doubles every wallet instead of emptying it. -/
theorem wallet_after_settlement {R : Runtime} {d : Draws} {txs : List (Transaction × String)}
    (h : AllPosted R (.init d) (expenseCalls txs))
    (h' : AllPosted R (run (LedgerState.step R) (.init d) (expenseCalls txs))
      (settlementCalls (settle (computeNetBalances (txs.map Prod.fst))))) (u : String) :
    (run (LedgerState.step R) (.init d) (expenseCalls txs ++
      settlementCalls (settle (computeNetBalances (txs.map Prod.fst))))).engine.getAccountBalance
        (userWallet u) = 2 * (computeNetBalances (txs.map Prod.fst)).getD u 0 := by
  have hz := sum_values_computeNetBalances (txs.map Prod.fst)
  rw [LedgerState.run_wallet u (h.append h'), List.map_append, List.sum_append,
    sum_walletDelta_expenseCalls, sum_walletDelta_settlementCalls, settle_accounted hz]
  simp only [LedgerState.init, LedgerEngine.init, getAccountBalance, List.foldl_nil]
  ring

/-- The settlements of a plan empty the wallets of the expenses exactly when every user's shares of
the expenses of others already equal the shares of others in the user's own expenses. -/
theorem settlements_cancel_iff (R : Runtime) (d : Draws) (txs : List (Transaction × String))
    (originalTxCount : ℤ) (h : AllPosted R (.init d) (expenseCalls txs)) :
    ((∃ result, simplify R (computeNetBalances (txs.map Prod.fst)) originalTxCount = .ok result) ↔
      Checksummable R (computeNetBalances (txs.map Prod.fst))) ∧
    ∀ result, simplify R (computeNetBalances (txs.map Prod.fst)) originalTxCount = .ok result →
      AllPosted R (run (LedgerState.step R) (.init d) (expenseCalls txs))
        (settlementCalls result.settlements) ∧
      ((∀ u, (run (LedgerState.step R) (.init d) (expenseCalls txs ++
          settlementCalls result.settlements)).engine.getAccountBalance (userWallet u) = 0) ↔
        ∀ u, ((txs.map Prod.fst).map (netOf u)).sum = 0) := by
  have hz := sum_values_computeNetBalances (txs.map Prod.fst)
  refine ⟨simplify_returns_iff hz originalTxCount, fun result hr => ?_⟩
  have hhash := (hashable_settle_iff hz).mpr ((simplify_returns_iff hz originalTxCount).mp ⟨result, hr⟩)
  have hkept := LedgerState.run_kept (s := .init d) (.init R d) (expenseCalls txs)
  have hposted := settlementCalls_posted hkept (fun t ht => settle_pos hz ht) hhash
  rw [(simplifiesTo_settle R hz originalTxCount).settlements result hr]
  refine ⟨hposted, forall_congr' fun u => ?_⟩
  rw [wallet_after_settlement h hposted, getD_computeNetBalances]
  omega

/-- Alice pays 30 for herself and 30 for bob. -/
def supper : Transaction := ⟨"alice", [⟨"alice", 30⟩, ⟨"bob", 30⟩]⟩

/-- Settling the supper leaves bob owing 60. -/
theorem settlements_do_not_cancel :
    ∃ result, simplify Runtime.sequential (computeNetBalances [supper]) 1 = .ok result ∧
      AllPosted Runtime.sequential (.init ⟨0, 0⟩) (expenseCalls [(supper, "Dinner")]) ∧
      (run (LedgerState.step Runtime.sequential) (.init ⟨0, 0⟩)
        (expenseCalls [(supper, "Dinner")] ++
          settlementCalls result.settlements)).engine.getAccountBalance "USER_WALLET:bob" = -60 := by
  have hz : (computeNetBalances [supper]).values.sum = 0 := by decide
  obtain ⟨result, hr, hs⟩ := (simplifiesTo_settle Runtime.sequential hz 1).exists_result
    (.of_printable (fun _ _ => rfl) (by decide +kernel))
  refine ⟨result, hr, LedgerState.allPosted_of_hashable (.init _ _) (by decide +kernel), ?_⟩
  rw [hs]
  decide +kernel

theorem settlements_cancel_iff_dinner :
    ∃ result, simplify Runtime.sequential (computeNetBalances dinner) 2 = .ok result ∧
      ((∀ u, (run (LedgerState.step Runtime.sequential) (.init ⟨0, 0⟩) (expenseCalls dinnerCalls ++
          settlementCalls result.settlements)).engine.getAccountBalance (userWallet u) = 0) ↔
        ∀ u, (dinner.map (netOf u)).sum = 0) := by
  obtain ⟨hreturns, hall⟩ :=
    settlements_cancel_iff Runtime.sequential ⟨0, 0⟩ dinnerCalls 2 dinnerCalls_posted
  obtain ⟨result, hr⟩ := hreturns.mpr checksummable_dinner
  exact ⟨result, hr, (hall result hr).2⟩

/-! ## Rejected journals -/

/-- In a reachable ledger a rejected journal leaves no trace when it has an amount below one cent, when
its first entry cannot be hashed, or when all can be and they balance, and only then if digests do not
collide. A run of such calls stays verifiable. -/
theorem rejected_journal_unchanged_iff (R : Runtime) (d : Draws) (calls : List JournalCall)
    (c : JournalCall) :
    let s := run (LedgerState.journalStep R) (.init d) calls
    let Untouched := ∀ e, (c.exec R s).1 = .error e → (s.journalStep R c).engine = s.engine
    let Guarded := fun c : JournalCall =>
      (∃ spec ∈ c.specs, spec.amountCents < 1) ∨ (∃ spec ∈ c.specs.head?, ¬ spec.Hashable R) ∨
        (∀ spec ∈ c.specs, spec.Hashable R) ∧ InBalance (specBooks c.specs)
    (Guarded c → Untouched) ∧
    (Function.Injective R.sha256 → Untouched → Guarded c) ∧
    (Monotone R.time → (∀ c ∈ calls, Guarded c) → verifyChainIntegrity R s.engine = .ok (true, [])) := by
  intro s Untouched Guarded
  have hheaded : s.Headed R := LedgerState.run_headed d calls
  refine ⟨fun hg e he => ?_, fun hsha hu => ?_, fun hm hg => ?_⟩
  · exact LedgerState.journalStep_unchanged hheaded.encoded hg he
  · by_contra hn
    obtain ⟨_, he, hne⟩ := LedgerState.journalStep_changed hsha hheaded hn
    exact hne (by rw [hu _ he])
  · have hs : Sound R s.draws s.engine :=
      run_invariant_of_atEach (fun s : LedgerState => Sound R s.draws s.engine)
        (fun _ _ h hc => LedgerState.journalStep_sound hm h hc) (Sound.init R d)
        (fun pre c post hp => hg c (by rw [hp]; simp))
    exact hs.verifies

def lopsided : JournalCall where
  specs := [⟨"USER_WALLET:alice", .userWallet, .credit, 5000, some "test"⟩,
    ⟨"USER_WALLET:bob", .userWallet, .debit, 3000, some "test"⟩]
  description := "Imbalanced test"

def repaired : JournalCall where
  specs := [⟨"USER_WALLET:alice", .userWallet, .credit, 3000, some "test"⟩,
    ⟨"USER_WALLET:bob", .userWallet, .debit, 3000, some "test"⟩]
  description := "Repaired test"

/-- The rejected journal moves the heads, and the next valid journal no longer verifies. -/
theorem rejected_journal_leaves_heads :
    (∃ message, (lopsided.exec Runtime.sequential (.init ⟨0, 0⟩)).1 =
      .error (.ledgerImbalanceError message)) ∧
    ((LedgerState.init ⟨0, 0⟩).journalStep Runtime.sequential lopsided).engine ≠
      (LedgerState.init ⟨0, 0⟩).engine ∧
    verifyChainIntegrity Runtime.sequential
      (run (LedgerState.journalStep Runtime.sequential) (.init ⟨0, 0⟩)
        [lopsided, repaired]).engine ≠ .ok (true, []) := by
  refine ⟨⟨_, rfl⟩, ?_, ?_⟩
  · decide +kernel
  · decide +kernel

/-! ## Optimistic locking -/

/-- However the tasks on an account interleave, its value has the deltas of the swaps that succeeded
and its version counts them. A task that has returned is in them once and one that has given up is
not, and no body has been started more often than its retries allow. -/
theorem occ_loses_no_update {ι : Type} [DecidableEq ι] (S : OCCBalanceStore) (userId : String)
    (initialCents : ℤ) (task : ι → OccTask) (schedule : List ι) :
    let account := (S.getOrCreate userId initialCents).1
    let s := run (OccState.step userId task) (.start (S.getOrCreate userId initialCents).2) schedule
    (∃ e, s.store.entities.get? userId = some e ∧
      e.value = account.value + (s.swapped.map fun i => (task i).deltaCents).sum ∧
      e.version = account.version + s.swapped.length) ∧
    ∀ i, (∀ newVersion, s.phase i = .returned newVersion → s.swapped.count i = 1) ∧
      (∀ error, s.phase i = .raised error → s.swapped.count i = 0) ∧
      s.runs i ≤ (task i).maxRetries + 1 := by
  intro account s
  obtain ⟨e, h⟩ := (SwapsAdded.start task (getOrCreate_stored S userId initialCents)).run schedule
  refine ⟨⟨e, h.stored, h.value, h.version⟩, fun i => ⟨fun newVersion hi => ?_, fun error hi => ?_, ?_⟩⟩
  · rw [h.counted, hi]
    rfl
  · rw [h.counted, hi]
    rfl
  · exact (h.fits i).runs_le

/-- Of two tasks that read the same version the second is refused, and succeeds when it is retried. -/
example :
    let task : ℕ → OccTask := fun _ => ⟨100, 1, .compareAndSwap⟩
    let s := run (OccState.step "alice" task) (.start (OCCBalanceStore.init.getOrCreate "alice" 0).2)
      [0, 1, 0, 1, 1, 1, 1]
    s.swapped = [0, 1] ∧ s.phase 1 = .returned 2 ∧ s.runs 1 = 2 := by
  decide +kernel

/-- A task gives up only after more other tasks than it may retry have returned. -/
theorem occ_gives_up_outrun {ι : Type} [DecidableEq ι] (S : OCCBalanceStore) (userId : String)
    (initialCents : ℤ) (task : ι → OccTask) (schedule : List ι) :
    let s := run (OccState.step userId task) (.start (S.getOrCreate userId initialCents).2) schedule
    ∀ i error, s.phase i = .raised error →
      ∃ winners : List ι, winners.Nodup ∧ (task i).maxRetries + 1 ≤ winners.length ∧
        ∀ j ∈ winners, j ≠ i ∧ ∃ newVersion, s.phase j = .returned newVersion := by
  intro s i error hi
  obtain ⟨e, h⟩ := (Racing.start task (getOrCreate_stored S userId initialCents)).run schedule
  obtain ⟨hle, hnot⟩ := h.outrun_of_raised hi
  refine ⟨s.swapped, h.swapped_nodup, hle, fun j hj => ⟨?_, h.mem_swapped_iff.mp hj⟩⟩
  rintro rfl
  exact hnot hj

/-- Tasks that may all retry once for every other task never give up. When each has been scheduled for
all its attempts, each has returned, and the account has the deltas of them all. -/
theorem occ_enough_retries {ι : Type} [DecidableEq ι] [Fintype ι] (S : OCCBalanceStore) (userId : String)
    (initialCents : ℤ) (task : ι → OccTask) (hretries : ∀ i, Fintype.card ι ≤ (task i).maxRetries + 1)
    (schedule : List ι) :
    let account := (S.getOrCreate userId initialCents).1
    let s := run (OccState.step userId task) (.start (S.getOrCreate userId initialCents).2) schedule
    (∀ i error, s.phase i ≠ .raised error) ∧
    ((∀ i, 5 * (task i).maxRetries + 4 ≤ schedule.count i) →
      (∀ i, ∃ newVersion, s.phase i = .returned newVersion) ∧
      ∃ e, s.store.entities.get? userId = some e ∧
        e.value = account.value + ∑ i, (task i).deltaCents ∧
        e.version = account.version + Fintype.card ι) := by
  intro account s
  have hstart : Racing userId task account account (.start (S.getOrCreate userId initialCents).2) :=
    .start task (getOrCreate_stored S userId initialCents)
  obtain ⟨e, h⟩ := hstart.run schedule
  refine ⟨fun i error => h.not_raised (hretries i) error, fun hcount => ?_⟩
  have hall : ∀ i, ∃ newVersion, s.phase i = .returned newVersion := by
    intro i
    have hended : (s.phase i).Ended := hstart.run_ended (hcount i)
    cases hi : s.phase i with
    | returned newVersion => exact ⟨newVersion, rfl⟩
    | raised error => exact absurd hi (h.not_raised (hretries i) error)
    | ready _ | snapshot _ _ _ | located _ _ | reread _ _ _ | backoff _ =>
        rw [hi] at hended
        cases hended
  exact ⟨hall, e, h.stored, h.sum_of_returned hall⟩

def deposits : Fin 2 → OccTask := fun _ => ⟨100, 1, .compareAndSwap⟩

theorem occ_enough_retries_deposits :
    ∃ e, (run (OccState.step "alice" deposits) (.start (OCCBalanceStore.init.getOrCreate "alice" 0).2)
      (List.replicate 9 [0, 1]).flatten).store.entities.get? "alice" = some e ∧ e.version = 2 := by
  obtain ⟨-, h⟩ := occ_enough_retries .init "alice" 0 deposits (fun _ => Nat.le_refl _)
    (List.replicate 9 [0, 1]).flatten
  obtain ⟨-, e, hstored, -, hversion⟩ := h (by decide)
  exact ⟨e, hstored, hversion⟩

end ExpenseSettlement

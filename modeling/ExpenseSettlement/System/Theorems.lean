import ExpenseSettlement.System.Lemmas.AuditedBooks
import ExpenseSettlement.System.Lemmas.Books
import ExpenseSettlement.System.Lemmas.Members
import ExpenseSettlement.System.Lemmas.PhantomDebt
import ExpenseSettlement.System.Lemmas.Reduction
import ExpenseSettlement.System.Lemmas.Roster
import ExpenseSettlement.System.Lemmas.Settling
import ExpenseSettlement.System.Lemmas.Store
import ExpenseSettlement.System.Lemmas.Wallets

/-!
# Runs of the process

The invariant of the store, splits that add up, and the balances that the plans are made of. Then which
valid expenses are rejected and which rejections leave something behind, where repeated settlement
requests overpay, where repeated idempotency keys reach the books, where a negative share of the payer's
makes the others owe more than was paid, where an expense names somebody outside its group, where the
audited books lack the settlements, and where the reported reduction is none.
-/

namespace ExpenseSettlement

open Lib LedgerEngine DebtSimplifier

/-! ## The store -/

/-- The invariant of the store holds after every sequence of operations. -/
theorem store_invariant (R : Runtime) (ops : List Operation) : StoreInvariant (World.run R ops).store :=
  .of_parts (WellFormed.run ops) (Registered.run ops) (KeysFiled.run ops)

/-- In every run the splits of every stored expense add up to its total. An expense that is stored has
the group, the payer, the total and the mode of its request, and an equal split gives the members of the
group at that time their even shares. -/
theorem splits_add_up (R : Runtime) (ops : List Operation) :
    (∀ e ∈ (World.run R ops).store.expenses.values, sumAmounts e.splits = e.totalCents) ∧
    AtEach (World.step R) .init ops (fun w op => ∀ req, op = .createExpense req →
      ∀ e w', createExpense R req w = (.ok e, w') → w.store.existing req.idempotencyKey = none →
        w'.store.expenses.get? e.id = some e ∧ e.groupId = req.groupId ∧ e.payerId = req.payerId ∧
        e.totalCents = req.totalCents ∧ e.splitType = req.splitType ∧
        (e.splitType = "EQUAL" → ∃ group, w.store.groups.get? e.groupId = some group ∧
          SharedEvenly group.memberIds e.splits)) := by
  refine ⟨SplitsAddUp.run ops, ?_⟩
  rintro pre op post - req - e w' he hx
  obtain ⟨splits, ha, rfl, rfl⟩ := createExpense_ok he
  refine ⟨?_, newExpense_groupId hx, newExpense_payerId hx, newExpense_totalCents hx,
    newExpense_splitType hx, ?_⟩
  · rw [accept_expenses]
    exact Dict.get?_set_self _ _ _
  · rw [newExpense_splitType hx, newExpense_groupId hx]
    exact newExpense_sharedEvenly (Registered.run pre) ha hx

/-- In every run a group lists all of its members, each once, and whatever comes later they keep their
places, with new members behind them. -/
theorem members_keep_places (R : Runtime) (groupId : String) (ops ops' : List Operation) :
    let w := World.run R ops
    let w' := World.run R (ops ++ ops')
    GroupService.getMembers groupId w <+: GroupService.getMembers groupId w' ∧
    ((GroupService.getMembers groupId w').map (·.id)).Nodup ∧
    ∀ group, w'.store.groups.get? groupId = some group →
      (GroupService.getMembers groupId w').map (·.id) = group.memberIds ∧
      (GroupService.getMembers groupId w').length = group.version := by
  intro w w'
  have hlisted : ∀ group, w'.store.groups.get? groupId = some group →
      (GroupService.getMembers groupId w').map (·.id) = group.memberIds := fun group hg =>
    getMembers_ids (UsersFiled.run (R := R) _) (Registered.run _) hg
  refine ⟨?_, ?_, ?_⟩
  · have hgrows : RosterGrows w.store w'.store := by
      have := run_rosterGrows (UsersFiled.run (R := R) ops) (WellFormed.run ops) ops'
      rwa [World.run, ← run_append] at this
    exact hgrows.getMembers (Registered.run ops) groupId
  · cases hg : w'.store.groups.get? groupId with
    | none => simp only [GroupService.getMembers, hg, List.map_nil, List.nodup_nil]
    | some group =>
        rw [hlisted group hg]
        exact ((Registered.run _).groups groupId group hg).nodup
  · intro group hg
    have hids := hlisted group hg
    refine ⟨hids, ?_⟩
    rw [← ((Registered.run _).groups groupId group hg).version, ← hids, List.length_map]

/-! ## Net balances -/

/-- The balances are the signed debts and conserve money in whichever order the transactions come, so
that `simplify` never finds them out of balance, neither for the service nor for the worker. It returns
to both as long as the checksum of the plan can be taken. -/
theorem net_balances_signed_debts :
    (∀ txs : List Transaction,
      (∀ u, (computeNetBalances txs).getD u 0 = owedTo u txs - owedBy u txs) ∧
      (computeNetBalances txs).values.sum = 0 ∧
      ∀ txs', Reordered txs txs' →
        ∀ u, (computeNetBalances txs).get? u = (computeNetBalances txs').get? u) ∧
    ∀ (R : Runtime) (groupId : String) (w : World),
      let net := getGroupNetBalances groupId w
      let count := (w.store.getExpensesForGroup groupId).length
      (∀ message, getSimplifiedDebts R groupId w ≠ .error (.zeroSumViolationError message)) ∧
      (∀ message, simplify R net count ≠ .error (.zeroSumViolationError message)) ∧
      ((∃ result, getSimplifiedDebts R groupId w = .ok result) ↔ Checksummable R net) ∧
      ((∃ result, simplify R net count = .ok result) ↔ Checksummable R net) := by
  refine ⟨fun txs => ⟨fun u => ?_, sum_values_computeNetBalances txs, ?_⟩, fun R groupId w => ?_⟩
  · rw [getD_computeNetBalances, sum_netOf]
  · intro txs' h u
    exact computeNetBalances_reordered h u
  · intro net count
    have hz : net.values.sum = 0 := sum_values_computeNetBalances _
    exact ⟨simplify_ne_zeroSumViolation hz _, simplify_ne_zeroSumViolation hz _,
      simplify_returns_iff hz _, simplify_returns_iff hz _⟩

/-! ## Accepted and rejected requests -/

/-- In every reachable state a valid request is accepted if and only if nobody but its payer is left with
nothing and no number in it is out of range. -/
theorem valid_expense_accepted_iff (R : Runtime) (ops : List Operation) (group : GroupRecord)
    (req : CreateExpense) (h : ValidExpense (World.run R ops).store group req) :
    (∃ e, (createExpense R req (World.run R ops)).1 = .ok e) ↔
      NobodyLeftOut group.memberIds req ∧ WithinRange group.memberIds req := by
  obtain ⟨hnodup, husers, -⟩ := (Registered.run ops).groups req.groupId group h.found
  refine h.accepted_iff (WellFormed.run ops).service_heads.encoded (fun u hu => ?_) hnodup
  obtain ⟨n, -, -, rfl⟩ := (UsersFiled.run ops).issued u (husers u hu)
  exact R.encodes_uuid4 n

def seqId (n : Nat) : String := Runtime.sequential.uuid4 n

def trip : List Operation :=
  [.createUser "Alice" "alice@example.com", .createUser "Bob" "bob@example.com", .createGroup "Trip",
    .addMember (seqId 2) (seqId 0), .addMember (seqId 2) (seqId 1)]

def taxi : CreateExpense := ⟨seqId 2, seqId 0, "Taxi", 100, "EQUAL", none, some "taxi-1"⟩

def tripGroup : GroupRecord := ⟨seqId 2, "Trip", 2, [seqId 0, seqId 1]⟩

theorem valid_taxi : ValidExpense (World.run Runtime.sequential trip).store tripGroup taxi where
  found := by decide +kernel
  payer := List.mem_cons_self
  total := by decide
  split := rfl

theorem valid_expense_accepted_iff_taxi :
    ∃ e, (createExpense Runtime.sequential taxi (World.run Runtime.sequential trip)).1 = .ok e := by
  refine (valid_expense_accepted_iff Runtime.sequential trip tripGroup taxi valid_taxi).mpr ⟨?_, ?_⟩
  · intro i u hi _
    obtain ⟨hlt, -⟩ := List.getElem?_eq_some_iff.mp hi
    have htwo : tripGroup.memberIds.length = 2 := rfl
    have htotal : taxi.totalCents = 100 := rfl
    omega
  · intro i hi
    obtain ⟨hlt, -⟩ := List.getElem?_eq_some_iff.mp hi
    have hcases : ∀ i : Nat, i < 2 → (100 : ℤ) -
        (100 / 2 + if (i : ℤ) < 100 % 2 then 1 else 0) < 10 ^ maxStrDigits := by
      decide +kernel
    exact hcases i hlt

/-- A cent shared equally is valid, and the second member's share of zero is rejected. -/
theorem valid_cent_rejected :
    ValidExpense (World.run Runtime.sequential trip).store tripGroup { taxi with totalCents := 1 } ∧
      ¬ ∃ e, (createExpense Runtime.sequential { taxi with totalCents := 1 }
        (World.run Runtime.sequential trip)).1 = .ok e := by
  refine ⟨⟨by decide +kernel, List.mem_cons_self, by decide, rfl⟩, ?_⟩
  rintro ⟨e, he⟩
  have hraised : (createExpense Runtime.sequential { taxi with totalCents := 1 }
      (World.run Runtime.sequential trip)).1.toOption = none := by decide +kernel
  rw [he] at hraised
  cases hraised

/-- In every reachable state a request that raises leaves the store, the outbox and what is posted as they
were. It leaves the heads of the ledger as well, if and only if the posting does not break off between
two entries. -/
theorem create_expense_atomic_iff (R : Runtime) (ops : List Operation) (req : CreateExpense) :
    let w := World.run R ops
    (∀ e w', createExpense R req w = (.error e, w') →
      w'.store = w.store ∧ w'.outbox = w.outbox ∧ w'.serviceLedger.entries = w.serviceLedger.entries ∧
      w'.serviceLedger.journals = w.serviceLedger.journals ∧ w'.workerLedger = w.workerLedger ∧
      w'.cache = w.cache) ∧
    ((∀ e w', createExpense R req w = (.error e, w') →
        w'.store = w.store ∧ w'.serviceLedger = w.serviceLedger ∧ w'.outbox = w.outbox) ↔
      ∀ splits, validate R req w.store = .ok splits → (req.call splits).Guarded R) := by
  intro w
  refine ⟨fun e w' he => ?_, ?_⟩
  · rw [(createExpense_error he).eq]
    exact ⟨rfl, rfl, rfl, rfl, rfl, rfl⟩
  · rw [← createExpense_unchanged_iff (WellFormed.run ops).service_heads]
    constructor
    · exact fun h e w' he => (h e w' he).2.1
    · intro h e w' he
      have heq := (createExpense_error he).eq
      exact ⟨by rw [heq], h e w' he, by rw [heq]⟩

/-- An amount of 4300 digits. -/
def fortune : ℤ := 9 * 10 ^ (maxStrDigits - 1)

/-- bob owes it twice, which alice's two splits cancel but for 10.00. -/
def overdraft : CreateExpense :=
  ⟨seqId 2, seqId 0, "Dinner", 1000, "EXACT",
    some [⟨seqId 1, some fortune, none⟩, ⟨seqId 1, some fortune, none⟩,
      ⟨seqId 0, some (500 - fortune), none⟩, ⟨seqId 0, some (500 - fortune), none⟩], none⟩

/-- The sum of bob's debts has no text, so the entry that closes the clearing account cannot be hashed.
bob's wallet has a head by then. -/
theorem rejected_expense_leaves_heads :
    ¬ ∀ e w', createExpense Runtime.sequential overdraft (World.run Runtime.sequential trip) = (.error e, w') →
      w'.store = (World.run Runtime.sequential trip).store ∧
      w'.serviceLedger = (World.run Runtime.sequential trip).serviceLedger ∧
      w'.outbox = (World.run Runtime.sequential trip).outbox := by
  intro h
  have hraised : (createExpense Runtime.sequential overdraft (World.run Runtime.sequential trip)).1.toBool =
      false := by
    decide +kernel
  have hheads : (createExpense Runtime.sequential overdraft
      (World.run Runtime.sequential trip)).2.serviceLedger.accountHeads.keys.length = 2 := by
    decide +kernel
  rcases hc : createExpense Runtime.sequential overdraft (World.run Runtime.sequential trip) with ⟨e | e, w'⟩
  · rw [hc, (h e w' hc).2.1] at hheads
    cases hheads
  · rw [hc] at hraised
    cases hraised

/-! ## Settlement requests -/

/-- In every run the payments of a group make up for its balances after every settlement request,
if and only if every request that can take a checksum finds no payments saved for the group. -/
theorem settlement_never_overpays_iff (R : Runtime) (groupId : String) (ops : List Operation) :
    AtEach (World.step R) .init ops (fun w op => op = .settlementRequested groupId →
      (handleSettlement R groupId w).1 = .ok () → SettledUp groupId (w.step R op)) ↔
    AtEach (World.step R) .init ops (fun w op => op = .settlementRequested groupId →
      Checksummable R (getGroupNetBalances groupId w) → w.store.getSettlementsForGroup groupId = []) := by
  refine atEach_iff_atEach (fun w => WellFormed R w ∧ FirstPlan groupId w) ?_
    ⟨.init, Or.inl rfl⟩ ?_
  · rintro w op ⟨hw, hf⟩ hgood
    refine ⟨hw.step op, ?_⟩
    rcases World.step_cases hw.worker_heads op with hq | ⟨req, splits, ha⟩ | ⟨groupId', result, acc, hs⟩
    · rw [FirstPlan, payments_congr hq.quiet.settlements]
      exact hf
    · rw [FirstPlan, ha.step, payments_congr accept_settlements]
      exact hf
    · rw [hs.step]
      by_cases hg : groupId' = groupId
      · subst hg
        have hz : (getGroupNetBalances groupId' w).values.sum = 0 := sum_values_computeNetBalances _
        -- the plan covers the whole balance, and nothing had been saved before it
        apply FirstPlan.of_plan hz
        rw [payments_settled hw hs.planned.records,
          payments_eq_nil.mpr (hgood hs.op_eq hs.planned.checksummable), List.nil_append]
      · rw [FirstPlan, payments_settled_of_ne hw hs.planned.records hg]
        exact hf
  · rintro w op ⟨hw, hf⟩
    rcases World.step_cases hw.worker_heads op with hq | ⟨req, splits, ha⟩ | ⟨groupId', result, acc, hs⟩
    · refine forall_congr' fun hop => ?_
      rcases hq.nothing groupId hop with ⟨hn, he⟩ | ⟨hu, e, he⟩
      · obtain ⟨hx, hp⟩ := hw.payments_of_no_expenses hn
        have hstep : w.step R op = w := by rw [hop, World.step, he]
        rw [hstep]
        exact ⟨fun _ _ => payments_eq_nil.mp hp, fun _ _ => settledUp_of_no_expenses hx hp⟩
      · rw [he]
        exact iff_of_true (fun h => by cases h) fun hc => absurd hc hu.unsummed
    · rw [ha.op_eq]
      constructor
      · intro _ hop
        cases hop
      · intro _ hop
        cases hop
    · refine forall_congr' fun hop => ?_
      have hg : groupId' = groupId := by
        have := hs.op_eq.symm.trans hop
        cases this
        rfl
      subst hg
      rw [hs.step, settledUp_settled_iff hw hs.planned.records, hf.cancel_iff, payments_eq_nil, hs.handled]
      exact ⟨fun h _ => h rfl, fun h _ => h hs.planned.checksummable⟩

/-- bob owes 50 and the second delivery of the request has him pay 50 once more. -/
theorem settlement_redelivered_overpays :
    ¬ AtEach (World.step Runtime.sequential) .init
      (trip ++ [.createExpense taxi, .settlementRequested (seqId 2), .settlementRequested (seqId 2)])
      (fun w op => op = .settlementRequested (seqId 2) →
        (handleSettlement Runtime.sequential (seqId 2) w).1 = .ok () →
        SettledUp (seqId 2) (w.step Runtime.sequential op)) := by
  intro h
  have hsettled := h (trip ++ [.createExpense taxi, .settlementRequested (seqId 2)])
    (.settlementRequested (seqId 2)) [] rfl rfl (by decide +kernel) (seqId 1)
  exact absurd hsettled (by decide +kernel)

/-! ## Idempotency keys -/

/-- In every run journals and events correspond to the stored expenses after every operation, if and
only if no accepted request carries a key under which an expense is already stored. -/
theorem books_match_iff (R : Runtime) (ops : List Operation) :
    AtEach (World.step R) .init ops (fun w op => BooksMatch (w.step R op)) ↔
    AtEach (World.step R) .init ops (fun w op => ∀ req, op = .createExpense req →
      Accepted R req w → w.store.existing req.idempotencyKey = none) := by
  apply atEach_step_iff_atEach (WellFormed R) BooksMatch
  · exact fun _ op hw => hw.step op
  · exact .init
  · exact .init
  · intro w op hw hb
    rcases World.step_cases hw.worker_heads op with hq | ⟨req, splits, ha⟩ | ⟨groupId, result, acc, hs⟩
    · exact ⟨fun _ req hop hacc => absurd hacc (hq.rejected req hop),
        fun _ => (BooksMatch.of_quiet hq.quiet).mpr hb⟩
    · rw [ha.step]
      constructor
      · intro hb' req' hop _
        obtain ⟨rfl⟩ := ha.op_eq.symm.trans hop
        -- under a used key the old expense takes the new journal's id, so its own journal is orphaned
        cases he : w.store.existing req.idempotencyKey with
        | none => rfl
        | some e => exact absurd hb' (hb.not_accept hw he)
      · intro hgood
        exact hb.accept hw (hgood req ha.op_eq ha.accepted)
    · rw [hs.step, hs.op_eq]
      exact ⟨fun _ _ => nofun, fun _ => BooksMatch.of_settled.mpr hb⟩

/-- The request is sent again under its key, and a second journal is posted for the one expense. -/
theorem repeated_key_posts_twice :
    ¬ AtEach (World.step Runtime.sequential) .init
      (trip ++ [.createExpense taxi, .createExpense taxi])
      (fun w op => BooksMatch (w.step Runtime.sequential op)) := by
  intro h
  have hb := h (trip ++ [.createExpense taxi]) (.createExpense taxi) [] rfl
  exact absurd hb.length_eq (by decide +kernel)

/-- In every run the wallets of the service's ledger hold what the balances of all groups add up to
after every operation, if and only if no accepted request under a used key gives anybody but its
payer a share. -/
theorem wallets_match_balances_iff (R : Runtime) (ops : List Operation) :
    AtEach (World.step R) .init ops (fun w op => WalletsMatch (w.step R op)) ↔
    AtEach (World.step R) .init ops (fun w op => ∀ req, op = .createExpense req →
      Accepted R req w → w.store.existing req.idempotencyKey ≠ none → PayerAlone R req w.store) := by
  apply atEach_step_iff_atEach (WellFormed R) WalletsMatch
  · exact fun _ op hw => hw.step op
  · exact .init
  · exact .init
  · intro w op hw hm
    rcases World.step_cases hw.worker_heads op with hq | ⟨req, splits, ha⟩ | ⟨groupId, result, acc, hs⟩
    · refine iff_of_true ?_ fun req hop hacc => absurd hacc (hq.rejected req hop)
      exact (walletsMatch_congr hw (hw.step op) hq.quiet.expenses hq.quiet.entries).mpr hm
    · rw [ha.step, hw.walletsMatch_accept_iff hm ha.accepts]
      constructor
      · intro h req' hop _
        obtain ⟨rfl⟩ := ha.op_eq.symm.trans hop
        exact h
      · intro hgood
        exact hgood req ha.op_eq ha.accepted
    · refine iff_of_true ?_ fun req hop => ?_
      · exact (walletsMatch_congr hw (hw.step op) (by rw [hs.step]; rfl) (by rw [hs.step]; rfl)).mpr hm
      · cases hs.op_eq.symm.trans hop

/-! ## Shares -/

/-- The expense that an accepted request answers with has no phantom debt, and the journal posted for the
request credits its payer with at most what was paid. -/
def NoPhantomDebt (R : Runtime) (req : CreateExpense) (w : World) : Prop :=
  ∀ e w', createExpense R req w = (.ok e, w') → NoPhantom e ∧
    ∀ id j, e.journalId = some id → w'.serviceLedger.journals.get? id = some j →
      creditedTo (userWallet req.payerId) j ≤ req.totalCents

/-- In every run no accepted request leads to phantom debt, if and only if none that is stored gives its
payer a negative share, and none under a used key gives its payer less than nothing in all. -/
theorem no_phantom_debt_iff (R : Runtime) (ops : List Operation) :
    AtEach (World.step R) .init ops (fun w op => ∀ req, op = .createExpense req →
      NoPhantomDebt R req w) ↔
    AtEach (World.step R) .init ops (fun w op => ∀ req, op = .createExpense req → Accepted R req w →
      (w.store.existing req.idempotencyKey = none → PayerShareOk req) ∧
      (w.store.existing req.idempotencyKey ≠ none → PayerTotalOk req)) := by
  refine atEach_iff_atEach (fun w => WellFormed R w ∧
    ∀ e ∈ w.store.expenses.values, NoPhantom e) ?_ ⟨.init, fun _ h => by cases h⟩ ?_
  · rintro w op ⟨hw, hn⟩ hgood
    refine ⟨hw.step op, ?_⟩
    rcases World.step_cases hw.worker_heads op with hq | ⟨req, splits, ha⟩ | ⟨groupId, result, acc, hs⟩
    · rw [hq.quiet.expenses]
      exact hn
    · rw [ha.step]
      exact noPhantom_accept hw hn ha.accepts (hgood req ha.op_eq ha.accepted).1
    · rw [hs.step]
      exact hn
  · rintro w op ⟨hw, hn⟩
    rcases World.step_cases hw.worker_heads op with hq | ⟨req, splits, ha⟩ | ⟨groupId, result, acc, hs⟩
    · constructor
      · intro _ req hop hacc
        exact absurd hacc (hq.rejected req hop)
      · intro _ req hop e w' he
        exact absurd ⟨e, by rw [he]⟩ (hq.rejected req hop)
    · have hnew : w.newExpense R req splits ∈ (w.accept R req splits).store.expenses.values := by
        rw [accept_expenses]
        exact Dict.mem_values.mpr ⟨_, Dict.get?_set_self _ _ _⟩
      constructor
      · intro hright req' hop _
        obtain ⟨rfl⟩ := ha.op_eq.symm.trans hop
        obtain ⟨hphantom, hjournal⟩ := hright req hop _ _ ha.result
        refine ⟨fun hf => (noPhantom_newExpense_iff ha.accepts hf).mp hphantom, fun _ => ?_⟩
        rw [← othersTotal_le_iff ha.accepts, ← creditedTo_newJournal ha.accepts]
        refine hjournal _ _ rfl ?_
        rw [accept_journals, newJournal_id, Dict.get?_set_self]
      · intro hgood req' hop e w' he
        obtain ⟨rfl⟩ := ha.op_eq.symm.trans hop
        rw [ha.result] at he
        cases he
        obtain ⟨hfresh, hused⟩ := hgood req hop ha.accepted
        refine ⟨noPhantom_accept hw hn ha.accepts hfresh _ hnew, fun id j hid hj => ?_⟩
        rw [accept_journal hid hj, creditedTo_newJournal ha.accepts]
        by_cases hf : w.store.existing req.idempotencyKey = none
        · exact othersTotal_le ha.accepts (hfresh hf)
        · exact (othersTotal_le_iff ha.accepts).mpr (hused hf)
    · rw [hs.op_eq]
      exact ⟨fun _ _ => nofun, fun _ _ => nofun⟩

/-- alice pays 10.00 and takes a share of minus 10.00, so that bob owes 20.00. -/
theorem negative_share_is_phantom_debt :
    ¬ AtEach (World.step Runtime.sequential) .init
      (trip ++ [.createExpense ⟨seqId 2, seqId 0, "Dinner", 1000, "EXACT",
        some [⟨seqId 0, some (-1000), none⟩, ⟨seqId 1, some 2000, none⟩], none⟩])
      (fun w op => ∀ req, op = .createExpense req → NoPhantomDebt Runtime.sequential req w) := by
  intro h
  have hn := (h trip _ [] rfl _ rfl _ _ rfl).1
  exact absurd (hn.1 ⟨seqId 0, -1000⟩ (by decide +kernel)) (by decide)

/-! ## Participants -/

/-- In every run all stored expenses name members of their groups only, if and only if every accepted
request that is stored and has exact or percentage splits lists members of its group only. -/
theorem expenses_name_members_iff (R : Runtime) (ops : List Operation) :
    AtEach (World.step R) .init ops (fun w op => ∀ e ∈ (w.step R op).store.expenses.values,
      NamesMembers (w.step R op).store e) ↔
    AtEach (World.step R) .init ops (fun w op => ∀ req, op = .createExpense req →
      Accepted R req w → w.store.existing req.idempotencyKey = none → ListsMembers w.store req) := by
  apply atEach_step_iff_atEach (WellFormed R)
    fun w => ∀ e ∈ w.store.expenses.values, NamesMembers w.store e
  · exact fun _ op hw => hw.step op
  · exact .init
  · exact fun _ h => by cases h
  · intro w op hw hn
    rcases World.step_cases hw.worker_heads op with hq | ⟨req, splits, ha⟩ | ⟨groupId, result, acc, hs⟩
    · constructor
      · intro _ req hop hacc
        exact absurd hacc (hq.rejected req hop)
      · intro _
        rw [hq.quiet.expenses]
        exact fun e he => (hn e he).mono (hw.step_grows op)
    · rw [ha.step, namesMembers_accept_iff hw hn ha.accepts]
      constructor
      · intro h req' hop _
        obtain ⟨rfl⟩ := ha.op_eq.symm.trans hop
        exact h
      · intro hgood
        exact hgood req ha.op_eq ha.accepted
    · rw [hs.step, hs.op_eq]
      exact ⟨fun _ _ => nofun, fun _ => hn⟩

/-- alice's exact split names a user who never joined the trip. -/
theorem stranger_gets_share :
    ¬ AtEach (World.step Runtime.sequential) .init
      (trip ++ [.createExpense ⟨seqId 2, seqId 0, "Dinner", 1000, "EXACT",
        some [⟨seqId 0, some 400, none⟩, ⟨"carol", some 600, none⟩], none⟩])
      (fun w op => ∀ e ∈ (w.step Runtime.sequential op).store.expenses.values,
        NamesMembers (w.step Runtime.sequential op).store e) := by
  intro h
  have hall := h trip _ [] rfl
  obtain ⟨group, hg, hsub⟩ := hall _ List.mem_cons_self
  have hm : group.memberIds = [seqId 0, seqId 1] := by
    cases hg
    rfl
  rw [hm] at hsub
  exact absurd (hsub (List.mem_cons_of_mem _ (List.mem_cons_of_mem _ List.mem_cons_self))) (by decide)

/-! ## The audited ledger -/

/-- In every run the audited ledger has a journal for every executed settlement after every step, if
and only if every settlement request that can take a checksum finds its group with nothing to settle. -/
theorem settlements_audited_iff (R : Runtime) (ops : List Operation) :
    AtEach (World.step R) .init ops (fun w op => SettlementsAudited (w.step R op)) ↔
    AtEach (World.step R) .init ops (fun w op => ∀ groupId, op = .settlementRequested groupId →
      Checksummable R (getGroupNetBalances groupId w) →
        ∀ u, (getGroupNetBalances groupId w).getD u 0 = 0) := by
  refine atEach_iff_atEach (fun w => WellFormed R w ∧ NoSettlementJournal w.serviceLedger ∧
    w.store.settlements.values = []) ?_
    ⟨.init, NoSettlementJournal.run (R := R) [], rfl⟩ ?_
  · rintro w op ⟨hw, hj, hn⟩ hgood
    refine ⟨hw.step op, hj.step hw op, ?_⟩
    rcases World.step_cases hw.worker_heads op with hq | ⟨req, splits, ha⟩ | ⟨groupId, result, acc, hs⟩
    · rw [hq.quiet.settlements]
      exact hn
    · rw [ha.step, accept_settlements]
      exact hn
    · exact (hs.values_eq_nil_iff hw hn).mpr (hgood groupId hs.op_eq hs.planned.checksummable)
  · rintro w op ⟨hw, hj, hn⟩
    rcases World.step_cases hw.worker_heads op with hq | ⟨req, splits, ha⟩ | ⟨groupId, result, acc, hs⟩
    · constructor
      · intro _ groupId hop hc u
        rcases hq.nothing groupId hop with ⟨hnone, -⟩ | ⟨hu, -⟩
        · rw [getGroupNetBalances, (hw.payments_of_no_expenses hnone).1]
          rfl
        · exact absurd hc hu.unsummed
      · intro _
        apply settlementsAudited_of_nil
        rw [hq.quiet.settlements]
        exact hn
    · constructor
      · intro _ groupId hop
        cases ha.op_eq.symm.trans hop
      · intro _
        apply settlementsAudited_of_nil
        rw [ha.step, accept_settlements]
        exact hn
    · have hexecuted := hs.executed hw (by simp [hn])
      rw [settlementsAudited_iff_nil (hj.step hw op) hexecuted, hs.values_eq_nil_iff hw hn]
      constructor
      · intro h groupId' hop _
        obtain ⟨rfl⟩ := hs.op_eq.symm.trans hop
        exact h
      · intro hgood
        exact hgood groupId hs.op_eq hs.planned.checksummable

/-- bob's executed payment of 50 to alice is in no journal of the audited ledger. -/
theorem settlement_not_audited :
    ¬ AtEach (World.step Runtime.sequential) .init
      (trip ++ [.createExpense taxi, .settlementRequested (seqId 2)])
      (fun w op => SettlementsAudited (w.step Runtime.sequential op)) := by
  intro h
  have haudited := h (trip ++ [.createExpense taxi]) (.settlementRequested (seqId 2)) [] rfl
  have hnil := (settlementsAudited_iff_nil
    ((NoSettlementJournal.run (trip ++ [.createExpense taxi])).step (WellFormed.run _) _)
    (by decide +kernel)).mp haudited
  exact absurd hnil (by decide +kernel)

/-! ## The reported reduction -/

/-- For a group with expenses the service and the worker report nothing if the checksum cannot be taken.
Otherwise what each reports is a reduction where at most one user more has a balance than it counts
transactions, and only where the users with a balance are at most as many more as the zero-sum groups
they fall into. Expenses that hang together leave few enough of them for the service. -/
theorem reported_reduction_of_few (R : Runtime) (ops : List Operation) (groupId : String)
    (h : (World.run R ops).store.getExpensesForGroup groupId ≠ []) :
    let w := World.run R ops
    let expenses := w.store.getExpensesForGroup groupId
    let net := getGroupNetBalances groupId w
    (¬ Checksummable R net → (∃ e, getSimplifiedDebts R groupId w = .error e) ∧
      ∃ e, handleSettlement R groupId w = (.error e, w)) ∧
    (Checksummable R net →
      (∃ result, getSimplifiedDebts R groupId w = .ok result ∧
        ReducesFor net (debtEdges expenses) result.settlements.length result.reductionRatio) ∧
      (handleSettlement R groupId w).1 = .ok () ∧
      ∃ e settlementCount ratio,
        (handleSettlement R groupId w).2.outbox.events = w.outbox.events ++ [e] ∧
        e.eventType = EventType.settlementCompleted.value ∧
        e.payload.reduction = some (settlementCount, ratio) ∧
        ReducesFor net expenses.length settlementCount ratio) ∧
    (HangTogether expenses → ((uneven net).length : ℤ) ≤ debtEdges expenses + 1) := by
  intro w expenses net
  have hz : net.values.sum = 0 := sum_values_computeNetBalances _
  have hw : WellFormed R w := WellFormed.run ops
  have hg : groupId ≠ "" := by
    rintro rfl
    exact h hw.getExpensesForGroup_empty
  refine ⟨fun hnot => ?_, fun hsum => ⟨?_, ?_⟩, fun hlinked => hlinked.few⟩
  · obtain ⟨e, he⟩ := Unsummed.raises ⟨hg, h, hnot⟩ none nofun
    refine ⟨?_, _, he⟩
    cases hd : getSimplifiedDebts R groupId w with
    | error e => exact ⟨e, rfl⟩
    | ok result => exact absurd ((simplify_returns_iff hz _).mp ⟨result, hd⟩) hnot
  · obtain ⟨result, hr⟩ := (simplify_returns_iff hz (debtEdges expenses)).mpr hsum
    exact ⟨result, hr, getSimplifiedDebts_reducesFor h hr⟩
  · rcases handleSettlement_cases hw.worker_heads groupId with ⟨hn, -⟩ | ⟨hu, -⟩ | ⟨result, acc, hp, he⟩
    · exact absurd hn (not_or.mpr ⟨hg, h⟩)
    · exact absurd hsum hu.unsummed
    · obtain ⟨e, hevents, htype, hreport⟩ := settled_report (R := R) groupId result acc w
      rw [he]
      exact ⟨rfl, e, _, _, hevents, htype, hreport, hp.reducesFor⟩

theorem reported_reduction_of_few_taxi :
    ∃ result, getSimplifiedDebts Runtime.sequential (seqId 2)
        (World.run Runtime.sequential (trip ++ [.createExpense taxi])) = .ok result ∧
      Reduces 1 result.settlements.length result.reductionRatio := by
  obtain ⟨-, hreports, -⟩ := reported_reduction_of_few Runtime.sequential
    (trip ++ [.createExpense taxi]) (seqId 2) (by decide +kernel)
  obtain ⟨⟨result, hr, hreduces⟩, -⟩ := hreports (.of_printable (fun _ _ => rfl) (by decide +kernel))
  have hedges : debtEdges ((World.run Runtime.sequential
      (trip ++ [.createExpense taxi])).store.getExpensesForGroup (seqId 2)) = 1 := by decide +kernel
  rw [hedges] at hreduces
  exact ⟨result, hr, hreduces.of_few (by decide +kernel)⟩

def party : List Operation :=
  [.createUser "Alice" "alice@example.com", .createUser "Bob" "bob@example.com",
    .createUser "Carol" "carol@example.com", .createUser "Dave" "dave@example.com", .createGroup "Party",
    .addMember (seqId 4) (seqId 0), .addMember (seqId 4) (seqId 1), .addMember (seqId 4) (seqId 2),
    .addMember (seqId 4) (seqId 3)]

/-- alice pays for the three others and has no share herself. -/
def treat : CreateExpense :=
  ⟨seqId 4, seqId 0, "Dinner", 300, "EXACT",
    some [⟨seqId 1, some 100, none⟩, ⟨seqId 2, some 100, none⟩, ⟨seqId 3, some 100, none⟩], none⟩

/-- Three settlements are counted against two debts by the service and against one expense by the
worker. -/
theorem settlements_exceed_reported :
    (∃ e, (createExpense Runtime.sequential treat (World.run Runtime.sequential party)).1 = .ok e) ∧
    (∃ result, getSimplifiedDebts Runtime.sequential (seqId 4)
        (World.run Runtime.sequential (party ++ [.createExpense treat])) = .ok result ∧
      result.originalTransactionCount = 2 ∧ result.settlements.length = 3 ∧
      result.reductionRatio = -1 / 2) ∧
    ((handleSettlement Runtime.sequential (seqId 4)
        (World.run Runtime.sequential (party ++ [.createExpense treat]))).2.outbox.events.getLast?.bind
      (·.payload.reduction)) = some (3, -2) := by
  refine ⟨⟨_, rfl⟩, ⟨_, rfl, by decide +kernel, by decide +kernel, by decide +kernel⟩, by decide +kernel⟩

end ExpenseSettlement

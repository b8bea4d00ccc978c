import ExpenseSettlement.Api.Lemmas.Groups
import ExpenseSettlement.Api.Lemmas.Paying
import ExpenseSettlement.Api.Lemmas.Isolation
import ExpenseSettlement.System.Theorems

/-!
# Concurrent requests

Requests that repeat one `POST` under an idempotency key take effect at most once. Balances may be up
to a minute old: a new expense does not invalidate what is cached.
-/

namespace ExpenseSettlement

open Lib IdempotencyManager DebtSimplifier

def WithinTtl (t₀ t : ℚ) : Prop := t₀ ≤ t ∧ t ≤ t₀ + idempotencyTtlSeconds

instance (t₀ t : ℚ) : Decidable (WithinTtl t₀ t) := inferInstanceAs (Decidable (_ ∧ _))

/-- A step reads the clock within the time to live, and the rest of the process creates no expenses
of its own. -/
def RouteEvent.Admissible {ι : Type} (t₀ : ℚ) : RouteEvent ι → Prop
  | .request _ now now' => WithinTtl t₀ now ∧ WithinTtl t₀ now'
  | .other op => ∀ req, op ≠ .createExpense req

/-- Whatever the interleaving of any number of requests under one unused key, and whatever the rest
of the process does to users, groups and settlements in between, at most one request holds the key,
at most one expense and one journal come of it, and all successful responses are equal. -/
theorem expense_created_at_most_once {ι : Type} [DecidableEq ι] (R : Runtime) (p : PostExpense)
    (key : String) (hkey : truthy p.idemKey = some key) (ops : List Operation)
    (cache : InMemoryCache CacheValue)
    (hunused : ∀ e ∈ (World.run R ops).store.expenses.values, e.idempotencyKey ≠ some key)
    (habsent : makeKey key ∉ cache.store.keys) (t₀ : ℚ) (events : List (RouteEvent ι))
    (hevents : ∀ e ∈ events, e.Admissible t₀) :
    let w₀ := { World.run R ops with cache }
    let s := run (RouteState.step R p) (.start w₀) events
    (∀ i j, (s.phase i).Holding → (s.phase j).Holding → i = j) ∧
    (s.world.expensesFor key).length ≤ 1 ∧
    s.world.journalCount ≤ w₀.journalCount + 1 ∧
    ∀ i j r r', (s.phase i).body? = some r → (s.phase j).body? = some r' → r = r' := by
  intro w₀ s
  have hw : WellFormed R w₀ := (WellFormed.run ops).withCache cache
  have hnil : w₀.expensesFor key = [] :=
    List.filter_eq_nil_iff.mpr fun e he => by simpa using hunused e he
  have hstart : Guarded R key w₀.journalCount (t₀ + idempotencyTtlSeconds) (.free : Gate ι)
      (.start w₀) := by
    refine ⟨hw, Dict.get?_eq_none.mpr habsent, fun _ => ⟨nofun, nofun⟩, nofun, ⟨?_, rfl⟩⟩
    exact List.length_eq_zero_iff.mpr hnil
  have hstep : ∀ (s : RouteState ι) (e : RouteEvent ι),
      (∃ g, Guarded R key w₀.journalCount (t₀ + idempotencyTtlSeconds) g s) → e.Admissible t₀ →
      ∃ g, Guarded R key w₀.journalCount (t₀ + idempotencyTtlSeconds) g (s.step R p e) := by
    rintro s e ⟨g, h⟩ he
    cases e with
    | request i now now' => exact h.advance i hkey he.1.2 (add_le_add_left he.2.1 _)
    | other op => exact ⟨g, h.other he⟩
  obtain ⟨g, h⟩ : ∃ g, Guarded R key w₀.journalCount (t₀ + idempotencyTtlSeconds) g s :=
    run_invariant_of_atEach _ hstep ⟨.free, hstart⟩ fun pre e post hp => hevents e (by rw [hp]; simp)
  have hcount := Guarded.count_le_one s.phase g
  refine ⟨fun i j => h.holder_unique, ?_, ?_, fun i j r r' => h.bodies_eq⟩
  · rw [h.recorded.expenses]
    exact hcount
  · rw [h.recorded.journals]
    omega

def postTaxi : PostExpense where
  groupId := seqId 2
  body := ⟨seqId 0, "Taxi", 100, "EQUAL", none, some "taxi-1"⟩
  xIdempotencyKey := none

/-- A duplicate is refused while the first request is on its way, and a retry gets its response. -/
def retriedTaxi : List (RouteEvent ℕ) :=
  [.request 0 0 0, .request 1 1 1, .request 0 1 1, .request 1 2 2, .request 0 3 3, .request 2 4 4,
    .request 2 4 4]

theorem expense_created_at_most_once_taxi :
    let s := run (RouteState.step Runtime.sequential postTaxi)
      (.start { World.run Runtime.sequential trip with cache := .init }) retriedTaxi
    (s.phase 0).body?.isSome ∧ s.phase 1 = .done .conflict ∧ (s.phase 2).body?.isSome ∧
      ∀ r r', (s.phase 0).body? = some r → (s.phase 2).body? = some r' → r = r' := by
  have h := expense_created_at_most_once Runtime.sequential postTaxi "taxi-1" rfl trip .init
    (by decide +kernel) (by decide +kernel) 0 retriedTaxi (by
      intro e he
      simp only [retriedTaxi, List.mem_cons, List.not_mem_nil, or_false] at he
      rcases he with rfl | rfl | rfl | rfl | rfl | rfl | rfl <;> exact ⟨by decide +kernel, by decide +kernel⟩)
  exact ⟨by decide +kernel, by decide +kernel, by decide +kernel, h.2.2.2 0 2⟩

/-! ## Balances -/

/-- However the requests that create expenses, the balances requests, the worker and the rest of the
process take turns, and whatever their clocks say, the balances that are served are those of the
stored expenses exactly when no request finds an entry in the cache that later expenses contradict. -/
theorem balances_fresh_iff {ι : Type} [DecidableEq ι] (R : Runtime) (p : ι → PostExpense)
    (events : List (ServerEvent ι)) :
    AtEach (ServerState.step R p) .start events (fun s event => s.Fresh R event) ↔
      AtEach (ServerState.step R p) .start events fun s event => s.Uncontradicted event := by
  apply atEach_iff_atEach (ServerState.Coherent R)
  · exact fun s event h _ => h.step event
  · exact .start
  · exact fun s event h => h.fresh_iff event

/-- The group's balances are asked for, the taxi is put in and answered with success, and the balances
are asked for again two seconds later. -/
theorem stale_balances_served :
    ¬ AtEach (ServerState.step Runtime.sequential fun _ : ℕ => postTaxi) .start
      (trip.map .other ++ [.balances (seqId 2) 0 0 0, .post 0 1 1, .post 0 1 1, .post 0 1 1,
        .balances (seqId 2) 2 2 2])
      (fun s event => s.Fresh Runtime.sequential event) := by
  intro h
  have hfresh := h (trip.map .other ++ [.balances (seqId 2) 0 0 0, .post 0 1 1, .post 0 1 1,
    .post 0 1 1]) (.balances (seqId 2) 2 2 2) [] rfl _ _ _ _ rfl [] (by decide +kernel)
  exact absurd hfresh (by decide +kernel)

/-! ## Simplified debts -/

/-- Where balances have been computed, the payments that the simplify route lists then bring every
listed user exactly the listed amount. They go from debtors to creditors, none is above either one's
balance, and they are fewer than the two together. -/
theorem simplify_settles_listed (R : Runtime) (groupId : String) (now now' now'' : ℚ) (w w' : World)
    {balances : GroupBalancesResponse}
    (h : getBalances R groupId now now' now'' w = (.success balances, w')) (hc : balances.cached = false) :
    ∃ body, simplifyDebts R groupId w' = .success body ∧
      (∀ e ∈ balances.memberBalances, body.brings e.userId = e.netCents) ∧
      (∀ item ∈ body.settlements, 1 ≤ item.amountCents ∧
        (∃ e ∈ balances.memberBalances, e.userId = item.payerId ∧ e.role = "DEBTOR" ∧
          item.amountCents ≤ -e.netCents) ∧
        ∃ e ∈ balances.memberBalances, e.userId = item.payeeId ∧ e.role = "CREDITOR" ∧
          item.amountCents ≤ e.netCents) ∧
      (balances.isSettled = true ↔ body.settlements = []) ∧
      body.settlements.length ≤ balances.totalCreditors + balances.totalDebtors - 1 := by
  obtain ⟨group, cache, hg, rfl, rfl, hlt, hids⟩ := getBalances_computed h hc
  obtain ⟨body, hbody⟩ := simplifyDebts_of_lt (R := R) (w := { w with cache }) hg hlt hids
  have hz : (getGroupNetBalances groupId w).values.sum = 0 := sum_values_computeNetBalances _
  obtain ⟨result, hresult, hlisted, -⟩ := simplifyDebts_success hbody
  have hitems : body.settlements = (settle (getGroupNetBalances groupId w)).map (·.item) := by
    rw [hlisted, (getSimplifiedDebts_ok hresult).1]
    rfl
  have hlength : body.settlements.length = (settle (getGroupNetBalances groupId w)).length := by
    rw [hitems, List.length_map]
  refine ⟨body, hbody, ?_, ?_, ?_, ?_⟩
  · intro e hmem
    obtain ⟨⟨u, cents⟩, hbalance, rfl⟩ := List.mem_map.mp hmem
    have hget : (getGroupNetBalances groupId w).get? u = some cents := Dict.get?_eq_some.mpr hbalance
    rw [SimplifyResponse.brings_eq hitems, settle_accounted hz, Dict.getD]
    dsimp only [balanceEntry]
    rw [hget, Option.getD_some]
  · intro item hmem
    rw [hitems] at hmem
    obtain ⟨s, hs, rfl⟩ := List.mem_map.mp hmem
    obtain ⟨hpos, ⟨debt, hdebt, hpays⟩, credit, hcredit, hgets⟩ := settle_listed hs
    exact ⟨hpos, ⟨_, List.mem_map_of_mem hdebt, rfl, roleOf_eq_debtor.mpr (by omega), hpays⟩,
      _, List.mem_map_of_mem hcredit, rfl, roleOf_eq_creditor.mpr (by omega), hgets⟩
  · rw [isSettled_iff, ← settle_eq_nil_iff hz, hitems, List.map_eq_nil_iff]
  · rw [totals_eq, hlength]
    rcases Nat.eq_zero_or_pos ((getGroupNetBalances groupId w).values.countP (· ≠ 0)) with hzero | hpos
    · rw [settle_eq_nil hz hzero]
      exact Nat.zero_le _
    · exact Nat.le_sub_one_of_lt (length_settle_lt hz hpos)

/-- alice has paid 100 for a taxi that she shares with bob. -/
def taxiBalances : GroupBalancesResponse :=
  balancesResponse (seqId 2) [⟨seqId 0, 50, 1 / 2, "CREDITOR"⟩, ⟨seqId 1, -50, -1 / 2, "DEBTOR"⟩]

theorem simplify_settles_listed_taxi :
    let w := World.run Runtime.sequential (trip ++ [.createExpense taxi])
    ∃ body, simplifyDebts Runtime.sequential (seqId 2)
        (getBalances Runtime.sequential (seqId 2) 0 0 0 w).2 = .success body ∧
      ∀ e ∈ taxiBalances.memberBalances, body.brings e.userId = e.netCents := by
  intro w
  have hlisted : (getBalances Runtime.sequential (seqId 2) 0 0 0 w).1 = .success taxiBalances := by
    decide +kernel
  have hresult : getBalances Runtime.sequential (seqId 2) 0 0 0 w =
      (.success taxiBalances, (getBalances Runtime.sequential (seqId 2) 0 0 0 w).2) := by
    rw [← hlisted]
  obtain ⟨body, hbody, hbrings, -⟩ :=
    simplify_settles_listed Runtime.sequential (seqId 2) 0 0 0 w _ hresult rfl
  exact ⟨body, hbody, hbrings⟩

/-- Where the debtors of a group are members of it, the payments that the simplified debts list can be
put in as expenses. All of them are accepted, and afterwards nobody owes anything and no payments are
listed. -/
theorem paying_plan_settles (R : Runtime) (groupId title : String) (ops : List Operation)
    {group : GroupRecord} {result : DebtSimplifierResult}
    (hg : (World.run R ops).store.groups.get? groupId = some group)
    (hm : ∀ u, (getGroupNetBalances groupId (World.run R ops)).getD u 0 < 0 → u ∈ group.memberIds)
    (hr : getSimplifiedDebts R groupId (World.run R ops) = .ok result) :
    let payments := result.settlements.map fun s => .createExpense (s.asExpense groupId title)
    let w' := World.run R (ops ++ payments)
    AtEach (World.step R) (World.run R ops) payments
        (fun w op => ∀ req, op = .createExpense req → Accepted R req w) ∧
      (∀ u, (getGroupNetBalances groupId w').getD u 0 = 0) ∧
      ∃ result', getSimplifiedDebts R groupId w' = .ok result' ∧ result'.settlements = [] := by
  intro payments w'
  have hz : (getGroupNetBalances groupId (World.run R ops)).values.sum = 0 := sum_values_computeNetBalances _
  have hplan : result.settlements = settle (getGroupNetBalances groupId (World.run R ops)) :=
    (getSimplifiedDebts_ok hr).1
  have hpay : ∀ s ∈ result.settlements, s.Payable R := by
    rw [hplan]
    exact settle_payable hz ((getSimplifiedDebts_returns_iff R groupId _).mp ⟨result, hr⟩)
  have hm' : ∀ s ∈ result.settlements, s.payerId ∈ group.memberIds := by
    rw [hplan]
    exact fun s hs => hm _ (settle_sides hz hs).1
  obtain ⟨haccepted, htransactions⟩ := run_asExpense (WellFormed.run (R := R) ops) title hg hpay hm'
  have heven : ∀ u, (getGroupNetBalances groupId w').getD u 0 = 0 := by
    have hrun : w' = run (World.step R) (World.run R ops) payments := run_append ..
    rw [← hrun, hplan] at htransactions
    exact even_of_paid htransactions
  obtain ⟨result', hresult'⟩ := (getSimplifiedDebts_returns_iff R groupId w').mpr (.of_even heven)
  refine ⟨haccepted, heven, result', hresult', ?_⟩
  rw [(getSimplifiedDebts_ok hresult').1]
  exact (settle_eq_nil_iff (sum_values_computeNetBalances _)).mpr heven

theorem paying_plan_settles_taxi :
    ∃ result, getSimplifiedDebts Runtime.sequential (seqId 2)
        (World.run Runtime.sequential (trip ++ [.createExpense taxi])) = .ok result ∧
      ∀ u, (getGroupNetBalances (seqId 2) (World.run Runtime.sequential (trip ++ [.createExpense taxi] ++
        result.settlements.map fun s => .createExpense (s.asExpense (seqId 2) "Taxi back")))).getD u 0 = 0 := by
  obtain ⟨result, hr⟩ := (getSimplifiedDebts_returns_iff Runtime.sequential (seqId 2)
    (World.run Runtime.sequential (trip ++ [.createExpense taxi]))).mpr
      (.of_printable (fun _ _ => rfl) (by decide +kernel))
  have hgroup : (World.run Runtime.sequential (trip ++ [.createExpense taxi])).store.groups.get? (seqId 2) =
      some ⟨seqId 2, "Trip", 2, [seqId 0, seqId 1]⟩ := by
    decide +kernel
  have hdebtors : ∀ u, (getGroupNetBalances (seqId 2)
      (World.run Runtime.sequential (trip ++ [.createExpense taxi]))).getD u 0 < 0 → u ∈ [seqId 0, seqId 1] := by
    have hkeys : (getGroupNetBalances (seqId 2)
        (World.run Runtime.sequential (trip ++ [.createExpense taxi]))).keys = [seqId 0, seqId 1] := by
      decide +kernel
    intro u hu
    rw [← hkeys]
    by_contra h
    rw [getD_of_not_mem_keys h] at hu
    exact absurd hu (lt_irrefl 0)
  exact ⟨result, hr, (paying_plan_settles Runtime.sequential (seqId 2) "Taxi back" _ hgroup hdebtors hr).2.1⟩

/-! ## Groups -/

/-- However the requests take turns with each other and with the rest of the process, every one of
them answers with an expense of its own group and leaves the expenses of other groups as they are,
exactly when no request comes under its key upon the response to a request in another group, or upon
an expense that is stored for another group. -/
theorem groups_isolated_iff {ι : Type} [DecidableEq ι] (R : Runtime) (p : ι → PostExpense)
    (events : List (ServerEvent ι)) :
    AtEach (ServerState.step R p) .start events (fun s event => s.Isolated R p event) ↔
      AtEach (ServerState.step R p) .start events fun s event => s.FindsOwn R p event := by
  apply atEach_iff_atEach fun s => Apart R p s.route
  · exact fun s event h hf => ServerState.apart_step h event hf
  · exact Apart.start p
  · exact fun s event h => ServerState.isolated_iff h event

def flat : List Operation :=
  [.createGroup "Flat", .addMember (seqId 3) (seqId 0), .addMember (seqId 3) (seqId 1)]

/-- The taxi is put into both groups under the same key. -/
def postBoth : ℕ → PostExpense
  | 0 => postTaxi
  | _ => { postTaxi with groupId := seqId 3 }

def taxiInBoth : List (ServerEvent ℕ) :=
  (trip ++ flat).map .other ++ [.post 0 1 1, .post 0 1 1, .post 0 1 1, .post 1 2 2]

/-- The second request is answered with the expense of the first group. -/
theorem key_replays_other_group :
    ¬ AtEach (ServerState.step Runtime.sequential postBoth) .start (taxiInBoth ++ [.post 1 2 2])
      (fun s event => s.Isolated Runtime.sequential postBoth event) := by
  intro h
  have hisolated := h taxiInBoth (.post 1 2 2) [] rfl 1 2 2 rfl
  have hgroup : (((run (ServerState.step Runtime.sequential postBoth) .start taxiInBoth).step
      Runtime.sequential postBoth (.post 1 2 2)).route.phase 1).body?.map (·.groupId) =
        some (seqId 2) := by
    decide +kernel
  obtain ⟨response, hbody, hother⟩ := Option.map_eq_some_iff.mp hgroup
  have hown : response.groupId = seqId 3 := hisolated.answered response hbody
  exact absurd (hother.symm.trans hown) (by decide)

end ExpenseSettlement

import ExpenseSettlement.Api.Expenses
import ExpenseSettlement.Core.Lemmas.NetBalances

/-!
# The balances route (`api/routes/groups.py`)

None of the route's awaits suspends, since no lock is held across a suspension, so a request is one
step. It comes between the steps of the requests that create expenses, and of the worker.
-/

namespace ExpenseSettlement

open Lib

def balancesKey (groupId : String) : String := s!"group:{groupId}:balances"

/-- "Cache for 60 seconds" -/
def balancesTtlSeconds : ℤ := 60

def roleOf (cents : ℤ) : String :=
  if cents > 0 then "CREDITOR" else if cents < 0 then "DEBTOR" else "SETTLED"

/-- The loop of `get_balances`. Like an expense's, an amount may be out of a float's range. -/
def balanceEntries : List (String × ℤ) → Except PyError (List BalanceEntry)
  | [] => .ok []
  | (uid, cents) :: rest =>
      if |cents| < 100 * floatLimit then
        match balanceEntries rest with
        | .error e => .error e
        | .ok entries =>
            .ok ({ userId := uid
                   netCents := cents
                   netDollars := (cents : ℚ) / 100
                   role := roleOf cents } :: entries)
      else
        .error .overflowError

/-- Whether `result.model_dump_json()` returns. A lone surrogate has no JSON in UTF-8. -/
def GroupBalancesResponse.dumps (R : Runtime) (body : GroupBalancesResponse) : Bool :=
  R.encodes body.groupId && body.memberBalances.all fun e => R.encodes e.userId

def balancesResponse (groupId : String) (entries : List BalanceEntry) : GroupBalancesResponse where
  groupId := groupId
  memberBalances := entries
  totalCreditors := (entries.filter (·.role = "CREDITOR")).length
  totalDebtors := (entries.filter (·.role = "DEBTOR")).length
  isSettled := entries.all (·.netCents = 0)
  cached := false

inductive BalancesOutcome
  | success (body : GroupBalancesResponse)
  | notFound (detail : String)
  | crashed
deriving DecidableEq

/-- `get_balances`, with the readings of the clock by `cache.get` and by `cache.set`. -/
def getBalances (R : Runtime) (groupId : String) (now now' now'' : ℚ) (w : World) :
    BalancesOutcome × World :=
  match w.cache.get now (balancesKey groupId) with
  | (some (.balances body), cache) => (.success { body with cached := true }, { w with cache })
  | (some .processing, cache) | (some (.response _), cache) => (.crashed, { w with cache })
  | (none, cache) =>
      match w.store.groups.get? groupId with
      | none => (.notFound s!"Group {R.repr groupId} not found.", { w with cache })
      | some _ =>
          match balanceEntries (getGroupNetBalances groupId w).items with
          | .error _ => (.crashed, { w with cache })
          | .ok entries =>
              let result := balancesResponse groupId entries
              if result.dumps R then
                let (_, cache) := cache.set now' now'' (balancesKey groupId) (.balances result)
                  (some balancesTtlSeconds) false
                (.success result, { w with cache })
              else
                (.crashed, { w with cache })

/-- The users and the cents of a response. -/
def GroupBalancesResponse.listed (body : GroupBalancesResponse) : List (String × ℤ) :=
  body.memberBalances.map fun e => (e.userId, e.netCents)

def BalancesOutcome.listed? : BalancesOutcome → Option (List (String × ℤ))
  | .success body => some body.listed
  | .notFound _ | .crashed => none

/-! ## Runs -/

def World.transactionsFor (groupId : String) (w : World) : List Transaction :=
  transactionsOf (w.store.getExpensesForGroup groupId)

inductive ServerEvent (ι : Type)
  | post (i : ι) (now now' : ℚ)
  | other (op : Operation)
  | balances (groupId : String) (now now' now'' : ℚ)

structure ServerState (ι : Type) where
  route : RouteState ι
  /-- How many expenses a group had when its balances were last put into the cache. -/
  cachedAt : String → ℕ

namespace ServerState

variable {ι : Type} [DecidableEq ι]

def start : ServerState ι := ⟨.start .init, fun _ => 0⟩

def step (R : Runtime) (p : ι → PostExpense) (s : ServerState ι) : ServerEvent ι → ServerState ι
  | .post i now now' => { s with route := s.route.advance R (p i) i now now' }
  | .other op => { s with route := { s.route with world := s.route.world.step R op } }
  | .balances groupId now now' now'' =>
      let (outcome, world) := getBalances R groupId now now' now'' s.route.world
      { route := { s.route with world }
        cachedAt := match outcome with
          | .success body =>
              if body.cached then s.cachedAt
              else Function.update s.cachedAt groupId (s.route.world.transactionsFor groupId).length
          | .notFound _ | .crashed => s.cachedAt }

/-- The response of a balances request lists the net balances of the expenses stored now. -/
def Fresh (R : Runtime) (s : ServerState ι) (event : ServerEvent ι) : Prop :=
  ∀ groupId now now' now'', event = .balances groupId now now' now'' →
    ∀ listed ∈ (getBalances R groupId now now' now'' s.route.world).1.listed?,
      listed = (getGroupNetBalances groupId s.route.world).items

/-- A balances request that finds an entry in the cache comes before any expenses that change what
the entry says. -/
def Uncontradicted (s : ServerState ι) (event : ServerEvent ι) : Prop :=
  ∀ groupId now now' now'', event = .balances groupId now now' now'' →
    (s.route.world.cache.get now (balancesKey groupId)).1 ≠ none →
      let txs := s.route.world.transactionsFor groupId
      let n := s.cachedAt groupId
      Cancels ((txs.take n).flatMap involved) (txs.drop n)

end ServerState

end ExpenseSettlement

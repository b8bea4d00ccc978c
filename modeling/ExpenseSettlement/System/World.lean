import ExpenseSettlement.Api.Schemas
import ExpenseSettlement.Cache.InMemoryCache
import ExpenseSettlement.Core.DebtSimplifier
import ExpenseSettlement.Core.LedgerEngine
import ExpenseSettlement.Messaging.Outbox

/-!
# The module-level state of the process

The services, the worker and the routes reach the store, the cache and the outbox through their
singletons. The expense service and the worker each hold a ledger of their own.
-/

namespace ExpenseSettlement

open Lib

/-- The payloads the program puts into the outbox. -/
inductive EventPayload
  | expenseCreated (expenseId groupId payerId : String) (totalCents : ℤ) (title : String)
      (splits : List Split) (idempotencyKey : Option String)
  | settlementRequested (groupId requestedBy : String) (netBalances : Dict String ℤ)
  | settlementCompleted (groupId : String) (settlementCount totalSettledCents : ℤ)
      (algorithm : String) (reductionRatio : ℚ) (checksum : String)

/-- The texts the program puts into the cache, by what they decode to. -/
inductive CacheValue
  | processing
  | response (body : ExpenseResponse)
  | balances (body : GroupBalancesResponse)
deriving DecidableEq

structure World where
  draws : Draws
  store : InMemoryStore
  /-- `services.expense_service._ledger`, which the audit route reports on. -/
  serviceLedger : LedgerEngine
  /-- `worker.worker._ledger` -/
  workerLedger : LedgerEngine
  outbox : InMemoryOutbox EventPayload
  cache : InMemoryCache CacheValue

def World.init : World where
  draws := ⟨0, 0⟩
  store := .init
  serviceLedger := .init
  workerLedger := .init
  outbox := .init
  cache := .init

end ExpenseSettlement

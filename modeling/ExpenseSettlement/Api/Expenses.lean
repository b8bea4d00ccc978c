import Mathlib.Logic.Function.Basic
import ExpenseSettlement.Cache.Idempotency
import ExpenseSettlement.System.Operations

/-!
# The expense route (`api/routes/expenses.py`)

Any number of requests repeat one `POST`. A request suspends where the route awaits the cache or the
service, so between two steps of it the others may take theirs.
-/

namespace ExpenseSettlement

open IdempotencyManager

structure PostExpense where
  groupId : String
  body : CreateExpenseRequest
  xIdempotencyKey : Option String
deriving DecidableEq

namespace PostExpense

/-- `x_idempotency_key or body.idempotency_key` -/
def idemKey (p : PostExpense) : Option String :=
  match truthy p.xIdempotencyKey with
  | some key => some key
  | none => p.body.idempotencyKey

def args (p : PostExpense) : CreateExpense :=
  { groupId := p.groupId
    payerId := p.body.payerId
    title := p.body.title
    totalCents := p.body.totalCents
    splitType := p.body.splitType
    splitsInput := match p.body.splits with
      | none | some [] => none
      | some (s :: rest) => some (s :: rest)
    idempotencyKey := p.idemKey }

end PostExpense

inductive Outcome
  | success (response : ExpenseResponse)
  | replayed (response : ExpenseResponse)
  | conflict
  | rejected (error : PyError)
  | crashed
deriving DecidableEq

/-- The answer to a duplicate, by what the cache holds for its key. -/
def Outcome.ofDuplicate : Option CacheValue → Outcome
  | some (.response body) => .replayed body
  | some (.balances _) => .crashed
  | some .processing | none => .conflict

inductive Phase
  | arrived
  | refused
  | creating
  | created (response : ExpenseResponse)
  | failed (error : PyError)
  | done (outcome : Outcome)
deriving DecidableEq

structure RouteState (ι : Type) where
  world : World
  phase : ι → Phase

namespace RouteState

variable {ι : Type} [DecidableEq ι]

def move (i : ι) (phase : Phase) (world : World) (s : RouteState ι) : RouteState ι :=
  ⟨world, Function.update s.phase i phase⟩

theorem move_phase (i : ι) (phase : Phase) (world : World) (s : RouteState ι) :
    (s.move i phase world).phase = Function.update s.phase i phase := rfl

/-- The next step of request `i`, with the clock readings that it may take. -/
def advance (R : Runtime) (p : PostExpense) (i : ι) (now now' : ℚ) (s : RouteState ι) : RouteState ι :=
  match s.phase i, truthy p.idemKey with
  | .arrived, none => s.move i .creating s.world
  | .arrived, some key =>
      match tryLock now now' key s.world.cache with
      | (true, cache) => s.move i .creating { s.world with cache }
      | (false, cache) => s.move i .refused { s.world with cache }
  | .refused, none => s
  | .refused, some key =>
      let (raw, cache) := lookUp now key s.world.cache
      s.move i (.done (.ofDuplicate raw)) { s.world with cache }
  | .creating, _ =>
      match createExpense R p.args s.world with
      | (.error e, world) => s.move i (.failed e) world
      | (.ok expense, world) =>
          -- formatting is outside the `try`, so an error there leaves the lock in place
          match fmtExpense R expense with
          | .error _ => s.move i (.done .crashed) world
          | .ok response => s.move i (.created response) world
  | .failed e, none => s.move i (.done (.rejected e)) s.world
  | .failed e, some key =>
      s.move i (.done (.rejected e)) { s.world with cache := release key s.world.cache }
  | .created response, none => s.move i (.done (.success response)) s.world
  | .created response, some key =>
      s.move i (.done (.success response))
        { s.world with cache := storeResponse now now' key response s.world.cache }
  | .done _, _ => s

end RouteState

/-- A step of a request, or of another part of the process. -/
inductive RouteEvent (ι : Type)
  | request (i : ι) (now now' : ℚ)
  | other (op : Operation)

def RouteState.step {ι : Type} [DecidableEq ι] (R : Runtime) (p : PostExpense) (s : RouteState ι) :
    RouteEvent ι → RouteState ι
  | .request i now now' => s.advance R p i now now'
  | .other op => { s with world := s.world.step R op }

def RouteState.start {ι : Type} (w : World) : RouteState ι := ⟨w, fun _ => .arrived⟩

/-! ## `list_expenses` -/

def listExpenses (R : Runtime) (groupId : String) (w : World) : Except PyError (List ExpenseResponse) :=
  (w.store.getExpensesForGroup groupId).mapM (fmtExpense R)

end ExpenseSettlement

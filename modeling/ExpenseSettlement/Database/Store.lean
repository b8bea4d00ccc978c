import ExpenseSettlement.Core.Runtime
import ExpenseSettlement.Lib.Dict

/-!
# The in-memory store (`database/store.py`)

Every method runs under the store's lock without a suspension, so it is one step.
-/

namespace ExpenseSettlement

open Lib

structure UserRecord where
  id : String
  name : String
  email : String
  version : Nat
deriving DecidableEq

structure GroupRecord where
  id : String
  name : String
  version : Nat
  memberIds : List String
deriving DecidableEq

structure ExpenseRecord where
  id : String
  groupId : String
  payerId : String
  title : String
  totalCents : ℤ
  splitType : String
  status : String
  idempotencyKey : Option String
  version : Nat
  journalId : Option String
  createdAt : ℚ
  splits : List Split
deriving DecidableEq

structure SettlementRecord where
  id : String
  groupId : String
  payerId : String
  payeeId : String
  amountCents : ℤ
  isExecuted : Bool
  algorithm : String
  checksum : String
  executedAt : Option ℚ
deriving DecidableEq

structure InMemoryStore where
  users : Dict String UserRecord
  groups : Dict String GroupRecord
  expenses : Dict String ExpenseRecord
  settlements : Dict String SettlementRecord
  idempotencyKeys : Dict String String
deriving DecidableEq

/-- A key that is absent or the empty string counts as no key. -/
def truthy (key : Option String) : Option String := key.filter (· ≠ "")

namespace InMemoryStore

def init : InMemoryStore := ⟨Dict.empty, Dict.empty, Dict.empty, Dict.empty, Dict.empty⟩

def createUser (R : Runtime) (name email : String) (d : Draws) (S : InMemoryStore) :
    Except PyError UserRecord × Draws × InMemoryStore :=
  if S.users.values.any (·.email = email) then
    (.error (.valueError s!"Email {R.repr email} already exists."), d, S)
  else
    let user : UserRecord := { id := R.uuid4 d.uuids, name, email, version := 0 }
    (.ok user, { d with uuids := d.uuids + 1 }, { S with users := S.users.set user.id user })

def createGroup (R : Runtime) (name : String) (d : Draws) (S : InMemoryStore) :
    GroupRecord × Draws × InMemoryStore :=
  let group : GroupRecord := { id := R.uuid4 d.uuids, name, version := 0, memberIds := [] }
  (group, { d with uuids := d.uuids + 1 }, { S with groups := S.groups.set group.id group })

def addMember (groupId userId : String) (S : InMemoryStore) : Bool × InMemoryStore :=
  match S.groups.get? groupId with
  | none => (false, S)
  | some grp =>
      if userId ∈ grp.memberIds then
        (true, S)
      else
        let grp := { grp with memberIds := grp.memberIds ++ [userId], version := grp.version + 1 }
        (true, { S with groups := S.groups.set groupId grp })

/-- The stored expense that an idempotency key points to. -/
def existing (S : InMemoryStore) (idempotencyKey : Option String) : Option ExpenseRecord :=
  match truthy idempotencyKey with
  | none => none
  | some key => (S.idempotencyKeys.get? key).bind S.expenses.get?

def createExpense (R : Runtime) (groupId payerId title : String) (totalCents : ℤ) (splitType : String)
    (splits : List Split) (idempotencyKey : Option String) (d : Draws) (S : InMemoryStore) :
    ExpenseRecord × Draws × InMemoryStore :=
  match S.existing idempotencyKey with
  | some expense => (expense, d, S)
  | none =>
      let expense : ExpenseRecord :=
        { id := R.uuid4 d.uuids, groupId, payerId, title, totalCents, splitType
          status := "POSTED"
          idempotencyKey
          version := 0
          journalId := none
          createdAt := R.time d.times
          splits }
      (expense, ⟨d.uuids + 1, d.times + 1⟩,
        { S with
          expenses := S.expenses.set expense.id expense
          idempotencyKeys := match truthy idempotencyKey with
            | none => S.idempotencyKeys
            | some key => S.idempotencyKeys.set key expense.id })

def getExpensesForGroup (S : InMemoryStore) (groupId : String) : List ExpenseRecord :=
  S.expenses.values.filter (·.groupId = groupId)

def saveSettlements (records : List SettlementRecord) (S : InMemoryStore) : InMemoryStore :=
  { S with settlements := records.foldl (fun settlements s => settlements.set s.id s) S.settlements }

def getSettlementsForGroup (S : InMemoryStore) (groupId : String) : List SettlementRecord :=
  S.settlements.values.filter (·.groupId = groupId)

end InMemoryStore

end ExpenseSettlement

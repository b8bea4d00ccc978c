import ExpenseSettlement.Services.GroupService
import ExpenseSettlement.Worker.SettlementWorker
import ExpenseSettlement.Lib.Run

/-!
# Runs of the whole process

An operation is a request that a service handles or a message that the worker handles. An operation
that raises leaves whatever its body has changed by then.
-/

namespace ExpenseSettlement

inductive Operation
  | createUser (name email : String)
  | createGroup (name : String)
  | addMember (groupId userId : String)
  | createExpense (req : CreateExpense)
  | settlementRequested (groupId : String)
deriving DecidableEq

def World.step (R : Runtime) (w : World) : Operation → World
  | .createUser name email => (GroupService.createUser R name email w).2
  | .createGroup name => (GroupService.createGroup R name w).2
  | .addMember groupId userId => (GroupService.addMember R groupId userId w).2
  | .createExpense req => (createExpense R req w).2
  | .settlementRequested groupId => (handleSettlement R groupId w).2

/-- What an operation answers. Nobody waits for a settlement. -/
inductive Answer
  | user (result : Except PyError UserRecord)
  | group (group : GroupRecord)
  | member (result : Except PyError Bool)
  | expense (result : Except PyError ExpenseRecord)
  | queued

def World.answer (R : Runtime) (w : World) : Operation → Answer
  | .createUser name email => .user (GroupService.createUser R name email w).1
  | .createGroup name => .group (GroupService.createGroup R name w).1
  | .addMember groupId userId => .member (GroupService.addMember R groupId userId w).1
  | .createExpense req => .expense (createExpense R req w).1
  | .settlementRequested _ => .queued

def World.run (R : Runtime) (ops : List Operation) : World := Lib.run (World.step R) World.init ops

end ExpenseSettlement

import ExpenseSettlement.System.World

/-!
# The group service (`services/group_service.py`)
-/

namespace ExpenseSettlement.GroupService

def createUser (R : Runtime) (name email : String) (w : World) : Except PyError UserRecord × World :=
  let (result, d, S) := w.store.createUser R name email w.draws
  (result, { w with draws := d, store := S })

def createGroup (R : Runtime) (name : String) (w : World) : GroupRecord × World :=
  let (group, d, S) := w.store.createGroup R name w.draws
  (group, { w with draws := d, store := S })

def addMember (R : Runtime) (groupId userId : String) (w : World) : Except PyError Bool × World :=
  match w.store.groups.get? groupId with
  | none => (.error (.valueError s!"Group {R.repr groupId} not found."), w)
  | some _ =>
      match w.store.users.get? userId with
      | none => (.error (.valueError s!"User {R.repr userId} not found."), w)
      | some _ =>
          let (result, S) := w.store.addMember groupId userId
          (.ok result, { w with store := S })

/-- A member whose user is not found is left out. -/
def getMembers (groupId : String) (w : World) : List UserRecord :=
  match w.store.groups.get? groupId with
  | none => []
  | some group => group.memberIds.filterMap w.store.users.get?

end ExpenseSettlement.GroupService

import ExpenseSettlement.Services.Lemmas.CreateExpense
import ExpenseSettlement.System.Operations
import ExpenseSettlement.Worker.Lemmas.Failing

/-!
# What a step of the process can do

A step leaves expenses, settlements and books alone, or it accepts an expense, or it settles a group.
-/

namespace ExpenseSettlement

open Lib LedgerEngine DebtSimplifier

variable {R : Runtime} {w w' : World}

/-- At most users, groups and ids are new, and heads of the service's ledger. -/
structure Quiet (R : Runtime) (w w' : World) : Prop where
  draws : w.draws.uuids ≤ w'.draws.uuids
  expenses : w'.store.expenses = w.store.expenses
  settlements : w'.store.settlements = w.store.settlements
  idempotencyKeys : w'.store.idempotencyKeys = w.store.idempotencyKeys
  groups_kept : ∀ id ∈ w.store.groups.keys, id ∈ w'.store.groups.keys
  groups_new : ∀ id ∈ w'.store.groups.keys, id ∈ w.store.groups.keys ∨
    R.Issued w.draws.uuids w'.draws.uuids id
  entries : w'.serviceLedger.entries = w.serviceLedger.entries
  journals : w'.serviceLedger.journals = w.serviceLedger.journals
  heads : HeadsIssued R w.draws.uuids w.serviceLedger.accountHeads →
    HeadsIssued R w'.draws.uuids w'.serviceLedger.accountHeads
  workerLedger : w'.workerLedger = w.workerLedger
  outbox : w'.outbox = w.outbox
  cache : w'.cache = w.cache

theorem Quiet.of_draws {d : Draws} (hd : w.draws.uuids ≤ d.uuids) : Quiet R w { w with draws := d } where
  draws := hd
  expenses := rfl
  settlements := rfl
  idempotencyKeys := rfl
  groups_kept := fun _ h => h
  groups_new := fun _ h => Or.inl h
  entries := rfl
  journals := rfl
  heads := fun h => h.mono hd
  workerLedger := rfl
  outbox := rfl
  cache := rfl

theorem Quiet.of_rejects (h : Rejects R w w') : Quiet R w w' := by
  rw [h.eq]
  exact
    { draws := h.draws.uuids
      expenses := rfl
      settlements := rfl
      idempotencyKeys := rfl
      groups_kept := fun _ hm => hm
      groups_new := fun _ hm => .inl hm
      entries := rfl
      journals := rfl
      heads := h.heads
      workerLedger := rfl
      outbox := rfl
      cache := rfl }

theorem Quiet.refl (w : World) : Quiet R w w := .of_draws (Nat.le_refl _)

theorem Quiet.of_users {d : Draws} {users : Dict String UserRecord} (hd : w.draws.uuids ≤ d.uuids) :
    Quiet R w { w with draws := d, store := { w.store with users } } where
  draws := hd
  expenses := rfl
  settlements := rfl
  idempotencyKeys := rfl
  groups_kept := fun _ h => h
  groups_new := fun _ h => Or.inl h
  entries := rfl
  journals := rfl
  heads := fun h => h.mono hd
  workerLedger := rfl
  outbox := rfl
  cache := rfl

theorem Quiet.of_group {d : Draws} {id : String} {group : GroupRecord} (hd : w.draws.uuids ≤ d.uuids)
    (hid : id ∈ w.store.groups.keys ∨ R.Issued w.draws.uuids d.uuids id) :
    Quiet R w { w with draws := d, store := { w.store with groups := w.store.groups.set id group } } where
  draws := hd
  expenses := rfl
  settlements := rfl
  idempotencyKeys := rfl
  groups_kept := fun _ h => Dict.mem_keys_set.mpr (Or.inr h)
  groups_new := by
    intro k hk
    rcases Dict.mem_keys_set.mp hk with rfl | hk
    · exact hid
    · exact Or.inl hk
  entries := rfl
  journals := rfl
  heads := fun h => h.mono hd
  workerLedger := rfl
  outbox := rfl
  cache := rfl

namespace GroupService

theorem createUser_quiet (name email : String) (w : World) :
    Quiet R w (createUser R name email w).2 := by
  unfold createUser InMemoryStore.createUser
  by_cases hm : w.store.users.values.any (·.email = email)
  · rw [if_pos hm]
    exact Quiet.refl w
  · rw [if_neg hm]
    exact Quiet.of_users (Nat.le_succ _)

theorem createGroup_quiet (name : String) (w : World) : Quiet R w (createGroup R name w).2 :=
  Quiet.of_group (Nat.le_succ _) (Or.inr ⟨w.draws.uuids, Nat.le_refl _, Nat.lt_succ_self _, rfl⟩)

theorem addMember_quiet (groupId userId : String) (w : World) :
    Quiet R w (addMember R groupId userId w).2 := by
  unfold addMember
  cases hg : w.store.groups.get? groupId with
  | none => exact Quiet.refl w
  | some grp =>
      cases w.store.users.get? userId with
      | none => exact Quiet.refl w
      | some user =>
          simp only [InMemoryStore.addMember, hg]
          by_cases hm : userId ∈ grp.memberIds
          · rw [if_pos hm]
            exact Quiet.refl w
          · rw [if_neg hm]
            exact Quiet.of_group (Nat.le_refl _) (Or.inl (Dict.mem_keys_of_get? hg))

end GroupService

/-! ## Inversion -/

/-- The request is accepted: the service returns an expense. -/
def Accepted (R : Runtime) (req : CreateExpense) (w : World) : Prop :=
  ∃ e, (createExpense R req w).1 = .ok e

/-- The step accepts an expense with these splits. -/
structure AcceptStep (R : Runtime) (w : World) (op : Operation) (req : CreateExpense)
    (splits : List Split) : Prop where
  op_eq : op = .createExpense req
  accepts : Accepts R req w splits
  result : createExpense R req w = (.ok (w.newExpense R req splits), w.accept R req splits)
  step : w.step R op = w.accept R req splits

theorem AcceptStep.accepted {op : Operation} {req : CreateExpense} {splits : List Split}
    (h : AcceptStep R w op req splits) : Accepted R req w :=
  ⟨w.newExpense R req splits, by rw [h.result]⟩

structure SettleStep (R : Runtime) (w : World) (op : Operation) (groupId : String)
    (result : DebtSimplifierResult) (acc : SettleLoop) : Prop where
  op_eq : op = .settlementRequested groupId
  planned : Planned R groupId w result acc
  handled : handleSettlement R groupId w = (.ok (), w.settled R groupId result acc)
  step : w.step R op = w.settled R groupId result acc

structure QuietStep (R : Runtime) (w : World) (op : Operation) : Prop where
  quiet : Quiet R w (w.step R op)
  rejected : ∀ req, op = .createExpense req → ¬ Accepted R req w
  nothing : ∀ groupId, op = .settlementRequested groupId →
    ((groupId = "" ∨ w.store.getExpensesForGroup groupId = []) ∧
      handleSettlement R groupId w = (.ok (), w)) ∨
    (Unsummed R groupId w ∧ ∃ e, handleSettlement R groupId w = (.error e, w))

theorem World.step_cases {w : World} (hh : HeadsEncode R w.workerLedger.accountHeads) (op : Operation) :
    QuietStep R w op ∨ (∃ req splits, AcceptStep R w op req splits) ∨
      ∃ groupId result acc, SettleStep R w op groupId result acc := by
  cases op with
  | createUser name email =>
      exact Or.inl ⟨GroupService.createUser_quiet name email w, nofun, nofun⟩
  | createGroup name => exact Or.inl ⟨GroupService.createGroup_quiet name w, nofun, nofun⟩
  | addMember groupId userId =>
      exact Or.inl ⟨GroupService.addMember_quiet groupId userId w, nofun, nofun⟩
  | createExpense req =>
      rcases createExpense_cases R req w with ⟨e, w', he, hr⟩ | ⟨splits, ha, he⟩
      · refine Or.inl ⟨?_, ?_, nofun⟩
        · rw [World.step, he]
          exact .of_rejects hr
        · rintro _ ⟨rfl⟩ ⟨e', he'⟩
          rw [he] at he'
          cases he'
      · exact Or.inr (Or.inl ⟨req, splits, rfl, ha, he, by rw [World.step, he]⟩)
  | settlementRequested groupId =>
      rcases handleSettlement_cases hh groupId with ⟨hn, he⟩ | ⟨hu, e, he⟩ | ⟨result, acc, hp, he⟩
      · refine Or.inl ⟨?_, nofun, ?_⟩
        · rw [World.step, he]
          exact Quiet.refl w
        · rintro _ ⟨rfl⟩
          exact .inl ⟨hn, he⟩
      · refine Or.inl ⟨?_, nofun, ?_⟩
        · rw [World.step, he]
          exact Quiet.refl w
        · rintro _ ⟨rfl⟩
          exact .inr ⟨hu, e, he⟩
      · exact Or.inr (Or.inr ⟨groupId, result, acc, rfl, hp, he, by rw [World.step, he]⟩)

theorem World.step_draws {w : World} (hh : HeadsEncode R w.workerLedger.accountHeads) (op : Operation) :
    w.draws.uuids ≤ (w.step R op).draws.uuids := by
  rcases World.step_cases hh op with hq | ⟨req, splits, ha⟩ | ⟨groupId, result, acc, hs⟩
  · exact hq.quiet.draws
  · rw [ha.step]
    exact accept_draws_mono
  · rw [hs.step]
    exact hs.planned.draws.trans (Nat.le_succ _)

theorem World.step_headsEncode {w : World} (hh : HeadsEncode R w.workerLedger.accountHeads) (op : Operation) :
    HeadsEncode R (w.step R op).workerLedger.accountHeads := by
  rcases World.step_cases hh op with hq | ⟨req, splits, ha⟩ | ⟨groupId, result, acc, hs⟩
  · rw [hq.quiet.workerLedger]
    exact hh
  · rw [ha.step]
    exact hh
  · rw [hs.step]
    exact hs.planned.encoded hh

end ExpenseSettlement

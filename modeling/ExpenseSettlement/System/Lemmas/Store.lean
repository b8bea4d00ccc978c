import ExpenseSettlement.Services.Lemmas.Splits
import ExpenseSettlement.System.Lemmas.WellFormed

/-!
# The invariant of the store

The tables of users, groups, expenses and idempotency keys fit together after every operation, also
after one that raises, and the splits of every stored expense add up to its total.
-/

namespace ExpenseSettlement

open Lib

variable {R : Runtime} {w : World} {S : InMemoryStore}

/-- The members of the group are users, each listed once, and its version counts them. -/
structure GroupOk (users : Dict String UserRecord) (group : GroupRecord) : Prop where
  nodup : group.memberIds.Nodup
  users : ∀ userId ∈ group.memberIds, userId ∈ users.keys
  version : group.memberIds.length = group.version

/-- No two users have the same email, and groups are well kept. -/
structure Registered (S : InMemoryStore) : Prop where
  emails : ∀ id id' user user', S.users.get? id = some user → S.users.get? id' = some user' →
    user.email = user'.email → id = id'
  groups : ∀ id group, S.groups.get? id = some group → GroupOk S.users group

/-- The tables fit together, and no two expenses have the same key. -/
structure StoreInvariant (S : InMemoryStore) : Prop extends Registered S where
  expense_group : ∀ id e, S.expenses.get? id = some e → e.groupId ∈ S.groups.keys
  key_stored : ∀ key id, S.idempotencyKeys.get? key = some id →
    ∃ e, S.expenses.get? id = some e ∧ e.idempotencyKey = some key
  keys : ∀ id id' e e' key, S.expenses.get? id = some e → S.expenses.get? id' = some e' →
    e.idempotencyKey = some key → e'.idempotencyKey = some key → key ≠ "" → id = id'

/-- The key of an expense leads to it. -/
def KeysFiled (S : InMemoryStore) : Prop :=
  ∀ id e key, S.expenses.get? id = some e → truthy e.idempotencyKey = some key →
    S.idempotencyKeys.get? key = some id

theorem StoreInvariant.of_parts (hw : WellFormed R w) (hr : Registered w.store)
    (hk : KeysFiled w.store) : StoreInvariant w.store where
  toRegistered := hr
  expense_group := fun id e he => hw.expense_group e (Dict.mem_values.mpr ⟨id, he⟩)
  key_stored := hw.key_stored
  keys := by
    intro id id' e e' key he he' hkey hkey' hne
    have hid := hk id e key he (truthy_eq_some.mpr ⟨hkey, hne⟩)
    have hid' := hk id' e' key he' (truthy_eq_some.mpr ⟨hkey', hne⟩)
    rw [hid] at hid'
    exact Option.some.inj hid'

theorem Registered.init : Registered .init where
  emails := fun _ _ _ _ h => by cases h
  groups := fun _ _ h => by cases h

theorem KeysFiled.init : KeysFiled .init := fun _ _ _ h => by cases h

/-! ## Users and groups -/

theorem GroupOk.mono {users users' : Dict String UserRecord} {group : GroupRecord}
    (h : GroupOk users group) (hu : ∀ id ∈ users.keys, id ∈ users'.keys) : GroupOk users' group :=
  ⟨h.nodup, fun userId hm => hu userId (h.users userId hm), h.version⟩

/-- The tables of users and groups decide. -/
theorem Registered.congr {S' : InMemoryStore} (h : Registered S) (hu : S'.users = S.users)
    (hg : S'.groups = S.groups) : Registered S' := by
  constructor
  · rw [hu]
    exact h.emails
  · rw [hg]
    rw [hu]
    exact h.groups

theorem Registered.createUser (h : Registered S) (name email : String) (d : Draws) :
    Registered (S.createUser R name email d).2.2 := by
  rw [InMemoryStore.createUser]
  split
  · exact h
  · rename_i hany
    have hnew : ∀ id user, S.users.get? id = some user → user.email ≠ email := by
      intro id user hid he
      apply hany
      rw [List.any_eq_true]
      exact ⟨user, Dict.mem_values.mpr ⟨id, hid⟩, by simpa using he⟩
    constructor
    · intro id id' user user' hid hid' he
      rcases Dict.of_get?_set hid with ⟨rfl, rfl⟩ | hold
      · rcases Dict.of_get?_set hid' with ⟨rfl, rfl⟩ | hold'
        · rfl
        · exact absurd he.symm (hnew id' user' hold')
      · rcases Dict.of_get?_set hid' with ⟨rfl, rfl⟩ | hold'
        · exact absurd he (hnew id user hold)
        · exact h.emails id id' user user' hold hold' he
    · intro id group hid
      apply (h.groups id group hid).mono
      intro userId hm
      exact Dict.mem_keys_set.mpr (.inr hm)

theorem Registered.createGroup (h : Registered S) (name : String) (d : Draws) :
    Registered (S.createGroup R name d).2.2 := by
  refine ⟨h.emails, ?_⟩
  intro id group hid
  rcases Dict.of_get?_set hid with ⟨rfl, rfl⟩ | hold
  · exact ⟨List.nodup_nil, fun _ hm => (List.not_mem_nil hm).elim, rfl⟩
  · exact h.groups id group hold

theorem Registered.addMember (h : Registered S) (groupId : String) {userId : String}
    (hu : userId ∈ S.users.keys) : Registered (S.addMember groupId userId).2 := by
  rw [InMemoryStore.addMember]
  cases hg : S.groups.get? groupId with
  | none => exact h
  | some grp =>
      dsimp only
      split
      · exact h
      · rename_i hm
        have hgrp := h.groups groupId grp hg
        refine ⟨h.emails, ?_⟩
        intro id group hid
        rcases Dict.of_get?_set hid with ⟨rfl, rfl⟩ | hold
        · refine ⟨?_, ?_, ?_⟩
          · dsimp only
            rw [← List.concat_eq_append]
            exact hgrp.nodup.concat hm
          · intro userId' hm'
            rcases List.mem_append.mp hm' with hm' | hm'
            · exact hgrp.users userId' hm'
            · rw [List.mem_singleton.mp hm']
              exact hu
          · dsimp only
            rw [List.length_append, List.length_singleton, hgrp.version]
        · exact h.groups id group hold

theorem Registered.step (hw : WellFormed R w) (h : Registered w.store) (op : Operation) :
    Registered (w.step R op).store := by
  cases op with
  | createUser name email => exact h.createUser name email w.draws
  | createGroup name => exact h.createGroup name w.draws
  | addMember groupId userId =>
      simp only [World.step, GroupService.addMember]
      cases w.store.groups.get? groupId with
      | none => exact h
      | some grp =>
          cases hu : w.store.users.get? userId with
          | none => exact h
          | some user => exact h.addMember groupId (Dict.mem_keys_of_get? hu)
  | createExpense req =>
      rcases createExpense_cases R req w with ⟨e, w', he, hr⟩ | ⟨splits, -, he⟩
      · rw [World.step, he, hr.eq]
        exact h
      · rw [World.step, he]
        exact h.congr accept_users accept_groups
  | settlementRequested groupId =>
      rcases handleSettlement_cases hw.worker_heads groupId with ⟨-, he⟩ | ⟨-, e, he⟩ | ⟨result, acc, -, he⟩
      · rw [World.step, he]
        exact h
      · rw [World.step, he]
        exact h
      · rw [World.step, he]
        exact h.congr rfl rfl

/-! ## Keys -/

variable {req : CreateExpense} {splits : List Split}

/-- No stored expense has a key that leads to none. -/
theorem KeysFiled.unused (hk : KeysFiled w.store) (hf : w.store.existing req.idempotencyKey = none)
    {key id : String} {e : ExpenseRecord} (hreq : truthy req.idempotencyKey = some key)
    (he : w.store.expenses.get? id = some e) : truthy e.idempotencyKey ≠ some key := by
  intro hkey
  rw [InMemoryStore.existing, hreq] at hf
  simp only [hk id e key he hkey, Option.bind_some, he] at hf
  cases hf

theorem KeysFiled.accept (hw : WellFormed R w) (hk : KeysFiled w.store) :
    KeysFiled (w.accept R req splits).store := by
  intro id e key he hkey
  cases hx : w.store.existing req.idempotencyKey with
  | none =>
      rw [accept_store hx] at he ⊢
      rcases Dict.of_get?_set he with ⟨rfl, rfl⟩ | hold
      · rw [newExpense_idempotencyKey hx] at hkey
        simp only [hkey]
        exact Dict.get?_set_self _ _ _
      · cases hreq : truthy req.idempotencyKey with
        | none => exact hk id e key hold hkey
        | some key' =>
            have hne : key' ≠ key := by
              rintro rfl
              exact hk.unused hx hreq hold hkey
            dsimp only
            rw [Dict.get?_set, if_neg hne]
            exact hk id e key hold hkey
  | some x =>
      rw [accept_store_of_existing hx] at he ⊢
      rcases Dict.of_get?_set he with ⟨rfl, rfl⟩ | hold
      · exact hk x.id x key (hw.existing_id hx) hkey
      · exact hk id e key hold hkey

theorem KeysFiled.step (hw : WellFormed R w) (hk : KeysFiled w.store) (op : Operation) :
    KeysFiled (w.step R op).store := by
  rcases World.step_cases hw.worker_heads op with hq | ⟨req, splits, ha⟩ | ⟨groupId, result, acc, hs⟩
  · rw [KeysFiled, hq.quiet.expenses, hq.quiet.idempotencyKeys]
    exact hk
  · rw [ha.step]
    exact hk.accept hw
  · rw [hs.step]
    exact hk

/-! ## Splits -/

/-- The splits of every stored expense add up to its total. -/
def SplitsAddUp (S : InMemoryStore) : Prop :=
  ∀ e ∈ S.expenses.values, sumAmounts e.splits = e.totalCents

theorem SplitsAddUp.init : SplitsAddUp .init := fun _ h => by cases h

theorem sumAmounts_newExpense (hx : w.store.existing req.idempotencyKey = none)
    (ha : Accepts R req w splits) :
    sumAmounts (w.newExpense R req splits).splits = (w.newExpense R req splits).totalCents := by
  obtain ⟨-, group, -, hp, hc⟩ := validate_ok ha.1
  rw [newExpense_splits hx, newExpense_totalCents hx]
  exact sum_computeSplits (List.ne_nil_of_mem hp) hc

theorem SplitsAddUp.accept (hs : SplitsAddUp w.store) (ha : Accepts R req w splits) :
    SplitsAddUp (w.accept R req splits).store := by
  intro e he
  obtain ⟨id, hid⟩ := Dict.mem_values.mp he
  rw [accept_expenses] at hid
  rcases Dict.of_get?_set hid with ⟨-, rfl⟩ | hold
  · cases hx : w.store.existing req.idempotencyKey with
    | none => exact sumAmounts_newExpense hx ha
    | some x =>
        obtain ⟨id', hid'⟩ := existing_stored hx
        rw [newExpense_of_existing hx]
        exact hs x (Dict.mem_values.mpr ⟨id', hid'⟩)
  · exact hs e (Dict.mem_values.mpr ⟨id, hold⟩)

theorem SplitsAddUp.step (hw : WellFormed R w) (hs : SplitsAddUp w.store) (op : Operation) :
    SplitsAddUp (w.step R op).store := by
  rcases World.step_cases hw.worker_heads op with hq | ⟨req, splits, ha⟩ | ⟨groupId, result, acc, hset⟩
  · rw [SplitsAddUp, hq.quiet.expenses]
    exact hs
  · rw [ha.step]
    exact hs.accept ha.accepts
  · rw [hset.step]
    exact hs

/-- An equal split that is stored is over the members the group has by then. -/
theorem newExpense_sharedEvenly (hr : Registered w.store) (ha : Accepts R req w splits)
    (hx : w.store.existing req.idempotencyKey = none) (hequal : req.splitType = "EQUAL") :
    ∃ group, w.store.groups.get? req.groupId = some group ∧
      SharedEvenly group.memberIds (w.newExpense R req splits).splits := by
  obtain ⟨-, group, hg, -, hc⟩ := validate_ok ha.1
  refine ⟨group, hg, ?_⟩
  rw [computeSplits, if_pos hequal] at hc
  cases hc
  rw [newExpense_splits hx]
  exact .of_splitEqual req.totalCents (hr.groups req.groupId group hg).nodup

/-! ## Runs -/

theorem SplitsAddUp.run (ops : List Operation) : SplitsAddUp (World.run R ops).store :=
  WellFormed.run_invariant (P := fun w => SplitsAddUp w.store) (fun _ op hw h => h.step hw op) .init ops

theorem Registered.run (ops : List Operation) : Registered (World.run R ops).store :=
  WellFormed.run_invariant (P := fun w => Registered w.store) (fun _ op hw h => h.step hw op) .init ops

theorem KeysFiled.run (ops : List Operation) : KeysFiled (World.run R ops).store :=
  WellFormed.run_invariant (P := fun w => KeysFiled w.store) (fun _ op hw h => h.step hw op) .init ops

end ExpenseSettlement

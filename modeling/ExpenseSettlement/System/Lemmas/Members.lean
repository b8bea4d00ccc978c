import ExpenseSettlement.Services.Lemmas.Splits
import ExpenseSettlement.System.Lemmas.WellFormed

/-!
# Who an expense names

The members of a group are never fewer. An equal split names the members, and the other modes name
whom the client names.
-/

namespace ExpenseSettlement

open Lib

variable {R : Runtime} {w w' : World} {req : CreateExpense} {splits : List Split}

/-! ## Membership grows -/

def GroupsGrow (S S' : InMemoryStore) : Prop :=
  ∀ id group, S.groups.get? id = some group →
    ∃ group', S'.groups.get? id = some group' ∧ group.memberIds ⊆ group'.memberIds

theorem GroupsGrow.of_eq {S S' : InMemoryStore} (h : S'.groups = S.groups) : GroupsGrow S S' := by
  intro id group hg
  exact ⟨group, by rw [h]; exact hg, fun _ hm => hm⟩

theorem createUser_groups (name email : String) (w : World) :
    (GroupService.createUser R name email w).2.store.groups = w.store.groups := by
  simp only [GroupService.createUser, InMemoryStore.createUser]
  split <;> rfl

theorem addMember_grows (groupId userId : String) (w : World) :
    GroupsGrow w.store (GroupService.addMember R groupId userId w).2.store := by
  simp only [GroupService.addMember]
  cases hg : w.store.groups.get? groupId with
  | none => exact .of_eq rfl
  | some grp =>
      cases w.store.users.get? userId with
      | none => exact .of_eq rfl
      | some user =>
          simp only [InMemoryStore.addMember, hg]
          split
          · exact .of_eq rfl
          · intro id group hid
            by_cases hi : groupId = id
            · subst hi
              obtain rfl : grp = group := Option.some.inj (hg.symm.trans hid)
              exact ⟨_, Dict.get?_set_self _ _ _, fun _ hm => List.mem_append_left _ hm⟩
            · exact ⟨group, by rw [Dict.get?_set, if_neg hi]; exact hid, fun _ hm => hm⟩

theorem WellFormed.createGroup_grows (h : WellFormed R w) (name : String) :
    GroupsGrow w.store (GroupService.createGroup R name w).2.store := by
  intro id group hid
  refine ⟨group, ?_, fun _ hm => hm⟩
  have hne : R.uuid4 w.draws.uuids ≠ id := by
    rintro rfl
    exact WellFormed.fresh h.group_issued (Nat.le_refl _) (Dict.mem_keys_of_get? hid)
  simp only [GroupService.createGroup, InMemoryStore.createGroup]
  rw [Dict.get?_set, if_neg hne]
  exact hid

theorem WellFormed.step_grows (h : WellFormed R w) (op : Operation) :
    GroupsGrow w.store (w.step R op).store := by
  cases op with
  | createUser name email => exact .of_eq (createUser_groups name email w)
  | createGroup name => exact h.createGroup_grows name
  | addMember groupId userId => exact addMember_grows groupId userId w
  | createExpense req =>
      rcases createExpense_cases R req w with ⟨e, w', he, hr⟩ | ⟨splits, -, he⟩
      · exact .of_eq (by rw [World.step, he, hr.eq])
      · exact .of_eq (by rw [World.step, he, accept_groups])
  | settlementRequested groupId =>
      rcases handleSettlement_cases h.worker_heads groupId with ⟨-, he⟩ | ⟨-, e, he⟩ | ⟨result, acc, -, he⟩
      · exact .of_eq (by rw [World.step, he])
      · exact .of_eq (by rw [World.step, he])
      · exact .of_eq (by rw [World.step, he]; rfl)

/-! ## Participants -/

def ExpenseRecord.participants (e : ExpenseRecord) : List String := e.payerId :: e.splits.map (·.userId)

/-- The payer and everybody with a share are members of the expense's group. -/
def NamesMembers (S : InMemoryStore) (e : ExpenseRecord) : Prop :=
  ∃ group, S.groups.get? e.groupId = some group ∧ e.participants ⊆ group.memberIds

theorem NamesMembers.mono {S S' : InMemoryStore} (hg : GroupsGrow S S') {e : ExpenseRecord}
    (h : NamesMembers S e) : NamesMembers S' e := by
  obtain ⟨group, hid, hsub⟩ := h
  obtain ⟨group', hid', hsub'⟩ := hg _ _ hid
  exact ⟨group', hid', fun u hu => hsub' (hsub hu)⟩

/-- Everybody that an exact or a percentage split of the request names is a member of its group. -/
def ListsMembers (S : InMemoryStore) (req : CreateExpense) : Prop :=
  req.splitType = "EXACT" ∨ req.splitType = "PERCENTAGE" →
    ∃ group, S.groups.get? req.groupId = some group ∧
      ∀ s ∈ req.splitsInput.getD [], s.userId ∈ group.memberIds

theorem userIds_computeSplits {memberIds : List String} (h : computeSplits R req memberIds = .ok splits) :
    (req.splitType = "EQUAL" ∧ splits.map (·.userId) = memberIds) ∨
    ((req.splitType = "EXACT" ∨ req.splitType = "PERCENTAGE") ∧
      splits.map (·.userId) = (req.splitsInput.getD []).map (·.userId)) := by
  rcases computeSplits_cases h with ⟨hequal, rfl⟩ | ⟨inputs, hne, hi, ⟨hexact, hx⟩ | ⟨hpct, hp⟩⟩
  · exact .inl ⟨hequal, userIds_splitEqual _ _⟩
  · refine .inr ⟨.inl hexact, ?_⟩
    rw [(splitExact_ok hx).1, hi, List.map_map]
    rfl
  · refine .inr ⟨.inr hpct, ?_⟩
    obtain ⟨pre, last, hinputs, -, rfl⟩ := splitPercentage_ok hne hp
    rw [userIds_percentSplits, hi, hinputs]
    rfl

theorem namesMembers_newExpense_iff (ha : Accepts R req w splits)
    (hf : w.store.existing req.idempotencyKey = none) :
    NamesMembers w.store (w.newExpense R req splits) ↔ ListsMembers w.store req := by
  obtain ⟨-, group, hg, hp, hc⟩ := validate_ok ha.1
  have hnames : NamesMembers w.store (w.newExpense R req splits) ↔
      ∀ u ∈ splits.map (·.userId), u ∈ group.memberIds := by
    rw [NamesMembers, ExpenseRecord.participants, newExpense_groupId hf, newExpense_payerId hf,
      newExpense_splits hf, hg]
    constructor
    · rintro ⟨_, ⟨⟩, hsub⟩ u hu
      exact hsub (List.mem_cons_of_mem _ hu)
    · intro hu
      exact ⟨group, rfl, List.cons_subset.mpr ⟨hp, hu⟩⟩
  rw [hnames, ListsMembers, hg]
  rcases userIds_computeSplits hc with ⟨hequal, hu⟩ | ⟨hmode, hu⟩
  · rw [hu, hequal]
    simp
  · rw [hu]
    simp [hmode]

/-- Under a used key the expense that is answered with is a stored one. -/
theorem namesMembers_of_existing (hw : WellFormed R w)
    (hall : ∀ e ∈ w.store.expenses.values, NamesMembers w.store e) {e : ExpenseRecord}
    (he : w.store.existing req.idempotencyKey = some e) :
    NamesMembers w.store (w.newExpense R req splits) := by
  rw [newExpense_of_existing he]
  exact hall e (Dict.mem_values.mpr ⟨_, hw.existing_id he⟩)

theorem namesMembers_accept_iff (hw : WellFormed R w)
    (hall : ∀ e ∈ w.store.expenses.values, NamesMembers w.store e) (ha : Accepts R req w splits) :
    (∀ e ∈ (w.accept R req splits).store.expenses.values,
      NamesMembers (w.accept R req splits).store e) ↔
    (w.store.existing req.idempotencyKey = none → ListsMembers w.store req) := by
  have hsame : ∀ e, NamesMembers (w.accept R req splits).store e ↔ NamesMembers w.store e := by
    intro e
    rw [NamesMembers, accept_groups]
    rfl
  constructor
  · intro h hf
    refine (namesMembers_newExpense_iff ha hf).mp ((hsame _).mp (h _ ?_))
    rw [accept_expenses]
    exact Dict.mem_values.mpr ⟨_, Dict.get?_set_self _ _ _⟩
  · intro h e he
    obtain ⟨id, hid⟩ := Dict.mem_values.mp he
    rw [accept_expenses] at hid
    rw [hsame]
    rcases Dict.of_get?_set hid with ⟨-, rfl⟩ | hold
    · cases hx : w.store.existing req.idempotencyKey with
      | none => exact (namesMembers_newExpense_iff ha hx).mpr (h hx)
      | some x => exact namesMembers_of_existing hw hall hx
    · exact hall e (Dict.mem_values.mpr ⟨id, hold⟩)

end ExpenseSettlement

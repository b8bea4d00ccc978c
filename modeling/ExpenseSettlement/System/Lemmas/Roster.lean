import ExpenseSettlement.System.Lemmas.Store

/-!
# Who is listed as a member

Users stay as they are, and a new member is listed after the others.
-/

namespace ExpenseSettlement

open Lib

variable {R : Runtime} {w w' : World} {S S' S'' : InMemoryStore}

/-! ## Users -/

/-- Users are filed under their own ids, which have been drawn. -/
structure UsersFiled (R : Runtime) (w : World) : Prop where
  issued : ∀ id ∈ w.store.users.keys, R.Issued 0 w.draws.uuids id
  own : ∀ id user, w.store.users.get? id = some user → user.id = id

theorem UsersFiled.init : UsersFiled R .init where
  issued := fun _ h => by cases h
  own := fun _ _ h => by cases h

theorem UsersFiled.congr (h : UsersFiled R w) (hd : w.draws.uuids ≤ w'.draws.uuids)
    (hu : w'.store.users = w.store.users) : UsersFiled R w' := by
  refine ⟨?_, ?_⟩
  · rw [hu]
    exact .all_mono h.issued hd
  · rw [hu]
    exact h.own

/-! ## What the operations add -/

/-- No user changes, and every list of members is kept as the front of the new one. -/
structure RosterGrows (S S' : InMemoryStore) : Prop where
  users : ∀ id user, S.users.get? id = some user → S'.users.get? id = some user
  groups : ∀ id group, S.groups.get? id = some group →
    ∃ group', S'.groups.get? id = some group' ∧ group.memberIds <+: group'.memberIds

namespace RosterGrows

theorem of_eq (hu : S'.users = S.users) (hg : S'.groups = S.groups) : RosterGrows S S' where
  users := fun _ _ h => by rw [hu]; exact h
  groups := fun _ group h => ⟨group, by rw [hg]; exact h, List.prefix_refl _⟩

theorem refl (S : InMemoryStore) : RosterGrows S S := .of_eq rfl rfl

theorem trans (h : RosterGrows S S') (h' : RosterGrows S' S'') : RosterGrows S S'' where
  users := fun id user hid => h'.users id user (h.users id user hid)
  groups := by
    intro id group hid
    obtain ⟨group', hid', hfront⟩ := h.groups id group hid
    obtain ⟨group'', hid'', hfront'⟩ := h'.groups id group' hid'
    exact ⟨group'', hid'', hfront.trans hfront'⟩

theorem addMember (groupId userId : String) (S : InMemoryStore) :
    RosterGrows S (S.addMember groupId userId).2 := by
  rw [InMemoryStore.addMember]
  cases hg : S.groups.get? groupId with
  | none => exact .refl S
  | some grp =>
      dsimp only
      split
      · exact .refl S
      · refine ⟨fun _ _ h => h, fun id group hid => ?_⟩
        by_cases hi : groupId = id
        · subst hi
          obtain rfl : grp = group := Option.some.inj (hg.symm.trans hid)
          exact ⟨_, Dict.get?_set_self _ _ _, List.prefix_append _ _⟩
        · exact ⟨group, by rw [Dict.get?_set, if_neg hi]; exact hid, List.prefix_refl _⟩

end RosterGrows

theorem UsersFiled.createUser (h : UsersFiled R w) (name email : String) :
    UsersFiled R (GroupService.createUser R name email w).2 ∧
      RosterGrows w.store (GroupService.createUser R name email w).2.store := by
  rw [GroupService.createUser, InMemoryStore.createUser]
  by_cases hm : w.store.users.values.any (·.email = email)
  · rw [if_pos hm]
    exact ⟨h, .refl _⟩
  · rw [if_neg hm]
    refine ⟨⟨?_, ?_⟩, ⟨?_, fun _ group hid => ⟨group, hid, List.prefix_refl _⟩⟩⟩
    · intro id hid
      rcases Dict.mem_keys_set.mp hid with rfl | hid
      · exact ⟨w.draws.uuids, Nat.zero_le _, Nat.lt_succ_self _, rfl⟩
      · exact (h.issued id hid).mono (Nat.le_refl _) (Nat.le_succ _)
    · intro id user hid
      rcases Dict.of_get?_set hid with ⟨rfl, rfl⟩ | hold
      · rfl
      · exact h.own id user hold
    · intro id user hid
      have hne : R.uuid4 w.draws.uuids ≠ id := by
        rintro rfl
        exact WellFormed.fresh h.issued (Nat.le_refl _) (Dict.mem_keys_of_get? hid)
      dsimp only
      rw [Dict.get?_set, if_neg hne]
      exact hid

theorem WellFormed.createGroup_roster (h : WellFormed R w) (name : String) :
    RosterGrows w.store (GroupService.createGroup R name w).2.store := by
  refine ⟨fun _ _ hid => hid, fun id group hid => ⟨group, ?_, List.prefix_refl _⟩⟩
  have hne : R.uuid4 w.draws.uuids ≠ id := by
    rintro rfl
    exact WellFormed.fresh h.group_issued (Nat.le_refl _) (Dict.mem_keys_of_get? hid)
  simp only [GroupService.createGroup, InMemoryStore.createGroup]
  rw [Dict.get?_set, if_neg hne]
  exact hid

theorem UsersFiled.step (h : UsersFiled R w) (hw : WellFormed R w) (op : Operation) :
    UsersFiled R (w.step R op) ∧ RosterGrows w.store (w.step R op).store := by
  -- apart from new users and groups and from members who join, only expenses and settlements change
  have hsame : (w.step R op).store.users = w.store.users → (w.step R op).store.groups = w.store.groups →
      UsersFiled R (w.step R op) ∧ RosterGrows w.store (w.step R op).store := fun hu hg =>
    ⟨h.congr (World.step_draws hw.worker_heads op) hu, .of_eq hu hg⟩
  cases op with
  | createUser name email => exact h.createUser name email
  | createGroup name => exact ⟨h.congr (Nat.le_succ _) rfl, hw.createGroup_roster name⟩
  | addMember groupId userId =>
      rw [World.step, GroupService.addMember]
      cases w.store.groups.get? groupId with
      | none => exact ⟨h, .refl _⟩
      | some group =>
          cases w.store.users.get? userId with
          | none => exact ⟨h, .refl _⟩
          | some user =>
              refine ⟨h.congr (Nat.le_refl _) ?_, .addMember groupId userId w.store⟩
              dsimp only
              rw [InMemoryStore.addMember]
              cases w.store.groups.get? groupId with
              | none => rfl
              | some group =>
                  dsimp only
                  split
                  · rfl
                  · rfl
  | createExpense req =>
      rcases createExpense_cases R req w with ⟨e, w', he, hr⟩ | ⟨splits, -, he⟩
      · exact hsame (by rw [World.step, he, hr.eq]) (by rw [World.step, he, hr.eq])
      · exact hsame (by rw [World.step, he, accept_users]) (by rw [World.step, he, accept_groups])
  | settlementRequested groupId =>
      rcases handleSettlement_cases hw.worker_heads groupId with ⟨-, he⟩ | ⟨-, e, he⟩ | ⟨result, acc, -, he⟩
      · exact hsame (by rw [World.step, he]) (by rw [World.step, he])
      · exact hsame (by rw [World.step, he]) (by rw [World.step, he])
      · exact hsame (by rw [World.step, he]; rfl) (by rw [World.step, he]; rfl)

/-! ## Runs -/

theorem UsersFiled.run (ops : List Operation) : UsersFiled R (World.run R ops) :=
  WellFormed.run_invariant (fun _ op hw h => (h.step hw op).1) .init ops

theorem run_rosterGrows (h : UsersFiled R w) (hw : WellFormed R w) (ops : List Operation) :
    RosterGrows w.store (Lib.run (World.step R) w ops).store := by
  have hinv : (UsersFiled R (Lib.run (World.step R) w ops) ∧ WellFormed R (Lib.run (World.step R) w ops)) ∧
      RosterGrows w.store (Lib.run (World.step R) w ops).store := by
    apply run_invariant fun w' => (UsersFiled R w' ∧ WellFormed R w') ∧ RosterGrows w.store w'.store
    · rintro w' op ⟨⟨h', hw'⟩, hgrows⟩
      obtain ⟨hfiled, hmore⟩ := h'.step hw' op
      exact ⟨⟨hfiled, hw'.step op⟩, hgrows.trans hmore⟩
    · exact ⟨⟨h, hw⟩, .refl _⟩
  exact hinv.2

/-! ## The listed members -/

/-- Every member is found. -/
theorem getMembers_ids (h : UsersFiled R w) (hr : Registered w.store) {groupId : String} {group : GroupRecord}
    (hg : w.store.groups.get? groupId = some group) :
    (GroupService.getMembers groupId w).map (·.id) = group.memberIds := by
  have hfound := (hr.groups groupId group hg).users
  simp only [GroupService.getMembers, hg]
  generalize group.memberIds = ids at hfound
  induction ids with
  | nil => rfl
  | cons id ids ih =>
      rw [List.forall_mem_cons] at hfound
      obtain ⟨user, huser⟩ := Dict.mem_keys.mp hfound.1
      rw [List.filterMap_cons_some huser, List.map_cons, ih hfound.2, h.own id user huser]

theorem RosterGrows.getMembers (h : RosterGrows w.store w'.store) (hr : Registered w.store)
    (groupId : String) :
    GroupService.getMembers groupId w <+: GroupService.getMembers groupId w' := by
  cases hg : w.store.groups.get? groupId with
  | none => simp only [GroupService.getMembers, hg, List.nil_prefix]
  | some group =>
      obtain ⟨group', hg', rest, hrest⟩ := h.groups groupId group hg
      have hsame : group.memberIds.filterMap w'.store.users.get? =
          group.memberIds.filterMap w.store.users.get? := by
        refine List.filterMap_congr fun id hid => ?_
        obtain ⟨user, huser⟩ := Dict.mem_keys.mp ((hr.groups groupId group hg).users id hid)
        rw [huser, h.users id user huser]
      simp only [GroupService.getMembers, hg, hg']
      rw [← hrest, List.filterMap_append, hsame]
      exact List.prefix_append _ _

end ExpenseSettlement

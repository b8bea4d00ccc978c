import ExpenseSettlement.Core.Lemmas.Occ
import Mathlib.Algebra.BigOperators.Group.Finset.Basic
import Mathlib.Data.Fintype.Card

/-!
# Why a task gives up

A task meets a conflict only where somebody has swapped since it read, so every attempt of its own is
paid for by a swap of another's. Every step brings a task nearer to its end.
-/

namespace ExpenseSettlement

open Lib

variable {ι : Type} [DecidableEq ι] {userId : String} {task : ι → OccTask} {s : OccState ι}
  {account e : OCCVersionedEntity ℤ} {t : OccTask} {before after : OccPhase}

/-! ## What a step can do -/

def OccPhase.Ended : OccPhase → Prop
  | .returned _ | .raised _ => True
  | .ready _ | .snapshot _ _ _ | .located _ _ | .reread _ _ _ | .backoff _ => False

/-- The attempt and the version with which the task is about to swap. -/
def OccPhase.swapping (body : OccBody) : OccPhase → Option (Nat × Nat)
  | .snapshot attempt _ version =>
      match body with
      | .compareAndSwap => some (attempt, version)
      | .applyDelta => none
  | .reread attempt version _ => some (attempt, version)
  | .ready _ | .located _ _ | .backoff _ | .returned _ | .raised _ => none

/-- The steps that leave the account as it is. -/
inductive OccMove (t : OccTask) (e : OCCVersionedEntity ℤ) : OccPhase → OccPhase → Prop
  | read (attempt : Nat) : OccMove t e (.ready attempt) (.snapshot attempt e.value e.version)
  | locate {attempt version : Nat} {value : ℤ} (hbody : t.body = .applyDelta) :
      OccMove t e (.snapshot attempt value version) (.located attempt version)
  | reread (attempt version : Nat) : OccMove t e (.located attempt version) (.reread attempt version e.value)
  | conflict {phase : OccPhase} {attempt version : Nat} (exc : OptimisticLockConflictError)
      (hswap : phase.swapping t.body = some (attempt, version)) (hversion : version ≠ e.version) :
      OccMove t e phase (.afterConflict t.maxRetries attempt exc)
  | retry (attempt : Nat) : OccMove t e (.backoff attempt) (.ready (attempt + 1))
  | ended {phase : OccPhase} (hended : phase.Ended) : OccMove t e phase phase

/-- A step of task `i` that leaves the account as it is. -/
structure Moved (userId : String) (t : OccTask) (e : OCCVersionedEntity ℤ) (i : ι) (s s' : OccState ι) :
    Prop where
  move : OccMove t e (s.phase i) (s'.phase i)
  others : ∀ j, j ≠ i → s'.phase j = s.phase j
  stored : s'.store.entities.get? userId = some e

/-- A step in which task `i` swaps. -/
structure Swapped (userId : String) (t : OccTask) (e : OCCVersionedEntity ℤ) (i : ι) (s s' : OccState ι)
    (newValue : ℤ) : Prop where
  swapping : ∃ attempt, (s.phase i).swapping t.body = some (attempt, e.version)
  phase : s'.phase i = .returned (e.version + 1)
  others : ∀ j, j ≠ i → s'.phase j = s.phase j
  stored : s'.store.entities.get? userId =
    some { e with value := newValue, version := e.version + 1 }

theorem moved_goto {i : ι} {phase : OccPhase} {s' : OccState ι}
    (hs : s'.phase = Function.update s.phase i phase) (he : s'.store.entities.get? userId = some e)
    (hmove : OccMove t e (s.phase i) phase) : Moved userId t e i s s' where
  move := by
    rw [hs, Function.update_self]
    exact hmove
  others := by
    intro j hj
    rw [hs, Function.update_of_ne hj]
  stored := he

theorem swap_cases {i : ι} {attempt version : Nat} {newValue : ℤ}
    (he : s.store.entities.get? userId = some e)
    (hswap : (s.phase i).swapping t.body = some (attempt, version)) :
    Moved userId t e i s (s.swap userId t i attempt version newValue e) ∨
      Swapped userId t e i s (s.swap userId t i attempt version newValue e) newValue := by
  by_cases hversion : version = e.version
  · refine .inr ?_
    simp only [OccState.swap, OCCVersionedEntity.compareAndSwap_of_eq hversion]
    refine ⟨⟨attempt, hversion ▸ hswap⟩, Function.update_self _ _ _, fun j hj => ?_, ?_⟩
    · exact Function.update_of_ne hj _ _
    · exact Dict.get?_set_self _ _ _
  · refine .inl ?_
    simp only [OccState.swap, OCCVersionedEntity.compareAndSwap_of_ne hversion]
    exact moved_goto rfl he (.conflict _ hswap hversion)

theorem OccState.step_cases (task : ι → OccTask) (i : ι) (he : s.store.entities.get? userId = some e) :
    Moved userId (task i) e i s (s.step userId task i) ∨
      ∃ newValue, Swapped userId (task i) e i s (s.step userId task i) newValue := by
  cases hi : s.phase i with
  | ready attempt =>
      refine .inl ?_
      simp only [OccState.step, hi, he]
      exact moved_goto rfl he (by rw [hi]; exact .read attempt)
  | snapshot attempt value version =>
      cases hb : (task i).body with
      | compareAndSwap =>
          simp only [OccState.step, hi, he, hb]
          exact (swap_cases he (by simp only [hi, hb, OccPhase.swapping])).imp_right fun h => ⟨_, h⟩
      | applyDelta =>
          refine .inl ?_
          simp only [OccState.step, hi, he, hb, getOrCreate_of_some he]
          exact moved_goto rfl he (by rw [hi]; exact .locate hb)
  | located attempt version =>
      refine .inl ?_
      simp only [OccState.step, hi, he]
      exact moved_goto rfl he (by rw [hi]; exact .reread attempt version)
  | reread attempt version currentVal =>
      simp only [OccState.step, hi, he]
      exact (swap_cases he (by simp only [hi, OccPhase.swapping])).imp_right fun h => ⟨_, h⟩
  | backoff attempt =>
      refine .inl ?_
      simp only [OccState.step, hi]
      exact moved_goto rfl he (by rw [hi]; exact .retry attempt)
  | returned newVersion =>
      refine .inl ?_
      simp only [OccState.step, hi]
      exact ⟨.ended (by rw [hi]; trivial), fun _ _ => rfl, he⟩
  | raised error =>
      refine .inl ?_
      simp only [OccState.step, hi]
      exact ⟨.ended (by rw [hi]; trivial), fun _ _ => rfl, he⟩

/-! ## Every conflict is a swap of another's -/

/-- The account has been swapped once for every attempt of the task's. -/
def OccPhase.Outrun (t : OccTask) (account e : OCCVersionedEntity ℤ) : OccPhase → Prop
  | .ready attempt => account.version + attempt ≤ e.version
  | .snapshot attempt _ version | .located attempt version | .reread attempt version _ =>
      account.version + attempt ≤ version ∧ version ≤ e.version
  | .backoff attempt => account.version + attempt + 1 ≤ e.version
  | .returned _ => True
  | .raised _ => account.version + t.maxRetries + 1 ≤ e.version

theorem OccPhase.Outrun.swapping {phase : OccPhase} {attempt version : Nat}
    (h : phase.Outrun t account e) (hswap : phase.swapping t.body = some (attempt, version)) :
    account.version + attempt ≤ version ∧ version ≤ e.version := by
  cases phase with
  | snapshot a value v =>
      simp only [OccPhase.swapping] at hswap
      split at hswap
      · cases hswap
        exact h
      · cases hswap
  | reread a v currentVal =>
      cases hswap
      exact h
  | ready a | located a v | backoff a | returned v | raised error => cases hswap

theorem OccPhase.Outrun.mono {e' : OCCVersionedEntity ℤ} {phase : OccPhase}
    (h : phase.Outrun t account e) (hle : e.version ≤ e'.version) : phase.Outrun t account e' := by
  cases phase with
  | ready attempt | backoff attempt | raised error => exact Nat.le_trans h hle
  | snapshot attempt value version | located attempt version | reread attempt version currentVal =>
      exact ⟨h.1, h.2.trans hle⟩
  | returned newVersion => trivial

theorem OccMove.outrun (h : before.Outrun t account e) (hmove : OccMove t e before after) :
    after.Outrun t account e := by
  cases hmove with
  | read attempt => exact ⟨h, Nat.le_refl _⟩
  | locate hbody => exact h
  | reread attempt version => exact h
  | retry attempt => exact h
  | ended hended => exact h
  | @conflict _ attempt version exc hswap hversion =>
      obtain ⟨hattempt, hle⟩ := h.swapping hswap
      unfold OccPhase.afterConflict
      split
      · simp only [OccPhase.Outrun]
        omega
      · simp only [OccPhase.Outrun]
        omega

/-! ## Every step is one fewer to go -/

/-- How many steps a task takes at most until it ends: four for an attempt and one to come back. -/
def OccPhase.stepsLeft (maxRetries : Nat) : OccPhase → Nat
  | .ready attempt => 5 * (maxRetries - attempt) + 4
  | .snapshot attempt _ _ => 5 * (maxRetries - attempt) + 3
  | .located attempt _ => 5 * (maxRetries - attempt) + 2
  | .reread attempt _ _ => 5 * (maxRetries - attempt) + 1
  | .backoff attempt => 5 * (maxRetries - attempt)
  | .returned _ | .raised _ => 0

theorem stepsLeft_swapping {phase : OccPhase} {attempt version : Nat}
    (hswap : phase.swapping t.body = some (attempt, version)) :
    5 * (t.maxRetries - attempt) < phase.stepsLeft t.maxRetries := by
  cases phase with
  | snapshot a value v =>
      simp only [OccPhase.swapping] at hswap
      split at hswap
      · cases hswap
        simp only [OccPhase.stepsLeft]
        omega
      · cases hswap
  | reread a v currentVal =>
      cases hswap
      simp only [OccPhase.stepsLeft]
      omega
  | ready a | located a v | backoff a | returned v | raised error => cases hswap

theorem OccMove.stepsLeft_lt {runs : Nat} (h : before.Fits t e runs) (hmove : OccMove t e before after) :
    before.Ended ∨ after.stepsLeft t.maxRetries < before.stepsLeft t.maxRetries := by
  cases hmove with
  | ended hended => exact .inl hended
  | read attempt | locate hbody | reread attempt version =>
      right
      simp only [OccPhase.stepsLeft]
      omega
  | retry attempt =>
      obtain ⟨-, hlt⟩ := h
      right
      simp only [OccPhase.stepsLeft]
      omega
  | @conflict _ attempt version exc hswap hversion =>
      have hlt := stepsLeft_swapping hswap
      right
      unfold OccPhase.afterConflict
      split
      · exact Nat.zero_lt_of_lt hlt
      · exact hlt

theorem OccMove.ended_of_ended (h : before.Ended) (hmove : OccMove t e before after) : after.Ended := by
  cases hmove with
  | ended hended => exact hended
  | read attempt | locate hbody | reread attempt version | retry attempt => cases h
  | conflict exc hswap hversion =>
      rename_i attempt version
      cases before with
      | returned v | raised error => cases hswap
      | ready a | snapshot a value v | located a v | reread a v currentVal | backoff a => cases h

/-! ## Runs -/

/-- The tasks as they race for the account. -/
structure Racing (userId : String) (task : ι → OccTask) (account e : OCCVersionedEntity ℤ)
    (s : OccState ι) : Prop extends SwapsAdded userId task account e s where
  outrun : ∀ i, (s.phase i).Outrun (task i) account e

namespace Racing

theorem start (task : ι → OccTask) {store : OCCBalanceStore} (h : store.entities.get? userId = some e) :
    Racing userId task e e (.start store) :=
  ⟨.start task h, fun _ => Nat.le_refl _⟩

theorem step (h : Racing userId task account e s) (i : ι) :
    ∃ e', Racing userId task account e' (s.step userId task i) := by
  obtain ⟨e', hadded⟩ := h.toSwapsAdded.step i
  refine ⟨e', hadded, ?_⟩
  rcases OccState.step_cases task i h.stored with hm | ⟨newValue, hs⟩
  · obtain rfl : e = e' := Option.some.inj (hm.stored.symm.trans hadded.stored)
    intro j
    rcases eq_or_ne j i with rfl | hj
    · exact hm.move.outrun (h.outrun j)
    · rw [hm.others j hj]
      exact h.outrun j
  · obtain rfl := Option.some.inj (hs.stored.symm.trans hadded.stored)
    intro j
    rcases eq_or_ne j i with rfl | hj
    · rw [hs.phase]
      trivial
    · rw [hs.others j hj]
      exact (h.outrun j).mono (Nat.le_succ _)

/-- A task that is scheduled has one step fewer to go, and the others have as many as before. -/
theorem step_stepsLeft (h : Racing userId task account e s) (i j : ι) :
    ((s.step userId task j).phase i).Ended ∨ ¬ (s.phase i).Ended ∧
      ((s.step userId task j).phase i).stepsLeft (task i).maxRetries + (if j = i then 1 else 0) ≤
        (s.phase i).stepsLeft (task i).maxRetries := by
  rcases OccState.step_cases task j h.stored with hm | ⟨newValue, hs⟩
  · rcases eq_or_ne i j with rfl | hne
    · rcases hm.move.stepsLeft_lt (h.fits i) with hended | hlt
      · exact .inl (hm.move.ended_of_ended hended)
      · rcases em ((s.phase i).Ended) with hended | hrunning
        · exact .inl (hm.move.ended_of_ended hended)
        · refine .inr ⟨hrunning, ?_⟩
          rw [if_pos rfl]
          exact hlt
    · rw [hm.others i hne, if_neg hne.symm, Nat.add_zero]
      rcases em ((s.phase i).Ended) with hended | hrunning
      · exact .inl hended
      · exact .inr ⟨hrunning, Nat.le_refl _⟩
  · rcases eq_or_ne i j with rfl | hne
    · rw [hs.phase]
      exact .inl trivial
    · rw [hs.others i hne, if_neg hne.symm, Nat.add_zero]
      rcases em ((s.phase i).Ended) with hended | hrunning
      · exact .inl hended
      · exact .inr ⟨hrunning, Nat.le_refl _⟩

theorem run (h : Racing userId task account e s) (schedule : List ι) :
    ∃ e', Racing userId task account e' (Lib.run (OccState.step userId task) s schedule) :=
  run_invariant (fun s => ∃ e, Racing userId task account e s) (fun _ i ⟨_, h⟩ => h.step i) ⟨e, h⟩ schedule

theorem run_stepsLeft {store : OCCBalanceStore} (h : Racing userId task account e (.start store))
    (schedule : List ι) (i : ι) :
    ((Lib.run (OccState.step userId task) (.start store) schedule).phase i).Ended ∨
      ((Lib.run (OccState.step userId task) (.start store) schedule).phase i).stepsLeft
        (task i).maxRetries + schedule.count i ≤ 5 * (task i).maxRetries + 4 := by
  induction schedule using List.reverseRecOn with
  | nil => exact .inr (Nat.le_refl _)
  | append_singleton pre j ih =>
      obtain ⟨e', h'⟩ := h.run pre
      have hcount : (pre ++ [j]).count i = pre.count i + if j = i then 1 else 0 := by
        rw [List.count_append, List.count_singleton]
        simp only [beq_iff_eq]
      rw [run_concat, hcount]
      rcases h'.step_stepsLeft i j with hended | ⟨hrunning, hle⟩
      · exact .inl hended
      · have hpre := ih.resolve_left hrunning
        exact .inr (by omega)

/-- A task that has taken as many steps as it has at most has ended. -/
theorem run_ended {store : OCCBalanceStore} (h : Racing userId task account e (.start store))
    {schedule : List ι} {i : ι} (hcount : 5 * (task i).maxRetries + 4 ≤ schedule.count i) :
    ((Lib.run (OccState.step userId task) (.start store) schedule).phase i).Ended := by
  rcases h.run_stepsLeft schedule i with hended | hle
  · exact hended
  · obtain ⟨e', h'⟩ := h.run schedule
    have hfits := h'.fits i
    generalize (Lib.run (OccState.step userId task) (.start store) schedule).phase i = phase at hle hfits ⊢
    cases phase with
    | returned newVersion | raised error => trivial
    | ready attempt | snapshot attempt value version | located attempt version
    | reread attempt version currentVal =>
        simp only [OccPhase.stepsLeft] at hle
        omega
    | backoff attempt =>
        obtain ⟨-, hlt⟩ := hfits
        simp only [OccPhase.stepsLeft] at hle
        omega

/-! ## Who has swapped -/

theorem swapped_nodup (h : Racing userId task account e s) : s.swapped.Nodup := by
  rw [List.nodup_iff_count_le_one]
  intro i
  rw [h.counted]
  cases s.phase i with
  | returned newVersion => exact Nat.le_refl _
  | ready _ | snapshot _ _ _ | located _ _ | reread _ _ _ | backoff _ | raised _ => exact Nat.zero_le _

theorem mem_swapped_iff (h : Racing userId task account e s) {i : ι} :
    i ∈ s.swapped ↔ ∃ newVersion, s.phase i = .returned newVersion := by
  rw [← List.count_pos_iff, h.counted]
  cases s.phase i with
  | returned newVersion => exact iff_of_true Nat.zero_lt_one ⟨newVersion, rfl⟩
  | ready _ | snapshot _ _ _ | located _ _ | reread _ _ _ | backoff _ | raised _ =>
      exact iff_of_false (Nat.lt_irrefl 0) nofun

theorem outrun_of_raised (h : Racing userId task account e s) {i : ι} {error : MaxRetriesExceededError}
    (hi : s.phase i = .raised error) : (task i).maxRetries + 1 ≤ s.swapped.length ∧ i ∉ s.swapped := by
  have houtrun := h.outrun i
  rw [hi] at houtrun
  simp only [OccPhase.Outrun, h.version] at houtrun
  refine ⟨by omega, fun hm => ?_⟩
  obtain ⟨newVersion, hreturned⟩ := h.mem_swapped_iff.mp hm
  rw [hi] at hreturned
  cases hreturned

/-- Nobody is outrun by more tasks than there are. -/
theorem not_raised [Fintype ι] (h : Racing userId task account e s) {i : ι}
    (hretries : Fintype.card ι ≤ (task i).maxRetries + 1) (error : MaxRetriesExceededError) :
    s.phase i ≠ .raised error := by
  intro hi
  obtain ⟨hle, hnot⟩ := h.outrun_of_raised hi
  have hlt : s.swapped.length < Fintype.card ι := by
    rw [← List.toFinset_card_of_nodup h.swapped_nodup, ← Finset.card_univ]
    apply Finset.card_lt_card
    rw [Finset.ssubset_univ_iff]
    intro huniv
    exact hnot (List.mem_toFinset.mp (huniv ▸ Finset.mem_univ i))
  omega

/-- Once every task has returned, the account has all deltas. -/
theorem sum_of_returned [Fintype ι] (h : Racing userId task account e s)
    (hall : ∀ i, ∃ newVersion, s.phase i = .returned newVersion) :
    e.value = account.value + ∑ i, (task i).deltaCents ∧
      e.version = account.version + Fintype.card ι := by
  have huniv : s.swapped.toFinset = Finset.univ :=
    Finset.eq_univ_of_forall fun i => List.mem_toFinset.mpr (h.mem_swapped_iff.mpr (hall i))
  rw [h.value, h.version, ← List.sum_toFinset _ h.swapped_nodup, huniv,
    ← List.toFinset_card_of_nodup h.swapped_nodup, huniv, Finset.card_univ]
  exact ⟨rfl, rfl⟩

end Racing

end ExpenseSettlement

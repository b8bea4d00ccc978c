import ExpenseSettlement.Lib.Fairness
import ExpenseSettlement.Process.Lemmas.Flow

/-!
# Every event gets on

The first event that is not handled yet is in the worker's hands, or waits in the queue, or is being
published, or is the next to be taken. One kind of step moves it on, whatever the routes append behind.
-/

namespace ExpenseSettlement

open Lib

variable {R : Runtime}

/-- Where an event is that gets no further without help. -/
inductive Stage
  | taking
  | publishing
  | consuming
  | handling
deriving DecidableEq

def ProcessStep.stage {ι : Type} : ProcessStep ι → Option Stage
  | .post .. | .client _ | .balances .. => none
  | .wake => some .taking
  | .put => some .publishing
  | .consume => some .consuming
  | .handle _ => some .handling

def ProcessStep.IsAt {ι : Type} (c : ProcessStep ι) (stage : Stage) : Prop := c.stage = some stage

namespace Process

open Pipeline

variable {ι : Type} [DecidableEq ι] {p : ι → PostExpense} {s s' : Process ι} {n : ℕ}

/-- The stage of the first event that is not handled. -/
def stage (s : Process ι) : Stage :=
  if s.ended.length < s.consumed.length then .handling
  else if s.consumed.length < s.published.length then .consuming
  else if s.published.length < s.pipeline.taken then .publishing
  else .taking

/-- How many stages the first `n` events have behind them. -/
def passed (n : ℕ) (s : Process ι) : ℕ :=
  min n s.ended.length + min n s.consumed.length + min n s.published.length + min n s.pipeline.taken

def eventCount (s : Process ι) : ℕ := s.world.outbox.events.length

/-- Fewer and fewer events have got to the later stages. -/
structure Descends (s : Process ι) : Prop where
  ended : s.ended.length ≤ s.consumed.length
  consumed : s.consumed.length ≤ s.published.length
  published : s.published.length ≤ s.pipeline.taken

omit [DecidableEq ι] in
theorem Orderly.descends (h : s.Orderly R) : s.Descends where
  ended := by simp [Process.consumed]
  consumed := by
    have hlen := h.flowing.length_published
    dsimp only [pipeline] at hlen
    omega
  published := Nat.le_add_right _ _

omit [DecidableEq ι] in
theorem Advances.passed_le (h : s.Advances s') : passed n s ≤ passed n s' := by
  have hended := h.ended.length_le
  have hconsumed := h.consumed
  have hpublished := h.published
  have htaken := h.taken
  rw [passed, passed]
  omega

omit [DecidableEq ι] in
/-- Without progress the first event waits where it was. -/
theorem Advances.stage_eq (h : s.Advances s') (hd : s.Descends) (hd' : s'.Descends)
    (hlt : passed n s < 4 * n) (he : passed n s' = passed n s) : s'.stage = s.stage := by
  have hended := h.ended.length_le
  have hconsumed := h.consumed
  have hpublished := h.published
  have htaken := h.taken
  obtain ⟨hec, hcp, hpt⟩ := hd
  obtain ⟨hec', hcp', hpt'⟩ := hd'
  rw [passed] at hlt
  rw [passed, passed] at he
  have hhandling : s'.ended.length < s'.consumed.length ↔ s.ended.length < s.consumed.length := by omega
  have hconsuming : ¬ s.ended.length < s.consumed.length →
      (s'.consumed.length < s'.published.length ↔ s.consumed.length < s.published.length) := by omega
  have hpublishing : ¬ s.ended.length < s.consumed.length → ¬ s.consumed.length < s.published.length →
      (s'.published.length < s'.pipeline.taken ↔ s.published.length < s.pipeline.taken) := by omega
  rw [stage, stage]
  simp only [hhandling]
  split
  · rfl
  · rename_i hnot
    simp only [hconsuming hnot]
    split
    · rfl
    · rename_i hnot'
      simp only [hpublishing hnot hnot']

/-! ## The step that helps -/

omit [DecidableEq ι] in
theorem Advances.eventCount_le (h : s.Advances s') : s.eventCount ≤ s'.eventCount := by
  have hlen := h.contents.length_le
  rw [Pipeline.contents, Pipeline.contents, List.length_map, List.length_map] at hlen
  exact hlen

omit [DecidableEq ι] in
theorem Orderly.putting_iff (h : s.Orderly R) :
    s.putting = none ↔ s.pipeline.taken = s.published.length := by
  have htaken : s.pipeline.taken = s.published.length + s.pipeline.relays.handled.length := rfl
  constructor
  · intro hnone
    rw [htaken, h.engaged hnone]
    rfl
  · intro he
    cases hput : s.putting with
    | none => rfl
    | some message =>
        obtain ⟨⟨position, count, e, hr, -⟩, -, -⟩ := h.flowing.putting message hput
        rw [htaken, RelayState.handled_publishing hr, List.length_singleton] at he
        omega

theorem ended_lt_handle (R : Runtime) (p : ι → PostExpense) (hs : s.ended.length < s.consumed.length)
    (fails : Option HandlerCall) : s.ended.length < (s.step R p (.handle fails)).ended.length := by
  rcases handle_cases R p s fails with ⟨hc, -⟩ | ⟨m, ok, w, hm⟩
  · simp [Process.consumed, hc] at hs
  · rw [hm.result]
    simp

theorem Orderly.consuming (h : s.Orderly R) (hs : ¬ s.ended.length < s.consumed.length)
    (hq : s.consumed.length < s.published.length) :
    s.consumed.length < (s.step R p .consume).consumed.length := by
  have hlen := h.flowing.length_published
  have hnone : s.current = none := by
    cases hc : s.current with
    | none => rfl
    | some m => simp [Process.consumed, hc] at hs
  rcases consume_cases R p s with ⟨-, hempty⟩ | ⟨m, rest, hc, -, he⟩
  · dsimp only [pipeline] at hlen
    rw [hempty hnone, List.length_nil] at hlen
    omega
  · rw [he]
    simp [Process.consumed, hc]

/-- Everything published has been consumed, so there is room. -/
theorem Orderly.publishing (h : s.Orderly R) (hq : ¬ s.consumed.length < s.published.length)
    (ht : s.published.length < s.pipeline.taken) :
    s.published.length < (s.step R p .put).published.length := by
  have hlen := h.flowing.length_published
  dsimp only [pipeline] at hlen
  have hroom : s.queue.queue.length < queueMaxsize := by
    have hzero : s.queue.queue.length = 0 := by omega
    rw [hzero]
    decide
  have hput : s.putting ≠ none := fun hnone => by
    rw [h.putting_iff.mp hnone] at ht
    omega
  exact (h.flowing.puts h.engaged).publishes hput hroom

theorem Orderly.taking (h : s.Orderly R) (ht : ¬ s.published.length < s.pipeline.taken)
    (hn : s.pipeline.taken < s.eventCount) : s.pipeline.taken < (s.step R p .wake).pipeline.taken := by
  have hwoken := h.flowing.woken h.engaged
  have hpipe : (s.step R p .wake).pipeline = s.pipeline.step R .wake := pipeline_withPipeline hwoken.consumed
  have hevents := h.flowing.length_events
  have hle := h.descends.published
  have hpending : s.pipeline.relays.outbox.pending ≠ [] := by
    intro hnil
    rw [hnil, List.length_nil] at hevents
    exact absurd hevents (ne_of_lt hn)
  rw [hpipe]
  exact hwoken.takes (h.putting_iff.mpr (by omega)) hpending

theorem Orderly.helps (h : s.Orderly R) (hn : n ≤ s.eventCount) (hlt : passed n s < 4 * n)
    {c : ProcessStep ι} (hc : c.IsAt s.stage) : passed n s < passed n (s.step R p c) := by
  obtain ⟨hec, hcp, hpt⟩ := h.descends
  have hstep := (h.step (p := p) c).2
  have hended := hstep.ended.length_le
  have hconsumed := hstep.consumed
  have hpublished := hstep.published
  have htaken := hstep.taken
  rw [ProcessStep.IsAt, stage] at hc
  rw [passed] at hlt ⊢
  rw [passed]
  split at hc
  · rename_i hs
    cases c with
    | handle fails =>
        have hmore := ended_lt_handle R p hs fails
        omega
    | _ => cases hc
  · rename_i hs
    split at hc
    · rename_i hq
      cases c with
      | consume =>
          have hmore := h.consuming (p := p) hs hq
          omega
      | _ => cases hc
    · rename_i hq
      split at hc
      · rename_i ht
        cases c with
        | put =>
            have hmore := h.publishing (p := p) hq ht
            omega
        | _ => cases hc
      · rename_i ht
        cases c with
        | wake =>
            have hmore := h.taking (p := p) ht (by omega)
            omega
        | _ => cases hc

theorem helped (R : Runtime) (p : ι → PostExpense) (n : ℕ) :
    Helped (Process.step R p) (fun s => s.Orderly R ∧ n ≤ s.eventCount) (passed n) (4 * n)
      ProcessStep.IsAt stage where
  keeps := fun _ c h => ⟨(h.1.step c).1, h.2.trans (h.1.step c).2.eventCount_le⟩
  grows := fun _ c h => (h.1.step c).2.passed_le
  helps := fun _ _ h hlt hc => h.1.helps h.2 hlt hc
  waits := fun _ c h hlt he => (h.1.step c).2.stage_eq h.1.descends (h.1.step c).1.descends hlt he

/-! ## Runs -/

theorem run_orderly (steps : List (ProcessStep ι)) :
    (run (Process.step R p) .start steps).Orderly R :=
  run_invariant (Orderly R) (fun _ c h => (h.step c).1) .start steps

theorem Orderly.run_grows (h : s.Orderly R) (steps : List (ProcessStep ι)) :
    (run (Process.step R p) s steps).Orderly R ∧
      s.pipeline.contents <+: (run (Process.step R p) s steps).pipeline.contents ∧
      s.ended <+: (run (Process.step R p) s steps).ended := by
  apply run_invariant fun s' : Process ι =>
    s'.Orderly R ∧ s.pipeline.contents <+: s'.pipeline.contents ∧ s.ended <+: s'.ended
  · rintro s' c ⟨h', hcontents, hended⟩
    have hstep := (h'.step (p := p) c).2
    exact ⟨(h'.step c).1, hcontents.trans hstep.contents, hended.trans hstep.ended⟩
  · exact ⟨h, List.prefix_refl _, List.prefix_refl _⟩

omit [DecidableEq ι] in
/-- The messages that the worker is done with are those of the first events. -/
theorem Orderly.ended_contents (h : s.Orderly R) :
    (s.ended.map (·.1.content)) <+: s.pipeline.contents := by
  have hmap : s.ended.map (·.1.content) = (s.ended.map (·.1)).map Message.content := by
    rw [List.map_map]
    rfl
  have hhanded : s.published = s.ended.map (·.1) ++ s.current.toList ++ s.queue.queue := h.flowing.handed
  have hfront : s.ended.map (·.1) <+: s.published := by
    rw [hhanded, List.append_assoc]
    exact List.prefix_append _ _
  rw [hmap]
  exact (hfront.map _).trans h.flowing.contents

/-- Every fair round takes the first `n` events a stage further, and they have four each. -/
theorem Orderly.handles (h : s.Orderly R) (hn : n ≤ s.eventCount) {rounds : List (List (ProcessStep ι))}
    (hfair : ∀ round ∈ rounds, FairRound ProcessStep.IsAt round)
    (hrounds : 4 * (n - s.ended.length) ≤ rounds.length) :
    n ≤ (run (Process.step R p) s rounds.flatten).ended.length := by
  have hprogress := (helped R p n).run_rounds ⟨h, hn⟩ hfair
  obtain ⟨hec, hcp, hpt⟩ := h.descends
  rw [passed] at hprogress
  rw [passed] at hprogress
  omega

theorem Orderly.handles_contents (h : s.Orderly R) (hn : n ≤ s.eventCount)
    {rounds : List (List (ProcessStep ι))} (hfair : ∀ round ∈ rounds, FairRound ProcessStep.IsAt round)
    (hrounds : 4 * (n - s.ended.length) ≤ rounds.length) :
    (s.world.outbox.events.take n).map OutboxEvent.content <+:
      (run (Process.step R p) s rounds.flatten).ended.map (·.1.content) := by
  obtain ⟨h', hgrown, -⟩ := h.run_grows (p := p) rounds.flatten
  have hended := h.handles (p := p) hn hfair hrounds
  have hfront : (s.world.outbox.events.take n).map OutboxEvent.content <+: s.pipeline.contents :=
    (List.take_prefix n _).map _
  apply List.prefix_of_prefix_length_le (hfront.trans hgrown) h'.ended_contents
  rw [List.length_map, List.length_map, List.length_take]
  exact (min_le_left _ _).trans hended

omit [DecidableEq ι] in
/-- A round with all four kinds of steps. -/
theorem fairRound_of_mem {round : List (ProcessStep ι)} {fails : Option HandlerCall} (hwake : .wake ∈ round)
    (hput : .put ∈ round) (hconsume : .consume ∈ round) (hhandle : .handle fails ∈ round) :
    FairRound ProcessStep.IsAt round := by
  intro stage
  cases stage with
  | taking => exact ⟨_, hwake, rfl⟩
  | publishing => exact ⟨_, hput, rfl⟩
  | consuming => exact ⟨_, hconsume, rfl⟩
  | handling => exact ⟨_, hhandle, rfl⟩

end Process

end ExpenseSettlement

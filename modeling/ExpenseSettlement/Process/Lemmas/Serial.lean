import ExpenseSettlement.Process.Lemmas.Audits
import ExpenseSettlement.System.Lemmas.Replay

/-!
# The process does one operation after the other

The steps in which an operation takes effect do to the store and the ledgers what the operation does. The
other steps leave them alone, apart from the journals of a request whose records cannot be saved.
-/

namespace ExpenseSettlement.Process

open Lib DebtSimplifier

variable {ι : Type} [DecidableEq ι] {R : Runtime} {p : ι → PostExpense} {s : Process ι} {c : ProcessStep ι}

/-- A request with something to pay fails when its records are to be saved. -/
def LosesJournals (R : Runtime) (s : Process ι) (c : ProcessStep ι) : Prop :=
  c = .handle (some .saveSettlements) ∧ s.BreaksOff R c

/-! ## Operations -/

theorem advance_replays {p : PostExpense} {s : RouteState ι} {i : ι} (h : s.phase i = .creating)
    (now now' : ℚ) :
    Replays R (.createExpense p.args) s.world (s.advance R p i now now').world := by
  rw [advance_creating h]
  exact .createExpense p.args s.world

theorem handle_replays {groupId : String} {w w' : World} {fails : Option HandlerCall} {ok : Bool}
    (hh : HeadsEncode R w.workerLedger.accountHeads) (h : HandleStep R groupId w fails ok w')
    (hget : fails ≠ some .getExpensesForGroup)
    (hsave : fails ≠ some .saveSettlements) : Replays R (.settlementRequested groupId) w w' := by
  cases h with
  | nothing hn => exact .nothing hn
  | unread => exact absurd rfl hget
  | unsummed hu => exact .unsummed hu
  | posted => exact absurd rfl hsave
  | saved hp => exact .planned hp hh rfl rfl rfl (.refl _)
  | completed hp => exact .planned hp hh rfl rfl rfl (.next _)

theorem operation_replays (hs : s.Orderly R) {op : Operation} (h : s.operation p c = some op) :
    Replays R op s.world (s.step R p c).world := by
  cases c with
  | post i now now' =>
      cases hphase : s.route.phase i with
      | creating =>
          simp only [operation, hphase, Option.some.injEq] at h
          subst h
          exact advance_replays hphase now now'
      | arrived | refused | created | failed | done => simp [operation, hphase] at h
  | client call =>
      cases call with
      | createUser name email =>
          obtain rfl := Option.some.inj h
          exact .createUser name email s.world
      | createGroup name =>
          obtain rfl := Option.some.inj h
          exact .createGroup name s.world
      | addMember groupId userId =>
          obtain rfl := Option.some.inj h
          exact .addMember groupId userId s.world
      | settle groupId requestedBy => cases h
  | balances | wake | put | consume => cases h
  | handle fails =>
      rcases handle_world_cases hs p fails with ⟨-, hother⟩ | ⟨m, ok, hm, htype, hstep⟩
      · cases hm : s.current with
        | none => simp [operation, hm] at h
        | some m => simp [operation, hm, hother m hm] at h
      · simp only [operation, hm, htype, true_and] at h
        split at h
        · rename_i hfails
          obtain rfl := Option.some.inj h
          exact handle_replays hs.heads hstep hfails.1 hfails.2
        · cases h

omit [DecidableEq ι] in
theorem not_losesJournals_of_operation {op : Operation} (h : s.operation p c = some op) :
    ¬ s.LosesJournals R c := by
  rintro ⟨rfl, m, call, hm, -⟩
  simp [operation, hm] at h

/-! ## Other steps -/

/-- The store and the service's ledger stay as they are, and the worker's unless journals are lost. -/
structure Rests (R : Runtime) (s : Process ι) (c : ProcessStep ι) (w : World) : Prop where
  books : SameBooks s.world w
  draws : s.world.draws.Later w.draws
  workerLedger : (¬ s.LosesJournals R c ∧ w.workerLedger = s.world.workerLedger) ∨
    (s.LosesJournals R c ∧ s.world.workerLedger.entries.length < w.workerLedger.entries.length)

namespace Rests

omit [DecidableEq ι] in
theorem of_route {w : World} (hs : w.store = s.world.store) (hl : w.serviceLedger = s.world.serviceLedger)
    (hw : w.workerLedger = s.world.workerLedger) (hd : s.world.draws.Later w.draws)
    (hc : ∀ fails, c ≠ .handle fails) : s.Rests R c w :=
  ⟨⟨hs, hl⟩, hd, .inl ⟨fun hlost => hc _ hlost.1, hw⟩⟩

theorem advance {i : ι} (h : s.route.phase i ≠ .creating) (now now' : ℚ) :
    s.Rests R (.post i now now') (s.route.advance R (p i) i now now').world := by
  obtain ⟨cache, he⟩ := advance_of_ne_creating (R := R) (p := p i) h now now'
  rw [he]
  exact .of_route rfl rfl rfl (.refl _) (by simp)

omit [DecidableEq ι] in
theorem settle (groupId requestedBy : String) :
    s.Rests R (.client (.settle groupId requestedBy)) (settleGroup R groupId requestedBy s.world).2 := by
  rw [settleGroup]
  cases s.world.store.groups.get? groupId with
  | none => exact .of_route rfl rfl rfl (.refl _) (by simp)
  | some group => exact .of_route rfl rfl rfl (.next _) (by simp)

omit [DecidableEq ι] in
/-- The journals of a request are lost, if it has anything to pay. -/
theorem posted (hs : s.Consistent R) {m : Message EventPayload} {result : DebtSimplifierResult}
    {acc : SettleLoop} (hm : s.current = some m) (htype : m.eventType = EventType.settlementRequested.value)
    (hp : Planned R m.payload.groupId s.world result acc) :
    s.Rests R (.handle (some .saveSettlements)) (s.world.posted acc) := by
  obtain ⟨hdraws, hentries⟩ := run_pay_drawn m.payload.groupId result.checksum
    ⟨s.world.draws, s.world.workerLedger, [], 0⟩ hp.payable hs.heads
  have hrun := hp.paid
  have hz : (getGroupNetBalances m.payload.groupId s.world).values.sum = 0 := sum_values_computeNetBalances _
  have hlost : s.LosesJournals R (.handle (some .saveSettlements)) ↔ result.settlements ≠ [] := by
    rw [hp.plan, Ne, settle_eq_nil_iff hz, not_forall]
    constructor
    · rintro ⟨-, m', call, hm', -, -, -, -, hu⟩
      obtain rfl := Option.some.inj (hm.symm.trans hm')
      exact hu
    · intro hu
      exact ⟨rfl, m, .saveSettlements, hm, rfl, by simp, htype, hp.checksummable, hu⟩
  refine ⟨⟨rfl, rfl⟩, ?_, ?_⟩
  · rw [hrun] at hdraws
    rw [World.posted, hdraws]
    exact .skip _ _ _
  · rw [hlost]
    by_cases hnil : result.settlements = []
    · refine .inl ⟨not_not.mpr hnil, ?_⟩
      rw [hnil] at hrun
      rw [World.posted, ← hrun]
      rfl
    · have hpos := List.length_pos_iff.mpr hnil
      rw [hrun] at hentries
      refine .inr ⟨hnil, ?_⟩
      simp only [World.posted, hentries]
      omega

theorem handle (hs : s.Consistent R) (fails : Option HandlerCall)
    (h : s.operation p (.handle fails) = none) :
    s.Rests R (.handle fails) (s.step R p (.handle fails)).world := by
  rcases handle_world_cases hs.toOrderly p fails with ⟨he, hother⟩ | ⟨m, ok, hm, htype, hstep⟩
  · rw [he]
    refine ⟨⟨rfl, rfl⟩, .refl _, .inl ⟨?_, rfl⟩⟩
    rintro ⟨-, m, call, hm, -, -, htype, -⟩
    exact hother m hm htype
  · simp only [operation, hm, htype, true_and] at h
    generalize (s.step R p (.handle fails)).world = w at hstep
    cases hstep with
    | nothing hn =>
        refine ⟨⟨rfl, rfl⟩, .refl _, .inl ⟨?_, rfl⟩⟩
        rintro ⟨-, m', call, hm', -, -, -, -, u, hu⟩
        obtain rfl := Option.some.inj (hm.symm.trans hm')
        have hx := (hs.wellFormed.payments_of_no_expenses hn).1
        rw [getGroupNetBalances, hx] at hu
        exact hu rfl
    | unread =>
        refine ⟨⟨rfl, rfl⟩, .refl _, .inl ⟨?_, rfl⟩⟩
        rintro ⟨hc, -⟩
        simp at hc
    | unsummed hu =>
        refine ⟨⟨rfl, rfl⟩, .refl _, .inl ⟨?_, rfl⟩⟩
        rintro ⟨-, m', call, hm', -, -, -, hsum, -⟩
        obtain rfl := Option.some.inj (hm.symm.trans hm')
        exact hu.unsummed hsum
    | posted hp => exact .posted hs hm htype hp
    | saved hp hcall =>
        rcases hcall with rfl | rfl | rfl
        · simp at h
        · simp at h
        · simp at h
    | completed hp => simp at h

end Rests

theorem Consistent.rests (h : s.Consistent R) (hn : s.operation p c = none) :
    s.Rests R c (s.step R p c).world := by
  cases c with
  | post i now now' =>
      have hphase : s.route.phase i ≠ .creating := by
        intro hphase
        simp [operation, hphase] at hn
      exact Rests.advance (R := R) (p := p) hphase now now'
  | client call =>
      cases call with
      | createUser | createGroup | addMember => cases hn
      | settle groupId requestedBy => exact .settle groupId requestedBy
  | balances groupId now now' now'' =>
      obtain ⟨cache, he, -⟩ := getBalances_world (R := R) groupId now now' now'' s.world
      have hworld : (s.step R p (.balances groupId now now' now'')).world = { s.world with cache } := he
      rw [hworld]
      exact .of_route rfl rfl rfl (.refl _) (by simp)
  | wake => exact .of_route rfl rfl rfl (h.flowing.woken h.engaged).draws (by simp)
  | put => exact .of_route rfl rfl rfl (h.flowing.puts h.engaged).draws (by simp)
  | consume =>
      rcases consume_cases R p s with ⟨he, -⟩ | ⟨m, rest, -, -, he⟩
      · rw [he]
        exact .of_route rfl rfl rfl (.refl _) (by simp)
      · rw [he]
        exact .of_route rfl rfl rfl (.refl _) (by simp)
  | handle fails => exact .handle h fails hn

theorem Consistent.step_later (h : s.Consistent R) (c : ProcessStep ι) :
    s.world.draws.Later (s.step R p c).world.draws := by
  cases hop : s.operation p c with
  | none => exact (h.rests hop).draws
  | some op =>
      obtain ⟨k, l, events, hlater, -⟩ := operation_replays h.toOrderly hop
      exact (Draws.Later.skip k l s.world.draws).trans hlater

theorem Consistent.run_later (h : s.Consistent R) (steps : List (ProcessStep ι)) :
    s.world.draws.Later (run (Process.step R p) s steps).world.draws := by
  have hinv : (run (Process.step R p) s steps).Consistent R ∧
      s.world.draws.Later (run (Process.step R p) s steps).world.draws := by
    apply run_invariant fun s' : Process ι => s'.Consistent R ∧ s.world.draws.Later s'.world.draws
    · rintro s' c ⟨h', hlater⟩
      exact ⟨h'.step c, hlater.trans (h'.step_later c)⟩
    · exact ⟨h, .refl _⟩
  exact hinv.2

/-! ## Runs -/

/-- The serial run is at `w'`, or at `w₁'` later, where the process is at `w`, or at `w₁`. It has fewer
journals than the process if not all are kept. -/
structure Serial (kept : Prop) (w w₁ w' w₁' : World) : Prop where
  books : SameBooks w₁ w₁'
  replay : kept → Replay w w₁ w' w₁'
  lost : ¬ kept → w₁'.workerLedger.entries.length + w.workerLedger.entries.length <
    w₁.workerLedger.entries.length + w'.workerLedger.entries.length

namespace Serial

variable {kept kept' : Prop} {w w₁ w₂ w' w₁' w₂' : World}

theorem of_kept (hk : kept) (h : Replay w w₁ w' w₁') : Serial kept w w₁ w' w₁' :=
  ⟨h.books, fun _ => h, fun hlost => absurd hk hlost⟩

omit [DecidableEq ι] in
theorem of_rests (h : s.Rests R c w₁) (hb : SameBooks s.world w') :
    Serial (¬ s.LosesJournals R c) s.world w₁ w' w' := by
  have hbooks : SameBooks w₁ w' :=
    ⟨hb.store.trans h.books.store.symm, hb.serviceLedger.trans h.books.serviceLedger.symm⟩
  refine ⟨hbooks, fun hkept => ?_, fun hlost => ?_⟩
  · rcases h.workerLedger with ⟨-, hsame⟩ | ⟨hlost, -⟩
    · exact .of_routes hbooks hsame rfl
    · exact absurd hlost hkept
  · rcases h.workerLedger with ⟨hkept, -⟩ | ⟨-, hmore⟩
    · exact absurd hkept hlost
    · omega

theorem trans (h : Serial kept w w₁ w' w₁') (h' : Serial kept' w₁ w₂ w₁' w₂') :
    Serial (kept ∧ kept') w w₂ w' w₂' := by
  refine ⟨h'.books, ?_, fun hlost => ?_⟩
  · rintro ⟨hk, hk'⟩
    obtain ⟨-, hsame, hposted⟩ := h.replay hk
    obtain ⟨hbooks, hsame', hposted'⟩ := h'.replay hk'
    exact ⟨hbooks, fun he => hsame' (hsame he), by omega⟩
  · by_cases hk : kept
    · have hposted := (h.replay hk).posted
      have hless := h'.lost fun hk' => hlost ⟨hk, hk'⟩
      omega
    · have hless := h.lost hk
      by_cases hk' : kept'
      · have hposted := (h'.replay hk').posted
        omega
      · have hless' := h'.lost hk'
        omega

end Serial

/-- At every point of the run the operations have done from `w` on what the process has done from `s` on,
and the next one answers the same. -/
def GoesAlong (R : Runtime) (p : ι → PostExpense) (s : Process ι) (steps : List (ProcessStep ι))
    (R' : Runtime) (w : World) : Prop :=
  ∀ pre post, steps = pre ++ post →
    let s' := run (Process.step R p) s pre
    let w' := run (World.step R') w (operations R p s pre)
    Serial (AtEach (Process.step R p) s pre fun s c => ¬ s.LosesJournals R c) s.world s'.world w w' ∧
    ∀ c rest op, post = c :: rest → s'.operation p c = some op → w'.answer R' op = s'.world.answer R op

namespace GoesAlong

variable {R' : Runtime} {w : World} {steps : List (ProcessStep ι)}

/-- Nothing has been done at the start. -/
theorem start (hb : SameBooks s.world w) :
    Serial (AtEach (Process.step R p) s [] fun s c => ¬ s.LosesJournals R c) s.world
      (run (Process.step R p) s []).world w (run (World.step R') w (operations R p s [])) :=
  .of_kept (atEach_nil _) (.of_routes hb rfl rfl)

theorem nil (hb : SameBooks s.world w) : GoesAlong R p s [] R' w := by
  intro pre post hp
  obtain ⟨rfl, rfl⟩ := List.append_eq_nil_iff.mp hp.symm
  exact ⟨start hb, by simp⟩

theorem rests (hop : s.operation p c = none) (hr : s.Rests R c (s.step R p c).world)
    (hb : SameBooks s.world w)
    (h : SameBooks (s.step R p c).world w → GoesAlong R p (s.step R p c) steps R' w) :
    GoesAlong R p s (c :: steps) R' w := by
  have hstep := Serial.of_rests hr hb
  intro pre post hp
  cases pre with
  | nil =>
      refine ⟨start hb, ?_⟩
      rintro c' rest op rfl hop'
      obtain ⟨rfl, -⟩ := List.cons.inj hp
      rw [run_nil, hop] at hop'
      cases hop'
  | cons c' pre =>
      obtain ⟨rfl, hpre⟩ := List.cons.inj hp
      obtain ⟨hrest, hanswers⟩ := h hstep.books pre post hpre
      rw [atEach_cons]
      simp only [operations, hop, Option.toList_none, List.nil_append]
      exact ⟨hstep.trans hrest, hanswers⟩

theorem operation {op : Operation} (hop : s.operation p c = some op)
    (hr : Replay s.world (s.step R p c).world w (w.step R' op)) (ha : w.answer R' op = s.world.answer R op)
    (hb : SameBooks s.world w) (h : GoesAlong R p (s.step R p c) steps R' (w.step R' op)) :
    GoesAlong R p s (c :: steps) R' w := by
  intro pre post hp
  cases pre with
  | nil =>
      refine ⟨start hb, ?_⟩
      rintro c' rest op' rfl hop'
      obtain ⟨rfl, -⟩ := List.cons.inj hp
      rw [run_nil, hop] at hop'
      obtain rfl := Option.some.inj hop'
      exact ha
  | cons c' pre =>
      obtain ⟨rfl, hpre⟩ := List.cons.inj hp
      obtain ⟨hrest, hanswers⟩ := h pre post hpre
      rw [atEach_cons]
      simp only [operations, hop, Option.toList_some, List.singleton_append]
      exact ⟨(Serial.of_kept (not_losesJournals_of_operation hop) hr).trans hrest, hanswers⟩

end GoesAlong

/-- There are places of ids and readings for a serial run that stands at `e`. -/
theorem Consistent.exists_places (h : s.Consistent R) (steps : List (ProcessStep ι)) (e : Draws) {M : ℕ}
    (hM : (run (Process.step R p) s steps).world.draws.uuids ≤ M) :
    ∃ ids times, Scattered M s.world.draws.uuids e.uuids ids ∧ Rising s.world.draws.times times ∧
      ∀ (σ : ℕ ↪ ℕ) (τ : ℕ →o ℕ) (w : World), (∀ n, e.uuids ≤ n → σ n = ids n) →
        (∀ n, e.times ≤ n → τ n = times n) → w.draws = e → SameBooks s.world w →
        HeadsEncode (R.reindex σ τ) w.workerLedger.accountHeads →
          GoesAlong R p s steps (R.reindex σ τ) w := by
  induction steps generalizing s e with
  | nil => exact ⟨(M + ·), fun _ => s.world.draws.times, .base M _ _, .base _, fun _ _ _ _ _ _ hb _ => .nil hb⟩
  | cons c steps ih =>
      have hlater := h.step_later (p := p) c
      cases hop : s.operation p c with
      | none =>
          obtain ⟨ids, times, hids, htimes, halong⟩ := ih (h.step c) e hM
          refine ⟨ids, times, hids.mono hlater.uuids, htimes.mono hlater.times, ?_⟩
          intro σ τ w hσ hτ hw hb hh
          exact .rests hop (h.rests hop) hb fun hb' => halong σ τ w hσ hτ hw hb' hh
      | some op =>
          obtain ⟨k, l, events, hdraws, hreplays⟩ := operation_replays h.toOrderly hop
          obtain ⟨ids, times, hids, htimes, halong⟩ := ih (h.step c) (e.skip (k + events) (l + events)) hM
          have hlast := hdraws.uuids.trans ((h.step c).run_later (p := p) steps).uuids
          -- the ids and readings that the events get are none of the process's
          refine ⟨withStretch k s.world.draws.uuids e.uuids ids,
            fromStretch l s.world.draws.times e.times times,
            hids.withStretch hdraws.uuids (by simp only [Draws.skip]; omega) (hlast.trans hM),
            htimes.fromStretch hdraws.times, ?_⟩
          intro σ τ w hσ hτ hw hb hh
          subst hw
          have haligned : Draws.Aligned σ τ k l s.world.draws w.draws :=
            ⟨(withStretch_aligned k _ _ ids).congr fun n hn _ => hσ n hn,
              (fromStretch_aligned l _ _ times).congr fun n hn _ => hτ n hn⟩
          obtain ⟨hreplay, hanswer, hskip⟩ := hreplays σ τ w hb hh haligned
          have hσ' : ∀ n, w.draws.uuids + (k + events) ≤ n → σ n = ids n := by
            intro n hn
            rw [hσ n (by omega), withStretch_of_le (by omega)]
          have hτ' : ∀ n, w.draws.times + (l + events) ≤ n → τ n = times n := by
            intro n hn
            rw [hτ n (by omega), fromStretch_of_le (by omega)]
          exact .operation hop hreplay hanswer hb
            (halong σ τ _ hσ' hτ' hskip hreplay.books (World.step_headsEncode hh op))

end ExpenseSettlement.Process

import ExpenseSettlement.Api.Groups
import ExpenseSettlement.Api.Lemmas.Balances
import ExpenseSettlement.Core.Lemmas.Returns

/-!
# The settlements that the simplify route lists

They are those of the plan. An amount is at most the balance of either user, so it can be formatted
wherever the balances can.
-/

namespace ExpenseSettlement

open Lib DebtSimplifier

variable {R : Runtime} {groupId : String} {w : World}

/-! ## Formatting -/

def Settlement.item (s : Settlement) : SettlementItem where
  payerId := s.payerId
  payeeId := s.payeeId
  amountCents := s.amountCents
  amountDollars := (s.amountCents : ℚ) / 100

theorem settlementItems_of_lt {plan : List Settlement} (h : ∀ s ∈ plan, |s.amountCents| < 100 * floatLimit) :
    settlementItems plan = .ok (plan.map (·.item)) := by
  induction plan with
  | nil => rfl
  | cons s plan ih =>
      rw [List.forall_mem_cons] at h
      simp only [settlementItems, if_pos h.1, ih h.2]
      rfl

theorem settlementItems_ok {plan : List Settlement} {items : List SettlementItem}
    (h : settlementItems plan = .ok items) : items = plan.map (·.item) := by
  induction plan generalizing items with
  | nil => cases h; rfl
  | cons s plan ih =>
      simp only [settlementItems] at h
      split at h
      · cases hr : settlementItems plan with
        | error e => simp only [hr] at h; cases h
        | ok rest =>
            simp only [hr] at h
            cases h
            rw [List.map_cons, ih hr]
            rfl
      · cases h

def balanceEntry (balance : String × ℤ) : BalanceEntry where
  userId := balance.1
  netCents := balance.2
  netDollars := (balance.2 : ℚ) / 100
  role := roleOf balance.2

theorem balanceEntries_ok {items : List (String × ℤ)} {entries : List BalanceEntry}
    (h : balanceEntries items = .ok entries) :
    entries = items.map balanceEntry ∧ ∀ balance ∈ items, |balance.2| < 100 * floatLimit := by
  induction items generalizing entries with
  | nil => cases h; exact ⟨rfl, fun _ hm => by cases hm⟩
  | cons item items ih =>
      obtain ⟨uid, cents⟩ := item
      simp only [balanceEntries] at h
      split at h
      · rename_i hlt
        cases hr : balanceEntries items with
        | error e => simp only [hr] at h; cases h
        | ok rest =>
            simp only [hr] at h
            cases h
            obtain ⟨hrest, hall⟩ := ih hr
            rw [hrest]
            exact ⟨rfl, List.forall_mem_cons.mpr ⟨hlt, hall⟩⟩
      · cases h

theorem roleOf_eq_creditor {cents : ℤ} : roleOf cents = "CREDITOR" ↔ 0 < cents := by
  unfold roleOf
  split
  · simpa
  · split
    · simp; omega
    · simp; omega

theorem roleOf_eq_debtor {cents : ℤ} : roleOf cents = "DEBTOR" ↔ cents < 0 := by
  unfold roleOf
  split
  · simp; omega
  · split
    · simpa
    · simp; omega

/-! ## The plan -/

theorem getSimplifiedDebts_returns_iff (R : Runtime) (groupId : String) (w : World) :
    (∃ result, getSimplifiedDebts R groupId w = .ok result) ↔
      Checksummable R (getGroupNetBalances groupId w) :=
  simplify_returns_iff (sum_values_computeNetBalances _) _

theorem getSimplifiedDebts_ok {result : DebtSimplifierResult}
    (h : getSimplifiedDebts R groupId w = .ok result) :
    result.settlements = settle (getGroupNetBalances groupId w) ∧
      checksum R (settle (getGroupNetBalances groupId w)) = .ok result.checksum := by
  have hz : (getGroupNetBalances groupId w).values.sum = 0 := sum_values_computeNetBalances _
  exact ⟨(simplifiesTo_settle R hz _).settlements result h, (simplifiesTo_settle R hz _).checksum result h⟩

theorem simplifyDebts_success {body : SimplifyResponse} (h : simplifyDebts R groupId w = .success body) :
    ∃ result, getSimplifiedDebts R groupId w = .ok result ∧
      body.settlements = result.settlements.map (·.item) ∧ body.checksum = result.checksum := by
  rw [simplifyDebts] at h
  cases hg : w.store.groups.get? groupId with
  | none => simp only [hg] at h; cases h
  | some group =>
      cases hr : getSimplifiedDebts R groupId w with
      | error e => simp only [hg, hr] at h; cases h
      | ok result =>
          simp only [hg, hr] at h
          cases hitems : settlementItems result.settlements with
          | error e => simp only [hitems] at h; cases h
          | ok items =>
              simp only [hitems] at h
              cases h
              exact ⟨result, rfl, settlementItems_ok hitems, rfl⟩

/-- Both users of a payment are listed, and the amount is not more than either balance. -/
theorem settle_listed {s : Settlement} (hs : s ∈ settle (getGroupNetBalances groupId w)) :
    1 ≤ s.amountCents ∧
      (∃ debt, (s.payerId, debt) ∈ (getGroupNetBalances groupId w).items ∧ s.amountCents ≤ -debt) ∧
      ∃ credit, (s.payeeId, credit) ∈ (getGroupNetBalances groupId w).items ∧ s.amountCents ≤ credit := by
  have hz : (getGroupNetBalances groupId w).values.sum = 0 := sum_values_computeNetBalances _
  obtain ⟨hpayer, hpayee, hpos⟩ := settle_sides hz hs
  obtain ⟨hdebt, hcredit⟩ := settle_amount_le hz hs
  exact ⟨hpos, ⟨_, getD_mem_items hpayer.ne, hdebt⟩, ⟨_, getD_mem_items hpayee.ne', hcredit⟩⟩

/-- The plan of balances that can be formatted and encoded has a checksum. -/
theorem checksummable_of_lt {net : Dict String ℤ}
    (hlt : ∀ balance ∈ net.items, |balance.2| < 100 * floatLimit)
    (hids : ∀ balance ∈ net.items, R.encodes balance.1 = true) : Checksummable R net := by
  have hbound : 100 * floatLimit ≤ 10 ^ maxStrDigits := by decide +kernel
  refine .of_printable ?_ ?_
  · rintro u hu
    obtain ⟨balance, hm, rfl⟩ := List.mem_map.mp hu
    exact hids balance hm
  · intro n hn
    obtain ⟨balance, hm, rfl⟩ := List.mem_map.mp hn
    have hprintable : (balance.2.natAbs : ℤ) < 10 ^ maxStrDigits := by
      rw [Int.natCast_natAbs]
      exact (hlt balance hm).trans_le hbound
    exact_mod_cast hprintable

theorem simplifyDebts_of_lt {group : GroupRecord} (hg : w.store.groups.get? groupId = some group)
    (hlt : ∀ balance ∈ (getGroupNetBalances groupId w).items, |balance.2| < 100 * floatLimit)
    (hids : ∀ balance ∈ (getGroupNetBalances groupId w).items, R.encodes balance.1 = true) :
    ∃ body, simplifyDebts R groupId w = .success body := by
  obtain ⟨result, hr⟩ := (getSimplifiedDebts_returns_iff R groupId w).mpr (checksummable_of_lt hlt hids)
  have hitems : settlementItems result.settlements = .ok (result.settlements.map (·.item)) := by
    apply settlementItems_of_lt
    rw [(getSimplifiedDebts_ok hr).1]
    intro s hs
    obtain ⟨hpos, -, credit, hcredit, hle⟩ := settle_listed hs
    have hcents := hlt _ hcredit
    rw [abs_of_pos (by omega)] at hcents ⊢
    omega
  simp only [simplifyDebts, hg, hr, hitems]
  exact ⟨_, rfl⟩

/-! ## The two routes -/

theorem encodes_of_dumps {items : List (String × ℤ)}
    (h : (balancesResponse groupId (items.map balanceEntry)).dumps R = true) :
    ∀ balance ∈ items, R.encodes balance.1 = true := by
  rw [GroupBalancesResponse.dumps, Bool.and_eq_true] at h
  have hall := List.all_eq_true.mp h.2
  intro balance hm
  exact hall _ (List.mem_map_of_mem hm)

theorem getBalances_computed {now now' now'' : ℚ} {w' : World} {balances : GroupBalancesResponse}
    (h : getBalances R groupId now now' now'' w = (.success balances, w')) (hc : balances.cached = false) :
    ∃ group cache, w.store.groups.get? groupId = some group ∧ w' = { w with cache } ∧
      balances = balancesResponse groupId ((getGroupNetBalances groupId w).items.map balanceEntry) ∧
      (∀ balance ∈ (getGroupNetBalances groupId w).items, |balance.2| < 100 * floatLimit) ∧
      ∀ balance ∈ (getGroupNetBalances groupId w).items, R.encodes balance.1 = true := by
  rw [getBalances] at h
  cases hget : w.cache.get now (balancesKey groupId) with
  | mk found cache =>
      simp only [hget] at h
      cases found with
      | some value =>
          cases value with
          | balances body => cases h; cases hc
          | processing | response body => cases h
      | none =>
          cases hg : w.store.groups.get? groupId with
          | none => simp only [hg] at h; cases h
          | some group =>
              simp only [hg] at h
              cases he : balanceEntries (getGroupNetBalances groupId w).items with
              | error e => simp only [he] at h; cases h
              | ok entries =>
                  simp only [he] at h
                  split at h
                  · rename_i hdumps
                    cases h
                    obtain ⟨hentries, hlt⟩ := balanceEntries_ok he
                    rw [hentries] at hdumps ⊢
                    exact ⟨group, _, rfl, rfl, rfl, hlt, encodes_of_dumps hdumps⟩
                  · cases h

theorem totalCreditors_eq (groupId : String) (items : List (String × ℤ)) :
    (balancesResponse groupId (items.map balanceEntry)).totalCreditors = items.countP (0 < ·.2) := by
  rw [balancesResponse]
  dsimp only
  rw [← List.countP_eq_length_filter, List.countP_map]
  refine List.countP_congr fun balance _ => ?_
  simp [balanceEntry, roleOf_eq_creditor]

theorem totalDebtors_eq (groupId : String) (items : List (String × ℤ)) :
    (balancesResponse groupId (items.map balanceEntry)).totalDebtors = items.countP (·.2 < 0) := by
  rw [balancesResponse]
  dsimp only
  rw [← List.countP_eq_length_filter, List.countP_map]
  refine List.countP_congr fun balance _ => ?_
  simp [balanceEntry, roleOf_eq_debtor]

theorem totals_eq (groupId : String) (netBalances : Dict String ℤ) :
    (balancesResponse groupId (netBalances.items.map balanceEntry)).totalCreditors +
      (balancesResponse groupId (netBalances.items.map balanceEntry)).totalDebtors =
      netBalances.values.countP (· ≠ 0) := by
  rw [totalCreditors_eq, totalDebtors_eq, Dict.values, List.countP_map]
  induction netBalances.items with
  | nil => rfl
  | cons balance items ih =>
      simp only [List.countP_cons, Function.comp_apply, decide_eq_true_eq] at ih ⊢
      rw [← ih]
      split <;> split <;> split <;> omega

theorem isSettled_iff (groupId : String) (netBalances : Dict String ℤ) :
    (balancesResponse groupId (netBalances.items.map balanceEntry)).isSettled = true ↔
      ∀ u, netBalances.getD u 0 = 0 := by
  rw [balancesResponse]
  simp only [List.all_map, List.all_eq_true, Function.comp_apply, decide_eq_true_eq]
  rw [Dict.items_eq_map_getD _ 0, List.forall_mem_map]
  constructor
  · intro h u
    by_cases hu : u ∈ netBalances.keys
    · exact h u hu
    · exact getD_of_not_mem_keys hu
  · exact fun h u _ => h u

/-- What the listed payments bring to a user. -/
def SimplifyResponse.brings (u : String) (body : SimplifyResponse) : ℤ :=
  (body.settlements.map fun item =>
    (if item.payeeId = u then item.amountCents else 0) - if item.payerId = u then item.amountCents else 0).sum

theorem SimplifyResponse.brings_eq {body : SimplifyResponse} {plan : List Settlement}
    (h : body.settlements = plan.map (·.item)) (u : String) :
    body.brings u = received u plan - paid u plan := by
  rw [← netFlow_toPayment, brings, h, List.map_map, netFlow, List.map_map]
  rfl

end ExpenseSettlement

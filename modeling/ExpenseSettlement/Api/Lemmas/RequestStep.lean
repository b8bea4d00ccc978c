import ExpenseSettlement.Api.Expenses
import ExpenseSettlement.Services.Lemmas.CreateExpense

/-!
# What a step of a request can do
-/

namespace ExpenseSettlement

open Lib IdempotencyManager

/-- From one phase and world to the next. -/
inductive RequestStep (R : Runtime) (p : PostExpense) (now now' : ℚ) (w : World) :
    Phase → Phase → World → Prop
  | unlocked (hk : truthy p.idemKey = none) : RequestStep R p now now' w .arrived .creating w
  | locked {key : String} {cache : InMemoryCache CacheValue} (hk : truthy p.idemKey = some key)
      (ht : tryLock now now' key w.cache = (true, cache)) :
      RequestStep R p now now' w .arrived .creating { w with cache }
  | refused {key : String} {cache : InMemoryCache CacheValue} (hk : truthy p.idemKey = some key)
      (ht : tryLock now now' key w.cache = (false, cache)) :
      RequestStep R p now now' w .arrived .refused { w with cache }
  | keyless (hk : truthy p.idemKey = none) : RequestStep R p now now' w .refused .refused w
  | looked {key : String} {raw : Option CacheValue} {cache : InMemoryCache CacheValue}
      (hk : truthy p.idemKey = some key) (hl : lookUp now key w.cache = (raw, cache)) :
      RequestStep R p now now' w .refused (.done (.ofDuplicate raw)) { w with cache }
  | raised {e : PyError} {w' : World} (he : createExpense R p.args w = (.error e, w')) (hr : Rejects R w w') :
      RequestStep R p now now' w .creating (.failed e) w'
  | crashed {splits : List Split} {e : PyError} (ha : Accepts R p.args w splits)
      (hf : fmtExpense R (w.newExpense R p.args splits) = .error e) :
      RequestStep R p now now' w .creating (.done .crashed) (w.accept R p.args splits)
  | created {splits : List Split} {response : ExpenseResponse} (ha : Accepts R p.args w splits)
      (hf : fmtExpense R (w.newExpense R p.args splits) = .ok response) :
      RequestStep R p now now' w .creating (.created response) (w.accept R p.args splits)
  | rejected {e : PyError} (hk : truthy p.idemKey = none) :
      RequestStep R p now now' w (.failed e) (.done (.rejected e)) w
  | released {e : PyError} {key : String} (hk : truthy p.idemKey = some key) :
      RequestStep R p now now' w (.failed e) (.done (.rejected e))
        { w with cache := release key w.cache }
  | answered {response : ExpenseResponse} (hk : truthy p.idemKey = none) :
      RequestStep R p now now' w (.created response) (.done (.success response)) w
  | stored {response : ExpenseResponse} {key : String} (hk : truthy p.idemKey = some key) :
      RequestStep R p now now' w (.created response) (.done (.success response))
        { w with cache := storeResponse now now' key response w.cache }
  | idle {outcome : Outcome} : RequestStep R p now now' w (.done outcome) (.done outcome) w

variable {ι : Type} [DecidableEq ι]

theorem RouteState.move_self (s : RouteState ι) (i : ι) : s.move i (s.phase i) s.world = s := by
  rw [RouteState.move, Function.update_eq_self]

theorem RouteState.advance_step (R : Runtime) (p : PostExpense) (s : RouteState ι) (i : ι)
    (now now' : ℚ) : ∃ phase w, RequestStep R p now now' s.world (s.phase i) phase w ∧
      s.advance R p i now now' = s.move i phase w := by
  cases hi : s.phase i with
  | arrived =>
      cases hk : truthy p.idemKey with
      | none => exact ⟨_, _, .unlocked hk, by simp only [advance, hi, hk]⟩
      | some key =>
          cases ht : tryLock now now' key s.world.cache with
          | mk taken cache =>
              cases taken with
              | true => exact ⟨_, _, .locked hk ht, by simp only [advance, hi, hk, ht]⟩
              | false => exact ⟨_, _, .refused hk ht, by simp only [advance, hi, hk, ht]⟩
  | refused =>
      cases hk : truthy p.idemKey with
      | none =>
          refine ⟨_, _, .keyless hk, ?_⟩
          rw [← hi, move_self]
          simp only [advance, hi, hk]
      | some key =>
          cases hl : lookUp now key s.world.cache with
          | mk raw cache => exact ⟨_, _, .looked hk hl, by simp only [advance, hi, hk, hl]⟩
  | creating =>
      rcases createExpense_cases R p.args s.world with ⟨e, w, he, hr⟩ | ⟨splits, ha, he⟩
      · exact ⟨_, _, .raised he hr, by simp only [advance, hi, he]⟩
      · cases hf : fmtExpense R (s.world.newExpense R p.args splits) with
        | error e => exact ⟨_, _, .crashed ha hf, by simp only [advance, hi, he, hf]⟩
        | ok response => exact ⟨_, _, .created ha hf, by simp only [advance, hi, he, hf]⟩
  | created response =>
      cases hk : truthy p.idemKey with
      | none => exact ⟨_, _, .answered hk, by simp only [advance, hi, hk]⟩
      | some key => exact ⟨_, _, .stored hk, by simp only [advance, hi, hk]⟩
  | failed e =>
      cases hk : truthy p.idemKey with
      | none => exact ⟨_, _, .rejected hk, by simp only [advance, hi, hk]⟩
      | some key => exact ⟨_, _, .released hk, by simp only [advance, hi, hk]⟩
  | done outcome =>
      refine ⟨_, _, .idle, ?_⟩
      rw [← hi, move_self]
      simp only [advance, hi]

end ExpenseSettlement

import ExpenseSettlement.Cache.Lemmas.Expiry

/-!
# The cache

When lazy expiry can be observed.
-/

namespace ExpenseSettlement

open Lib

variable {V : Type}

def revived : List (CacheCall String) :=
  [.set 0 0 "balances" "{}" (some 1) false, .expire 2 "balances" 10]

end ExpenseSettlement

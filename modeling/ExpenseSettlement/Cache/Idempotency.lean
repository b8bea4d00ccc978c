import ExpenseSettlement.System.World

/-!
# Idempotency keys (`cache/idempotency.py`)

`check_and_lock` awaits the cache twice, so it is two steps: the attempt to take the key and, when
that fails, the look at what is stored under it.
-/

namespace ExpenseSettlement.IdempotencyManager

def idempotencyTtlSeconds : ℤ := 86400

def makeKey (idempotencyKey : String) : String := "idempotency:" ++ idempotencyKey

def tryLock (now now' : ℚ) (idempotencyKey : String) (c : InMemoryCache CacheValue) :
    Bool × InMemoryCache CacheValue :=
  c.set now now' (makeKey idempotencyKey) .processing (some idempotencyTtlSeconds) true

def lookUp (now : ℚ) (idempotencyKey : String) (c : InMemoryCache CacheValue) :
    Option CacheValue × InMemoryCache CacheValue :=
  c.get now (makeKey idempotencyKey)

def storeResponse (now now' : ℚ) (idempotencyKey : String) (responseBody : ExpenseResponse)
    (c : InMemoryCache CacheValue) : InMemoryCache CacheValue :=
  (c.set now now' (makeKey idempotencyKey) (.response responseBody) (some idempotencyTtlSeconds)
    false).2

def release (idempotencyKey : String) (c : InMemoryCache CacheValue) : InMemoryCache CacheValue :=
  (c.delete (makeKey idempotencyKey)).2

end ExpenseSettlement.IdempotencyManager

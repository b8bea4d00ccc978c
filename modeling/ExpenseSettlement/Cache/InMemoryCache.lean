import Mathlib.Data.Rat.Defs
import Mathlib.Algebra.Order.Ring.Unbundled.Rat
import ExpenseSettlement.Core.Runtime
import ExpenseSettlement.Lib.Dict

/-!
# The in-memory cache (`cache/redis_client.py`)

Every method runs under the cache's lock without a suspension, so it is one step. A clock reading is
an argument, one for each call of `time.time()`.
-/

namespace ExpenseSettlement

open Lib

structure InMemoryCache (V : Type) where
  store : Dict String V
  expiry : Dict String ℚ

namespace InMemoryCache

variable {V : Type}

def init : InMemoryCache V := ⟨Dict.empty, Dict.empty⟩

def isExpired (now : ℚ) (key : String) (c : InMemoryCache V) : Bool :=
  match c.expiry.get? key with
  | none => false
  | some exp => now > exp

def evictIfExpired (now : ℚ) (key : String) (c : InMemoryCache V) : Bool × InMemoryCache V :=
  if c.isExpired now key then
    (true, { store := c.store.pop key, expiry := c.expiry.pop key })
  else
    (false, c)

def get (now : ℚ) (key : String) (c : InMemoryCache V) : Option V × InMemoryCache V :=
  match c.evictIfExpired now key with
  | (true, c) => (none, c)
  | (false, c) => (c.store.get? key, c)

/-- `set`: the eviction reads the clock at `now` and the new expiry is counted from `now'`. -/
def set (now now' : ℚ) (key : String) (value : V) (ex : Option ℤ) (nx : Bool) (c : InMemoryCache V) :
    Bool × InMemoryCache V :=
  let c := (c.evictIfExpired now key).2
  if nx ∧ key ∈ c.store.keys then
    (false, c)
  else
    (true,
      { store := c.store.set key value
        expiry := match ex with
          | some seconds => c.expiry.set key (now' + seconds)
          | none => c.expiry.pop key })

def delete (key : String) (c : InMemoryCache V) : ℤ × InMemoryCache V :=
  (if key ∈ c.store.keys then 1 else 0, { store := c.store.pop key, expiry := c.expiry.pop key })

/-- `exists` -/
def existsKey (now : ℚ) (key : String) (c : InMemoryCache V) : ℤ × InMemoryCache V :=
  match c.evictIfExpired now key with
  | (true, c) => (0, c)
  | (false, c) => (if key ∈ c.store.keys then 1 else 0, c)

def expire (now : ℚ) (key : String) (seconds : ℤ) (c : InMemoryCache V) : Bool × InMemoryCache V :=
  if key ∈ c.store.keys then
    (true, { c with expiry := c.expiry.set key (now + seconds) })
  else
    (false, c)

def ttl (now : ℚ) (key : String) (c : InMemoryCache V) : ℤ :=
  match c.expiry.get? key with
  | none => -1
  | some exp => max (truncate (exp - now)) 0

/-- `keys`, for any `fnmatch.fnmatch`. -/
def keys (fnmatch : String → String → Bool) (now : ℚ) (pattern : String) (c : InMemoryCache V) :
    List String :=
  let live := (c.expiry.items.filter fun p => now ≤ p.2).map Prod.fst
  let noExp := c.store.keys.filter (· ∉ c.expiry.keys)
  let allKeys := live ++ noExp
  if pattern = "*" then allKeys else allKeys.filter fun key => fnmatch key pattern

end InMemoryCache

end ExpenseSettlement

import ExpenseSettlement.Cache.InMemoryCache
import ExpenseSettlement.Lib.TtlMap
import Mathlib.Data.Finset.Dedup

/-!
# The cache and what it stands for

The calls of the cache with the clock readings at which they are made, and the map that they are meant
to be calls of: one that removes every expired key before each operation.
-/

namespace ExpenseSettlement

open Lib

inductive CacheCall (V : Type)
  | get (now : ℚ) (key : String)
  | set (now now' : ℚ) (key : String) (value : V) (ex : Option ℤ) (nx : Bool)
  | delete (now : ℚ) (key : String)
  | existsKey (now : ℚ) (key : String)
  | expire (now : ℚ) (key : String) (seconds : ℤ)
  | ttl (now : ℚ) (key : String)
  | keys (now : ℚ) (pattern : String)

/-- What a call returns. A list of keys is compared as a set. -/
inductive CacheReply (V : Type)
  | value (value : Option V)
  | flag (flag : Bool)
  | count (count : ℤ)
  | names (names : Finset String)
deriving DecidableEq

variable {V : Type}

/-- The clock readings of a call. -/
def CacheCall.readings : CacheCall V → List ℚ
  | .set now now' _ _ _ _ => [now, now']
  | .get now _ | .delete now _ | .existsKey now _ | .expire now _ _ | .ttl now _ | .keys now _ => [now]

def CacheCall.now : CacheCall V → ℚ
  | .get now _ | .set now _ _ _ _ _ | .delete now _ | .existsKey now _ | .expire now _ _ | .ttl now _
  | .keys now _ => now

def InMemoryCache.call (fnmatch : String → String → Bool) (c : InMemoryCache V) :
    CacheCall V → CacheReply V × InMemoryCache V
  | .get now key => let (value, c) := c.get now key; (.value value, c)
  | .set now now' key value ex nx => let (flag, c) := c.set now now' key value ex nx; (.flag flag, c)
  | .delete _ key => let (count, c) := c.delete key; (.count count, c)
  | .existsKey now key => let (count, c) := c.existsKey now key; (.count count, c)
  | .expire now key seconds => let (flag, c) := c.expire now key seconds; (.flag flag, c)
  | .ttl now key => (.count (c.ttl now key), c)
  | .keys now pattern => (.names (c.keys fnmatch now pattern).toFinset, c)

/-! ## The reference -/

abbrev TtlMap (V : Type) := Dict String (TtlEntry V ℚ)

namespace TtlMap

/-- The call on a map without expired keys. -/
def answer (fnmatch : String → String → Bool) (m : TtlMap V) : CacheCall V → CacheReply V × TtlMap V
  | .get _ key => (.value ((m.get? key).map (·.value)), m)
  | .set _ now' key value ex nx =>
      if nx ∧ key ∈ m.keys then
        (.flag false, m)
      else
        (.flag true, m.set key ⟨value, ex.map fun (seconds : ℤ) => now' + seconds⟩)
  | .delete _ key => (.count (if key ∈ m.keys then 1 else 0), m.pop key)
  | .existsKey _ key => (.count (if key ∈ m.keys then 1 else 0), m)
  | .expire now key seconds =>
      match m.get? key with
      | none => (.flag false, m)
      | some e => (.flag true, m.set key ⟨e.value, some (now + seconds)⟩)
  | .ttl now key =>
      match (m.get? key).bind (·.expiry) with
      | none => (.count (-1), m)
      | some exp => (.count (max (truncate (exp - now)) 0), m)
  | .keys _ pattern =>
      (.names (if pattern = "*" then m.keys else m.keys.filter fun key => fnmatch key pattern).toFinset, m)

def call (fnmatch : String → String → Bool) (m : TtlMap V) (call : CacheCall V) :
    CacheReply V × TtlMap V :=
  answer fnmatch (purge call.now m) call

end TtlMap

/-- The cache and the reference, given the same calls. -/
def bothStep (fnmatch : String → String → Bool) (s : InMemoryCache V × TtlMap V) (call : CacheCall V) :
    InMemoryCache V × TtlMap V :=
  ((s.1.call fnmatch call).2, (s.2.call fnmatch call).2)

/-- The call is one of those that do not evict, and it meets a key that has expired. -/
def MeetsExpired (c : InMemoryCache V) : CacheCall V → Prop
  | .delete now key | .expire now key _ | .ttl now key => c.isExpired now key = true
  | _ => False

end ExpenseSettlement

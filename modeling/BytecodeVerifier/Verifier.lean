import BytecodeVerifier.Fingerprint
import BytecodeVerifier.Verify

/-!
# Verifiers — verification with a memory

A verifier may keep a cache, which remembers the report of every method by its fingerprint and
counts how often a report was found there.  A verification which is cancelled gives no report, and
leaves none in the cache; but a report found in the cache is given all the same.
-/

namespace BytecodeVerifier

/-! ### The cache -/

/-- Reports by fingerprint, and how the look-ups went. -/
structure Cache where
  entries : List (Fingerprint × Report)
  hits : Nat
  misses : Nat
  deriving DecidableEq, Repr, Inhabited

namespace Cache

/-- The cache which remembers nothing. -/
def empty : Cache := ⟨[], 0, 0⟩

/-- The number of reports. -/
def size (c : Cache) : Nat := c.entries.length

/-- The report of a fingerprint, if there is one, and the cache with this look-up counted. -/
def get (c : Cache) (f : Fingerprint) : Option Report × Cache :=
  match c.entries.lookup f with
  | some r => (some r, { c with hits := c.hits + 1 })
  | none => (none, { c with misses := c.misses + 1 })

/-- The cache with a report, in place of any other of the same fingerprint. -/
def put (c : Cache) (f : Fingerprint) (r : Report) : Cache :=
  { c with entries := (f, r) :: c.entries.filter fun e => e.1 != f }

end Cache

/-! ### Verifiers -/

/-- How a verifier works. -/
structure Config where
  /-- How many methods are verified at a time; 0 means any number. -/
  workers : Nat
  /-- How many nanoseconds a method may take; 0 or less means any number. -/
  timeout : Int64
  /-- Reports are remembered. -/
  cache : Bool
  deriving DecidableEq, Repr, Inhabited

namespace Config

/-- One method at a time, without a time limit, with a cache. -/
def default : Config := ⟨1, 0, true⟩

/-- The number of nanoseconds in a second. -/
def second : Int64 := 1000000000

/-- A configuration whose time limit is given in seconds; nanoseconds are counted modulo `2⁶⁴`. -/
def ofSeconds (workers : Nat) (seconds : Int64) (cache : Bool) : Config :=
  ⟨workers, seconds * second, cache⟩

/-- The time limit in whole seconds. -/
def seconds (c : Config) : Int64 := c.timeout / second

end Config

/-- Why a verifier gives no report. -/
inductive Refusal where
  /-- An operation could not be carried out. -/
  | fault (f : Fault)
  /-- The verification of the named method was cancelled. -/
  | cancelled (name : String)
  deriving DecidableEq, Repr, Inhabited

/-- A verifier and what it remembers. -/
structure Verifier where
  config : Config
  cache : Option Cache
  deriving DecidableEq, Repr, Inhabited

namespace Verifier

/-- A verifier which remembers nothing yet. -/
def new (config : Config) : Verifier :=
  ⟨config, if config.cache then some .empty else none⟩

/-- The outcome of examining a method, as the verifier's own. -/
def outcome (m : Method) : Except Interruption Report → Except Refusal Report
  | .ok r => .ok r
  | .error (.fault f) => .error (.fault f)
  | .error .cancelled => .error (.cancelled m.name)

/-- Verifies a method: gives what is logged, the report, and the verifier afterwards. -/
def verify (v : Verifier) (cancelled : Bool) (m : Method) :
    List String × Except Refusal Report × Verifier :=
  match v.cache with
  | none =>
    let (events, result) := m.examine cancelled
    (events.map (Event.text m.name), outcome m result, v)
  | some cache =>
    let f := Fingerprint.of m
    match cache.get f with
    | (some r, cache) => ([s!"cache hit for {m.name}"], .ok r, { v with cache })
    | (none, cache) =>
      let (events, result) := m.examine cancelled
      let cache := match result with
        | .ok r => cache.put f r
        | .error _ => cache
      (events.map (Event.text m.name), outcome m result, { v with cache })

/-- Verifies methods one after the other, all of them, whatever happens to any. -/
def verifyEach (v : Verifier) (cancelled : Bool) :
    List Method → List String × List (Except Refusal Report) × Verifier
  | [] => ([], [], v)
  | m :: ms =>
    let (log, result, v) := v.verify cancelled m
    let (logs, results, v) := v.verifyEach cancelled ms
    (log ++ logs, result :: results, v)

/-- Verifies methods, and gives their reports in order, or the first refusal. -/
def verifyAll (v : Verifier) (cancelled : Bool) (ms : List Method) :
    List String × Except Refusal (List Report) × Verifier :=
  let (log, results, v) := v.verifyEach cancelled ms
  (log, results.mapM id, v)

/-- The report in the cache, which must be there, for a method. -/
def lookup (v : Verifier) (m : Method) : Except Fault (Option Report × Verifier) :=
  match v.cache with
  | none => .error .outOfBounds
  | some cache =>
    let (r, cache) := cache.get (.of m)
    .ok (r, { v with cache })

/-- Puts a report of a method into the cache, which must be there. -/
def remember (v : Verifier) (m : Method) (r : Report) : Except Fault Verifier :=
  match v.cache with
  | none => .error .outOfBounds
  | some cache => .ok { v with cache := cache.put (.of m) r }

end Verifier

/-- The text of a refusal which is not a fault. -/
def Refusal.message? : Refusal → Option String
  | .fault f => f.message?
  | .cancelled name => some s!"verifying {name}: context canceled"

end BytecodeVerifier

/-!
# Eviction policies

The six rules by which a full cache chooses what to drop, as names that a configuration can hold.

## Main definitions

- `Policy` — the six policies
- `Policy.all` — all of them, in the order in which they are listed to a user
- `Policy.name`, `Policy.ofName` — their short names, and the policy that a name selects
- `Policy.minCapacity` — the smallest capacity each accepts with its default parameters

## Design notes

Reading a name never fails: a name that selects nothing selects the default, so that a
configuration with a typing mistake still yields a working cache.
-/

namespace BoundedCache

/-- The rule by which a full cache chooses the entry to drop. -/
inductive Policy where
  /-- Drop the entry that has gone unused the longest. -/
  | lru
  /-- Drop the entry used least often. -/
  | lfu
  /-- Recency in two segments: an entry has to be used again before it is protected. -/
  | segmented
  /-- Recency and frequency, balanced by the memory of what was dropped too early. -/
  | adaptive
  /-- A small recency window, and a frequency contest for a place in the main part. -/
  | tinyLfu
  /-- Drop the longest unused of a few entries drawn at random. -/
  | sampled
  deriving DecidableEq, Inhabited

namespace Policy

/-- How few entries a sampling eviction may inspect. -/
def fewestSamples : Nat := 5

/-- Every policy, in the order in which they are listed to a user. -/
def all : List Policy :=
  [.lru, .lfu, .segmented, .adaptive, .tinyLfu, .sampled]

def default : Policy := .lru

/-- The short name of a policy, as `ofName` reads it back. -/
def name : Policy → String
  | .lru => "lru"
  | .lfu => "lfu"
  | .segmented => "slru"
  | .adaptive => "arc"
  | .tinyLfu => "tinylfu"
  | .sampled => "sampled_lru"

/-- The smallest capacity that a policy accepts with its default parameters. -/
def minCapacity : Policy → Nat
  | .lru | .lfu | .adaptive => 1
  | .segmented => 2
  | .tinyLfu => 3
  | .sampled => fewestSamples

/-- The policy that a lower-case name selects, if any. -/
def ofLowerName? : String → Option Policy
  | "lru" => some .lru
  | "lfu" => some .lfu
  | "slru" | "segmented" => some .segmented
  | "arc" => some .adaptive
  | "tinylfu" | "tiny_lfu" | "wtinylfu" => some .tinyLfu
  | "sampled_lru" | "sampledlru" | "nearly_lru" => some .sampled
  | _ => none

/-- The policy that a name selects, whatever its case; the default for a name that selects none.
Folding the case of `A` to `Z` is enough: no other letter has a lower-case form that occurs in one
of the names. -/
def ofName (text : String) : Policy :=
  (ofLowerName? text.toLower).getD default

end Policy

end BoundedCache

/-!
# Cache entries

A cache holds bindings of keys to values. An entry is one such binding as it travels: handed back
when it is displaced, or listed when the cache is read.

## Main definitions

- `Entry` — a key together with its value
- `Entry.ofPair`, `Entry.toPair` — the same binding as a plain pair
-/

namespace BoundedCache

/-- A key together with the value bound to it. -/
structure Entry (κ ν : Type) where
  key : κ
  value : ν
  deriving DecidableEq, Inhabited

namespace Entry

variable {κ ν : Type}

/-- The entry that binds the first component of a pair to the second. -/
def ofPair (binding : κ × ν) : Entry κ ν :=
  ⟨binding.1, binding.2⟩

/-- The key and the value of an entry, as a pair. -/
def toPair (entry : Entry κ ν) : κ × ν :=
  (entry.key, entry.value)

@[simp]
theorem toPair_ofPair (binding : κ × ν) : (ofPair binding).toPair = binding := rfl

@[simp]
theorem ofPair_toPair (entry : Entry κ ν) : ofPair entry.toPair = entry := rfl

end Entry

end BoundedCache

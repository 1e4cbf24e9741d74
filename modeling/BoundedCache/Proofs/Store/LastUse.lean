import BoundedCache.Proofs.Store.Run

/-!
# The last use of a key

From the turns of a run it can be told when each key was used last.

## Main definitions

- `Observed.lastUse` — how far back the last use of a key is, counted from the start
- `Observed.ByLastUse` — entries in the order in which their keys were used last

## Main results

- `Observed.ByLastUse.keep`, `Observed.ByLastUse.use` — one more turn keeps entries in order
-/

namespace BoundedCache

namespace Observed

variable {κ ν : Type} [DecidableEq κ] {k : κ} {turn : Turn κ ν} {turns : List (Turn κ ν)}
  {l l' : List (Entry κ ν)}

/-- The turn binds the key, or finds its value in a lookup. -/
def Turn.uses (turn : Turn κ ν) (key : κ) : Bool :=
  match turn.request with
  | .put k _ => k = key
  | .get k => k = key && turn.isHit
  | _ => false

/-- The number of turns up to the last one that used a key, zero if none did. -/
def lastUse (key : κ) (turns : List (Turn κ ν)) : Nat :=
  turns.length - turns.reverse.findIdx fun turn => turn.uses key

theorem lastUse_concat (key : κ) (turns : List (Turn κ ν)) (turn : Turn κ ν) :
    lastUse key (turns ++ [turn]) =
      if turn.uses key then turns.length + 1 else lastUse key turns := by
  rw [lastUse, lastUse, List.reverse_append, List.reverse_singleton, List.singleton_append,
    List.findIdx_cons, List.length_append, List.length_singleton]
  by_cases h : turn.uses key = true
  · simp [h]
  · simp [h]

theorem lastUse_le (key : κ) (turns : List (Turn κ ν)) : lastUse key turns ≤ turns.length :=
  Nat.sub_le ..

/-- Every entry had its key used in some turn, and the keys of those ahead of it were used last in
an earlier one. -/
structure ByLastUse (turns : List (Turn κ ν)) (l : List (Entry κ ν)) : Prop where
  used : ∀ e ∈ l, 0 < lastUse e.key turns
  pairwise : l.Pairwise fun e e' => lastUse e.key turns < lastUse e'.key turns

theorem ByLastUse.nil (turns : List (Turn κ ν)) : ByLastUse turns ([] : List (Entry κ ν)) where
  used _ he := absurd he List.not_mem_nil
  pairwise := .nil

/-- A turn that uses none of the entries leaves those that stay in order. -/
theorem ByLastUse.keep (h : ByLastUse turns l) (hl : l'.Sublist l)
    (hturn : ∀ e ∈ l', turn.uses e.key = false) : ByLastUse (turns ++ [turn]) l' := by
  have hsame : ∀ e ∈ l', lastUse e.key (turns ++ [turn]) = lastUse e.key turns := by
    intro e he
    rw [lastUse_concat, hturn e he]
    exact if_neg Bool.false_ne_true
  constructor
  · intro e he
    rw [hsame e he]
    exact h.used e (hl.subset he)
  · refine (h.pairwise.sublist hl).imp_of_mem fun he he' hlt => ?_
    rw [hsame _ he, hsame _ he']
    exact hlt

/-- A turn that uses the key of an entry moves it behind all others. -/
theorem ByLastUse.use (h : ByLastUse turns l) (hl : l'.Sublist l) {e : Entry κ ν}
    (he : turn.uses e.key = true) (hothers : ∀ e' ∈ l', turn.uses e'.key = false) :
    ByLastUse (turns ++ [turn]) (l' ++ [e]) := by
  have hlast : lastUse e.key (turns ++ [turn]) = turns.length + 1 := by
    rw [lastUse_concat, if_pos he]
  have hkept := h.keep hl hothers
  constructor
  · rw [List.forall_mem_append, List.forall_mem_singleton]
    exact ⟨hkept.used, by omega⟩
  · rw [List.pairwise_append]
    refine ⟨hkept.pairwise, List.pairwise_singleton .., ?_⟩
    intro e' he' x hx
    rw [List.mem_singleton.1 hx, hlast, lastUse_concat, hothers e' he']
    exact Nat.lt_succ_of_le (lastUse_le _ turns)

/-- Of two entries in order, the one ahead was used last in an earlier turn. -/
theorem ByLastUse.lt_of_append {rest : List (Entry κ ν)} (h : ByLastUse turns (l ++ rest))
    {e e' : Entry κ ν} (he : e ∈ l) (he' : e' ∈ rest) :
    lastUse e.key turns < lastUse e'.key turns :=
  (List.pairwise_append.1 h.pairwise).2.2 e he e' he'

end Observed

end BoundedCache

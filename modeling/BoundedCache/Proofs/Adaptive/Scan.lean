import BoundedCache.Proofs.Adaptive.Displace

/-!
# Scans leave frequent entries alone

A scan puts keys that no list knows. It grows the recency part until that exceeds its target by one
entry; until then the frequency part may have to give way, and from then on it never does. So what a
scan of any length costs the frequency part is known before it starts.

## Main definitions

- `Adaptive.Unlisted` — each key is in none of the lists when it is put
- `Adaptive.Scanned` — what a scan may do to the two parts

## Main results

- `Adaptive.Scanned.cons` — one put more
- `Adaptive.actAll_scanned` — scans of any length, from every state that can be reached
-/

namespace BoundedCache.Adaptive

variable {κ ν : Type} [DecidableEq κ] [Hashable κ] {c d t : Adaptive κ ν} {e : Entry κ ν}
  {l displaced recent : List (Entry κ ν)} {frequent : List (Counted κ ν)}

/-- Each of the keys is in none of the four lists when it is put. -/
def Unlisted (c : Adaptive κ ν) : List (Entry κ ν) → Prop
  | [] => True
  | e :: l => c.lists e.key = false ∧ Unlisted (c.put e.key e.value).2 l

/-- A scan leaves the target where it is. What it displaces are entries from the front of the
frequency part, of which there are no more than the recency part was from exceeding its target, and
the oldest entries of the recency part, to which the scan adds its own. What is left of the
frequency part keeps its values, its numbers of uses and its order. -/
structure Scanned (c : Adaptive κ ν) (l displaced recent : List (Entry κ ν))
    (frequent : List (Counted κ ν)) (d : Adaptive κ ν) : Prop where
  target_eq : d.target = c.target
  merges : Merges displaced recent (frequent.map Counted.entry)
  recent_eq : c.recent.entries ++ l = recent ++ d.recent.entries
  frequent_eq : c.frequent.ranking = frequent ++ d.frequent.ranking
  length_le : frequent.length ≤ c.target + 1 - c.recent.entries.length

namespace Scanned

theorem nil (c : Adaptive κ ν) : Scanned c [] [] [] [] c where
  target_eq := rfl
  merges := .nil
  recent_eq := List.append_nil _
  frequent_eq := rfl
  length_le := Nat.zero_le _

/-- A put ahead of a scan either displaces from the recency part, whose size it keeps, or brings
that part nearer to exceeding its target. -/
theorem cons {recent' : List (Entry κ ν)} {frequent' : List (Counted κ ν)}
    {dropped : Option (Entry κ ν)} (hfirst : Sheds c dropped.toList recent frequent t)
    (hkeeps : c.target < c.recent.entries.length → frequent = [])
    {s : Adaptive κ ν} (hrecent : s.recent.entries = t.recent.entries ++ [e])
    (hfrequent : s.frequent = t.frequent) (htarget : s.target = t.target)
    (hlater : Scanned s l displaced recent' frequent' d) :
    Scanned c (e :: l) (dropped.toList ++ displaced) (recent ++ recent') (frequent ++ frequent')
      d where
  target_eq := by rw [hlater.target_eq, htarget, hfirst.target_eq]
  merges := by
    rw [List.map_append]
    exact hfirst.merges.append hlater.merges
  recent_eq := by
    have hrest := hlater.recent_eq
    rw [hrecent, List.append_assoc] at hrest
    rw [hfirst.recent_eq, List.append_assoc, List.append_assoc, ← hrest]
    rfl
  frequent_eq := by
    rw [hfirst.frequent_eq, List.append_assoc, ← hlater.frequent_eq, hfrequent]
  length_le := by
    have hone : dropped.toList.length ≤ 1 := by cases dropped <;> simp
    have hparts := hfirst.merges.perm.length_eq
    have hbefore := congrArg List.length hfirst.recent_eq
    have hafter := congrArg List.length hrecent
    have hle := hlater.length_le
    rw [List.length_append, List.length_map] at hparts
    rw [List.length_append] at hbefore hafter ⊢
    rw [htarget, hfirst.target_eq, hafter, List.length_singleton] at hle
    rcases Nat.lt_or_ge c.target c.recent.entries.length with hlt | hge
    · rw [hkeeps hlt] at hparts ⊢
      rw [List.length_nil] at hparts ⊢
      omega
    · omega

end Scanned

/-- What a scan does to a state in order. -/
theorem Valid.actAll_puts {o : Observed (Adaptive κ ν)} (h : o.store.Valid)
    (hl : o.store.Unlisted l) :
    let run := o.actAll (Observed.puts l)
    ∃ recent frequent,
      Scanned o.store l (run.1.flatMap Observed.Turn.reported) recent frequent run.2.store := by
  induction l generalizing o with
  | nil => exact ⟨[], [], .nil _⟩
  | cons e l ih =>
    obtain ⟨hk, hrest⟩ := hl
    obtain ⟨t, recent, frequent, hfirst, hkeeps, -, -, hput, hrecent⟩ := h.put_sheds hk e.value
    let next := (o.perform (.put e.key e.value)).2
    have hstore : next.store = (o.store.put e.key e.value).2 := o.store_perform_put e.key e.value
    have hnext : next.store.Valid := lawful.act h (.request (.put e.key e.value))
    obtain ⟨recent', frequent', hlater⟩ := ih hnext (hstore ▸ hrest)
    rw [h.recent.size_eq] at hkeeps
    have hfrequent : (o.store.put e.key e.value).2.frequent = t.frequent := by rw [hput]
    have htarget : (o.store.put e.key e.value).2.target = t.target := by rw [hput]
    rw [← hstore] at hrecent hfrequent htarget
    intro run
    rw [Observed.reported_puts_cons]
    exact ⟨_, _, .cons hfirst hkeeps hrecent hfrequent htarget hlater⟩

/-- From every state that can be reached, a scan of any length leaves the target where it is and
costs the frequency part no more than the entries that the recency part is from exceeding its
target; all else that it displaces comes from the recency part, the oldest first. -/
theorem actAll_scanned {n : Nat} (hc : create n = .ok c) (listener : Option Nat)
    (actions : List (Observed.Action κ ν)) :
    let o := (Observed.actAll { store := c, listener } actions).2
    ∀ l, Unlisted o.store l →
      let run := o.actAll (Observed.puts l)
      ∃ recent frequent,
        Scanned o.store l (run.1.flatMap Observed.Turn.reported) recent frequent run.2.store := by
  intro o l hl
  let start : Observed (Adaptive κ ν) := { store := c, listener }
  have h : o.store.Valid := lawful.actAll (o := start) (create_holds hc).inv actions
  exact h.actAll_puts hl

/-- A scan of two keys costs a full frequency part one entry, and then its own first one goes. -/
theorem actAll_scanned_two :
    ∃ c : Adaptive Nat Nat, create 1 = .ok c ∧
      let o := (Observed.actAll { store := c, listener := some 7 }
        [.request (.put 1 10), .request (.get 1)]).2
      let run := o.actAll (Observed.puts [⟨2, 20⟩, ⟨3, 30⟩])
      run.1.flatMap Observed.Turn.reported = [⟨1, 10⟩, ⟨2, 20⟩] ∧
        ∃ recent frequent, Scanned o.store [⟨2, 20⟩, ⟨3, 30⟩] [⟨1, 10⟩, ⟨2, 20⟩] recent frequent
          run.2.store := by
  have hc : create 1 =
      .ok (⟨1, 0, .empty 1, .empty 1, .empty 1, .empty 1⟩ : Adaptive Nat Nat) := rfl
  have hdisplaced : ((Observed.actAll
      { store := (⟨1, 0, .empty 1, .empty 1, .empty 1, .empty 1⟩ : Adaptive Nat Nat)
        listener := some 7 }
      [.request (.put 1 10), .request (.get 1)]).2.actAll
        (Observed.puts [⟨2, 20⟩, ⟨3, 30⟩])).1.flatMap Observed.Turn.reported =
      [⟨1, 10⟩, ⟨2, 20⟩] := by cbv
  have hscan := actAll_scanned hc (some 7) [.request (.put 1 10), .request (.get 1)]
    [⟨2, 20⟩, ⟨3, 30⟩] ⟨by cbv, by cbv, trivial⟩
  dsimp only at hscan
  rw [hdisplaced] at hscan
  exact ⟨_, hc, hdisplaced, hscan⟩

end BoundedCache.Adaptive

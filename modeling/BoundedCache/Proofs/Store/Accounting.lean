import BoundedCache.Proofs.Store.Lawful

/-!
# What is announced and counted

Those who watch a store learn of every entry that gives way, once, and of no other. The tally counts
the same entries, whether or not anyone listens, and the outcomes of lookups.

## Main definitions

- `Store.AsAsked` — what each kind of request reports
- `Store.Reports` — the entries that a request reports are those that give way in it
- `Tally.Counts` — a tally counts what a request reports, and the outcome of a lookup
- `Observed.CountsAll` — a tally counts what is reported in a run, and the lookups made in it

## Main results

- `Store.Lawful.reports` — the requests of a lawful store report exactly what gives way
- `Observed.perform_counts` — what the tally counts in one request
- `Observed.actAll_counts` — what it counts in a run
-/

namespace BoundedCache

open Keyed

variable {κ ν σ : Type} [Store σ κ ν]

/-! ## Reports -/

namespace Store

/-- What a request reports, given the states before and after it: the entry that it returns, all
entries, those that a smaller capacity left no room for, or none. -/
def AsAsked (s : σ) (request : Request κ ν) (reply : Reply κ ν) (reported : List (Entry κ ν))
    (t : σ) : Prop :=
  match request with
  | .put _ _ | .evict => ∃ dropped, reply = .entry dropped ∧ reported = dropped.toList
  | .drain => reply = .done ∧ reported.Perm (entries s) ∧ entries t = []
  | .resize _ =>
    (reply = .done ∧ ∀ e, e ∈ reported ↔ e ∈ entries s ∧ e ∉ entries t) ∨
      ∃ cause, reply = .refused cause ∧ reported = [] ∧ t = s
  | .get _ | .peek _ | .contains _ | .remove _ | .clear => reported = []

/-- The entries reported in a request that takes a store from `s` to `t`: each was bound that way,
is not bound any more, and is told once. Nothing goes silently, unless it was asked to. -/
structure Reports (s : σ) (request : Request κ ν) (reply : Reply κ ν) (reported : List (Entry κ ν))
    (t : σ) : Prop where
  asAsked : AsAsked s request reply reported t
  gone : ∀ e ∈ reported, e ∈ entries s ∧ e.key ∉ keys (entries t)
  once : Distinct Entry.key reported
  complete : request = .clear ∨ (∃ key, request = .remove key) ∨
    ∀ e ∈ entries s, e.key ∉ keys (entries t) → e ∈ reported

section Reports

variable {s t : σ} {request : Request κ ν} {reply : Reply κ ν} {rest reported : List (Entry κ ν)}

/-- The entries go from what was there before to what is reported and a rest, to which new keys may
be added. -/
theorem Reports.of_perm (hd : Distinct Entry.key (entries s))
    (hp : (entries s).Perm (reported ++ rest)) (hkept : keys rest ⊆ keys (entries t))
    (hnew : ∀ k ∈ keys (entries t), k ∈ keys rest ∨ k ∉ keys (entries s))
    (hasked : AsAsked s request reply reported t) : Reports s request reply reported t := by
  obtain ⟨honce, -, hdisjoint⟩ := distinct_append_iff_disjoint.1 (hd.perm hp)
  refine ⟨hasked, fun e he => ?_, honce, .inr (.inr fun e he hout => ?_)⟩
  · have hmem : e ∈ entries s := hp.mem_iff.2 (List.mem_append_left _ he)
    have hkey : e.key ∈ keys reported := List.mem_map_of_mem he
    refine ⟨hmem, fun hk => ?_⟩
    exact (hnew _ hk).elim (hdisjoint hkey) fun hfree => hfree (List.mem_map_of_mem hmem)
  · refine (List.mem_append.1 (hp.mem_iff.1 he)).resolve_right fun hmem => hout ?_
    exact hkept (List.mem_map_of_mem hmem)

/-- The entries go from what was there before to what is reported and what is left. -/
theorem Reports.of_left (hd : Distinct Entry.key (entries s))
    (hp : (entries s).Perm (reported ++ rest)) (ht : (entries t).Perm rest)
    (hasked : AsAsked s request reply reported t) : Reports s request reply reported t :=
  .of_perm hd hp (keys_subset_of_perm ht.symm) (fun _ hk => .inl (keys_subset_of_perm ht hk)) hasked

/-- No entry goes, and none is reported. -/
theorem Reports.of_kept (hd : Distinct Entry.key (entries s))
    (ht : (entries t).Perm (entries s)) (hasked : AsAsked s request reply [] t) :
    Reports s request reply [] t :=
  .of_left hd (List.Perm.of_eq (List.nil_append _).symm) ht hasked

/-- An entry is among those that went if it was there and is not left. -/
theorem mem_gone_iff (hd : Distinct Entry.key (entries s))
    (hp : (entries s).Perm (reported ++ rest)) (ht : (entries t).Perm rest) (e : Entry κ ν) :
    e ∈ reported ↔ e ∈ entries s ∧ e ∉ entries t := by
  obtain ⟨-, -, hdisjoint⟩ := distinct_append_iff_disjoint.1 (hd.perm hp)
  rw [hp.mem_iff, ht.mem_iff, List.mem_append]
  constructor
  · intro he
    exact ⟨.inl he, fun hrest => hdisjoint (List.mem_map_of_mem he) (List.mem_map_of_mem hrest)⟩
  · rintro ⟨he, hout⟩
    exact he.resolve_right hout

end Reports

variable [DecidableEq κ]

namespace Lawful

variable {Inv : σ → Prop} {s : σ}

/-- The requests of a lawful store report exactly what gives way. -/
theorem reports (hlaw : Lawful Inv) (h : Inv s) (request : Request κ ν) :
    Reports s request (Store.perform s request).1.reply (Store.perform s request).1.evicted
      (Store.perform s request).2 := by
  have hd := hlaw.distinct h
  cases request with
  | put key value =>
    obtain ⟨⟨rest, hp, ht⟩, hisSome⟩ := hlaw.put h key value
    rw [Store.evicted_put]
    refine .of_perm hd hp (fun k hk => (mem_keys_insert ht.perm).2 (.inr hk)) ?_ ⟨_, rfl, rfl⟩
    intro k hk
    rcases (mem_keys_insert ht.perm).1 hk with rfl | hrest
    · -- A key that was bound displaces nothing, so it is bound by the rest.
      by_cases hbound : k ∈ keys (entries s)
      · have hnone : (Store.put s k value).1 = none := by
          rw [← Option.not_isSome_iff_eq_none, hisSome, lookup?_eq_none_iff]
          exact fun hfull => hfull.1 hbound
        rw [hnone] at hp
        exact .inl ((mem_keys_perm hp).1 hbound)
      · exact .inr hbound
    · exact .inl hrest
  | get key =>
    rw [hlaw.perform_get h]
    exact .of_kept hd (hlaw.get h key).holds.perm rfl
  | peek key => exact .of_kept hd (.refl _) rfl
  | contains key => exact .of_kept hd (.refl _) rfl
  | remove key =>
    exact ⟨rfl, fun e he => absurd he List.not_mem_nil, List.nodup_nil, .inr (.inl ⟨key, rfl⟩)⟩
  | evict =>
    obtain ⟨⟨rest, hp, ht⟩, -⟩ := hlaw.evict h
    rw [Store.evicted_evict]
    exact .of_left hd hp ht.perm ⟨_, rfl, rfl⟩
  | clear => exact ⟨rfl, fun e he => absurd he List.not_mem_nil, List.nodup_nil, .inl rfl⟩
  | drain =>
    obtain ⟨hp, ht⟩ := hlaw.drain h
    have hall := hp
    rw [← List.append_nil (Store.drain s).1] at hall
    rw [Store.evicted_drain]
    exact .of_left hd hall ht.perm ⟨rfl, hp.symm, ht.perm.eq_nil⟩
  | resize n =>
    rw [Store.perform_resize]
    rcases hresize : Store.resize s n with cause | ⟨dropped, t⟩
    · exact .of_kept hd (.refl _) (.inr ⟨cause, rfl, rfl, rfl⟩)
    · obtain ⟨rest, hp, ht⟩ := hlaw.resize h n dropped t hresize
      rw [Outcome.evicted_evicting]
      exact .of_left hd hp ht.perm (.inl ⟨rfl, mem_gone_iff hd hp ht.perm⟩)

end Lawful

end Store

/-! ## Counts -/

/-- A tally counts the entries that were reported, and the outcome of a lookup. -/
structure Tally.Counts (before : Tally) (request : Request κ ν) (reply : Reply κ ν)
    (reported : List (Entry κ ν)) (after : Tally) : Prop where
  evictions_eq : after.evictions = before.evictions + reported.length
  hits_eq : after.hits = before.hits + if request.isHit reply then 1 else 0
  misses_eq : after.misses = before.misses + if request.isMiss reply then 1 else 0

namespace Tally

theorem recordAll_evictions (t : Tally) (reported : List (Entry κ ν)) :
    t.recordAll (reported.map fun _ => .eviction) =
      { t with evictions := t.evictions + reported.length } := by
  induction reported generalizing t with
  | nil => rfl
  | cons e reported ih =>
    rw [List.map_cons, recordAll_cons, ih, record, List.length_cons, Nat.add_right_comm,
      Nat.add_assoc]

/-- Where nothing is looked up, only the entries that give way count. -/
theorem counts_evicting {request : Request κ ν} {reply : Reply κ ν}
    (hhit : request.isHit reply = false) (hmiss : request.isMiss reply = false) (t : Tally)
    (evicted : List (Entry κ ν)) :
    Counts t request reply (Outcome.evicting reply evicted).evicted
      (t.recordAll (Outcome.evicting reply evicted).events) := by
  rw [Outcome.evicted_evicting, Outcome.events_evicting, recordAll_evictions]
  refine ⟨rfl, ?_, ?_⟩
  · rw [hhit]
    rfl
  · rw [hmiss]
    rfl

/-- A lookup counts as a hit or as a miss. -/
theorem counts_lookup (t : Tally) (key : κ) (value : Option ν) :
    Counts t (.get key) (.value value) (Outcome.lookup value : Outcome κ ν).evicted
      (t.recordAll (Outcome.lookup value : Outcome κ ν).events) := by
  cases value <;> exact ⟨rfl, rfl, rfl⟩

variable [DecidableEq κ] {Inv : σ → Prop} {s : σ}

/-- What a lawful store signals while a request runs is what the request reports, and the outcome of
a lookup. -/
theorem counts_perform (hlaw : Store.Lawful Inv) (h : Inv s) (t : Tally) (request : Request κ ν) :
    Counts t request (Store.perform s request).1.reply (Store.perform s request).1.evicted
      (t.recordAll (Store.perform s request).1.events) := by
  cases request with
  | put key value =>
    rw [Store.perform_put]
    exact counts_evicting rfl rfl t _
  | get key =>
    rw [hlaw.perform_get h]
    exact counts_lookup t key _
  | peek key => exact counts_evicting rfl rfl t []
  | contains key => exact counts_evicting rfl rfl t []
  | remove key => exact counts_evicting rfl rfl t []
  | evict =>
    rw [Store.perform_evict]
    exact counts_evicting rfl rfl t _
  | clear => exact counts_evicting rfl rfl t []
  | drain =>
    rw [Store.perform_drain]
    exact counts_evicting rfl rfl t _
  | resize n =>
    rw [Store.perform_resize]
    rcases Store.resize s n with cause | ⟨dropped, u⟩
    · exact counts_evicting rfl rfl t []
    · exact counts_evicting rfl rfl t dropped

end Tally

/-! ## Runs -/

namespace Observed

/-- A tally counts all entries that were reported in some turns, and the lookups made in them. -/
structure CountsAll (before : Tally) (turns : List (Turn κ ν)) (after : Tally) : Prop where
  evictions_eq : after.evictions = before.evictions + (turns.flatMap Turn.reported).length
  hits_eq : after.hits = before.hits + turns.countP Turn.isHit
  misses_eq : after.misses = before.misses + turns.countP Turn.isMiss

theorem countsAll_cons {before between after : Tally} {turn : Turn κ ν} {turns : List (Turn κ ν)}
    (h : Tally.Counts before turn.request turn.reply turn.reported between)
    (hrest : CountsAll between turns after) : CountsAll before (turn :: turns) after where
  evictions_eq := by
    rw [hrest.evictions_eq, h.evictions_eq, List.flatMap_cons, List.length_append, Nat.add_assoc]
  hits_eq := by
    rw [hrest.hits_eq, h.hits_eq, List.countP_cons, Nat.add_assoc, Nat.add_comm (ite ..)]
    rfl
  misses_eq := by
    rw [hrest.misses_eq, h.misses_eq, List.countP_cons, Nat.add_assoc, Nat.add_comm (ite ..)]
    rfl

variable [DecidableEq κ] {Inv : σ → Prop} {o : Observed σ}

/-- The tally counts what is reported, and the outcome of a lookup. -/
theorem perform_counts (hlaw : Store.Lawful Inv) (h : Inv o.store) (request : Request κ ν) :
    Tally.Counts o.tally request (o.perform request).1.1 (o.reported request)
      (o.perform request).2.tally := by
  rw [reported, perform_eq]
  exact Tally.counts_perform hlaw h o.tally request

/-- Whatever is done with a lawful store, its tally counts what is reported, and the lookups. -/
theorem actAll_counts (hlaw : Store.Lawful Inv) (h : Inv o.store) (actions : List (Action κ ν)) :
    CountsAll o.tally (o.actAll actions).1 (o.actAll actions).2.tally := by
  induction actions generalizing o with
  | nil => exact ⟨rfl, rfl, rfl⟩
  | cons action rest ih =>
    have hrest := ih (hlaw.act h action)
    cases action with
    | request request => exact countsAll_cons (perform_counts hlaw h request) hrest
    | listen listener => exact hrest
    | setSamples samples => exact hrest

end Observed

end BoundedCache

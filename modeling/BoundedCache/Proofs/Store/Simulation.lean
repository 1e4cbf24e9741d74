import BoundedCache.Proofs.Store.Run

/-!
# Stores that act alike

Two stores act alike when some relation between their states is kept by every operation, while both
tell and signal the same. Whoever watches them then learns the same from any run.

## Main definitions

- `Matches` — two results tell the same and leave related states
- `Store.Simulation` — a relation that every operation keeps
- `Store.MatchesOn` — the operation behind a request keeps a relation
- `Observed.Alike` — related stores, with the same tally and the same listener
- `Observed.Throughout` — a condition holds at every request of a run

## Main results

- `evictMany_matches` — repeated eviction keeps what a single eviction keeps
- `evictMany_eq_take` — repeated eviction at the head of a list
- `Store.Simulation.perform` — one request keeps the relation
- `Observed.actAll_matches`, `Observed.actAll_matches_of` — stores that act alike have one history
-/

namespace BoundedCache

variable {κ ν σ τ ε β : Type} {R : σ → τ → Prop}

/-- Two results tell the same and leave related states. -/
structure Matches (R : σ → τ → Prop) (p : β × σ) (q : β × τ) : Prop where
  fst_eq : p.1 = q.1
  related : R p.2 q.2

/-- Two results tell the same and leave related states, or are refused for the same reason. -/
def MatchesIfDone (R : σ → τ → Prop) (p : Except ε (β × σ)) (q : Except ε (β × τ)) : Prop :=
  match p, q with
  | .ok p, .ok q => Matches R p q
  | .error cause, .error cause' => cause = cause'
  | _, _ => False

/-! ## Repeated eviction -/

theorem evictMany_matches {f : σ → Option ε × σ} {g : τ → Option ε × τ}
    (hstep : ∀ s t, R s t → Matches R (f s) (g t)) {s : σ} {t : τ} (h : R s t) (n : Nat) :
    Matches R (evictMany f n s) (evictMany g n t) := by
  induction n generalizing s t with
  | zero => exact ⟨rfl, h⟩
  | succ n ih =>
    obtain ⟨hfst, hsnd⟩ := hstep s t h
    rcases hf : f s with ⟨_ | dropped, s'⟩ <;> rcases hg : g t with ⟨_ | dropped', t'⟩ <;>
      rw [hf, hg] at hfst hsnd
    · rw [evictMany_succ_of_none hf, evictMany_succ_of_none hg]
      exact ⟨rfl, hsnd⟩
    · exact absurd hfst.symm (Option.some_ne_none dropped')
    · exact absurd hfst (Option.some_ne_none dropped)
    · obtain ⟨hfst', hsnd'⟩ := ih hsnd
      cases hfst
      rw [evictMany_succ_of_some hf, evictMany_succ_of_some hg]
      exact ⟨congrArg (dropped :: ·) hfst', hsnd'⟩

theorem evictMany_keeps {P : σ → Prop} {evict : σ → Option ε × σ}
    (hevict : ∀ s, P s → P (evict s).2) {s : σ} (h : P s) (n : Nat) :
    P (evictMany evict n s).2 := by
  induction n generalizing s with
  | zero => exact h
  | succ n ih =>
    have hnext := hevict s h
    rcases heq : evict s with ⟨_ | dropped, t⟩ <;> rw [heq] at hnext
    · rw [evictMany_succ_of_none heq]
      exact hnext
    · rw [evictMany_succ_of_some heq]
      exact ih hnext

/-- Takes the head off a list. -/
def dropHead (l : List ε) : Option ε × List ε := (l.head?, l.tail)

theorem evictMany_dropHead (n : Nat) (l : List ε) :
    evictMany dropHead n l = (l.take n, l.drop n) := by
  induction n generalizing l with
  | zero => rfl
  | succ n ih =>
    cases l with
    | nil => rfl
    | cons x l =>
      have hhead : dropHead (x :: l) = (some x, l) := rfl
      rw [evictMany_succ_of_some hhead, ih]
      rfl

/-- Where an eviction drops the head of the list that a state stands for, evicting a number of times
drops that many elements from its front. -/
theorem evictMany_eq_take {evict : σ → Option ε × σ} {holds : σ → List ε → Prop}
    (hevict : ∀ s l, holds s l → Matches holds (evict s) (dropHead l))
    {s : σ} {l : List ε} (h : holds s l) (n : Nat) :
    Matches holds (evictMany evict n s) (l.take n, l.drop n) := by
  rw [← evictMany_dropHead]
  exact evictMany_matches hevict h n

/-! ## Simulation -/

namespace Store

variable [Store σ κ ν] [Store τ κ ν]

/-- A relation between the states of two stores under which every operation tells the same of both
and leaves them related. -/
structure Simulation (R : σ → τ → Prop) : Prop where
  size_eq : ∀ {s t}, R s t → size s = size t
  contains_eq : ∀ {s t}, R s t → ∀ k, contains s k = contains t k
  peek_eq : ∀ {s t}, R s t → ∀ k, peek s k = peek t k
  get : ∀ {s t}, R s t → ∀ k, Matches R (get s k) (get t k)
  signals_get : ∀ {s t}, R s t → ∀ k, (getAloud s k).signals = (getAloud t k).signals
  put : ∀ {s t}, R s t → ∀ k v, Matches R (put s k v) (put t k v)
  remove : ∀ {s t}, R s t → ∀ k, Matches R (remove s k) (remove t k)
  evict : ∀ {s t}, R s t → Matches R (evict s) (evict t)
  clear : ∀ {s t}, R s t → R (clear s) (clear t)
  resize : ∀ {s t}, R s t → ∀ n, MatchesIfDone R (resize s n) (resize t n)
  setSamples : ∀ {s t}, R s t → ∀ n, R (setSamples s n) (setSamples t n)

/-- Two lookups that find the same signal the same. -/
theorem signals_get_eq {s : σ} {t : τ} {k : κ} (hs : getAloud s k = announceLookup (get s k))
    (ht : getAloud t k = announceLookup (get t k)) (h : Matches R (get s k) (get t k)) :
    (getAloud s k).signals = (getAloud t k).signals := by
  rw [hs, ht]
  exact congrArg (fun value => [Signal.access value.isSome]) h.fst_eq

/-- The operation behind a request tells the same of two states, and leaves them related. -/
def MatchesOn (R : σ → τ → Prop) (s : σ) (t : τ) : Request κ ν → Prop
  | .put key value => Matches R (put s key value) (put t key value)
  | .get key =>
    Matches R (get s key) (get t key) ∧ (getAloud s key).signals = (getAloud t key).signals
  | .peek key => R s t ∧ peek s key = peek t key
  | .contains key => R s t ∧ contains s key = contains t key
  | .remove key => Matches R (remove s key) (remove t key)
  | .evict => Matches R (evict s) (evict t)
  | .clear => R (clear s) (clear t)
  | .drain => Matches R (drain s) (drain t)
  | .resize capacity => R s t ∧ MatchesIfDone R (resize s capacity) (resize t capacity)

variable {s : σ} {t : τ}

/-- What an operation does not tell apart, a request does not tell apart either. -/
theorem perform_matches (request : Request κ ν) (h : MatchesOn R s t request) :
    Matches R (perform s request) (perform t request) := by
  cases request with
  | put key value =>
    obtain ⟨hfst, hsnd⟩ : Matches R (put s key value) (put t key value) := h
    rw [perform_put, perform_put, hfst]
    exact ⟨rfl, hsnd⟩
  | get key =>
    obtain ⟨⟨hfst, hsnd⟩, hsignals⟩ :
      Matches R (get s key) (get t key) ∧ (getAloud s key).signals = (getAloud t key).signals := h
    refine ⟨?_, hsnd⟩
    rw [perform, perform, outcome, outcome, hsignals]
    exact congrArg (fun value => Outcome.mk (.value value) _) hfst
  | peek key =>
    obtain ⟨hst, hpeek⟩ : R s t ∧ peek s key = peek t key := h
    refine ⟨?_, hst⟩
    rw [perform, perform, hpeek]
  | contains key =>
    obtain ⟨hst, hcontains⟩ : R s t ∧ contains s key = contains t key := h
    refine ⟨?_, hst⟩
    rw [perform, perform, hcontains]
  | remove key =>
    obtain ⟨hfst, hsnd⟩ : Matches R (remove s key) (remove t key) := h
    exact ⟨congrArg (fun value => Outcome.mk (.value value) []) hfst, hsnd⟩
  | evict =>
    obtain ⟨hfst, hsnd⟩ : Matches R (evict s) (evict t) := h
    rw [perform_evict, perform_evict, hfst]
    exact ⟨rfl, hsnd⟩
  | clear => exact ⟨rfl, h⟩
  | drain =>
    obtain ⟨hfst, hsnd⟩ : Matches R (drain s) (drain t) := h
    rw [perform_drain, perform_drain, hfst]
    exact ⟨rfl, hsnd⟩
  | resize capacity =>
    obtain ⟨hst, hresize⟩ : R s t ∧ MatchesIfDone R (resize s capacity) (resize t capacity) := h
    rw [perform_resize, perform_resize]
    rcases hs : resize s capacity with cause | ⟨dropped, s'⟩ <;>
      rcases ht : resize t capacity with cause' | ⟨dropped', t'⟩ <;>
      rw [hs, ht] at hresize
    · have hcause : cause = cause' := hresize
      subst hcause
      exact ⟨rfl, hst⟩
    · exact hresize.elim
    · exact hresize.elim
    · have hdone : Matches R (dropped, s') (dropped', t') := hresize
      obtain ⟨hfst, hsnd⟩ := hdone
      cases hfst
      exact ⟨rfl, hsnd⟩

/-- A resize that is refused only where there would be no room at all. -/
theorem perform_resize_of {n : Nat} {done : List (Entry κ ν) × σ}
    (h : resize s n = if n = 0 then .error .zeroCapacity else .ok done) :
    perform s (.resize n) =
      if n = 0 then ({ reply := .refused .zeroCapacity }, s)
      else (.evicting .done done.1, done.2) := by
  rw [perform_resize, h]
  by_cases hn : n = 0
  · rw [if_pos hn, if_pos hn]
  · rw [if_neg hn, if_neg hn]

namespace Simulation

theorem drain (hR : Simulation R) (h : R s t) : Matches R (drain s) (drain t) := by
  obtain ⟨hfst, hsnd⟩ := evictMany_matches (fun _ _ => hR.evict) h (size s)
  rw [drain_eq, drain_eq, ← hR.size_eq h]
  exact ⟨hfst, hR.clear hsnd⟩

/-- One request has the same outcome, and keeps the relation. -/
theorem perform (hR : Simulation R) (h : R s t) (request : Request κ ν) :
    Matches R (perform s request) (perform t request) := by
  refine perform_matches request ?_
  cases request with
  | put key value => exact hR.put h key value
  | get key => exact ⟨hR.get h key, hR.signals_get h key⟩
  | peek key => exact ⟨h, hR.peek_eq h key⟩
  | contains key => exact ⟨h, hR.contains_eq h key⟩
  | remove key => exact hR.remove h key
  | evict => exact hR.evict h
  | clear => exact hR.clear h
  | drain => exact hR.drain h
  | resize capacity => exact ⟨h, hR.resize h capacity⟩

end Simulation

end Store

/-! ## What is observed -/

namespace Observed

variable [Store σ κ ν] [Store τ κ ν]

/-- The stores are related, and the same tally and the same listener watch them. -/
structure Alike (R : σ → τ → Prop) (o : Observed σ) (p : Observed τ) : Prop where
  store : R o.store p.store
  tally_eq : o.tally = p.tally
  listener_eq : o.listener = p.listener

/-- A request that has the same outcome in both stores is the same turn, and keeps them alike. -/
theorem Alike.request {o : Observed σ} {p : Observed τ} (h : Alike R o p) {request : Request κ ν}
    (hstep : Matches R (Store.perform o.store request) (Store.perform p.store request)) :
    o.turn request = p.turn request ∧ Alike R (o.perform request).2 (p.perform request).2 := by
  obtain ⟨houtcome, hnext⟩ := hstep
  constructor
  · rw [turn, turn, perform_eq, perform_eq, reported, reported, notices, notices, houtcome,
      h.listener_eq]
  · rw [perform_eq, perform_eq, houtcome, h.tally_eq, h.listener_eq]
    exact ⟨hnext, rfl, rfl⟩

/-- A condition holds at every request of a run. -/
def Throughout (P : σ → Request κ ν → Prop) (o : Observed σ) : List (Action κ ν) → Prop
  | [] => True
  | .request request :: rest => P o.store request ∧ Throughout P (o.perform request).2 rest
  | .listen listener :: rest => Throughout P (o.listen listener) rest
  | .setSamples samples :: rest =>
    Throughout P { o with store := Store.setSamples o.store samples } rest

/-- If requests keep two stores alike as long as a condition holds, then what is told is the same
that far. -/
theorem actAll_matches_of {P : σ → Request κ ν → Prop}
    (hstep : ∀ {s t}, R s t → ∀ request, P s request →
      Matches R (Store.perform s request) (Store.perform t request))
    (hsamples : ∀ {s t}, R s t → ∀ n, R (Store.setSamples s n) (Store.setSamples t n))
    {o : Observed σ} {p : Observed τ} (h : Alike R o p) (actions : List (Action κ ν))
    (hP : o.Throughout P actions) : Matches (Alike R) (o.actAll actions) (p.actAll actions) := by
  induction actions generalizing o p with
  | nil => exact ⟨rfl, h⟩
  | cons action rest ih =>
    cases action with
    | request request =>
      obtain ⟨hnow, hrest⟩ := hP
      obtain ⟨hturn, hnext⟩ := h.request (hstep h.store request hnow)
      obtain ⟨hlater, hlast⟩ := ih hnext hrest
      rw [actAll_cons, actAll_cons, act, act, hturn]
      exact ⟨congrArg _ hlater, hlast⟩
    | listen listener => exact ih (o := o.listen listener) ⟨h.store, h.tally_eq, rfl⟩ hP
    | setSamples samples =>
      exact ih (o := (o.act (.setSamples samples)).2) (p := (p.act (.setSamples samples)).2)
        ⟨hsamples h.store samples, h.tally_eq, h.listener_eq⟩ hP

theorem throughout_true (o : Observed σ) (actions : List (Action κ ν)) :
    o.Throughout (fun _ _ => True) actions := by
  induction actions generalizing o with
  | nil => trivial
  | cons action rest ih =>
    cases action with
    | request request => exact ⟨trivial, ih _⟩
    | listen listener => exact ih (o.listen listener)
    | setSamples samples => exact ih (o.act (.setSamples samples)).2

/-- Stores that act alike have one history. -/
theorem actAll_matches (hR : Store.Simulation R) {o : Observed σ} {p : Observed τ}
    (h : Alike R o p) (actions : List (Action κ ν)) :
    Matches (Alike R) (o.actAll actions) (p.actAll actions) :=
  actAll_matches_of (P := fun _ _ => True) (fun hst request _ => hR.perform hst request)
    hR.setSamples h actions (throughout_true o actions)

end Observed

end BoundedCache

import BoundedCache.Observed

/-!
# Runs

What is done with a watched store is a sequence of actions: requests, changes of the listener, and
changes of the number of samples. Each request is a turn, which records what was told of it. Every
statement about what may have been done before is about such a run.

## Main definitions

- `Observed.notices`, `Observed.reported` — the notices of evicted entries, and these entries
- `Observed.Action` — what may be done with a watched store
- `Observed.Turn` — a request, with what was told of it
- `Observed.actAll` — a sequence of actions

## Main results

- `Observed.hearAll_eq` — the listener is told every entry that gives way, and the tally counts all
- `Observed.actAll_keeps` — what every action keeps of a store and its history
- `Observed.listener_actAll` — the listener is the one that was named last
-/

namespace BoundedCache

variable {κ ν σ : Type}

/-- The request is a lookup that found a value. -/
def Request.isHit : Request κ ν → Reply κ ν → Bool
  | .get _, .value value => value.isSome
  | _, _ => false

/-- The request is a lookup that found none. -/
def Request.isMiss : Request κ ν → Reply κ ν → Bool
  | .get _, .value value => !value.isSome
  | _, _ => false

namespace Observed

/-! ## What is heard -/

/-- The notices by which a listener is told of some entries. -/
def notices (o : Observed σ) (evicted : List (Entry κ ν)) : List (Notice κ ν) :=
  match o.listener with
  | none => []
  | some listener => evicted.map fun entry => ⟨listener, entry⟩

theorem notices_of_some {o : Observed σ} {listener : Nat} (h : o.listener = some listener)
    (evicted : List (Entry κ ν)) :
    o.notices evicted = evicted.map fun entry => ⟨listener, entry⟩ := by
  rw [notices, h]

theorem notices_of_none {o : Observed σ} (h : o.listener = none) (evicted : List (Entry κ ν)) :
    o.notices evicted = [] := by
  rw [notices, h]

@[simp]
theorem notices_nil (o : Observed σ) : o.notices ([] : List (Entry κ ν)) = [] := by
  rw [notices]
  split <;> rfl

theorem notices_cons (o : Observed σ) (entry : Entry κ ν) (rest : List (Entry κ ν)) :
    o.notices (entry :: rest) = o.notices [entry] ++ o.notices rest := by
  rw [notices, notices, notices]
  split <;> rfl

/-- The listener is told every entry that gave way, and the tally counts every signal. -/
theorem hearAll_eq (o : Observed σ) (signals : List (Signal κ ν)) :
    o.hearAll signals =
      (o.notices (signals.filterMap Signal.entry?),
        { o with tally := o.tally.recordAll (signals.map Signal.event) }) := by
  induction signals generalizing o with
  | nil => exact Prod.ext (notices_nil o).symm rfl
  | cons signal rest ih =>
    rw [hearAll_cons, ih]
    cases signal with
    | access hit => cases hit <;> rfl
    | evicted entry => exact Prod.ext (notices_cons o entry _).symm rfl

variable [Store σ κ ν]

theorem perform_eq (o : Observed σ) (request : Request κ ν) :
    o.perform request =
      (((Store.perform o.store request).1.reply,
          o.notices (Store.perform o.store request).1.evicted),
        { o with
          store := (Store.perform o.store request).2
          tally := o.tally.recordAll (Store.perform o.store request).1.events }) := by
  let s : Observed σ := { o with store := (Store.perform o.store request).2 }
  have heard := s.hearAll_eq (Store.perform o.store request).1.signals
  have hnotices := congrArg Prod.fst heard
  have hnext := congrArg Prod.snd heard
  exact Prod.ext (Prod.ext rfl hnotices) hnext

/-- The entries that an operation reports, whether or not anyone listens. -/
def reported (o : Observed σ) (request : Request κ ν) : List (Entry κ ν) :=
  (Store.perform o.store request).1.evicted

/-- A listener is told just what is reported. -/
theorem notices_perform (o : Observed σ) (request : Request κ ν) :
    (o.perform request).1.2 = o.notices (o.reported request) := by
  rw [perform_eq, reported]

/-- What the listener of a store, if it has one, is told of some entries: each of them, in order. -/
structure Tells (o : Observed σ) (entries : List (Entry κ ν)) (told : List (Notice κ ν)) :
    Prop where
  of_some : ∀ listener, o.listener = some listener →
    told = entries.map fun entry => ⟨listener, entry⟩
  of_none : o.listener = none → told = []

theorem tells_perform (o : Observed σ) (request : Request κ ν) :
    o.Tells (o.reported request) (o.perform request).1.2 := by
  rw [notices_perform]
  exact ⟨fun _ h => notices_of_some h _, fun h => notices_of_none h _⟩

theorem listener_perform (o : Observed σ) (request : Request κ ν) :
    (o.perform request).2.listener = o.listener := by
  rw [perform_eq]

theorem store_perform (o : Observed σ) (request : Request κ ν) :
    (o.perform request).2.store = (Store.perform o.store request).2 := by
  rw [perform_eq]

/-! ## Actions and turns -/

/-- What may be done with a watched store. Where the rule of a store inspects all entries, a change
of the number of samples changes nothing. -/
inductive Action (κ ν : Type) where
  | request (request : Request κ ν)
  | listen (listener : Nat)
  | setSamples (samples : Nat)
  deriving DecidableEq

def Action.listener? : Action κ ν → Option Nat
  | .listen listener => some listener
  | _ => none

/-- A request, with what was told of it: the reply, the entries reported, and the notices to the
listener. -/
structure Turn (κ ν : Type) where
  request : Request κ ν
  reply : Reply κ ν
  reported : List (Entry κ ν)
  notices : List (Notice κ ν)
  deriving DecidableEq

def Turn.isHit (turn : Turn κ ν) : Bool := turn.request.isHit turn.reply

def Turn.isMiss (turn : Turn κ ν) : Bool := turn.request.isMiss turn.reply

/-- The turn that a request is. -/
def turn (o : Observed σ) (request : Request κ ν) : Turn κ ν where
  request
  reply := (o.perform request).1.1
  reported := o.reported request
  notices := (o.perform request).1.2

/-- The effect of an action, with the turn that it is if it is a request. -/
def act (o : Observed σ) : Action κ ν → Option (Turn κ ν) × Observed σ
  | .request request => (some (o.turn request), (o.perform request).2)
  | .listen listener => (none, o.listen listener)
  | .setSamples samples => (none, { o with store := Store.setSamples o.store samples })

/-- The effect of a sequence of actions, with the turns. -/
def actAll (o : Observed σ) : List (Action κ ν) → List (Turn κ ν) × Observed σ
  | [] => ([], o)
  | action :: rest =>
    let (turn, o) := o.act action
    let (later, o) := actAll o rest
    (turn.toList ++ later, o)

theorem actAll_cons (o : Observed σ) (action : Action κ ν) (rest : List (Action κ ν)) :
    o.actAll (action :: rest) =
      ((o.act action).1.toList ++ ((o.act action).2.actAll rest).1,
        ((o.act action).2.actAll rest).2) := rfl

/-- The puts of some entries, one after the other. -/
def puts (l : List (Entry κ ν)) : List (Action κ ν) :=
  l.map fun e => .request (.put e.key e.value)

theorem reply_perform_put (o : Observed σ) (key : κ) (value : ν) :
    (o.perform (.put key value)).1.1 = .entry (Store.put o.store key value).1 := by
  rw [perform_eq]
  exact congrArg (fun p => p.1.reply) (Store.perform_put o.store key value)

theorem store_perform_put (o : Observed σ) (key : κ) (value : ν) :
    (o.perform (.put key value)).2.store = (Store.put o.store key value).2 :=
  o.store_perform _

theorem reported_puts_cons (o : Observed σ) (e : Entry κ ν) (l : List (Entry κ ν)) :
    (o.actAll (puts (e :: l))).1.flatMap Turn.reported =
      (Store.put o.store e.key e.value).1.toList ++
        ((o.perform (.put e.key e.value)).2.actAll (puts l)).1.flatMap Turn.reported := by
  rw [← Store.evicted_put]
  rfl

/-! ## What a run keeps -/

/-- What every action keeps, of a store and the turns that led to it, holds after any of them. -/
theorem actAll_keeps {P : List (Turn κ ν) → σ → Prop}
    (hstep : ∀ {turns s}, P turns s → ∀ turn : Turn κ ν,
      turn.reply = (Store.perform s turn.request).1.reply →
      turn.reported = (Store.perform s turn.request).1.evicted →
      P (turns ++ [turn]) (Store.perform s turn.request).2)
    (hsamples : ∀ {turns s}, P turns s → ∀ samples, P turns (Store.setSamples s samples))
    {o : Observed σ} {turns : List (Turn κ ν)} (h : P turns o.store) (actions : List (Action κ ν)) :
    P (turns ++ (o.actAll actions).1) (o.actAll actions).2.store := by
  induction actions generalizing o turns with
  | nil =>
    rw [actAll, List.append_nil]
    exact h
  | cons action rest ih =>
    cases action with
    | request request =>
      have hreply : (o.turn request).reply = (Store.perform o.store request).1.reply := by
        rw [turn, perform_eq]
      have hnext : P (turns ++ [o.turn request]) (o.perform request).2.store := by
        rw [store_perform]
        exact hstep h (o.turn request) hreply rfl
      have hlast := ih hnext
      rw [List.append_assoc] at hlast
      exact hlast
    | listen listener => exact ih (o := o.listen listener) h
    | setSamples samples => exact ih (o := (o.act (.setSamples samples)).2) (hsamples h samples)

/-- The listener is the one that was named last. -/
theorem listener_actAll (o : Observed σ) (actions : List (Action κ ν)) :
    (o.actAll actions).2.listener =
      ((actions.filterMap Action.listener?).getLast?).or o.listener := by
  induction actions generalizing o with
  | nil => rfl
  | cons action rest ih =>
    rw [actAll_cons, ih]
    cases action with
    | request request =>
      have hsame : (o.act (.request request)).2.listener = o.listener := o.listener_perform request
      rw [hsame]
      rfl
    | listen listener =>
      have hcons : (Action.listen listener :: rest).filterMap Action.listener? =
          listener :: rest.filterMap Action.listener? := List.filterMap_cons_some rfl
      rw [hcons, List.getLast?_cons]
      cases (rest.filterMap Action.listener?).getLast? <;> rfl
    | setSamples samples => rfl

/-- After a run in which no other listener is named, the first one is told. -/
theorem notices_actAll {s : σ} {listener : Nat} {actions : List (Action κ ν)}
    (h : actions.filterMap Action.listener? = []) (evicted : List (Entry κ ν)) :
    (actAll { store := s, listener := some listener } actions).2.notices evicted =
      evicted.map fun entry => ⟨listener, entry⟩ := by
  refine notices_of_some ?_ evicted
  rw [listener_actAll, h]
  rfl

end Observed

end BoundedCache

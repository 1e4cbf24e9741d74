import BoundedCache.Proofs.Stats.Registry
import BoundedCache.Stats.Dashboard
import BoundedCache.Store.Lru

/-!
# Tallies tell the history of their cells

A cell can be reached through several names, through those who hold it, and through the store that
counts into it, while names are bound anew, forgotten, and used to set cells to zero. What a
registry tells at any time follows from what was done up to then: which cell a name was last bound
to, and what was counted in that cell, by whomever, since it was last set to zero, by whomever.

## Main definitions

- `Dashboard.Incident` — what one step does to names and tallies
- `Dashboard.holder`, `Dashboard.recorded` — what a list of incidents means for a name and a cell
- `Dashboard.Legal` — steps use only cells that were given out
- `Dashboard.Follows` — names and tallies are what a list of incidents says
- `Dashboard.Tells` — what each step of work with a registry tells and changes

## Main results

- `Dashboard.Follows.perform` — one step
- `Dashboard.performAll_tells_history` — every step after every sequence of steps
-/

namespace BoundedCache

open Registry

namespace Dashboard

variable {σ κ ν : Type}

/-! ## Incidents -/

/-- What one step does to names and tallies. -/
inductive Incident where
  /-- Events were counted in a cell. -/
  | counted (cell : Cell) (events : List Event)
  /-- A cell was set to zero by one who holds it. -/
  | zeroed (cell : Cell)
  /-- The cell of a name was set to zero. -/
  | zeroedNamed (name : String)
  /-- A name was bound to a cell. -/
  | bound (name : String) (cell : Cell)
  /-- All names were forgotten. -/
  | forgotten

/-- The cell that an incident names. -/
def Incident.cell? : Incident → Option Cell
  | .counted cell _ => some cell
  | .zeroed cell => some cell
  | .bound _ cell => some cell
  | .zeroedNamed _ => none
  | .forgotten => none

/-- The cell that a name was last bound to since the names were last forgotten. The last incident
comes first. -/
def holder (name : String) : List Incident → Option Cell
  | [] => none
  | .bound n cell :: earlier => if name = n then some cell else holder name earlier
  | .forgotten :: _ => none
  | .counted .. :: earlier => holder name earlier
  | .zeroed _ :: earlier => holder name earlier
  | .zeroedNamed _ :: earlier => holder name earlier

/-- The events counted in a cell since it was last set to zero, whether directly or through a name
that led to it at that time. The last incident comes first, the last event comes last. -/
def recorded (cell : Cell) : List Incident → List Event
  | [] => []
  | .counted c events :: earlier =>
    if cell = c then recorded cell earlier ++ events else recorded cell earlier
  | .zeroed c :: earlier => if cell = c then [] else recorded cell earlier
  | .zeroedNamed name :: earlier =>
    if holder name earlier = some cell then [] else recorded cell earlier
  | .bound .. :: earlier => recorded cell earlier
  | .forgotten :: earlier => recorded cell earlier

/-- How often each event was counted in a cell since it was last set to zero. -/
def tallyOf (cell : Cell) (past : List Incident) : Tally where
  hits := (recorded cell past).count .hit
  misses := (recorded cell past).count .miss
  evictions := (recorded cell past).count .eviction

/-- The cell that a step is given. -/
def Command.cell? : Command σ κ ν → Option Cell
  | .record cell _ => some cell
  | .zero cell => some cell
  | .register _ cell => some cell
  | _ => none

variable [Store σ κ ν]

/-- What a step does to names and tallies. An operation on a store counts what it gives rise to in
the cell of that store. -/
def incident? (d : Dashboard σ) : Command σ κ ν → Option Incident
  | .use place request => d.stores[place]?.map fun watched =>
      .counted watched.cell (Store.perform watched.store request).1.events
  | .record cell events => some (.counted cell events)
  | .zero cell => some (.zeroed cell)
  | .reset name => some (.zeroedNamed name)
  | .register name cell => some (.bound name cell)
  | .clear => some .forgotten
  | _ => none

/-- The incidents of a sequence of steps, the last one first, ahead of those that came before. -/
def incidents (d : Dashboard σ) (past : List Incident) : List (Command σ κ ν) → List Incident
  | [] => past
  | command :: rest =>
    (d.perform command).2.incidents ((d.incident? command).toList ++ past) rest

/-- Every step uses only cells that were given out before it. -/
def Legal (d : Dashboard σ) : List (Command σ κ ν) → Prop
  | [] => True
  | command :: rest =>
    (∀ cell ∈ command.cell?, cell < d.registry.cells.size) ∧ (d.perform command).2.Legal rest

/-- Whether a sequence of steps is legal can be decided by carrying it out. -/
def decideLegal (d : Dashboard σ) : (commands : List (Command σ κ ν)) → Decidable (d.Legal commands)
  | [] => isTrue trivial
  | command :: rest =>
    have := (d.perform command).2.decideLegal rest
    inferInstanceAs (Decidable ((∀ cell ∈ command.cell?, cell < d.registry.cells.size) ∧
      (d.perform command).2.Legal rest))

instance (d : Dashboard σ) (commands : List (Command σ κ ν)) : Decidable (d.Legal commands) :=
  d.decideLegal commands

omit [Store σ κ ν] in
theorem recordAll_recorded (cell : Cell) (past : List Incident) :
    Tally.recordAll {} (recorded cell past) = tallyOf cell past := by
  have hcount := Tally.count_recordAll {} (recorded cell past)
  rcases hrecord : Tally.recordAll {} (recorded cell past) with ⟨hits, misses, evictions⟩
  rw [hrecord] at hcount
  have hhits : hits = _ := (hcount .hit).trans (Nat.zero_add _)
  have hmisses : misses = _ := (hcount .miss).trans (Nat.zero_add _)
  have hevictions : evictions = _ := (hcount .eviction).trans (Nat.zero_add _)
  rw [hhits, hmisses, hevictions, tallyOf]

/-! ## Registries that follow a list of incidents -/

/-- Names and tallies are what a list of incidents says. -/
structure Follows (r : Registry) (past : List Incident) : Prop where
  cell?_eq : ∀ name, r.cell? name = holder name past
  tally_eq : ∀ cell, r.tally cell = Tally.recordAll {} (recorded cell past)

namespace Follows

variable {r : Registry} {past : List Incident} {cell : Cell}

theorem nil : Follows {} [] where
  cell?_eq _ := rfl
  tally_eq _ := rfl

theorem fresh (h : Follows r past) : Follows r.fresh.2 past where
  cell?_eq := h.cell?_eq
  tally_eq cell := (tally_fresh r cell).trans (h.tally_eq cell)

theorem record (h : Follows r past) (hcell : cell < r.cells.size) (events : List Event) :
    Follows (r.record cell events) (.counted cell events :: past) where
  cell?_eq := h.cell?_eq
  tally_eq other := by
    rw [tally_record hcell, recorded]
    by_cases heq : other = cell
    · rw [if_pos heq, if_pos heq, Tally.recordAll_append, heq, h.tally_eq]
    · rw [if_neg heq, if_neg heq, h.tally_eq]

theorem zero (h : Follows r past) (cell : Cell) :
    Follows (r.zero cell) (.zeroed cell :: past) where
  cell?_eq := h.cell?_eq
  tally_eq other := by
    rw [tally_zero, recorded]
    by_cases heq : other = cell
    · rw [if_pos heq, if_pos heq, Tally.recordAll_nil]
    · rw [if_neg heq, if_neg heq, h.tally_eq]

/-- A name that leads nowhere sets nothing to zero. -/
theorem reset (h : Follows r past) (name : String) :
    Follows (r.reset name).2 (.zeroedNamed name :: past) := by
  rcases hcell : r.cell? name with _ | cell
  · rw [reset_of_none hcell]
    refine ⟨h.cell?_eq, fun other => ?_⟩
    have hholder : holder name past ≠ some other := by
      rw [← h.cell?_eq, hcell]
      exact (Option.some_ne_none other).symm
    rw [recorded, if_neg hholder, h.tally_eq]
  · rw [reset_of_some hcell]
    refine ⟨h.cell?_eq, fun other => ?_⟩
    rw [tally_zero, recorded, ← h.cell?_eq, hcell]
    by_cases heq : other = cell
    · rw [if_pos heq, if_pos (congrArg some heq.symm), Tally.recordAll_nil]
    · rw [if_neg heq, if_neg fun h => heq (Option.some.inj h).symm, h.tally_eq]

theorem register (h : Follows r past) (name : String) (cell : Cell) :
    Follows (r.register name cell) (.bound name cell :: past) where
  cell?_eq other := by rw [cell?_register, holder, h.cell?_eq]
  tally_eq := h.tally_eq

theorem clear (h : Follows r past) : Follows r.clear (.forgotten :: past) where
  cell?_eq _ := rfl
  tally_eq := h.tally_eq

end Follows

/-! ## One step -/

/-- What a step can do to a registry, with the incident that it is. -/
inductive Changes (r : Registry) : Option Incident → Registry → Prop
  | nothing : Changes r none r
  | fresh : Changes r none r.fresh.2
  | counted (cell : Cell) (events : List Event) :
    Changes r (some (.counted cell events)) (r.record cell events)
  | zeroed (cell : Cell) : Changes r (some (.zeroed cell)) (r.zero cell)
  | zeroedNamed (name : String) : Changes r (some (.zeroedNamed name)) (r.reset name).2
  | bound (name : String) (cell : Cell) :
    Changes r (some (.bound name cell)) (r.register name cell)
  | forgotten : Changes r (some .forgotten) r.clear

namespace Changes

variable {r r' : Registry} {incident : Option Incident} {past : List Incident}

/-- Cells stay given out. -/
theorem size_cells_le (h : Changes r incident r') : r.cells.size ≤ r'.cells.size := by
  cases h with
  | nothing => exact Nat.le_refl _
  | fresh =>
    rw [size_cells_fresh]
    exact Nat.le_succ _
  | counted => exact Nat.le_of_eq (size_cells_record ..).symm
  | zeroed => exact Nat.le_of_eq (size_cells_zero ..).symm
  | zeroedNamed => exact Nat.le_of_eq (size_cells_reset ..).symm
  | bound => exact Nat.le_refl _
  | forgotten => exact Nat.le_refl _

variable (hcell : ∀ cell ∈ incident.bind Incident.cell?, cell < r.cells.size)

include hcell in
theorem valid (h : Changes r incident r') (hr : r.Valid) : r'.Valid := by
  cases h with
  | nothing => exact hr
  | fresh => exact hr.fresh
  | counted cell events => exact hr.record cell events
  | zeroed cell => exact hr.zero cell
  | zeroedNamed name => exact hr.reset name
  | bound name cell => exact hr.register (hcell cell rfl) name
  | forgotten => exact valid_clear r

include hcell in
theorem follows (h : Changes r incident r') (hr : Follows r past) :
    Follows r' (incident.toList ++ past) := by
  cases h with
  | nothing => exact hr
  | fresh => exact hr.fresh
  | counted cell events => exact hr.record (hcell cell rfl) events
  | zeroed cell => exact hr.zero cell
  | zeroedNamed name => exact hr.reset name
  | bound name cell => exact hr.register name cell
  | forgotten => exact hr.clear

end Changes

/-- The registry is in order, and the cells of the stores were given out. -/
structure Valid (d : Dashboard σ) : Prop where
  registry : d.registry.Valid
  watched_lt : ∀ watched ∈ d.stores, watched.cell < d.registry.cells.size

variable {d : Dashboard σ} {past : List Incident} {command : Command σ κ ν}

omit [Store σ κ ν] in
theorem valid_empty : ({} : Dashboard σ).Valid where
  registry := Registry.valid_empty
  watched_lt _ h := absurd h List.not_mem_nil

theorem useStore_of_none {place : Nat} (h : d.stores[place]? = none) (request : Request κ ν) :
    d.useStore place request = (none, d) := by
  rw [useStore, h]

/-- An operation on a store counts what it gives rise to, and changes that store only. -/
theorem useStore_of_some {place : Nat} {watched : Watched σ} {request : Request κ ν}
    {outcome : Outcome κ ν} {store : σ} (h : d.stores[place]? = some watched)
    (hperform : Store.perform watched.store request = (outcome, store)) :
    d.useStore place request =
      (some outcome.reply,
        { d with
          registry := d.registry.record watched.cell outcome.events
          stores := d.stores.set place { watched with store } }) := by
  simp only [useStore, h, hperform]

theorem changes (d : Dashboard σ) (command : Command σ κ ν) :
    Changes d.registry (d.incident? command) (d.perform command).2.registry := by
  cases command with
  | fresh => exact .fresh
  | watch store => exact .fresh
  | use place request =>
    rw [incident?]
    show Changes _ _ (d.useStore place request).2.registry
    rcases hplace : d.stores[place]? with _ | watched
    · rw [useStore_of_none hplace]
      exact .nothing
    · rw [useStore_of_some hplace rfl]
      exact .counted watched.cell _
  | drop place => exact .nothing
  | register name cell => exact .bound name cell
  | record cell events => exact .counted cell events
  | zero cell => exact .zeroed cell
  | find name => exact .nothing
  | names => exact .nothing
  | snapshot name => exact .nothing
  | reset name => exact .zeroedNamed name
  | clear => exact .forgotten

/-- The cell that an incident names is the one that the step was given, or that of a store. -/
theorem Valid.incident_lt (h : d.Valid)
    (hlegal : ∀ cell ∈ command.cell?, cell < d.registry.cells.size) :
    ∀ cell ∈ (d.incident? command).bind Incident.cell?, cell < d.registry.cells.size := by
  intro cell hcell
  cases command with
  | use place request =>
    rcases hplace : d.stores[place]? with _ | watched
    · rw [incident?, hplace] at hcell
      cases hcell
    · rw [incident?, hplace] at hcell
      cases hcell
      exact h.watched_lt watched (List.mem_of_getElem? hplace)
  | register name cell => exact hlegal _ hcell
  | record cell events => exact hlegal _ hcell
  | zero cell => exact hlegal _ hcell
  | _ => cases hcell

/-- Stores count into the cells that they were given. -/
theorem watched_perform (d : Dashboard σ) (command : Command σ κ ν) :
    ∀ watched ∈ (d.perform command).2.stores,
      watched.cell < (d.perform command).2.registry.cells.size ∨
        ∃ before ∈ d.stores, before.cell = watched.cell := by
  have hkept : ∀ watched ∈ d.stores, ∃ before ∈ d.stores, before.cell = watched.cell :=
    fun watched h => ⟨watched, h, rfl⟩
  intro watched hmem
  cases command with
  | watch store =>
    rcases List.mem_append.1 hmem with hmem | hmem
    · exact .inr (hkept watched hmem)
    · refine .inl ?_
      rw [List.mem_singleton.1 hmem]
      show d.registry.cells.size < d.registry.fresh.2.cells.size
      rw [size_cells_fresh]
      exact Nat.lt_succ_self _
  | use place request =>
    refine .inr ?_
    replace hmem : watched ∈ (d.useStore place request).2.stores := hmem
    rcases hplace : d.stores[place]? with _ | used
    · rw [useStore_of_none hplace] at hmem
      exact hkept watched hmem
    · rw [useStore_of_some hplace rfl] at hmem
      rcases List.mem_or_eq_of_mem_set hmem with hmem | rfl
      · exact hkept watched hmem
      · exact ⟨used, List.mem_of_getElem? hplace, rfl⟩
  | drop place => exact .inr (hkept watched (List.mem_of_mem_eraseIdx hmem))
  | _ => exact .inr (hkept watched hmem)

theorem Valid.perform (h : d.Valid)
    (hlegal : ∀ cell ∈ command.cell?, cell < d.registry.cells.size) :
    (d.perform command).2.Valid where
  registry := (d.changes command).valid (h.incident_lt hlegal) h.registry
  watched_lt watched hmem := by
    rcases d.watched_perform command watched hmem with hlt | ⟨before, hbefore, hcell⟩
    · exact hlt
    · rw [← hcell]
      exact Nat.lt_of_lt_of_le (h.watched_lt before hbefore) (d.changes command).size_cells_le

/-- Readings are kept as they are, and new ones come after them. -/
theorem readings_isPrefix (d : Dashboard σ) (command : Command σ κ ν) :
    d.readings <+: (d.perform command).2.readings := by
  cases command with
  | snapshot name => exact List.prefix_append ..
  | use place request =>
    have hsame : (d.useStore place request).2.readings = d.readings := by
      rcases hplace : d.stores[place]? with _ | watched
      · rw [useStore_of_none hplace]
      · rw [useStore_of_some hplace rfl]
    exact hsame.symm ▸ List.prefix_rfl
  | _ => exact List.prefix_rfl

/-! ## Sequences of steps -/

theorem Valid.performAll (h : d.Valid) (hpast : Follows d.registry past)
    {commands : List (Command σ κ ν)} (hlegal : d.Legal commands) :
    (d.performAll commands).Valid ∧
      Follows (d.performAll commands).registry (d.incidents past commands) := by
  induction commands generalizing d past with
  | nil => exact ⟨h, hpast⟩
  | cons command rest ih =>
    obtain ⟨hnow, hrest⟩ := hlegal
    exact ih (h.perform hnow) ((d.changes command).follows (h.incident_lt hnow) hpast) hrest

theorem readings_isPrefix_performAll (d : Dashboard σ) (commands : List (Command σ κ ν)) :
    d.readings <+: (d.performAll commands).readings := by
  induction commands generalizing d with
  | nil => exact List.prefix_rfl
  | cons command rest ih => exact (d.readings_isPrefix command).trans (ih _)

theorem size_cells_le_performAll (d : Dashboard σ) (commands : List (Command σ κ ν)) :
    d.registry.cells.size ≤ (d.performAll commands).registry.cells.size := by
  induction commands generalizing d with
  | nil => exact Nat.le_refl _
  | cons command rest ih => exact Nat.le_trans (d.changes command).size_cells_le (ih _)

/-! ## Every step after every sequence of steps -/

/-- What each step of work with the registry tells and changes, after some incidents. -/
structure Tells (d : Dashboard σ) (past : List Incident) : Prop where
  /-- Those who hold a cell read what was counted in it since it was last set to zero. -/
  tally : ∀ cell, d.registry.tally cell = tallyOf cell past
  /-- So do those who know its name, and what they read is kept. -/
  snapshot : ∀ name,
    let told := (holder name past).map fun cell => tallyOf cell past
    d.perform (.snapshot name) = (.tally told, { d with readings := d.readings ++ told.toList })
  find : ∀ name, d.perform (.find name) = (.cell (holder name past), d)
  /-- Every bound name is listed once. -/
  names : ∃ names, d.perform .names = (.names names, d) ∧ names.Nodup ∧
    ∀ name, name ∈ names ↔ (holder name past).isSome
  reset_none : ∀ name, holder name past = none → d.perform (.reset name) = (.found false, d)
  /-- One cell is set to zero, for all who hold it or know a name of it. -/
  reset_some : ∀ name cell, holder name past = some cell → ∃ registry,
    d.perform (.reset name) = (.found true, { d with registry }) ∧ registry.tally cell = {} ∧
      (∀ other, other ≠ cell → registry.tally other = d.registry.tally other) ∧
      ∀ other, registry.cell? other = d.registry.cell? other
  register : ∀ name cell, ∃ registry,
    d.perform (.register name cell) = (.done, { d with registry }) ∧
      ∀ other, registry.tally other = d.registry.tally other
  clear : ∃ registry, d.perform .clear = (.done, { d with registry }) ∧
    ∀ cell, registry.tally cell = d.registry.tally cell

/-- What is left of readings and of the cells of names after further steps, among which names may be
forgotten or bound anew and stores dropped. -/
structure Outlasts (d : Dashboard σ) (past : List Incident) (later : List (Command σ κ ν)) :
    Prop where
  readings : d.readings <+: (d.performAll later).readings
  given : ∀ name cell, holder name past = some cell →
    cell < (d.performAll later).registry.cells.size
  /-- What is counted in such a cell is still counted there. -/
  usable : ∀ name cell, holder name past = some cell → ∀ events,
    ((d.performAll later).perform (.record cell events)).2.registry.tally cell =
      ((d.performAll later).registry.tally cell).recordAll events

theorem Valid.tells (h : d.Valid) (hpast : Follows d.registry past) : d.Tells past where
  tally cell := (hpast.tally_eq cell).trans (recordAll_recorded cell past)
  snapshot name := by
    intro told
    have htold : d.registry.snapshot? name = told := by
      rw [snapshot?, hpast.cell?_eq]
      refine congrArg (Option.map · _) (funext fun cell => ?_)
      exact (hpast.tally_eq cell).trans (recordAll_recorded cell past)
    rw [Dashboard.perform, htold]
  find name := by rw [Dashboard.perform, hpast.cell?_eq]
  names := by
    refine ⟨d.registry.names, rfl, h.registry.nodup_names, fun name => ?_⟩
    rw [mem_names_iff, hpast.cell?_eq]
  reset_none name hnone := by
    rw [← hpast.cell?_eq] at hnone
    rw [Dashboard.perform, reset_of_none hnone]
  reset_some name cell hsome := by
    rw [← hpast.cell?_eq] at hsome
    refine ⟨d.registry.zero cell, ?_, ?_, ?_, fun _ => rfl⟩
    · rw [Dashboard.perform, reset_of_some hsome]
    · rw [tally_zero, if_pos rfl]
    · intro other hne
      rw [tally_zero, if_neg hne]
  register name cell := ⟨d.registry.register name cell, rfl, fun _ => rfl⟩
  clear := ⟨d.registry.clear, rfl, fun _ => rfl⟩

theorem Valid.outlasts (h : d.Valid) (hpast : Follows d.registry past)
    (later : List (Command σ κ ν)) : d.Outlasts past later := by
  have hgiven : ∀ name cell, holder name past = some cell →
      cell < (d.performAll later).registry.cells.size := by
    intro name cell hcell
    rw [← hpast.cell?_eq] at hcell
    exact Nat.lt_of_lt_of_le (h.registry.lt_size name cell hcell) (d.size_cells_le_performAll later)
  refine ⟨d.readings_isPrefix_performAll later, hgiven, fun name cell hcell events => ?_⟩
  exact (tally_record (hgiven name cell hcell) events cell).trans (if_pos rfl)

/-- Whatever was done, in which only cells that were given out were used, names and tallies tell the
history: a name leads to the cell that it was last bound to since the names were last forgotten, and
a cell tells what was counted in it, by those who hold it or by a store, since it was last set to
zero, by those who hold it or through a name. No step but those that say so changes a tally, and
readings and cells outlast all that is done later. -/
theorem performAll_tells_history {commands : List (Command σ κ ν)}
    (h : Legal ({} : Dashboard σ) commands) :
    let d := performAll ({} : Dashboard σ) commands
    let past := incidents ({} : Dashboard σ) [] commands
    d.Tells past ∧ ∀ later, d.Outlasts past later := by
  obtain ⟨hvalid, hpast⟩ := valid_empty.performAll .nil h
  exact ⟨hvalid.tells hpast, hvalid.outlasts hpast⟩

/-- A store counts into a cell with two names. One of them is bound anew, the other sets the cell to
zero, the store goes, and all names are forgotten: what is counted in the cell is told again once it
has a name again, and the reading taken before is still there. -/
theorem performAll_tells_history_shared :
    let commands : List (Command (Lru Nat Nat) Nat Nat) :=
      [.watch (.empty 1), .register "users" 0, .register "all" 0, .use 0 (.get 1),
        .use 0 (.put 1 10), .use 0 (.get 1), .snapshot "users", .fresh, .register "users" 1,
        .reset "all", .use 0 (.put 2 20), .drop 0, .record 0 [.hit], .clear, .register "late" 0]
    let d := performAll ({} : Dashboard (Lru Nat Nat)) commands
    Legal ({} : Dashboard (Lru Nat Nat)) commands ∧
      d.perform (.find "users") = (.cell none, d) ∧
      (d.perform (.snapshot "late")).1 = .tally (some ⟨1, 0, 1⟩) ∧
      ∀ later, [⟨1, 1, 0⟩] <+: (d.performAll later).readings := by
  intro commands d
  let start : Dashboard (Lru Nat Nat) := {}
  have hlegal : start.Legal commands := by decide
  obtain ⟨htells, houtlasts⟩ := performAll_tells_history hlegal
  refine ⟨hlegal, ?_, ?_, fun later => ?_⟩
  · have hholder : holder "users" (start.incidents [] commands) = none := by cbv
    rw [htells.find, hholder]
  · rw [htells.snapshot]
    cbv
  · have hreadings : d.readings = [⟨1, 1, 0⟩] := by cbv
    rw [← hreadings]
    exact (houtlasts later).readings

end Dashboard

end BoundedCache

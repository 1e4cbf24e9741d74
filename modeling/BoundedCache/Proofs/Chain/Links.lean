import BoundedCache.Chain.Basic
import BoundedCache.Proofs.Keyed
import Mathlib.Data.List.Induction

/-!
# Links of a chain

When the nodes of a chain are linked as a given list prescribes, and what linking and unlinking one
node does to that list. Which slots are in use is the subject of a separate file: here a node may be
in use without being linked.

## Main definitions

- `Chain.Segment` — a stretch of the list, between two neighbours that are given from outside
- `Chain.Leading`, `Chain.Trailing` — a stretch that reaches the front, or the back
- `Chain.Linked` — the whole list

## Main results

- `Chain.Linked.linkBefore` — linking a node puts it at its place in the list
- `Chain.Linked.unlink` — unlinking a node takes it out of the list
- `Chain.Linked.walk_after`, `Chain.Linked.walk_before` — following the links yields the list, and
  its reverse

## Design notes

Cutting the list at the place of the operation leaves a leading and a trailing stretch. Writing the
link that leads across the cut changes what follows the first, or precedes the second, and nothing
else. As `none` stands beyond both ends of the list, this holds of empty stretches as well, so the
two ends and the single node need no cases of their own.
-/

namespace BoundedCache.Chain

open Keyed

variable {α : Type} {c : Chain α} {i j : Slot} {v : α} {l xs ys : List (Slot × α)}
  {before after : Option Slot}

/-! ## Reading after a change of one node -/

theorem node?_modifyNode (f : Node α → Node α) :
    (c.modifyNode i f).node? j = if i = j then (c.node? j).map f else c.node? j := by
  simp only [node?, modifyNode, Array.getElem?_modify]
  split
  · rcases c.slots[j]? with _ | _ | node <;> rfl
  · rfl

theorem node?_setAfter (target : Option Slot) :
    (c.setAfter before target).node? j =
      if before = some j then (c.node? j).map ({ · with after := target }) else c.node? j := by
  cases before with
  | none => simp [setAfter, node?]
  | some i => simp [setAfter, node?_modifyNode]

theorem node?_setBefore (target : Option Slot) :
    (c.setBefore after target).node? j =
      if after = some j then (c.node? j).map ({ · with before := target }) else c.node? j := by
  cases after with
  | none => simp [setBefore, node?]
  | some i => simp [setBefore, node?_modifyNode]

theorem node?_setAfter_of_ne {target : Option Slot} (h : before ≠ some j) :
    (c.setAfter before target).node? j = c.node? j := by
  rw [node?_setAfter, if_neg h]

theorem node?_setBefore_of_ne {target : Option Slot} (h : after ≠ some j) :
    (c.setBefore after target).node? j = c.node? j := by
  rw [node?_setBefore, if_neg h]

@[simp]
theorem backSlot_setAfter (target : Option Slot) :
    (c.setAfter before target).backSlot = c.backSlot := by
  cases before <;> rfl

@[simp]
theorem frontSlot_setBefore (target : Option Slot) :
    (c.setBefore after target).frontSlot = c.frontSlot := by
  cases after <;> rfl

/-! ## Stretches of the list -/

/-- The first slot of a list, or the given one if the list is empty. -/
def firstSlot (l : List (Slot × α)) (after : Option Slot) : Option Slot :=
  match l with
  | [] => after
  | x :: _ => some x.1

/-- The last slot of a list, or the given one if the list is empty. -/
def lastSlot (before : Option Slot) : List (Slot × α) → Option Slot
  | [] => before
  | x :: l => lastSlot (some x.1) l

/-- The nodes of a list are linked to each other in its order; `before` and `after` are the
neighbours of its ends. -/
def Segment (c : Chain α) (before : Option Slot) : List (Slot × α) → Option Slot → Prop
  | [], _ => True
  | x :: l, after =>
    c.node? x.1 = some ⟨x.2, before, firstSlot l after⟩ ∧ c.Segment (some x.1) l after

/-- The nodes of a list are linked from the front of the chain on, with `after` next to them. -/
def Leading (c : Chain α) (l : List (Slot × α)) (after : Option Slot) : Prop :=
  c.Segment none l after ∧ c.frontSlot = firstSlot l after

/-- The nodes of a list are linked up to the back of the chain, with `before` next to them. -/
def Trailing (c : Chain α) (before : Option Slot) (l : List (Slot × α)) : Prop :=
  c.Segment before l none ∧ c.backSlot = lastSlot before l

/-- The chain links the nodes of a list, in its order. -/
def Linked (c : Chain α) (l : List (Slot × α)) : Prop :=
  Distinct Prod.fst l ∧ c.Leading l none ∧ c.backSlot = lastSlot none l

@[simp]
theorem firstSlot_append : firstSlot (xs ++ ys) after = firstSlot xs (firstSlot ys after) := by
  cases xs <;> rfl

@[simp]
theorem lastSlot_append : lastSlot before (xs ++ ys) = lastSlot (lastSlot before xs) ys := by
  induction xs generalizing before with
  | nil => rfl
  | cons x xs ih => exact ih

theorem firstSlot_none (l : List (Slot × α)) : firstSlot l none = l.head?.map Prod.fst := by
  cases l <;> rfl

theorem lastSlot_none (l : List (Slot × α)) : lastSlot none l = l.getLast?.map Prod.fst := by
  induction l using List.reverseRecOn with
  | nil => rfl
  | append_singleton xs x _ => simp [lastSlot]

/-- The first slot of a list is one of its slots. -/
theorem firstSlot_none_ne (h : ∀ x ∈ l, x.1 ≠ i) : firstSlot l none ≠ some i := by
  rw [firstSlot_none]
  intro hi
  obtain ⟨x, hx, hxi⟩ := Option.map_eq_some_iff.1 hi
  exact h x (List.mem_of_head? hx) hxi

/-- The last slot of a list is one of its slots. -/
theorem lastSlot_none_ne (h : ∀ x ∈ l, x.1 ≠ i) : lastSlot none l ≠ some i := by
  rw [lastSlot_none]
  intro hi
  obtain ⟨x, hx, hxi⟩ := Option.map_eq_some_iff.1 hi
  exact h x (List.mem_of_getLast? hx) hxi

theorem segment_append :
    c.Segment before (xs ++ ys) after ↔
      c.Segment before xs (firstSlot ys after) ∧ c.Segment (lastSlot before xs) ys after := by
  induction xs generalizing before with
  | nil => simp [Segment, lastSlot]
  | cons x xs ih =>
    rw [List.cons_append, Segment, Segment, ih, firstSlot_append, lastSlot, and_assoc]

/-- A stretch depends on its own nodes only. -/
theorem Segment.congr {c' : Chain α} (h : c.Segment before l after)
    (heq : ∀ x ∈ l, c'.node? x.1 = c.node? x.1) : c'.Segment before l after := by
  induction l generalizing before with
  | nil => trivial
  | cons x l ih =>
    obtain ⟨hx, hl⟩ := h
    rw [List.forall_mem_cons] at heq
    exact ⟨heq.1.trans hx, ih hl heq.2⟩

/-- Cutting the list leaves a leading and a trailing stretch. -/
theorem linked_append :
    c.Linked (xs ++ ys) ↔
      Distinct Prod.fst (xs ++ ys) ∧ c.Leading xs (firstSlot ys none) ∧
        c.Trailing (lastSlot none xs) ys := by
  rw [Linked, Leading, Leading, Trailing, segment_append, firstSlot_append, lastSlot_append]
  constructor
  · rintro ⟨hnodup, ⟨⟨hxs, hys⟩, hfront⟩, hback⟩
    exact ⟨hnodup, ⟨hxs, hfront⟩, hys, hback⟩
  · rintro ⟨hnodup, ⟨hxs, hfront⟩, hys, hback⟩
    exact ⟨hnodup, ⟨⟨hxs, hys⟩, hfront⟩, hback⟩

/-- Cutting the list on both sides of a node. -/
theorem linked_append_cons :
    c.Linked (xs ++ (i, v) :: ys) ↔
      Distinct Prod.fst (xs ++ (i, v) :: ys) ∧ c.Leading xs (some i) ∧
        c.node? i = some ⟨v, lastSlot none xs, firstSlot ys none⟩ ∧ c.Trailing (some i) ys := by
  rw [linked_append, Trailing, Segment, lastSlot, Trailing, firstSlot, and_assoc]

/-! ## Writing a link across a cut -/

theorem Leading.setAfter (h : c.Leading xs after) (hd : Distinct Prod.fst xs)
    (target : Option Slot) : (c.setAfter (lastSlot none xs) target).Leading xs target := by
  induction xs using List.reverseRecOn with
  | nil => exact ⟨trivial, rfl⟩
  | append_singleton xs x _ =>
    obtain ⟨hseg, hfront⟩ := h
    obtain ⟨hxs, hx, -⟩ := segment_append.1 hseg
    rw [lastSlot_append, lastSlot, lastSlot]
    refine ⟨segment_append.2 ⟨hxs.congr fun y hy => ?_, ?_, trivial⟩, ?_⟩
    · exact node?_setAfter_of_ne fun hxy => hd.ne_of_split.1 y hy (Option.some.inj hxy).symm
    · rw [node?_setAfter, if_pos rfl, hx]
      rfl
    · rw [firstSlot_append] at hfront ⊢
      exact hfront

theorem Trailing.setBefore (h : c.Trailing before ys) (hd : Distinct Prod.fst ys)
    (target : Option Slot) : (c.setBefore (firstSlot ys none) target).Trailing target ys := by
  cases ys with
  | nil => exact ⟨trivial, rfl⟩
  | cons y ys =>
    obtain ⟨⟨hy, hys⟩, hback⟩ := h
    refine ⟨⟨?_, hys.congr fun x hx => ?_⟩, hback⟩
    · rw [firstSlot, node?_setBefore, if_pos rfl, hy]
      rfl
    · refine node?_setBefore_of_ne fun hyx => ?_
      exact (distinct_cons_iff.1 hd).1 x hx (Option.some.inj hyx).symm

/-- A leading stretch does not notice what precedes another node. -/
theorem Leading.setBefore_of_ne {next target : Option Slot} (h : c.Leading xs after)
    (hne : ∀ x ∈ xs, next ≠ some x.1) : (c.setBefore next target).Leading xs after := by
  refine ⟨h.1.congr fun x hx => node?_setBefore_of_ne (hne x hx), ?_⟩
  rw [frontSlot_setBefore]
  exact h.2

/-- A trailing stretch does not notice what follows another node. -/
theorem Trailing.setAfter_of_ne {prev target : Option Slot} (h : c.Trailing before ys)
    (hne : ∀ x ∈ ys, prev ≠ some x.1) : (c.setAfter prev target).Trailing before ys := by
  refine ⟨h.1.congr fun x hx => node?_setAfter_of_ne (hne x hx), ?_⟩
  rw [backSlot_setAfter]
  exact h.2

theorem Leading.modifyNode {f : Node α → Node α} (h : c.Leading xs after)
    (hi : ∀ x ∈ xs, x.1 ≠ i) : (c.modifyNode i f).Leading xs after := by
  refine ⟨h.1.congr fun x hx => ?_, h.2⟩
  rw [node?_modifyNode, if_neg (hi x hx).symm]

theorem Trailing.modifyNode {f : Node α → Node α} (h : c.Trailing before ys)
    (hi : ∀ x ∈ ys, x.1 ≠ i) : (c.modifyNode i f).Trailing before ys := by
  refine ⟨h.1.congr fun x hx => ?_, h.2⟩
  rw [node?_modifyNode, if_neg (hi x hx).symm]

/-- The last slot ahead of a cut is not one behind it. -/
theorem lastSlot_ne_of_distinct (hd : Distinct Prod.fst (xs ++ ys)) :
    ∀ y ∈ ys, lastSlot none xs ≠ some y.1 :=
  fun y hy => lastSlot_none_ne fun x hx => (distinct_append_iff.1 hd).2.2 x hx y hy

/-- The first slot behind a cut is not one ahead of it. -/
theorem firstSlot_ne_of_distinct (hd : Distinct Prod.fst (xs ++ ys)) :
    ∀ x ∈ xs, firstSlot ys none ≠ some x.1 :=
  fun x hx => firstSlot_none_ne fun y hy => ((distinct_append_iff.1 hd).2.2 x hx y hy).symm

/-- Writing both links across a cut: the node after the leading stretch, and the node before the
trailing one. -/
theorem leading_trailing_setLinks {toLeading toTrailing : Option Slot}
    (hxs : c.Leading xs toLeading) (hys : c.Trailing toTrailing ys)
    (hd : Distinct Prod.fst (xs ++ ys)) (target prev : Option Slot) :
    ((c.setAfter (lastSlot none xs) target).setBefore (firstSlot ys none) prev).Leading xs target ∧
      ((c.setAfter (lastSlot none xs) target).setBefore (firstSlot ys none) prev).Trailing prev
        ys := by
  obtain ⟨hdxs, hdys, -⟩ := distinct_append_iff.1 hd
  constructor
  · exact (hxs.setAfter hdxs target).setBefore_of_ne (firstSlot_ne_of_distinct hd)
  · exact (hys.setAfter_of_ne (lastSlot_ne_of_distinct hd)).setBefore hdys prev

/-! ## Linking and unlinking -/

theorem Linked.distinct (h : c.Linked l) : Distinct Prod.fst l := h.1

/-- The node before a cut is found from the one behind it. -/
theorem Linked.beforeAnchor (h : c.Linked (xs ++ ys)) :
    c.beforeAnchor (firstSlot ys none) = lastSlot none xs := by
  obtain ⟨-, -, hys, hback⟩ := linked_append.1 h
  cases ys with
  | nil => exact hback
  | cons y ys =>
    obtain ⟨hy, -⟩ := hys
    rw [firstSlot, Chain.beforeAnchor, before?, hy]
    rfl

/-- Linking a node puts it at its place in the list. -/
theorem Linked.linkBefore (h : c.Linked (xs ++ ys)) (hi : ∀ x ∈ xs ++ ys, x.1 ≠ i)
    (hv : c.get? i = some v) :
    (c.linkBefore i (firstSlot ys none)).Linked (xs ++ (i, v) :: ys) := by
  obtain ⟨hd, hxs, hys⟩ := linked_append.1 h
  obtain ⟨node, hnode, rfl⟩ := Option.map_eq_some_iff.1 hv
  have hix : ∀ x ∈ xs, x.1 ≠ i := fun x hx => hi x (List.mem_append_left _ hx)
  have hiy : ∀ y ∈ ys, y.1 ≠ i := fun y hy => hi y (List.mem_append_right _ hy)
  rw [Chain.linkBefore, h.beforeAnchor]
  set d := c.modifyNode i
    ({ · with before := lastSlot none xs, after := firstSlot ys none }) with hdef
  have hdi : d.node? i = some ⟨node.value, lastSlot none xs, firstSlot ys none⟩ := by
    rw [hdef, node?_modifyNode, if_pos rfl, hnode]
    rfl
  obtain ⟨hxs', hys'⟩ :=
    leading_trailing_setLinks (hxs.modifyNode hix) (hys.modifyNode hiy) hd (some i) (some i)
  refine linked_append_cons.2 ⟨?_, hxs', ?_, hys'⟩
  · exact distinct_append_cons_iff.2 (distinct_cons_iff.2 ⟨hi, hd⟩)
  · rw [node?_setBefore_of_ne (firstSlot_none_ne hiy), node?_setAfter_of_ne (lastSlot_none_ne hix)]
    exact hdi

/-- Unlinking a node takes it out of the list. -/
theorem Linked.unlink (h : c.Linked (xs ++ (i, v) :: ys)) : (c.unlink i).Linked (xs ++ ys) := by
  obtain ⟨hd, hxs, hi, hys⟩ := linked_append_cons.1 h
  have hd' : Distinct Prod.fst (xs ++ ys) :=
    (distinct_cons_iff.1 (distinct_append_cons_iff.1 hd)).2
  rw [Chain.unlink, hi]
  exact linked_append.2 ⟨hd', leading_trailing_setLinks hxs hys hd' _ _⟩

/-! ## Reading -/

theorem Linked.node?_eq (h : c.Linked (xs ++ (i, v) :: ys)) :
    c.node? i = some ⟨v, lastSlot none xs, firstSlot ys none⟩ :=
  (linked_append_cons.1 h).2.2.1

/-- Following the links to the back, with enough steps. -/
theorem Segment.walk_after {fuel : Nat} (h : c.Segment before l none) (hfuel : l.length ≤ fuel) :
    c.walk Node.after fuel (firstSlot l none) = l := by
  induction l generalizing before fuel with
  | nil => cases fuel <;> rfl
  | cons x l ih =>
    obtain ⟨hx, hl⟩ := h
    cases fuel with
    | zero => simp at hfuel
    | succ fuel =>
      rw [firstSlot, walk, hx]
      simp only
      rw [ih hl (by simpa using hfuel)]

/-- Following the links to the front, with enough steps. -/
theorem Segment.walk_before {fuel : Nat} (h : c.Segment none l after) (hfuel : l.length ≤ fuel) :
    c.walk Node.before fuel (lastSlot none l) = l.reverse := by
  induction l using List.reverseRecOn generalizing after fuel with
  | nil => cases fuel <;> rfl
  | append_singleton xs x ih =>
    obtain ⟨hxs, hx, -⟩ := segment_append.1 h
    cases fuel with
    | zero => simp at hfuel
    | succ fuel =>
      rw [lastSlot_append, lastSlot, lastSlot, walk, hx]
      simp only
      rw [ih hxs (by simpa using hfuel), List.reverse_append]
      rfl

end BoundedCache.Chain

import BoundedCache.Proofs.Cache.Drain
import BoundedCache.Proofs.TinyLfu.Admission

/-!
# What a smaller capacity costs behind an admission window

A resize divides the new capacity anew between window and main part. A window that has become too
small passes its surplus on to the main part, and no entry is lost by that. A main part that has
become too small does not pass anything back, even if the window has places to spare: its surplus is
dropped.

## Main definitions

- `TinyLfu.loss` — how many entries a division of a new capacity costs

## Main results

- `TinyLfu.Parts.spillMany_of_room` — what leaves the window finds a place in the main part
- `TinyLfu.Valid.resize_eq` — which entries a resize drops
- `TinyLfu.loss_eq_excess_iff` — when these are only the entries for which there is no room
- `TinyLfu.actAll_resize_drops` — every state that can be reached
-/

namespace BoundedCache

variable {κ ν : Type} [DecidableEq κ] [Hashable κ]

/-! ## Evicting from the main part -/

namespace Segmented

variable {c : Segmented κ ν} {ratio : Float} {l : List (Entry κ ν)}

theorem DrainsAs.entries_eq (h : c.DrainsAs l) : c.entries = l := by
  obtain ⟨_, _, ⟨-, rfl⟩, ⟨-, rfl⟩, rfl⟩ := h
  rfl

/-- The head of the list gives way. -/
theorem Valid.evict_entries (h : c.Valid ratio) :
    c.evict.1 = c.entries.head? ∧ c.evict.2.entries = c.entries.tail := by
  obtain ⟨hhead, htail⟩ := evictsInOrder.evict h.drainsAs
  exact ⟨hhead, htail.entries_eq⟩

/-- A number of evictions takes that many entries from the front of the list. -/
theorem Valid.evictMany_entries (h : c.Valid ratio) (n : Nat) :
    (evictMany Segmented.evict n c).1 = c.entries.take n ∧
      (evictMany Segmented.evict n c).2.entries = c.entries.drop n := by
  obtain ⟨htake, hdrop⟩ := evictsInOrder.evictMany h.drainsAs n
  exact ⟨htake, hdrop.entries_eq⟩

end Segmented

namespace TinyLfu

variable {c d : TinyLfu κ ν} {k : κ} {v : ν} {m n : Nat} {e : Entry κ ν}

/-! ## Evicting -/

theorem Parts.size_eq (h : c.Parts m) : c.size = c.entries.length :=
  h.joined.size_eq Lru.lawful mainLawful

namespace Valid

/-- As long as the main part has entries, it is the one that gives way. -/
theorem evict_main_entries (h : c.Valid) : c.evict.2.main.entries = c.main.entries.tail := by
  obtain ⟨hhead, htail⟩ := h.joined.right.evict_entries
  rw [TinyLfu.evict]
  rcases hevict : c.main.evict with ⟨_ | e, main⟩ <;> rw [hevict] at htail <;> exact htail

theorem evictMany_main_entries (h : c.Valid) (n : Nat) :
    (evictMany TinyLfu.evict n c).2.main.entries = c.main.entries.drop n := by
  induction n generalizing c with
  | zero => rfl
  | succ n ih =>
    have hlaw := h.evict
    have htail := h.evict_main_entries
    rcases hevict : c.evict with ⟨_ | e, d⟩ <;> rw [hevict] at hlaw htail
    · -- Nothing is left to evict, so the main part is empty as well.
      have hnil : c.main.entries = [] := (List.append_eq_nil_iff.1 (hlaw.eq_none_iff.1 rfl)).2
      rw [evictMany_succ_of_none hevict, hnil, List.drop_nil]
      exact htail.trans (by rw [hnil]; rfl)
    · obtain ⟨_, -, hholds⟩ := hlaw.of_some rfl
      rw [evictMany_succ_of_some hevict, ih hholds.inv, htail, List.drop_tail]

end Valid

/-! ## Spilling -/

namespace Parts

/-- An entry that leaves the window is not lost while the main part has room. -/
theorem spill_of_room (h : c.Parts m) (hroom : c.main.size < m) :
    (c.spill m).1 = none ∧ (c.spill m).2.main.size ≤ c.main.size + 1 := by
  obtain ⟨hd, hp, hwindow⟩ := h.spill
  have hnone : (c.spill m).1 = none := by
    rw [TinyLfu.spill_def]
    rcases c.window.evict with ⟨_ | e, window⟩
    · rfl
    · exact congrArg Prod.fst (if_pos hroom)
  rw [hnone] at hp
  have hcount : c.size = (c.spill m).2.size := by
    rw [h.size_eq, hd.size_eq]
    exact hp.length_eq
  rw [size, size, hwindow] at hcount
  exact ⟨hnone, by omega⟩

/-- What leaves the window finds a place in the main part as long as there is one for all of it. -/
theorem spillMany_of_room (h : c.Parts m) {count : Nat} (hroom : c.main.size + count ≤ m) :
    (TinyLfu.spillMany m count c).1 = [] := by
  induction count generalizing c with
  | zero => rfl
  | succ count ih =>
    obtain ⟨hnone, hsize⟩ := h.spill_of_room (by omega)
    have hlater := ih h.spill.1 (by omega)
    rw [TinyLfu.spillMany_succ]
    dsimp only
    rw [hnone, hlater]
    rfl

end Parts

/-! ## Resizing -/

/-- How many entries it costs to divide a new capacity into parts: as many as there is no room for,
or as many as the new main part has no room for if these are more. -/
def loss (c : TinyLfu κ ν) (parts : Layout) : Nat :=
  max (c.size - (parts.window + parts.main)) (c.main.size - parts.main)

/-- Only what does not fit is lost, unless the main part is too large and the window is not full. -/
theorem loss_eq_excess_iff (c : TinyLfu κ ν) (parts : Layout) :
    c.loss parts = c.size - (parts.window + parts.main) ↔
      c.main.size ≤ parts.main ∨ parts.window ≤ c.window.size := by
  rw [loss, size]
  omega

omit [DecidableEq κ] [Hashable κ] in
/-- Evicting what does not fit, and then what does not fit into the main part, takes the entries in
the order of evictions. -/
theorem take_append_take {main window : List (Entry κ ν)} {excess : Nat} :
    (main ++ window).take excess ++ (main.drop excess).take ((main.drop excess).length - m) =
      (main ++ window).take (max excess (main.length - m)) := by
  rw [List.length_drop]
  rcases Nat.le_total (main.length - m) excess with hle | hle
  · rw [Nat.max_eq_left hle, show main.length - excess - m = 0 by omega, List.take_zero,
      List.append_nil]
  · have hfront : (main ++ window).take excess = main.take excess :=
      List.take_append_of_le_length (by omega)
    have hall : (main ++ window).take (main.length - m) = main.take (main.length - m) :=
      List.take_append_of_le_length (Nat.sub_le ..)
    have hadd : main.length - m = excess + (main.length - excess - m) := by omega
    rw [Nat.max_eq_right hle, hfront, hall]
    conv_rhs => rw [hadd, List.take_add]

namespace Valid

/-- The surplus of the window finds a place in a main part that was made to fit its new capacity,
unless there is no room for all entries. -/
theorem spilled_eq_nil (h : c.Valid) {parts : Layout} (hlayout : layout n = .ok parts)
    (hfits : c.size ≤ n) {dropped : List (Entry κ ν)} {main : Segmented κ ν}
    (hmain : (evictMany Segmented.evict (c.main.size - parts.main) c.main).2.resize parts.main =
      .ok (dropped, main)) :
    (TinyLfu.spillMany parts.main (c.window.size - parts.window) { c with main }).1 = [] := by
  obtain ⟨-, hpos, hsum, hguarded⟩ := layout_facts hlayout
  obtain ⟨-, _, _, rest, hresize, hp, hholds⟩ := resizeMain h.joined.right hpos hguarded
  obtain ⟨-, rfl⟩ := Prod.mk.inj (Except.ok.inj (hmain.symm.trans hresize))
  have hcapacity : main.capacity = parts.main := hholds.capacity_eq
  have hparts : Parts parts.main { c with main } :=
    ⟨h.joined.exchange_right hholds fun k hk => .inl (mem_keys_of_kept hp hk), hcapacity⟩
  have hle : main.size ≤ main.capacity := hholds.inv.size_le
  have hcount := hp.length_eq
  rw [← h.joined.right.size_eq, List.length_append, ← Segmented.Valid.size_of_holds hholds]
    at hcount
  rw [size] at hfits
  refine hparts.spillMany_of_room ?_
  show main.size + (c.window.size - parts.window) ≤ parts.main
  omega

/-- The entries that a resize drops are the first ones in the order of evictions. -/
theorem resize_eq (h : c.Valid) {parts : Layout} (hlayout : layout n = .ok parts)
    {dropped : List (Entry κ ν)} (hd : c.resize n = .ok (dropped, d)) :
    dropped = c.drainOrder.take (c.loss parts) := by
  obtain ⟨-, -, hsum, -⟩ := layout_facts hlayout
  have hsteps := hd
  rw [resize_def] at hsteps
  obtain ⟨_, -, hrest⟩ := bind_eq_ok_iff.1 hsteps
  obtain ⟨popularity, hpopularity, -⟩ := bind_eq_ok_iff.1 hrest
  obtain ⟨_, -, hc, hfits⟩ : ∃ rest,
      c.entries.Perm ((evictMany TinyLfu.evict (c.size - n) c).1 ++ rest) ∧
        Store.Holds Valid c.capacity rest (evictMany TinyLfu.evict (c.size - n) c).2 ∧
        (evictMany TinyLfu.evict (c.size - n) c).2.size ≤ n :=
    Store.evictMany_excess_of_evicts size_eq evict h n
  obtain ⟨-, _, _, hmain, hwindow, -⟩ := hc.inv.resizeParts hlayout
  have hresize : c.resize n = .ok (_, _) :=
    (c.resize_def n).trans (bind_eq_ok_iff.2 ⟨_, hlayout, bind_eq_ok_iff.2 ⟨_, hpopularity,
      bind_eq_ok_iff.2 ⟨_, hmain, bind_eq_ok_iff.2 ⟨_, hwindow, rfl⟩⟩⟩⟩)
  obtain ⟨rfl, -⟩ := Prod.mk.inj (Except.ok.inj (hd.symm.trans hresize))
  obtain ⟨hfirst, -⟩ := evictsInOrder.evictMany h.drainsAs (c.size - n)
  obtain ⟨hsecond, -⟩ := hc.inv.joined.right.evictMany_entries
    ((evictMany TinyLfu.evict (c.size - n) c).2.main.size - parts.main)
  have hspilled : (spillEach ..).evicted = [] := hc.inv.spilled_eq_nil hlayout hfits hmain
  rw [hspilled, hsecond, hc.inv.joined.right.size_eq,
    h.evictMany_main_entries, List.append_nil, loss, hsum, h.joined.right.size_eq]
  exact (congrArg (· ++ _) hfirst).trans take_append_take

/-- A resize that is accepted drops entries from the front of the order, and keeps the others. -/
theorem exists_resize_eq (h : c.Valid) {parts : Layout} (hlayout : layout n = .ok parts) :
    ∃ d, c.resize n = .ok (c.drainOrder.take (c.loss parts), d) ∧
      Store.Holds Valid n (c.drainOrder.drop (c.loss parts)) d := by
  obtain ⟨hwindow, -, hsum, -⟩ := layout_facts hlayout
  obtain ⟨popularity, hpopularity⟩ := exists_popularity (n := n) (by omega) c.seed
  obtain ⟨dropped, d, rest, hd, hp, hholds⟩ := h.exists_resize hlayout hpopularity
  obtain rfl := h.resize_eq hlayout hd
  have horder : c.drainOrder.Perm c.entries := List.perm_append_comm
  have hsplit := horder.trans hp
  nth_rewrite 1 [← List.take_append_drop (c.loss parts) c.drainOrder] at hsplit
  have hrest := (List.perm_append_left_iff _).1 hsplit
  exact ⟨d, hd, hholds.inv, hholds.capacity_eq, hholds.perm.trans hrest.symm⟩

theorem length_drainOrder (h : c.Valid) : c.drainOrder.length = c.size := by
  rw [h.size_eq, drainOrder, entries, List.length_append, List.length_append, Nat.add_comm]

theorem size_of_holds {l : List (Entry κ ν)} (h : Store.Holds Valid n l c) :
    c.size = l.length := by
  rw [h.inv.size_eq]
  exact h.perm.length_eq

/-- A resize that is accepted tells the entries that it drops. -/
theorem perform_resize {o : Observed (TinyLfu κ ν)} (h : o.store.Valid) {parts : Layout}
    (hlayout : layout m = .ok parts) :
    let order := o.store.drainOrder
    let loss := o.store.loss parts
    (o.perform (.resize m)).1 = (.done, o.notices (order.take loss)) ∧
      o.reported (.resize m) = order.take loss ∧
      Store.Holds Valid m (order.drop loss) (o.perform (.resize m)).2.store := by
  intro order loss
  obtain ⟨d, hd, hholds⟩ := h.exists_resize_eq hlayout
  have hresize : Store.resize o.store m = .ok (order.take loss, d) := hd
  have hperform : Store.perform o.store (.resize m) = (.evicting .done (order.take loss), d) := by
    rw [Store.perform_resize, hresize]
  rw [Observed.perform_eq, Observed.reported, hperform, Outcome.evicted_evicting]
  exact ⟨rfl, rfl, hholds⟩

end Valid

/-! ## A window that is empty -/

theorem SameParts.drainOrder_eq (h : SameParts c d) : c.drainOrder = d.drainOrder := by
  rw [drainOrder, drainOrder, h.window_eq, h.main_eq]

theorem layout_four : layout 4 = .ok ⟨1, 3⟩ :=
  bind_eq_ok_iff.2 ⟨(), requireCapacity_eq_ok_iff.2 (by decide),
    ite_throw_eq_ok_iff.2 ⟨by decide +kernel, congrArg Except.ok (by decide +kernel)⟩⟩

/-- Four puts, the last of which is undone. -/
def undonePut : List (Observed.Action Nat Nat) :=
  [.request (.put 1 10), .request (.put 2 20), .request (.put 3 30), .request (.put 4 40),
    .request (.remove 4)]

theorem undonePut_store (c : TinyLfu Nat Nat) (listener : Option Nat) :
    (Observed.actAll { store := c, listener } undonePut).2.store =
      (((((c.put 1 10).2.put 2 20).2.put 3 30).2.put 4 40).2.remove 4).2 := by
  have hput (s : TinyLfu Nat Nat) (k v : Nat) :
      (Store.perform s (.put k v)).2 = (s.put k v).2 := rfl
  have hremove (s : TinyLfu Nat Nat) (k : Nat) :
      (Store.perform s (.remove k)).2 = (s.remove k).2 := rfl
  simp only [undonePut, Observed.actAll, Observed.act, Observed.store_perform, hput, hremove]

/-- Three entries are in the main part and none is in the window, since its only one was removed. -/
theorem exists_create_undonePut (listener : Option Nat) :
    ∃ c : TinyLfu Nat Nat, create 4 (fun _ => 0) 5 = .ok c ∧
      let s := (Observed.actAll { store := c, listener } undonePut).2.store
      s.size = 3 ∧ s.main.size = 3 ∧ s.drainOrder = [⟨1, 10⟩, ⟨2, 20⟩, ⟨3, 30⟩] := by
  have hguarded : (Split.ofRatio 3 Segmented.defaultRatio).guarded = 2 := by decide +kernel
  obtain ⟨popularity, hc⟩ := exists_create_eq (κ := Nat) (ν := Nat) layout_four (fun _ => 0) 5
  rw [hguarded] at hc
  refine ⟨_, hc, ?_⟩
  -- The main part has room during all of the puts, so any popularity gives the same parts.
  let twin (ratio : Float) : TinyLfu Nat Nat :=
    vacant 4 (fun _ => 0) 5 ⟨1, 3⟩ ratio 2 ⟨⟨[]⟩, ⟨#[], []⟩, 0, 0⟩
  have hroom : ∀ ratio, (twin ratio).main.victim? = none ∧
      ((twin ratio).put 1 10).2.main.victim? = none ∧
      (((twin ratio).put 1 10).2.put 2 20).2.main.victim? = none ∧
      ((((twin ratio).put 1 10).2.put 2 20).2.put 3 30).2.main.victim? = none := by
    intro ratio
    exact ⟨by cbv, by cbv, by cbv, by cbv⟩
  have hlast : ∀ ratio,
      let last := (((((twin ratio).put 1 10).2.put 2 20).2.put 3 30).2.put 4 40).2.remove 4
      last.2.size = 3 ∧ last.2.main.size = 3 ∧
        last.2.drainOrder = [⟨1, 10⟩, ⟨2, 20⟩, ⟨3, 30⟩] := by
    intro ratio
    exact ⟨by cbv, by cbv, by cbv⟩
  obtain ⟨hroom₁, hroom₂, hroom₃, hroom₄⟩ := hroom Segmented.defaultRatio
  have hstart : SameParts (vacant 4 (fun _ => 0) 5 ⟨1, 3⟩ Segmented.defaultRatio 2 popularity)
      (twin Segmented.defaultRatio) := ⟨rfl, rfl, rfl⟩
  have hput₁ := (hstart.put hroom₁ 1 10).related
  have hput₂ := (hput₁.put hroom₂ 2 20).related
  have hput₃ := (hput₂.put hroom₃ 3 30).related
  have hput₄ := (hput₃.put hroom₄ 4 40).related
  have hremove := (hput₄.remove 4).related
  rw [undonePut_store]
  dsimp only
  rw [hremove.size_eq, hremove.main_eq, hremove.drainOrder_eq]
  exact hlast Segmented.defaultRatio

/-! ## Every reachable state -/

/-- Whatever was done with a new store, a resize that is accepted drops the first entries in the
order of evictions, tells them, and keeps the others. It drops just as many as there is no room for
if all entries of the main part still fit into it, or if the window has none to spare. -/
theorem actAll_resize_drops {hash : KeyHash κ} {seed : UInt64} (hc : create n hash seed = .ok c)
    (listener : Option Nat) (actions : List (Observed.Action κ ν)) {parts : Layout}
    (hlayout : layout m = .ok parts) :
    let o := (Observed.actAll { store := c, listener } actions).2
    let s := o.store
    let p := o.perform (.resize m)
    p.1 = (.done, o.notices (s.drainOrder.take (s.loss parts))) ∧
      o.reported (.resize m) = s.drainOrder.take (s.loss parts) ∧
      p.2.store.entries.Perm (s.drainOrder.drop (s.loss parts)) ∧
      p.2.store.size = s.size - s.loss parts ∧ p.2.store.capacity = m ∧
      (s.loss parts = s.size - m ↔ s.main.size ≤ parts.main ∨ parts.window ≤ s.window.size) := by
  intro o s p
  let start : Observed (TinyLfu κ ν) := { store := c, listener }
  have h : s.Valid := lawful.actAll (o := start) (create_holds hc).inv actions
  obtain ⟨-, -, hsum, -⟩ := layout_facts hlayout
  obtain ⟨htold, hreported, hholds⟩ := h.perform_resize hlayout
  refine ⟨htold, hreported, hholds.perm, ?_, hholds.capacity_eq, ?_⟩
  · rw [Valid.size_of_holds hholds, List.length_drop, h.length_drainOrder]
  · rw [← hsum]
    exact s.loss_eq_excess_iff parts

/-- With the old capacity, the same three entries keep their places. -/
theorem actAll_resize_drops_none :
    ∃ c : TinyLfu Nat Nat, create 4 (fun _ => 0) 5 = .ok c ∧ layout 4 = .ok ⟨1, 3⟩ ∧
      let o := (Observed.actAll { store := c, listener := none } undonePut).2
      o.store.loss ⟨1, 3⟩ = 0 ∧ o.reported (.resize 4) = [] ∧
        (o.perform (.resize 4)).2.store.size = 3 := by
  obtain ⟨c, hc, hsize, hmain, -⟩ := exists_create_undonePut none
  obtain ⟨-, hreported, -, hkept, -⟩ := actAll_resize_drops hc none undonePut layout_four
  refine ⟨c, hc, layout_four, ?_⟩
  generalize (Observed.actAll { store := c, listener := none } undonePut).2 = o at *
  have hloss : o.store.loss ⟨1, 3⟩ = 0 := by
    rw [loss, hsize, hmain]
    decide
  rw [hloss] at hreported hkept
  exact ⟨hloss, hreported, hkept.trans hsize⟩

/-- The same capacity for three entries gives a main part with three of them only two places. The
oldest one is dropped, and the place in the window stays empty. -/
theorem resize_drops_with_room :
    ∃ c : TinyLfu Nat Nat, create 4 (fun _ => 0) 5 = .ok c ∧
      let o := (Observed.actAll { store := c, listener := some 7 } undonePut).2
      o.store.size = 3 ∧ (o.perform (.resize 3)).1 = (.done, [⟨7, ⟨1, 10⟩⟩]) ∧
        (o.perform (.resize 3)).2.store.size = 2 := by
  obtain ⟨c, hc, hsize, hmain, horder⟩ := exists_create_undonePut (some 7)
  have h : Valid (Observed.actAll { store := c, listener := some 7 } undonePut).2.store :=
    lawful.actAll (o := { store := c, listener := some 7 }) (create_holds hc).inv undonePut
  have hlistener : (Observed.actAll { store := c, listener := some 7 } undonePut).2.listener =
      some 7 := Observed.listener_actAll _ undonePut
  refine ⟨c, hc, ?_⟩
  generalize (Observed.actAll { store := c, listener := some 7 } undonePut).2 = o at *
  have hloss : o.store.loss ⟨1, 2⟩ = 1 := by
    rw [loss, hsize, hmain]
    decide
  obtain ⟨htold, -, hholds⟩ := h.perform_resize layout_three
  rw [horder, hloss] at htold hholds
  rw [Observed.notices, hlistener] at htold
  exact ⟨hsize, htold, Valid.size_of_holds hholds⟩

end TinyLfu

end BoundedCache

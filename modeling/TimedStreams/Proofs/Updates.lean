import TimedStreams.Proofs.Sequence
import TimedStreams.Signal.Basic

/-!
# Sequences of updates

A reader learns of a signal through its updates. `stampedOf` keeps the events of a list of updates.
`Rises level updates top` says that the updates take a reader from the stamp `level` up to the stamp
`top` and never back, which holds of the queue of every outlet. `Honest updates later` says that no
event comes with a stamp before one that was sent or promised earlier; sending honest updates
through an outlet raises nothing that the outlet would not have raised anyway.
-/

namespace TimedStreams

open Stamped

def Update.stampedOf (updates : List Update) : List Stamped :=
  updates.filterMap fun
    | .event s => some s
    | .progress _ => none

namespace Update

@[simp] theorem stampedOf_nil : stampedOf [] = [] := rfl

@[simp] theorem stampedOf_event (s : Stamped) (rest : List Update) :
    stampedOf (.event s :: rest) = s :: stampedOf rest := rfl

@[simp] theorem stampedOf_progress (stamp : Nat) (rest : List Update) :
    stampedOf (.progress stamp :: rest) = stampedOf rest := rfl

@[simp] theorem stampedOf_append (us vs : List Update) : stampedOf (us ++ vs) = stampedOf us ++ stampedOf vs :=
  List.filterMap_append

theorem mem_stampedOf {s : Stamped} {us : List Update} : s ∈ stampedOf us ↔ .event s ∈ us := by
  induction us with
  | nil => simp
  | cons u rest ih => cases u <;> simp [ih]

/-! ### Rising -/

/-- The stamps of the updates never decrease from `level` on, and end at `top`. -/
def Rises (level : Option Nat) : List Update → Option Nat → Prop
  | [], top => level = top
  | u :: rest, top => level.getD 0 ≤ u.stamp ∧ Rises (some u.stamp) rest top

@[simp] theorem rises_nil {level top : Option Nat} : Rises level [] top ↔ level = top := Iff.rfl

@[simp] theorem rises_cons {level top : Option Nat} {u : Update} {rest : List Update} :
    Rises level (u :: rest) top ↔ level.getD 0 ≤ u.stamp ∧ Rises (some u.stamp) rest top := Iff.rfl

theorem Rises.append {level middle top : Option Nat} {us vs : List Update} (hus : Rises level us middle)
    (hvs : Rises middle vs top) : Rises level (us ++ vs) top := by
  induction us generalizing level with
  | nil => exact rises_nil.1 hus ▸ hvs
  | cons u rest ih => exact ⟨hus.1, ih hus.2⟩

theorem Rises.level_le_top {level top : Option Nat} {us : List Update} (hus : Rises level us top) :
    level.getD 0 ≤ top.getD 0 := by
  induction us generalizing level with
  | nil => rw [rises_nil.1 hus]
  | cons u rest ih => exact hus.1.trans (ih hus.2)

theorem Rises.level_le {level top : Option Nat} {us : List Update} (hus : Rises level us top)
    {u : Update} (hu : u ∈ us) :
    level.getD 0 ≤ u.stamp := by
  induction us generalizing level with
  | nil => cases hu
  | cons v rest ih =>
    rcases List.mem_cons.1 hu with rfl | hu
    · exact hus.1
    · exact hus.1.trans (ih hus.2 hu)

theorem Rises.le_top {level top : Option Nat} {us : List Update} (hus : Rises level us top)
    {u : Update} (hu : u ∈ us) :
    u.stamp ≤ top.getD 0 := by
  induction us generalizing level with
  | nil => cases hu
  | cons v rest ih =>
    rcases List.mem_cons.1 hu with rfl | hu
    · exact hus.2.level_le_top
    · exact ih hus.2 hu

theorem Rises.from_level {level top : Option Nat} {us : List Update} (hus : Rises level us top) :
    From (level.getD 0) (stampedOf us) :=
  fun _ hs => hus.level_le (mem_stampedOf.1 hs)

theorem Rises.upTo_top {level top : Option Nat} {us : List Update} (hus : Rises level us top) :
    UpTo (top.getD 0) (stampedOf us) :=
  fun _ hs => hus.le_top (mem_stampedOf.1 hs)

theorem Rises.ascending {level top : Option Nat} {us : List Update} (hus : Rises level us top) :
    Ascending (stampedOf us) := by
  induction us generalizing level with
  | nil => exact ascending_nil
  | cons u rest ih =>
    cases u with
    | event s => exact ascending_cons.2 ⟨hus.2.from_level, ih hus.2⟩
    | progress stamp => exact ih hus.2

/-! ### Honesty -/

/-- No event among the updates, or `later`, is stamped before an update in front of it. -/
def Honest : List Update → List Stamped → Prop
  | [], _ => True
  | u :: rest, later => From u.stamp (stampedOf rest ++ later) ∧ Honest rest later

@[simp] theorem honest_nil (later : List Stamped) : Honest [] later := trivial

@[simp] theorem honest_cons {u : Update} {rest : List Update} {later : List Stamped} :
    Honest (u :: rest) later ↔ From u.stamp (stampedOf rest ++ later) ∧ Honest rest later := Iff.rfl

theorem honest_append {us vs : List Update} {later : List Stamped} :
    Honest (us ++ vs) later ↔ Honest us (stampedOf vs ++ later) ∧ Honest vs later := by
  induction us with
  | nil => simp
  | cons u rest ih => simp only [List.cons_append, honest_cons, ih, stampedOf_append,
    List.append_assoc, and_assoc]

theorem Honest.nil {us : List Update} {later : List Stamped} (hus : Honest us later) : Honest us [] := by
  induction us with
  | nil => exact honest_nil _
  | cons u rest ih =>
    obtain ⟨hu, hrest⟩ := hus
    refine honest_cons.2 ⟨?_, ih hrest⟩
    rw [List.append_nil]
    exact (from_append.1 hu).1

theorem Honest.stamp_le {us : List Update} {later : List Stamped} (hus : Honest us later) {u : Update}
    (hu : u ∈ us) :
    From u.stamp later := by
  induction us with
  | nil => cases hu
  | cons v rest ih =>
    obtain ⟨hv, hrest⟩ := hus
    rcases List.mem_cons.1 hu with rfl | hu
    · exact (from_append.1 hv).2
    · exact ih hrest hu

theorem honest_map_event {xs later : List Stamped} (hxs : Ascending (xs ++ later)) :
    Honest (xs.map .event) later := by
  induction xs with
  | nil => trivial
  | cons s rest ih =>
    obtain ⟨hs, hrest⟩ := ascending_cons.1 hxs
    have hevents : stampedOf (rest.map .event) = rest := by
      rw [stampedOf, List.filterMap_map]
      exact List.filterMap_some
    exact ⟨hevents.symm ▸ hs, ih hrest⟩

end Update

/-! ### Sending -/

namespace Outlet

open Update

/-- The latest stamp sent so far, the origin if there is none. -/
def reach (out : Outlet) : Nat :=
  out.frontier.getD 0

theorem raisedTo_eq (frontier : Option Nat) (stamp : Nat) :
    raisedTo frontier stamp = max (frontier.getD 0) stamp := by
  cases frontier <;> simp [raisedTo]

theorem covers_iff {frontier : Option Nat} {stamp : Nat} :
    covers frontier stamp = true ↔ ∃ top, frontier = some top ∧ stamp ≤ top := by
  cases frontier <;> simp [covers]

theorem le_reach_of_covers {out : Outlet} {stamp : Nat} (hcovers : covers out.frontier stamp = true) :
    stamp ≤ out.reach := by
  obtain ⟨top, htop, hle⟩ := covers_iff.1 hcovers
  rw [reach, htop]
  exact hle

@[simp] theorem reach_send (out : Outlet) (u : Update) : (out.send u).reach = max out.reach u.stamp := by
  cases u with
  | event s => simp [send, emit, reach, raisedTo_eq, Update.stamp]
  | progress stamp =>
    rw [send, advance]
    split
    · next hcovers => exact (Nat.max_eq_left (le_reach_of_covers hcovers)).symm
    · next hcovers =>
      cases hfrontier : out.frontier with
      | none => simp [reach, hfrontier, Update.stamp]
      | some top =>
        have hlt : top ≤ stamp := by
          rw [hfrontier] at hcovers
          simp only [covers, Option.any_some, decide_eq_true_eq] at hcovers
          omega
        simp [reach, hfrontier, Update.stamp, Nat.max_eq_right hlt]

theorem covers_send (out : Outlet) (u : Update) : covers (out.send u).frontier u.stamp = true := by
  cases u with
  | event s => simp [send, emit, raisedTo_eq, Update.stamp, covers]
  | progress stamp =>
    rw [send, advance]
    split
    · assumption
    · simp [Update.stamp, covers]

theorem covers_send_of_covers {out : Outlet} {stamp : Nat} (hcovers : covers out.frontier stamp = true)
    (u : Update) :
    covers (out.send u).frontier stamp = true := by
  obtain ⟨top, htop, hle⟩ := covers_iff.1 (covers_send out u)
  refine covers_iff.2 ⟨top, htop, ?_⟩
  have hreach := reach_send out u
  rw [reach, htop] at hreach
  exact (le_reach_of_covers hcovers).trans (by rw [Option.getD_some] at hreach; omega)

theorem stampedOf_queue_send (out : Outlet) (u : Update) :
    stampedOf (out.send u).queue = stampedOf out.queue ++ raiseAll out.reach (stampedOf [u]) := by
  cases u with
  | event s => simp [send, emit, raise, raisedTo_eq, reach]
  | progress stamp =>
    rw [send, advance]
    split <;> simp

theorem rises_send {level : Option Nat} {out : Outlet} (hout : Rises level out.queue out.frontier)
    (u : Update) :
    Rises level (out.send u).queue (out.send u).frontier := by
  cases u with
  | event s =>
    refine hout.append ⟨?_, rfl⟩
    simp [Update.stamp, raisedTo_eq]
  | progress stamp =>
    rw [send, advance]
    split
    · exact hout
    · next hcovers =>
      refine hout.append ⟨?_, rfl⟩
      cases hfrontier : out.frontier with
      | none => exact Nat.zero_le _
      | some top =>
        rw [hfrontier] at hcovers
        simp only [covers, Option.any_some, decide_eq_true_eq] at hcovers
        exact (Nat.lt_of_not_le hcovers).le

@[simp] theorem sendAll_nil (out : Outlet) : out.sendAll [] = out := rfl

@[simp] theorem sendAll_cons (out : Outlet) (u : Update) (rest : List Update) :
    out.sendAll (u :: rest) = (out.send u).sendAll rest := rfl

theorem rises_sendAll {level : Option Nat} {out : Outlet} (hout : Rises level out.queue out.frontier)
    (us : List Update) :
    Rises level (out.sendAll us).queue (out.sendAll us).frontier := by
  induction us generalizing out with
  | nil => exact hout
  | cons u rest ih => exact ih (rises_send hout u)

theorem reach_le_reach_sendAll (out : Outlet) (us : List Update) : out.reach ≤ (out.sendAll us).reach := by
  induction us generalizing out with
  | nil => exact Nat.le_refl _
  | cons u rest ih => exact (reach_send out u ▸ Nat.le_max_left _ _).trans (ih (out.send u))

theorem reach_sendAll_le {out : Outlet} {us : List Update} {top : Nat} (hout : out.reach ≤ top)
    (hus : ∀ u ∈ us, u.stamp ≤ top) : (out.sendAll us).reach ≤ top := by
  induction us generalizing out with
  | nil => exact hout
  | cons u rest ih =>
    refine ih ?_ fun v hv => hus v (List.mem_cons_of_mem _ hv)
    rw [reach_send]
    exact Nat.max_le.2 ⟨hout, hus u List.mem_cons_self⟩

theorem covers_sendAll_of_covers {out : Outlet} {stamp : Nat} (hcovers : covers out.frontier stamp = true)
    (us : List Update) : covers (out.sendAll us).frontier stamp = true := by
  induction us generalizing out with
  | nil => exact hcovers
  | cons u rest ih => exact ih (covers_send_of_covers hcovers u)

theorem covers_sendAll (out : Outlet) {us : List Update} {u : Update} (hu : u ∈ us) :
    covers (out.sendAll us).frontier u.stamp = true := by
  induction us generalizing out with
  | nil => cases hu
  | cons v rest ih =>
    rcases List.mem_cons.1 hu with rfl | hu
    · exact covers_sendAll_of_covers (covers_send out u) rest
    · exact ih (out.send v) hu

/-- What honest updates leave in the queue, and what is still to come after them, is as if all had
been raised at once. -/
theorem stampedOf_queue_sendAll (out : Outlet) {us : List Update} {later : List Stamped}
    (hus : Honest us later) :
    stampedOf (out.sendAll us).queue ++ raiseAll (out.sendAll us).reach later
      = stampedOf out.queue ++ raiseAll out.reach (stampedOf us ++ later) := by
  induction us generalizing out with
  | nil => rfl
  | cons u rest ih =>
    obtain ⟨hu, hrest⟩ := hus
    rw [sendAll_cons, ih _ hrest, stampedOf_queue_send, reach_send, raiseAll_max hu, List.append_assoc,
      ← raiseAll_append, ← List.append_assoc, ← stampedOf_append, List.singleton_append]

end Outlet

end TimedStreams

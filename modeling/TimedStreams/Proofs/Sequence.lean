import Mathlib.Data.List.Sort
import Mathlib.Order.MinMax
import TimedStreams.Signal.Task

/-!
# Sequences of stamped events

What the combinators do to whole sequences of stamped events, with nothing of the tasks that do it
bit by bit: raising stamps to a floor, interleaving two sequences by stamp with the left first on
equal stamps, and pairing events by position, with the one before, or with the latest of the other
side. All of them keep a sequence ascending, and each is pinned down by what it does to a sequence
whose first event is known.
-/

namespace TimedStreams

namespace Stamped

def raise (floor : Nat) (s : Stamped) : Stamped :=
  { s with stamp := max floor s.stamp }

def raiseAll (floor : Nat) (xs : List Stamped) : List Stamped :=
  xs.map (raise floor)

/-- Every stamp raised to the floor and to all stamps before it. -/
def climb (floor : Nat) : List Stamped → List Stamped
  | [] => []
  | s :: rest => s.raise floor :: climb (max floor s.stamp) rest

def lastStamp (xs : List Stamped) : Nat :=
  (xs.getLast?.map stamp).getD 0

def topStamp (xs : List Stamped) : Nat :=
  xs.foldr (fun s top => max s.stamp top) 0

/-- Both sequences in the order of stamps, left first on equal stamps. -/
def interleave (xs ys : List Stamped) : List (Side × Stamped) :=
  List.merge (xs.map (Side.left, ·)) (ys.map (Side.right, ·)) fun a b => a.2.stamp ≤ b.2.stamp

def merge (xs ys : List Stamped) : List Stamped :=
  (interleave xs ys).map Prod.snd

/-- The n-th events of both sequences joined. -/
def zip (xs ys : List Stamped) : List Stamped :=
  List.zipWith join xs ys

/-- The earliest instant at which one of two sequences has ended, at its own end, and all its events
have found a partner. -/
def zipEnd (xs ys : List Stamped) (endLeft endRight : Nat) : Nat :=
  let lastPair := topStamp (zip xs ys)
  if xs.length < ys.length then max endLeft lastPair
  else if ys.length < xs.length then max endRight lastPair
  else min (max endLeft lastPair) (max endRight lastPair)

/-- Every event joined with the one before it, of which the first is `previous`. -/
def pairsAfter : Option Event → List Stamped → List Stamped
  | _, [] => []
  | none, s :: rest => pairsAfter (some s.event) rest
  | some e, s :: rest => ⟨Event.combined e s.event, s.stamp⟩ :: pairsAfter (some s.event) rest

/-- For every event the latest of both sides joined, once there are both. -/
def latestPairs (l : Latest) : List (Side × Stamped) → List Stamped
  | [] => []
  | (side, s) :: rest =>
    let now := l.replace side s.event
    (now.joined?.map (⟨·, s.stamp⟩)).toList ++ latestPairs now rest

/-- The stamps never decrease. -/
def Ascending (xs : List Stamped) : Prop :=
  xs.Pairwise fun s t => s.stamp ≤ t.stamp

/-- Nothing is stamped before `floor`. -/
def From (floor : Nat) (xs : List Stamped) : Prop :=
  ∀ s ∈ xs, floor ≤ s.stamp

/-- Nothing is stamped after `top`. -/
def UpTo (top : Nat) (xs : List Stamped) : Prop :=
  ∀ s ∈ xs, s.stamp ≤ top

/-! ### Bounds and order -/

@[simp] theorem ascending_nil : Ascending [] := List.Pairwise.nil

theorem ascending_cons {s : Stamped} {xs : List Stamped} :
    Ascending (s :: xs) ↔ From s.stamp xs ∧ Ascending xs :=
  List.pairwise_cons

theorem ascending_append {xs ys : List Stamped} :
    Ascending (xs ++ ys) ↔ Ascending xs ∧ Ascending ys ∧ ∀ s ∈ xs, From s.stamp ys :=
  List.pairwise_append

@[simp] theorem from_nil (floor : Nat) : From floor [] := by
  intro s hs
  cases hs

@[simp] theorem from_zero (xs : List Stamped) : From 0 xs := fun _ _ => Nat.zero_le _

@[simp] theorem from_cons {floor : Nat} {s : Stamped} {xs : List Stamped} :
    From floor (s :: xs) ↔ floor ≤ s.stamp ∧ From floor xs := by
  simp [From]

@[simp] theorem from_append {floor : Nat} {xs ys : List Stamped} :
    From floor (xs ++ ys) ↔ From floor xs ∧ From floor ys := by
  simp only [From, List.mem_append, or_imp, forall_and]

theorem From.mono {low high : Nat} {xs : List Stamped} (hxs : From high xs) (hle : low ≤ high) : From low xs :=
  fun s hs => hle.trans (hxs s hs)

@[simp] theorem upTo_nil (top : Nat) : UpTo top [] := by
  intro s hs
  cases hs

@[simp] theorem upTo_cons {top : Nat} {s : Stamped} {xs : List Stamped} :
    UpTo top (s :: xs) ↔ s.stamp ≤ top ∧ UpTo top xs := by
  simp [UpTo]

@[simp] theorem upTo_append {top : Nat} {xs ys : List Stamped} :
    UpTo top (xs ++ ys) ↔ UpTo top xs ∧ UpTo top ys := by
  simp only [UpTo, List.mem_append, or_imp, forall_and]

theorem UpTo.mono {low high : Nat} {xs : List Stamped} (hxs : UpTo low xs) (hle : low ≤ high) : UpTo high xs :=
  fun s hs => (hxs s hs).trans hle

theorem upTo_topStamp (xs : List Stamped) : UpTo (topStamp xs) xs := by
  induction xs with
  | nil => exact upTo_nil _
  | cons s rest ih => exact upTo_cons.2 ⟨Nat.le_max_left _ _, ih.mono (Nat.le_max_right _ _)⟩

@[simp] theorem topStamp_nil : topStamp [] = 0 := rfl

@[simp] theorem topStamp_cons (s : Stamped) (xs : List Stamped) :
    topStamp (s :: xs) = max s.stamp (topStamp xs) := rfl

theorem topStamp_le {top : Nat} {xs : List Stamped} (hxs : UpTo top xs) : topStamp xs ≤ top := by
  induction xs with
  | nil => exact Nat.zero_le _
  | cons s rest ih => exact Nat.max_le.2 ⟨(upTo_cons.1 hxs).1, ih (upTo_cons.1 hxs).2⟩

@[simp] theorem lastStamp_nil : lastStamp [] = 0 := rfl

@[simp] theorem lastStamp_singleton (s : Stamped) : lastStamp [s] = s.stamp := rfl

@[simp] theorem lastStamp_cons_cons (s t : Stamped) (xs : List Stamped) :
    lastStamp (s :: t :: xs) = lastStamp (t :: xs) := by
  simp [lastStamp]

theorem lastStamp_eq_topStamp {xs : List Stamped} (hxs : Ascending xs) : lastStamp xs = topStamp xs := by
  induction xs with
  | nil => rfl
  | cons s rest ih =>
    obtain ⟨hs, hrest⟩ := ascending_cons.1 hxs
    cases rest with
    | nil => simp
    | cons t rest =>
      have hle : s.stamp ≤ topStamp (t :: rest) := (hs t (by simp)).trans (Nat.le_max_left _ _)
      rw [lastStamp_cons_cons, ih hrest, topStamp_cons s, Nat.max_eq_right hle]

theorem topStamp_append (xs ys : List Stamped) : topStamp (xs ++ ys) = max (topStamp xs) (topStamp ys) := by
  induction xs with
  | nil => simp
  | cons s rest ih => rw [List.cons_append, topStamp_cons, ih, topStamp_cons, Nat.max_assoc]

/-! ### Raising -/

@[simp] theorem raise_event (floor : Nat) (s : Stamped) : (s.raise floor).event = s.event := rfl

@[simp] theorem raise_stamp (floor : Nat) (s : Stamped) : (s.raise floor).stamp = max floor s.stamp := rfl

theorem raise_eq_self {floor : Nat} {s : Stamped} (hle : floor ≤ s.stamp) : s.raise floor = s := by
  rw [raise, Nat.max_eq_right hle]

@[simp] theorem raiseAll_nil (floor : Nat) : raiseAll floor [] = [] := rfl

@[simp] theorem raiseAll_cons (floor : Nat) (s : Stamped) (xs : List Stamped) :
    raiseAll floor (s :: xs) = s.raise floor :: raiseAll floor xs := rfl

@[simp] theorem raiseAll_append (floor : Nat) (xs ys : List Stamped) :
    raiseAll floor (xs ++ ys) = raiseAll floor xs ++ raiseAll floor ys :=
  List.map_append

@[simp] theorem map_event_raiseAll (floor : Nat) (xs : List Stamped) :
    (raiseAll floor xs).map event = xs.map event := by
  simp [raiseAll]

theorem raiseAll_eq_self {floor : Nat} {xs : List Stamped} (hxs : From floor xs) : raiseAll floor xs = xs := by
  induction xs with
  | nil => rfl
  | cons s rest ih =>
    obtain ⟨hs, hrest⟩ := from_cons.1 hxs
    rw [raiseAll_cons, raise_eq_self hs, ih hrest]

@[simp] theorem raiseAll_zero (xs : List Stamped) : raiseAll 0 xs = xs :=
  raiseAll_eq_self (from_zero xs)

theorem raiseAll_raiseAll (high low : Nat) (xs : List Stamped) :
    raiseAll high (raiseAll low xs) = raiseAll (max high low) xs := by
  simp only [raiseAll, List.map_map]
  congr 1
  funext s
  simp [raise, Nat.max_assoc]

theorem raiseAll_max {floor low : Nat} {xs : List Stamped} (hxs : From low xs) :
    raiseAll (max floor low) xs = raiseAll floor xs := by
  rw [← raiseAll_raiseAll, raiseAll_eq_self hxs]

theorem from_raiseAll (floor : Nat) (xs : List Stamped) : From floor (raiseAll floor xs) := by
  intro s hs
  obtain ⟨t, -, rfl⟩ := List.mem_map.1 hs
  exact Nat.le_max_left _ _

theorem UpTo.raiseAll {top floor : Nat} {xs : List Stamped} (hxs : UpTo top xs) (hfloor : floor ≤ top) :
    UpTo top (raiseAll floor xs) := by
  intro s hs
  obtain ⟨t, ht, rfl⟩ := List.mem_map.1 hs
  exact Nat.max_le.2 ⟨hfloor, hxs t ht⟩

theorem Ascending.raiseAll {xs : List Stamped} (hxs : Ascending xs) (floor : Nat) :
    Ascending (raiseAll floor xs) :=
  List.Pairwise.map _ (fun _ _ hle => max_le_max le_rfl hle) hxs

/-! ### Climbing -/

theorem from_climb (floor : Nat) (xs : List Stamped) : From floor (climb floor xs) := by
  induction xs generalizing floor with
  | nil => exact from_nil _
  | cons s rest ih => exact from_cons.2 ⟨Nat.le_max_left _ _, (ih _).mono (Nat.le_max_left _ _)⟩

theorem ascending_climb (floor : Nat) (xs : List Stamped) : Ascending (climb floor xs) := by
  induction xs generalizing floor with
  | nil => exact ascending_nil
  | cons s rest ih => exact ascending_cons.2 ⟨from_climb _ _, ih _⟩

theorem climb_cons_of_le {floor : Nat} {s : Stamped} (rest : List Stamped) (hle : floor ≤ s.stamp) :
    climb floor (s :: rest) = climb 0 (s :: rest) := by
  simp [climb, raise, Nat.max_eq_right hle]

theorem topStamp_climb (floor : Nat) {xs : List Stamped} (hxs : xs ≠ []) :
    topStamp (climb floor xs) = max floor (topStamp xs) := by
  induction xs generalizing floor with
  | nil => exact absurd rfl hxs
  | cons s rest ih =>
    rw [climb, topStamp_cons, raise_stamp, topStamp_cons]
    cases rest with
    | nil => simp [climb]
    | cons t rest =>
      rw [ih _ (List.cons_ne_nil _ _)]
      omega

theorem lastStamp_climb_zero (xs : List Stamped) : lastStamp (climb 0 xs) = topStamp xs := by
  rw [lastStamp_eq_topStamp (ascending_climb 0 xs)]
  cases xs with
  | nil => rfl
  | cons s rest => rw [topStamp_climb 0 (List.cons_ne_nil _ _), Nat.max_eq_right (Nat.zero_le _)]

/-! ### Interleaving -/

theorem mem_interleave {x : Side × Stamped} {xs ys : List Stamped} :
    x ∈ interleave xs ys ↔ x.1 = .left ∧ x.2 ∈ xs ∨ x.1 = .right ∧ x.2 ∈ ys := by
  obtain ⟨side, s⟩ := x
  simp only [interleave, List.mem_merge, List.mem_map, Prod.mk.injEq]
  cases side <;> simp

@[simp] theorem interleave_nil_nil : interleave [] [] = [] := by
  simp [interleave]

theorem interleave_nil_left (ys : List Stamped) : interleave [] ys = ys.map (Side.right, ·) := by
  simp [interleave]

theorem interleave_nil_right (xs : List Stamped) : interleave xs [] = xs.map (Side.left, ·) := by
  simp [interleave]

theorem interleave_cons_left {s : Stamped} {xs ys : List Stamped} (hys : From s.stamp ys) :
    interleave (s :: xs) ys = (.left, s) :: interleave xs ys := by
  cases ys with
  | nil => simp [interleave]
  | cons t rest =>
    have hle := (from_cons.1 hys).1
    simp [interleave, hle]

theorem interleave_cons_right {t : Stamped} {xs ys : List Stamped} (hxs : From (t.stamp + 1) xs) :
    interleave xs (t :: ys) = (.right, t) :: interleave xs ys := by
  cases xs with
  | nil => simp [interleave]
  | cons s rest =>
    have hlt : ¬ s.stamp ≤ t.stamp := Nat.not_le.2 (from_cons.1 hxs).1
    simp [interleave, hlt]

theorem ascending_interleave {xs ys : List Stamped} (hxs : Ascending xs) (hys : Ascending ys) :
    (interleave xs ys).Pairwise fun a b => a.2.stamp ≤ b.2.stamp := by
  have hmerged := @List.pairwise_merge _ (fun a b : Side × Stamped => decide (a.2.stamp ≤ b.2.stamp))
    (fun a b c hab hbc => by simp only [decide_eq_true_eq] at hab hbc ⊢; exact hab.trans hbc)
    (fun a b => by simp only [Bool.or_eq_true, decide_eq_true_eq]; exact Nat.le_total _ _)
    (xs.map (Side.left, ·)) (ys.map (Side.right, ·))
    (List.Pairwise.map _ (fun _ _ hle => decide_eq_true hle) hxs)
    (List.Pairwise.map _ (fun _ _ hle => decide_eq_true hle) hys)
  exact hmerged.imp fun hle => of_decide_eq_true hle

theorem mem_merge {s : Stamped} {xs ys : List Stamped} : s ∈ merge xs ys ↔ s ∈ xs ∨ s ∈ ys := by
  simp only [merge, List.mem_map, Prod.exists, exists_eq_right, mem_interleave]
  constructor
  · rintro ⟨side, ⟨-, hs⟩ | ⟨-, hs⟩⟩
    · exact .inl hs
    · exact .inr hs
  · rintro (hs | hs)
    · exact ⟨.left, .inl ⟨rfl, hs⟩⟩
    · exact ⟨.right, .inr ⟨rfl, hs⟩⟩

theorem ascending_merge {xs ys : List Stamped} (hxs : Ascending xs) (hys : Ascending ys) :
    Ascending (merge xs ys) :=
  List.Pairwise.map _ (fun _ _ hle => hle) (ascending_interleave hxs hys)

theorem from_merge {floor : Nat} {xs ys : List Stamped} :
    From floor (merge xs ys) ↔ From floor xs ∧ From floor ys := by
  simp only [From, mem_merge, or_imp, forall_and]

theorem upTo_merge {top : Nat} {xs ys : List Stamped} : UpTo top (merge xs ys) ↔ UpTo top xs ∧ UpTo top ys := by
  simp only [UpTo, mem_merge, or_imp, forall_and]

@[simp] theorem merge_nil_left (ys : List Stamped) : merge [] ys = ys := by
  simp [merge, interleave, Function.comp_def]

@[simp] theorem merge_nil_right (xs : List Stamped) : merge xs [] = xs := by
  simp [merge, interleave, Function.comp_def]

theorem merge_cons_left {s : Stamped} {xs ys : List Stamped} (hys : From s.stamp ys) :
    merge (s :: xs) ys = s :: merge xs ys := by
  rw [merge, interleave_cons_left hys, List.map_cons, ← merge]

theorem merge_cons_right {t : Stamped} {xs ys : List Stamped} (hxs : From (t.stamp + 1) xs) :
    merge xs (t :: ys) = t :: merge xs ys := by
  rw [merge, interleave_cons_right hxs, List.map_cons, ← merge]

theorem merge_cons_cons (s t : Stamped) (xs ys : List Stamped) : merge (s :: xs) (t :: ys)
    = if s.stamp ≤ t.stamp then s :: merge xs (t :: ys) else t :: merge (s :: xs) ys := by
  by_cases hle : s.stamp ≤ t.stamp <;> simp [merge, interleave, hle]

theorem length_merge (xs ys : List Stamped) : (merge xs ys).length = xs.length + ys.length := by
  simp [merge, interleave]

/-- Of two sequences in two parts the first parts can be merged first, if no second part reaches back
into the first part of the other. -/
theorem merge_append_append {xs ys left right : List Stamped} (hright : ∀ s ∈ xs, From s.stamp right)
    (hleft : ∀ t ∈ ys, From (t.stamp + 1) left) :
    merge (xs ++ left) (ys ++ right) = merge xs ys ++ merge left right := by
  induction xs generalizing ys with
  | nil =>
    rw [List.nil_append, merge_nil_left]
    induction ys with
    | nil => rfl
    | cons t ys ih =>
      rw [List.cons_append, merge_cons_right (hleft t List.mem_cons_self),
        ih fun u hu => hleft u (List.mem_cons_of_mem _ hu), List.cons_append]
  | cons s xs ihxs =>
    have hrest : ∀ u ∈ xs, From u.stamp right := fun u hu => hright u (List.mem_cons_of_mem _ hu)
    induction ys with
    | nil =>
      have hnil := ihxs hrest hleft
      rw [List.nil_append, merge_nil_right] at hnil ⊢
      rw [List.cons_append, merge_cons_left (hright s List.mem_cons_self), hnil, List.cons_append]
    | cons t ys ihys =>
      have hmore : ∀ u ∈ ys, From (u.stamp + 1) left := fun u hu => hleft u (List.mem_cons_of_mem _ hu)
      have hlater := ihxs hrest hleft
      have hlater' := ihys hmore
      simp only [List.cons_append] at hlater hlater' ⊢
      rw [merge_cons_cons, merge_cons_cons, hlater, hlater']
      split <;> rfl

/-- Nothing is interleaved where all of the left comes first anyway. -/
theorem merge_eq_append {xs ys : List Stamped} (hys : ∀ s ∈ xs, From s.stamp ys) : merge xs ys = xs ++ ys := by
  have hparts : merge (xs ++ []) ([] ++ ys) = merge xs [] ++ merge [] ys :=
    merge_append_append hys fun _ ht => absurd ht List.not_mem_nil
  simpa using hparts

theorem merge_concat_left {xs ys : List Stamped} {s : Stamped} (hys : ∀ t ∈ ys, t.stamp < s.stamp) :
    merge (xs ++ [s]) ys = merge xs ys ++ [s] := by
  have hparts : merge (xs ++ [s]) (ys ++ []) = merge xs ys ++ merge [s] [] :=
    merge_append_append (fun _ _ => from_nil _) fun t ht => from_cons.2 ⟨hys t ht, from_nil _⟩
  simpa using hparts

theorem merge_concat_right {xs ys : List Stamped} {t : Stamped} (hxs : UpTo t.stamp xs) :
    merge xs (ys ++ [t]) = merge xs ys ++ [t] := by
  have hparts : merge (xs ++ []) (ys ++ [t]) = merge xs ys ++ merge [] [t] :=
    merge_append_append (fun s hs => from_cons.2 ⟨hxs s hs, from_nil _⟩) fun _ _ => from_nil _
  simpa using hparts

/-! ### Pairing by position -/

theorem exists_of_mem_zip {u : Stamped} {xs ys : List Stamped} (hu : u ∈ zip xs ys) :
    ∃ s ∈ xs, ∃ t ∈ ys, u = s.join t := by
  induction xs generalizing ys with
  | nil => cases hu
  | cons s xs ih =>
    cases ys with
    | nil => cases hu
    | cons t ys =>
      rcases List.mem_cons.1 hu with rfl | hu
      · exact ⟨s, List.mem_cons_self, t, List.mem_cons_self, rfl⟩
      · obtain ⟨s', hs', t', ht', rfl⟩ := ih hu
        exact ⟨s', List.mem_cons_of_mem _ hs', t', List.mem_cons_of_mem _ ht', rfl⟩

theorem from_zip_left {floor : Nat} {xs : List Stamped} (ys : List Stamped) (hxs : From floor xs) :
    From floor (zip xs ys) := by
  intro u hu
  obtain ⟨s, hs, t, -, rfl⟩ := exists_of_mem_zip hu
  exact (hxs s hs).trans (Nat.le_max_left _ _)

theorem from_zip_right {floor : Nat} (xs : List Stamped) {ys : List Stamped} (hys : From floor ys) :
    From floor (zip xs ys) := by
  intro u hu
  obtain ⟨s, -, t, ht, rfl⟩ := exists_of_mem_zip hu
  exact (hys t ht).trans (Nat.le_max_right _ _)

theorem UpTo.zip {top : Nat} {xs ys : List Stamped} (hxs : UpTo top xs) (hys : UpTo top ys) :
    UpTo top (zip xs ys) := by
  intro u hu
  obtain ⟨s, hs, t, ht, rfl⟩ := exists_of_mem_zip hu
  exact Nat.max_le.2 ⟨hxs s hs, hys t ht⟩

theorem ascending_zip {xs ys : List Stamped} (hxs : Ascending xs) (hys : Ascending ys) :
    Ascending (zip xs ys) := by
  induction xs generalizing ys with
  | nil => exact ascending_nil
  | cons s xs ih =>
    cases ys with
    | nil => exact ascending_nil
    | cons t ys =>
      obtain ⟨hs, hxs⟩ := ascending_cons.1 hxs
      obtain ⟨ht, hys⟩ := ascending_cons.1 hys
      refine ascending_cons.2 ⟨?_, ih hxs hys⟩
      intro u hu
      exact Nat.max_le.2 ⟨from_zip_left ys hs u hu, from_zip_right xs ht u hu⟩

theorem zip_append_append (xs ys left right : List Stamped) :
    zip (xs ++ left) (ys ++ right) = zip xs ys ++
      zip (xs.drop (min xs.length ys.length) ++ left) (ys.drop (min xs.length ys.length) ++ right) := by
  induction xs generalizing ys with
  | nil => simp [zip]
  | cons s xs ih =>
    cases ys with
    | nil => simp [zip]
    | cons t ys =>
      have hrest := ih ys
      simp only [zip, List.cons_append, List.zipWith_cons_cons, List.length_cons] at hrest ⊢
      rw [Nat.add_min_add_right, List.drop_succ_cons, List.drop_succ_cons, hrest]

/-! ### When pairing ends -/

theorem lt_topStamp_of_mem {low : Nat} {s : Stamped} {xs : List Stamped} (hs : s ∈ xs) (hlow : low < s.stamp) :
    low < topStamp xs :=
  hlow.trans_le (upTo_topStamp xs s hs)

theorem lt_zipEnd_left {low endLeft : Nat} {xs ys : List Stamped} (endRight : Nat) (hend : low < endLeft)
    (hxs : From (low + 1) xs) (hys : ys ≠ []) : low < zipEnd xs ys endLeft endRight := by
  have hpair : xs ≠ [] → low < topStamp (zip xs ys) := by
    intro hne
    obtain ⟨s, xs, rfl⟩ := List.exists_cons_of_ne_nil hne
    obtain ⟨t, ys, rfl⟩ := List.exists_cons_of_ne_nil hys
    exact lt_topStamp_of_mem (s := s.join t) List.mem_cons_self
      ((from_cons.1 hxs).1.trans (Nat.le_max_left _ _))
  have hlength : ¬ xs.length < ys.length → xs ≠ [] := by
    rintro hle rfl
    exact hle (List.length_pos_of_ne_nil hys)
  rw [zipEnd]
  split
  · omega
  · next hle =>
    have hlast := hpair (hlength hle)
    split <;> omega

theorem lt_zipEnd_right {low endRight : Nat} {xs ys : List Stamped} (endLeft : Nat) (hend : low < endRight)
    (hys : From (low + 1) ys) (hxs : xs ≠ []) : low < zipEnd xs ys endLeft endRight := by
  have hpair : ys ≠ [] → low < topStamp (zip xs ys) := by
    intro hne
    obtain ⟨s, xs, rfl⟩ := List.exists_cons_of_ne_nil hxs
    obtain ⟨t, ys, rfl⟩ := List.exists_cons_of_ne_nil hne
    exact lt_topStamp_of_mem (s := s.join t) List.mem_cons_self
      ((from_cons.1 hys).1.trans (Nat.le_max_right _ _))
  have hlength : ¬ ys.length < xs.length → ys ≠ [] := by
    rintro hle rfl
    exact hle (List.length_pos_of_ne_nil hxs)
  rw [zipEnd]
  split
  · next hlt =>
    have hlast := hpair (hlength (Nat.lt_asymm hlt))
    omega
  · split
    · omega
    · next hle =>
      have hlast := hpair (hlength hle)
      omega

theorem lt_zipEnd {low endLeft endRight : Nat} (xs ys : List Stamped) (hleft : low < endLeft)
    (hright : low < endRight) :
    low < zipEnd xs ys endLeft endRight := by
  rw [zipEnd]
  split
  · omega
  · split <;> omega

theorem zipEnd_nil_left (ys : List Stamped) (endRight : Nat) : zipEnd [] ys 0 endRight = 0 := by
  cases ys <;> simp [zipEnd, zip]

theorem zipEnd_nil_right (xs : List Stamped) (endLeft : Nat) : zipEnd xs [] endLeft 0 = 0 := by
  cases xs <;> simp [zipEnd, zip]

theorem max_zipEnd_congr {low endLeft endLeft' endRight endRight' : Nat} (xs ys : List Stamped)
    (hleft : max low endLeft' = max low endLeft) (hright : max low endRight' = max low endRight) :
    max low (zipEnd xs ys endLeft' endRight') = max low (zipEnd xs ys endLeft endRight) := by
  simp only [zipEnd]
  split
  · omega
  · split <;> omega

/-- Pairs that formed by `low` can be taken away. -/
theorem max_zipEnd_drop {low : Nat} {xs ys : List Stamped} (left right : List Stamped) (endLeft endRight : Nat)
    (hxs : UpTo low xs) (hys : UpTo low ys) :
    max low (zipEnd (xs.drop (min xs.length ys.length) ++ left)
        (ys.drop (min xs.length ys.length) ++ right) endLeft endRight)
      = max low (zipEnd (xs ++ left) (ys ++ right) endLeft endRight) := by
  have hpairs := topStamp_le (hxs.zip hys)
  have hshorter : ∀ n m k l : Nat, n - min n m + k < m - min n m + l ↔ n + k < m + l := by
    intro n m k l
    omega
  have hlonger : ∀ n m k l : Nat, m - min n m + l < n - min n m + k ↔ m + l < n + k := by
    intro n m k l
    omega
  simp only [zipEnd]
  rw [zip_append_append xs ys left right, topStamp_append]
  simp only [List.length_append, List.length_drop, hshorter, hlonger]
  split
  · omega
  · split <;> omega

/-! ### Pairing with the one before and with the latest -/

theorem From.pairsAfter {floor : Nat} {previous : Option Event} {xs : List Stamped} (hxs : From floor xs) :
    From floor (pairsAfter previous xs) := by
  induction xs generalizing previous with
  | nil => cases previous <;> exact from_nil _
  | cons s rest ih =>
    obtain ⟨hs, hrest⟩ := from_cons.1 hxs
    cases previous with
    | none => exact ih hrest
    | some e => exact from_cons.2 ⟨hs, ih hrest⟩

theorem UpTo.pairsAfter {top : Nat} {previous : Option Event} {xs : List Stamped} (hxs : UpTo top xs) :
    UpTo top (pairsAfter previous xs) := by
  induction xs generalizing previous with
  | nil => cases previous <;> exact upTo_nil _
  | cons s rest ih =>
    obtain ⟨hs, hrest⟩ := upTo_cons.1 hxs
    cases previous with
    | none => exact ih hrest
    | some e => exact upTo_cons.2 ⟨hs, ih hrest⟩

theorem ascending_pairsAfter {previous : Option Event} {xs : List Stamped} (hxs : Ascending xs) :
    Ascending (pairsAfter previous xs) := by
  induction xs generalizing previous with
  | nil => cases previous <;> exact ascending_nil
  | cons s rest ih =>
    obtain ⟨hs, hrest⟩ := ascending_cons.1 hxs
    cases previous with
    | none => exact ih hrest
    | some e => exact ascending_cons.2 ⟨hs.pairsAfter, ih hrest⟩

theorem exists_of_mem_latestPairs {l : Latest} {u : Stamped} {xs : List (Side × Stamped)}
    (hu : u ∈ latestPairs l xs) :
    ∃ x ∈ xs, u.stamp = x.2.stamp := by
  induction xs generalizing l with
  | nil => cases hu
  | cons x rest ih =>
    obtain ⟨side, s⟩ := x
    rcases List.mem_append.1 hu with hu | hu
    · obtain ⟨e, -, rfl⟩ := by simpa using hu
      exact ⟨_, List.mem_cons_self, rfl⟩
    · obtain ⟨x, hx, heq⟩ := ih hu
      exact ⟨x, List.mem_cons_of_mem _ hx, heq⟩

theorem ascending_latestPairs {l : Latest} {xs : List (Side × Stamped)}
    (hxs : xs.Pairwise fun a b => a.2.stamp ≤ b.2.stamp) : Ascending (latestPairs l xs) := by
  induction xs generalizing l with
  | nil => exact ascending_nil
  | cons x rest ih =>
    obtain ⟨side, s⟩ := x
    obtain ⟨hs, hrest⟩ := List.pairwise_cons.1 hxs
    rw [latestPairs, ascending_append]
    refine ⟨?_, ih hrest, ?_⟩
    · cases (l.replace side s.event).joined? <;> simp [Ascending]
    · intro u hu v hv
      obtain ⟨e, -, rfl⟩ := by simpa using hu
      obtain ⟨x, hx, heq⟩ := exists_of_mem_latestPairs hv
      exact heq ▸ hs x hx

end Stamped

end TimedStreams

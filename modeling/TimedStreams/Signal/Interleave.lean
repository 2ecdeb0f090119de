import TimedStreams.Signal.Operand

/-!
# Two operands in the order of their stamps

`merge` and `combineLatest` read their two operands as one sequence, ordered by stamp and left first on equal stamps, whatever the order of arrival. An event of the left is released once the right can deliver nothing before its stamp; an event of the right is released once the left can deliver nothing up to and including its stamp. Before each release, and when no more can be released, the earlier of both horizons is a promise that may be passed on.
-/

namespace TimedStreams

/-- What reading two operands in order gives rise to. -/
inductive Released where
  | promise (stamp : Nat)
  | event (side : Side) (s : Stamped)
  deriving DecidableEq, Repr

namespace Operands

def kept (p : Operands) : Nat :=
  p.left.pending.length + p.right.pending.length

/-- The first event of the left, if the right can deliver nothing before it, and the operands without it. -/
def nextLeft? (p : Operands) : Option (Stamped × Operands) :=
  match p.left.pending with
  | [] => none
  | s :: rest =>
    if (Horizon.known s.stamp).notAfter p.right.horizon then some (s, { p with left := { p.left with pending := rest } })
    else none

/-- The first event of the right, if the left can deliver nothing up to and including its stamp, and the operands without it. -/
def nextRight? (p : Operands) : Option (Stamped × Operands) :=
  match p.right.pending with
  | [] => none
  | s :: rest =>
    if p.left.horizon.notAfter (.known s.stamp) then none
    else some (s, { p with right := { p.right with pending := rest } })

def next? (p : Operands) : Option (Side × Stamped × Operands) :=
  (p.nextLeft?.map (Side.left, ·)).or (p.nextRight?.map (Side.right, ·))

theorem kept_lt_of_nextLeft? {p q : Operands} {s : Stamped} (hnext : p.nextLeft? = some (s, q)) : q.kept < p.kept := by
  unfold nextLeft? at hnext
  split at hnext
  · exact absurd hnext (by simp)
  · split at hnext <;> simp_all [kept, Prod.ext_iff]
    simp [← hnext.2]

theorem kept_lt_of_nextRight? {p q : Operands} {s : Stamped} (hnext : p.nextRight? = some (s, q)) : q.kept < p.kept := by
  unfold nextRight? at hnext
  split at hnext
  · exact absurd hnext (by simp)
  · split at hnext <;> simp_all [kept, Prod.ext_iff]
    simp [← hnext.2]

theorem kept_lt_of_next? {p q : Operands} {side : Side} {s : Stamped} (hnext : p.next? = some (side, s, q)) :
    q.kept < p.kept := by
  simp only [next?, Option.or_eq_some_iff, Option.map_eq_some_iff] at hnext
  rcases hnext with ⟨_, hleft, heq⟩ | ⟨-, _, hright, heq⟩ <;> cases heq
  · exact kept_lt_of_nextLeft? hleft
  · exact kept_lt_of_nextRight? hright

/-- The promise that the operands allow: nothing still to be released is stamped before it. -/
def promise (p : Operands) : List Released :=
  (p.left.horizon.earlier p.right.horizon).stamp?.toList.map .promise

def finished (p : Operands) : Bool :=
  p.left.exhausted && p.right.exhausted

/-- Releases all that can be released, each release and the last state preceded by its promise. -/
def drain (p : Operands) : List Released × Operands :=
  match _next : p.next? with
  | none => (p.promise, p)
  | some (side, s, q) =>
    let (released, last) := q.drain
    (p.promise ++ .event side s :: released, last)
termination_by p.kept
decreasing_by exact kept_lt_of_next? ‹_›

end Operands

end TimedStreams

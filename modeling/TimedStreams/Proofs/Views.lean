import TimedStreams.Proofs.Horizons

/-!
# Merging what was sent

An idle merge has sent the settled beginning of what its producers have sent, and has promised the
earlier of both horizons. Both depend on little of a producer: the events that it has sent, and how
far it has got when all of them are used. That is its `View`, and merging is an operation on views
(`Task.Serves.view_eq`): of each side it keeps the events that the other side has reached, or passed.

What is kept of one side is decided event by event, by how far the other sides have got, and so the
operation is associative (`View.merge_assoc`).
-/

namespace TimedStreams

open Stamped Update

namespace Horizon

variable {h k l m : Horizon}

theorem earlier_notAfter : (h.earlier k).notAfter l = true ↔ h.notAfter l = true ∨ k.notAfter l = true := by
  rw [earlier]
  split
  · next hle => exact ⟨.inl, fun hl => hl.elim id (notAfter_trans hle)⟩
  · next hlt => exact ⟨.inr, fun hl => hl.elim (notAfter_trans (notAfter_of_not hlt)) id⟩

theorem notAfter_antisymm (hhk : h.notAfter k = true) (hkh : k.notAfter h = true) : h = k := by
  cases h <;> cases k <;> simp_all only [notAfter, decide_eq_true_eq, reduceCtorEq]
  rw [Nat.le_antisymm hhk hkh]

theorem earlier_eq_left (hle : h.notAfter k = true) : h.earlier k = h :=
  if_pos hle

theorem earlier_eq_right (hle : k.notAfter h = true) : h.earlier k = k :=
  notAfter_antisymm (earlier_notAfter_right h k) (notAfter_earlier.2 ⟨hle, notAfter_refl k⟩)

theorem earlier_assoc (h k l : Horizon) : (h.earlier k).earlier l = h.earlier (k.earlier l) := by
  have hsame : ∀ m : Horizon, m.notAfter ((h.earlier k).earlier l) = true ↔ m.notAfter (h.earlier (k.earlier l)) = true := by
    intro m
    rw [notAfter_earlier, notAfter_earlier, notAfter_earlier, notAfter_earlier, and_assoc]
  exact notAfter_antisymm ((hsame _).1 (notAfter_refl _)) ((hsame _).2 (notAfter_refl _))

end Horizon

/-! ### Sequences -/

namespace Stamped

variable {xs ys : List Stamped}

theorem interleave_ties (hxs : Ascending xs) (hys : Ascending ys) :
    (interleave xs ys).Pairwise fun a b => a.1 = .right → b.1 = .left → a.2.stamp < b.2.stamp := by
  induction xs generalizing ys with
  | nil =>
    rw [interleave_nil_left, List.pairwise_map]
    exact List.pairwise_of_forall fun _ _ _ hleft => by cases hleft
  | cons s xs ihxs =>
    obtain ⟨hs, hxs'⟩ := ascending_cons.1 hxs
    induction ys with
    | nil =>
      rw [interleave_nil_right, List.pairwise_map]
      exact List.pairwise_of_forall fun _ _ hright => by cases hright
    | cons t ys ihys =>
      rw [interleave_cons_cons]
      split
      · exact List.pairwise_cons.2 ⟨fun _ _ hright => (nomatch hright), ihxs hxs' hys⟩
      · next hlt =>
        refine List.pairwise_cons.2 ⟨?_, ihys (ascending_cons.1 hys).2⟩
        intro x hx _ hside
        have hmem : x.2 ∈ s :: xs := by
          rcases mem_interleave.1 hx with ⟨-, hx⟩ | ⟨hright, -⟩
          · exact hx
          · exact absurd (hside.symm.trans hright) (by decide)
        have hfrom : From s.stamp (s :: xs) := from_cons.2 ⟨Nat.le_refl _, hs⟩
        exact Nat.lt_of_lt_of_le (Nat.lt_of_not_le hlt) (hfrom _ hmem)

theorem filter_interleave (hxs : Ascending xs) (hys : Ascending ys) (keep : Side × Stamped → Bool) :
    (interleave xs ys).filter keep
      = interleave (xs.filter fun s => keep (.left, s)) (ys.filter fun t => keep (.right, t)) := by
  induction xs generalizing ys with
  | nil =>
    rw [interleave_nil_left, List.filter_nil, interleave_nil_left, List.filter_map]
    rfl
  | cons s xs ihxs =>
    obtain ⟨hs, hxs'⟩ := ascending_cons.1 hxs
    induction ys with
    | nil =>
      rw [interleave_nil_right, List.filter_nil, interleave_nil_right, List.filter_map]
      rfl
    | cons t ys ihys =>
      obtain ⟨ht, hys'⟩ := ascending_cons.1 hys
      rw [interleave_cons_cons]
      split
      · next hle =>
        rw [List.filter_cons, ihxs hxs' hys]
        split
        · next hkeep =>
          have hall : From s.stamp (t :: ys) := from_cons.2 ⟨hle, ht.mono hle⟩
          have hlater : From s.stamp ((t :: ys).filter fun u => keep (.right, u)) :=
            fun u hu => hall u (List.mem_of_mem_filter hu)
          rw [List.filter_cons_of_pos (l := xs) hkeep, interleave_cons_left hlater]
        · next hdrop => rw [List.filter_cons_of_neg (l := xs) hdrop]
      · next hlt =>
        rw [List.filter_cons, ihys hys']
        split
        · next hkeep =>
          have hle : t.stamp + 1 ≤ s.stamp := Nat.lt_of_not_le hlt
          have hall : From (t.stamp + 1) (s :: xs) := from_cons.2 ⟨hle, hs.mono hle⟩
          have hlater : From (t.stamp + 1) ((s :: xs).filter fun u => keep (.left, u)) :=
            fun u hu => hall u (List.mem_of_mem_filter hu)
          rw [List.filter_cons_of_pos (l := ys) hkeep, interleave_cons_right hlater]
        · next hdrop => rw [List.filter_cons_of_neg (l := ys) hdrop]

theorem filter_merge (hxs : Ascending xs) (hys : Ascending ys) (keep : Stamped → Bool) :
    (merge xs ys).filter keep = merge (xs.filter keep) (ys.filter keep) := by
  rw [merge, List.filter_map, filter_interleave hxs hys]
  rfl

theorem merge_assoc (xs ys zs : List Stamped) : merge (merge xs ys) zs = merge xs (merge ys zs) := by
  induction xs generalizing ys zs with
  | nil => rw [merge_nil_left, merge_nil_left]
  | cons x xs ihx =>
    induction ys generalizing zs with
    | nil => rw [merge_nil_right, merge_nil_left]
    | cons y ys ihy =>
      induction zs with
      | nil => rw [merge_nil_right, merge_nil_right]
      | cons z zs ihz =>
        -- The first of the three heads that is taken is the same for both, as the order is transitive.
        by_cases hxy : x.stamp ≤ y.stamp
        · by_cases hyz : y.stamp ≤ z.stamp
          · rw [merge_cons_cons x y, if_pos hxy, merge_cons_cons x z, if_pos (hxy.trans hyz), ihx,
              merge_cons_cons y z, if_pos hyz, merge_cons_cons x y, if_pos hxy]
          · by_cases hxz : x.stamp ≤ z.stamp
            · rw [merge_cons_cons x y, if_pos hxy, merge_cons_cons x z, if_pos hxz, ihx,
                merge_cons_cons y z, if_neg hyz, merge_cons_cons x z, if_pos hxz]
            · rw [merge_cons_cons y z, if_neg hyz, merge_cons_cons x z, if_neg hxz, ← ihz,
                merge_cons_cons x y, if_pos hxy, merge_cons_cons x z, if_neg hxz]
        · by_cases hyz : y.stamp ≤ z.stamp
          · rw [merge_cons_cons x y, if_neg hxy, merge_cons_cons y z, if_pos hyz, ihy,
              merge_cons_cons y z, if_pos hyz, merge_cons_cons x y, if_neg hxy]
          · have hxz : ¬ x.stamp ≤ z.stamp := by omega
            rw [merge_cons_cons y z, if_neg hyz, merge_cons_cons x z, if_neg hxz, ← ihz,
              merge_cons_cons x y, if_neg hxy, merge_cons_cons y z, if_neg hyz]

theorem takeWhile_eq_filter {α : Type} {test : α → Bool} {xs : List α}
    (hxs : xs.Pairwise fun a b => test b = true → test a = true) : xs.takeWhile test = xs.filter test := by
  induction xs with
  | nil => rfl
  | cons x xs ih =>
    obtain ⟨hx, hxs'⟩ := List.pairwise_cons.1 hxs
    by_cases htest : test x = true
    · rw [List.takeWhile_cons_of_pos htest, List.filter_cons_of_pos htest, ih hxs']
    · rw [List.takeWhile_cons_of_neg htest, List.filter_cons_of_neg htest]
      exact (List.filter_eq_nil_iff.2 fun y hy hpass => htest (hx y hy hpass)).symm

end Stamped

/-! ### Views -/

/-- What a merge sees of a producer: the events that were sent, and how far it has got beyond them. -/
@[ext]
structure View where
  events : List Stamped := []
  level : Horizon := .done

namespace View

variable {v w : View}

/-- What merging two producers gives: the left as far as the right has reached, and the right as far as the
left has passed. -/
def merge (v w : View) : View where
  events := Stamped.merge (v.events.filter fun s => (Horizon.known s.stamp).notAfter w.level)
    (w.events.filter fun t => !v.level.notAfter (.known t.stamp))
  level := v.level.earlier w.level

theorem ascending_merge (hv : Ascending v.events) (hw : Ascending w.events) : Ascending (v.merge w).events :=
  Stamped.ascending_merge (hv.filter _) (hw.filter _)

theorem merge_assoc {u v w : View} (hu : Ascending u.events) (hv : Ascending v.events) (hw : Ascending w.events) :
    (u.merge v).merge w = u.merge (v.merge w) := by
  have hreaches : ∀ (s : Stamped) (h k : Horizon), (Horizon.known s.stamp).notAfter (h.earlier k)
      = ((Horizon.known s.stamp).notAfter k && (Horizon.known s.stamp).notAfter h) := by
    intro s h k
    rw [Bool.eq_iff_iff, Horizon.notAfter_earlier, Bool.and_eq_true_iff, and_comm]
  have hpasses : ∀ (s : Stamped) (h k : Horizon), (!(h.earlier k).notAfter (.known s.stamp))
      = (!h.notAfter (.known s.stamp) && !k.notAfter (.known s.stamp)) := by
    intro s h k
    rw [← Bool.not_or, Bool.not_inj_iff, Bool.eq_iff_iff, Horizon.earlier_notAfter, Bool.or_eq_true_iff]
  simp only [merge, View.mk.injEq]
  refine ⟨?_, Horizon.earlier_assoc _ _ _⟩
  rw [filter_merge (hu.filter _) (hv.filter _), filter_merge (hv.filter _) (hw.filter _), Stamped.merge_assoc]
  simp only [List.filter_filter, hreaches, hpasses]
  exact congrArg₂ _ rfl (congrArg₂ _ (List.filter_congr fun s _ => Bool.and_comm _ _) rfl)

theorem merge_of_done (hv : v.level = .done) (hw : w.level = .done) :
    v.merge w = ⟨Stamped.merge v.events w.events, .done⟩ := by
  have hreached : (v.events.filter fun s => (Horizon.known s.stamp).notAfter w.level) = v.events :=
    List.filter_eq_self.2 fun s _ => by rw [hw, Horizon.notAfter_done]
  have hpassed : (w.events.filter fun t => !v.level.notAfter (.known t.stamp)) = w.events :=
    List.filter_eq_self.2 fun t _ => by rw [hv]; rfl
  rw [merge, hreached, hpassed, hv, hw]
  rfl

end View

namespace Producer

variable {producer first second : Producer} {top top' : Option Nat}

def view (producer : Producer) : View where
  events := producer.events
  level := producer.horizonAfter producer.events.length

theorem level_view (producer : Producer) : producer.view.level
    = if producer.isOpen then (latest? producer.channel.queue).elim .unknown .known else .done := by
  rw [view, horizonAfter, List.drop_length]
  cases producer.isOpen <;> rfl

theorem level_eq_done : producer.view.level = .done ↔ producer.isOpen = false := by
  rw [level_view]
  cases producer.isOpen with
  | false => exact iff_of_true rfl rfl
  | true => cases hlatest : latest? producer.channel.queue <;> simp

theorem reaches_eq (hsent : Rises none producer.channel.queue top) (stamp : Nat) :
    producer.reaches stamp = (Horizon.known stamp).notAfter producer.view.level := by
  rw [reaches, level_view, hsent.latest?_eq]
  cases producer.isOpen with
  | false => exact (Horizon.notAfter_done _).symm
  | true =>
    rw [Bool.not_true, Bool.false_or, if_pos rfl, Bool.eq_iff_iff, List.any_eq_true]
    constructor
    · rintro ⟨u, hu, hle⟩
      obtain ⟨last, rfl, hlast⟩ := hsent.exists_top hu
      exact decide_eq_true ((of_decide_eq_true hle).trans hlast)
    · intro hle
      cases top with
      | none => cases hle
      | some last =>
        obtain ⟨u, hu, rfl⟩ := hsent.mem_of_top
        exact ⟨u, hu, hle⟩

theorem passes_eq (hsent : Rises none producer.channel.queue top) (stamp : Nat) :
    producer.passes stamp = !producer.view.level.notAfter (.known stamp) := by
  rw [passes, level_view, hsent.latest?_eq]
  cases producer.isOpen with
  | false => rfl
  | true =>
    rw [Bool.not_true, Bool.false_or, if_pos rfl, Bool.eq_iff_iff, List.any_eq_true]
    constructor
    · rintro ⟨u, hu, hlt⟩
      obtain ⟨last, rfl, hlast⟩ := hsent.exists_top hu
      have hlate : stamp < last := Nat.lt_of_lt_of_le (of_decide_eq_true hlt) hlast
      simpa [Horizon.notAfter] using hlate
    · intro hlt
      cases top with
      | none => cases hlt
      | some last =>
        obtain ⟨u, hu, rfl⟩ := hsent.mem_of_top
        exact ⟨u, hu, by simpa [Horizon.notAfter] using hlt⟩

theorem reaches_of_mem {s : Stamped} {stamp : Nat} (hs : s ∈ producer.events) (hle : stamp ≤ s.stamp) :
    producer.reaches stamp = true :=
  Bool.or_eq_true_iff.2 (.inr (List.any_eq_true.2 ⟨.event s, mem_stampedOf.1 hs, decide_eq_true hle⟩))

theorem passes_of_mem {s : Stamped} {stamp : Nat} (hs : s ∈ producer.events) (hlt : stamp < s.stamp) :
    producer.passes stamp = true :=
  Bool.or_eq_true_iff.2 (.inr (List.any_eq_true.2 ⟨.event s, mem_stampedOf.1 hs, decide_eq_true hlt⟩))

theorem pairwise_settled (hfirst : Rises none first.channel.queue top)
    (hsecond : Rises none second.channel.queue top') :
    (interleave first.events second.events).Pairwise fun a b =>
      settled first second b = true → settled first second a = true := by
  have hxs : Ascending first.events := hfirst.ascending
  have hys : Ascending second.events := hsecond.ascending
  refine ((ascending_interleave hxs hys).and (interleave_ties hxs hys)).imp_of_mem ?_
  rintro ⟨side, s⟩ ⟨side', t⟩ - ht ⟨hle, htie⟩ hsettled
  have hbefore : (Horizon.known s.stamp).notAfter (.known t.stamp) = true := decide_eq_true hle
  have hmem : side' = .left ∧ t ∈ first.events ∨ side' = .right ∧ t ∈ second.events := mem_interleave.1 ht
  cases side with
  | left =>
    cases side' with
    | left =>
      rw [settled, reaches_eq hsecond] at hsettled ⊢
      exact Horizon.notAfter_trans hbefore hsettled
    | right => exact reaches_of_mem (hmem.resolve_left (by simp)).2 hle
  | right =>
    cases side' with
    | left => exact passes_of_mem (hmem.resolve_right (by simp)).2 (htie rfl rfl)
    | right =>
      rw [settled, passes_eq hfirst, Bool.not_eq_true', Bool.eq_false_iff] at hsettled ⊢
      exact fun hpassed => hsettled (Horizon.notAfter_trans hpassed hbefore)

/-- An idle merge of two producers has sent the events of their merged views. -/
theorem map_releasable (hfirst : Rises none first.channel.queue top)
    (hsecond : Rises none second.channel.queue top') :
    (releasable first second).map Prod.snd = (first.view.merge second.view).events := by
  have hxs : Ascending first.events := hfirst.ascending
  have hys : Ascending second.events := hsecond.ascending
  rw [releasable, takeWhile_eq_filter (pairwise_settled hfirst hsecond), filter_interleave hxs hys]
  simp only [settled, reaches_eq hsecond, passes_eq hfirst]
  rfl

end Producer

/-! ### Tasks that have read all there is -/

namespace Operand

variable {o : Operand} {producer : Producer} {signal : Signal}

theorem Attends.rises (ho : o.Attends producer signal) :
    Rises none producer.channel.queue signal.outlet.frontier := by
  obtain ⟨hfollows, -, read, hqueue, hrises, -⟩ := ho
  rw [hqueue]
  exact hrises.append hfollows.rises

theorem Attends.horizon_eq_level (ho : o.Attends producer signal) (hread : o.isOpen = true → signal.ReadUp)
    (hempty : o.pending = []) : o.horizon = producer.view.level :=
  ho.horizon_eq hread (hempty.trans List.drop_length.symm)

theorem Attends.horizon_notAfter_level (ho : o.Attends producer signal)
    (hread : o.isOpen = true → signal.ReadUp) : o.horizon.notAfter producer.view.level = true := by
  have huse : o.horizon.notAfter ({ o with pending := [] } : Operand).horizon = true :=
    ho.horizon_use (List.append_nil _).symm
  obtain ⟨⟨-, -, hunread, hclosed⟩, hended, read, hqueue, hrises, -⟩ := ho
  have hused : ({ o with pending := [] } : Operand).Attends producer signal :=
    ⟨⟨ascending_nil, upTo_nil _, hunread, hclosed⟩, hended, read, hqueue, hrises, List.nil_suffix⟩
  rw [← hused.horizon_eq_level hread rfl]
  exact huse

end Operand

theorem Operands.Attend.earlier_eq {p : Operands} {first second : Producer} {left right : Signal}
    (hp : p.Attend first second left right) (hleft : p.left.isOpen = true → left.ReadUp)
    (hright : p.right.isOpen = true → right.ReadUp) (hnext : p.next? = none) (hmore : p.finished = false) :
    p.left.horizon.earlier p.right.horizon = first.view.level.earlier second.view.level := by
  have hfirst := hp.left.horizon_notAfter_level hleft
  have hsecond := hp.right.horizon_notAfter_level hright
  rcases open_of_next?_eq_none hnext hmore with ⟨hempty, -⟩ | ⟨hempty, -⟩
  · have hlevel := hp.left.horizon_eq_level hleft hempty
    cases hpending : p.right.pending with
    | nil => rw [hlevel, hp.right.horizon_eq_level hright hpending]
    | cons t rest =>
      have hle : p.left.horizon.notAfter p.right.horizon = true := by
        rw [Operand.horizon_of_cons hpending]
        exact Operands.notAfter_of_next?_eq_none hnext hpending
      rw [Horizon.earlier_eq_left hle, ← hlevel, Horizon.earlier_eq_left (Horizon.notAfter_trans hle hsecond)]
  · have hlevel := hp.right.horizon_eq_level hright hempty
    cases hpending : p.left.pending with
    | nil => rw [hlevel, hp.left.horizon_eq_level hleft hpending]
    | cons s rest =>
      have hle : p.right.horizon.notAfter p.left.horizon = true := by
        rw [Operand.horizon_of_cons hpending]
        exact Horizon.notAfter_of_not (Operands.not_notAfter_of_next?_eq_none hnext hpending)
      rw [Horizon.earlier_eq_right hle, ← hlevel, Horizon.earlier_eq_right (Horizon.notAfter_trans hle hfirst)]

/-- An idle merge is seen as its producers merged. -/
theorem Task.Serves.view_eq {p : Operands} {out : Outlet} {taken : List Update} {first second : Producer}
    {left right : Signal} (hserves : (merge p).Serves out taken first second left right)
    (hmodest : (merge p).Modest out) (hwaits : (merge p).Waits left right)
    (hsent : Rises none (taken ++ out.queue) out.frontier) :
    (⟨⟨taken ++ out.queue, out.frontier⟩, true⟩ : Producer).view = first.view.merge second.view := by
  obtain ⟨hleft, hright⟩ := hwaits.readUp fun _ => rfl
  have hattends : p.Attend first second left right := hserves.attends
  have hevents := hserves.output_merge hwaits rfl
  rw [Producer.map_releasable hattends.left.rises hattends.right.rises] at hevents
  have hlevel := hattends.earlier_eq hleft hright hserves.prompt.1 hwaits.unfinished
  have hfrontier : out.frontier = (first.view.level.earlier second.view.level).stamp? :=
    hlevel ▸ hmodest.frontier_eq hserves.prompt hserves.attends hwaits.unfinished
  have hmore : first.view.level.earlier second.view.level ≠ .done := fun hdone => by
    have hfinished := (bound_eq_done hserves.attends).1 (hlevel.trans hdone)
    exact absurd hfinished (by simp [hwaits.unfinished])
  refine View.ext hevents ?_
  rw [Producer.level_view, if_pos rfl, hsent.latest?_eq, hfrontier, View.merge]
  cases hbound : first.view.level.earlier second.view.level with
  | unknown => rfl
  | known stamp => rfl
  | done => exact absurd hbound hmore

end TimedStreams

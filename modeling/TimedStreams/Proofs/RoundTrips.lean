import TimedStreams.Event.Document
import TimedStreams.Expr.Document
import TimedStreams.Proofs.Documents

/-!
# Data that is read back

Expressions, payloads, identities and nodes are written as documents that can be read whatever they
are, and the reader of a kind of data understands what was written for it, as long as it may open as
many levels as the document has (`Expr.ofJson?_toJson`, `Paired.ofJson?_toJson`, `Node.ofJson?_toJson`).
A reader of texts may open `Json.maxDepth` levels. So a text is read back as what was written if the
document has no more levels than that, and otherwise it is refused (`Json.restored_write`). A join or a
pair has two levels more than the deeper of its halves, everything else one more than its content.
-/

namespace TimedStreams

open Json

namespace Json

/-- What a text is read as, by those who understand documents with as many levels as are told. -/
def restored {α : Type} (ofJson? : Nat → Json → Option α) (s : List Char) : Option α :=
  (read? s).bind (ofJson? maxDepth)

variable {α : Type} {ofJson? : Nat → Json → Option α} {toJson : α → Json}

theorem restored_write_eq (hproper : ∀ x, (toJson x).Proper)
    (hread : ∀ x, ofJson? maxDepth (toJson x) = if (toJson x).levels ≤ maxDepth then some x else none)
    (x : α) (form : Form) :
    restored ofJson? ((toJson x).write form) = if (toJson x).levels ≤ maxDepth then some x else none := by
  rw [restored, read?_write form (hproper x), Option.bind_some, hread]

theorem bind_ite_levels {β : Type} {m n depth : Nat} (f : α → α → β) (x y : α) :
    ((if m ≤ depth then some x else none).bind fun x => (if n ≤ depth then some y else none).map (f x))
      = if max m n + 1 + 1 ≤ depth + 2 then some (f x y) else none := by
  have hboth : max m n + 1 + 1 ≤ depth + 2 ↔ m ≤ depth ∧ n ≤ depth := by omega
  by_cases hm : m ≤ depth <;> by_cases hn : n ≤ depth <;> simp [hboth, hm, hn]

theorem levels_tagged (tag : String) (j : Json) : (tagged tag j).levels = j.levels + 1 := by
  simp [tagged, record, levels, levelsOfMembers, Nat.add_comm]

theorem levels_pair (j k : Json) : (array [j, k]).levels = max j.levels k.levels + 1 := by
  simp [levels, levelsOfItems, Nat.add_comm]

theorem proper_tagged {tag : String} {j : Json} : (tagged tag j).Proper ↔ j.Proper := by
  simp [tagged, record, Proper, ProperMembers]

theorem proper_pair {j k : Json} : (array [j, k]).Proper ↔ j.Proper ∧ k.Proper := by
  simp [Proper, ProperItems]

theorem proper_text (t : String) : (text t).Proper := rfl

theorem proper_int (n : Int64) : (int n).Proper := isNumber_int n

end Json

/-! ### Pairs -/

namespace Paired

variable {α : Type} {leaf : α → Json} {ofLeaf? : String → Json → Option α}

theorem proper_toJson (hleaf : ∀ a, (leaf a).Proper) (x : Paired α) : (x.toJson leaf).Proper := by
  induction x with
  | single a => exact hleaf a
  | pair left right ihleft ihright => exact proper_tagged.2 (proper_pair.2 ⟨ihleft, ihright⟩)

/-- Leaves are tagged by what they are, have nothing below their tags, and are read back by them. -/
def LeavesRead (leaf : α → Json) (ofLeaf? : String → Json → Option α) : Prop :=
  ∀ a, ∃ tag content, leaf a = tagged tag content ∧ tag ≠ "Combined" ∧ content.levels = 0 ∧
    ofLeaf? tag content = some a

theorem ofJson?_toJson (hleaf : LeavesRead leaf ofLeaf?) (depth : Nat) (x : Paired α) :
    ofJson? ofLeaf? depth (x.toJson leaf) = if (x.toJson leaf).levels ≤ depth then some x else none := by
  induction x generalizing depth with
  | single a =>
    obtain ⟨tag, content, hcontent, htag, hflat, hread⟩ := hleaf a
    rw [toJson, hcontent, levels_tagged, hflat]
    cases depth with
    | zero => rfl
    | succ depth =>
      simp [tagged, record, ofJson?, htag, hread]
  | pair left right ihleft ihright =>
    rw [toJson, levels_tagged, levels_pair]
    match depth with
    | 0 => rfl
    | 1 => simp [tagged, record, ofJson?]
    | depth + 2 =>
      have hread : ofJson? ofLeaf? (depth + 2) (tagged "Combined" (array [left.toJson leaf, right.toJson leaf]))
          = (ofJson? ofLeaf? depth (left.toJson leaf)).bind fun l =>
            (ofJson? ofLeaf? depth (right.toJson leaf)).map (pair l) := by
        simp [tagged, record, ofJson?]
      rw [hread, ihleft, ihright, bind_ite_levels]

end Paired

/-! ### Payloads, identities -/

theorem Scalar.leavesRead : Paired.LeavesRead Scalar.toJson Scalar.ofJson?
  | .int n => ⟨"Int", Json.int n, rfl, by decide, rfl, congrArg (Option.map Scalar.int) (toInt64?_int n)⟩
  | .text s => ⟨"String", Json.text s, rfl, by decide, rfl, rfl⟩

namespace Value

theorem proper_toJson (v : Value) : (Value.toJson v).Proper := by
  refine Paired.proper_toJson (fun a => ?_) v
  cases a with
  | int n => exact proper_tagged.2 (proper_int n)
  | text s => exact proper_tagged.2 (proper_text s)

theorem ofJson?_toJson (depth : Nat) (v : Value) :
    Value.ofJson? depth (Value.toJson v) = if (Value.toJson v).levels ≤ depth then some v else none :=
  Paired.ofJson?_toJson Scalar.leavesRead depth v

end Value

theorem Json.toUuid?_uuid (u : Uuid) : (uuid u).toUuid? = some u :=
  Uuid.read?_render u

namespace EventId

theorem proper_toJson (id : EventId) : (EventId.toJson id).Proper :=
  Paired.proper_toJson (fun _ => proper_tagged.2 (proper_text _)) id

theorem ofJson?_toJson (depth : Nat) (id : EventId) :
    EventId.ofJson? depth (EventId.toJson id) = if (EventId.toJson id).levels ≤ depth then some id else none := by
  refine Paired.ofJson?_toJson (fun u => ?_) depth id
  exact ⟨"Single", uuid u, rfl, by decide, rfl, toUuid?_uuid u⟩

end EventId

/-! ### Expressions and nodes -/

namespace Expr

theorem proper_toJson (e : Expr) : e.toJson.Proper := by
  induction e with
  | input source => exact proper_tagged.2 (proper_text _)
  | join kind left right ihleft ihright => exact proper_tagged.2 (proper_pair.2 ⟨ihleft, ihright⟩)
  | adjacentPairs source ih => exact proper_tagged.2 ih

theorem exists_toJson (e : Expr) : ∃ members, e.toJson = object members := by
  cases e <;> exact ⟨_, rfl⟩

theorem ofTag?_tag (kind : Join) : Join.ofTag? kind.tag = some kind := by
  cases kind <;> rfl

theorem ofJson?_toJson (depth : Nat) (e : Expr) :
    ofJson? depth e.toJson = if e.toJson.levels ≤ depth then some e else none := by
  induction e generalizing depth with
  | input source =>
    rw [toJson, levels_tagged]
    match depth with
    | 0 => rfl
    | 1 => cases source <;> rfl
    | depth + 2 =>
      have hread : ofJson? (depth + 2) (tagged "input" (text source.tag)) = some (input source) := by
        cases source <;> rfl
      rw [hread, if_pos (by simp [text, levels])]
  | adjacentPairs source ih =>
    obtain ⟨members, hmembers⟩ := source.exists_toJson
    have hread : ∀ depth, ofJson? (depth + 1) (tagged "adjacent_pairs" (object members))
        = (ofJson? depth (object members)).map adjacentPairs := by
      intro depth
      cases depth <;> simp [tagged, record, ofJson?]
    rw [toJson, levels_tagged]
    cases depth with
    | zero => rfl
    | succ depth =>
      rw [hmembers, hread, ← hmembers, ih]
      by_cases hle : source.toJson.levels ≤ depth <;> simp [hle]
  | join kind left right ihleft ihright =>
    rw [toJson, levels_tagged, levels_pair]
    match depth with
    | 0 => rfl
    | 1 => cases kind <;> simp [tagged, record, ofJson?, Join.tag]
    | depth + 2 =>
      have hread : ofJson? (depth + 2) (tagged kind.tag (array [left.toJson, right.toJson]))
          = (ofJson? depth left.toJson).bind fun l => (ofJson? depth right.toJson).map (join kind l) := by
        simp only [tagged, record, List.map, ofJson?, ofTag?_tag, Option.map_eq_bind]
        rfl
      rw [hread, ihleft, ihright, bind_ite_levels]

end Expr

namespace Node

theorem proper_toJson (n : Node) : n.toJson.Proper := by
  simp [toJson, record, Proper, ProperMembers, n.expr.proper_toJson, uuid, text]

theorem levels_toJson (n : Node) : n.toJson.levels = n.expr.toJson.levels + 1 := by
  simp [toJson, record, levels, levelsOfMembers, uuid, text, Nat.add_comm]

theorem ofJson?_toJson (depth : Nat) (n : Node) :
    ofJson? depth n.toJson = if n.toJson.levels ≤ depth then some n else none := by
  rw [levels_toJson]
  cases depth with
  | zero => rfl
  | succ depth =>
    have hfields : fields? ["id", "tree"] n.toJson = some [some (uuid n.id), some n.expr.toJson] := rfl
    simp only [ofJson?, hfields, toUuid?_uuid, Expr.ofJson?_toJson, Option.bind_eq_bind, Option.bind_some]
    by_cases hle : n.expr.toJson.levels ≤ depth <;> simp [hle]

end Node

/-! ### Texts -/

theorem Expr.restored_write (e : Expr) (form : Form) :
    restored Expr.ofJson? (e.toJson.write form) = if e.toJson.levels ≤ maxDepth then some e else none :=
  restored_write_eq proper_toJson (ofJson?_toJson maxDepth) e form

/-- A text in either form, of an expression, a payload, an identity or a node, is read back as what was written
if no more than `maxDepth` arrays and objects are nested in it, and otherwise it is refused. -/
theorem Json.restored_up_to_maxDepth (form : Form) :
    (∀ e : Expr, restored Expr.ofJson? (e.toJson.write form) = if e.toJson.levels ≤ maxDepth then some e else none) ∧
    (∀ v : Value, restored Value.ofJson? ((Value.toJson v).write form)
      = if (Value.toJson v).levels ≤ maxDepth then some v else none) ∧
    (∀ id : EventId, restored EventId.ofJson? ((EventId.toJson id).write form)
      = if (EventId.toJson id).levels ≤ maxDepth then some id else none) ∧
    (∀ n : Node, restored Node.ofJson? (n.toJson.write form) = if n.toJson.levels ≤ maxDepth then some n else none) :=
  ⟨fun e => e.restored_write form,
    fun v => restored_write_eq Value.proper_toJson (Value.ofJson?_toJson maxDepth) v form,
    fun id => restored_write_eq EventId.proper_toJson (EventId.ofJson?_toJson maxDepth) id form,
    fun n => restored_write_eq Node.proper_toJson (Node.ofJson?_toJson maxDepth) n form⟩

namespace Expr

def nested : Nat → Expr
  | 0 => input .first
  | n + 1 => adjacentPairs (nested n)

theorem levels_nested (n : Nat) : (nested n).toJson.levels = n + 1 := by
  induction n with
  | zero => rfl
  | succ n ih => rw [nested, toJson, levels_tagged, ih]

/-- With one level too many an expression is not read back. -/
theorem nested_not_restored : restored ofJson? ((nested 127).toJson.write .compact) ≠ some (nested 127) := by
  rw [restored_write, levels_nested, if_neg (by decide)]
  simp

end Expr

end TimedStreams

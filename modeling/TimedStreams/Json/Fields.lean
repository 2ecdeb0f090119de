import TimedStreams.Json.Basic
import TimedStreams.Uuid

/-!
# Reading data from documents

The conventions by which documents stand for data. A record is an object with a member for each of its fields, in any order and among others, none of them repeated, or an array of all fields in order. A value of one of several kinds is an object whose single member is named for the kind; a kind without content may also be just its name. Arrays and objects that are read may be nested to some depth only, which every reader passes on as the number of levels that may still be opened; members that are passed over do not count.
-/

namespace TimedStreams.Json

/-- The number of levels that a document may have. -/
def maxDepth : Nat := 127

/-- The member of some name: `none` if it is repeated, and otherwise whether it is there. -/
def member? (name : String) (members : List (Option String × Json)) : Option (Option Json) :=
  match members.filter (·.1 == some name) with
  | [] => some none
  | [(_, j)] => some (some j)
  | _ => none

/-- The fields of a record, each if it is there. -/
def fields? (names : List String) : Json → Option (List (Option Json))
  | object members => if members.all (·.1.isSome) then names.mapM (member? · members) else none
  | array items => if items.length = names.length then some (items.map some) else none
  | _ => none

def unit? (depth : Nat) : Json → Option String
  | string s => s
  | object [(some name, null)] => if 0 < depth then some name else none
  | _ => none

def toString? : Json → Option String
  | string s => s
  | _ => none

def toUuid? (j : Json) : Option Uuid :=
  j.toString?.bind fun s => Uuid.read? s.toList

def uuid (u : Uuid) : Json :=
  text u.render

end TimedStreams.Json

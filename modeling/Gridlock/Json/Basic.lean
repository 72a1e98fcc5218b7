import Gridlock.Assoc
import Gridlock.Number.Text
import Gridlock.Text.Basic

/-!
# JSON values

* `Json` : values, with the fields of an object in order
* `Json.ofFields` : an object from fields that may repeat a name
* `Json.field?` : a field of an object
* `Json.holds` : whether a value says something; nothing, `false`, zero and empty values do not
* `Json.sizeOf_field?_lt` : a field is smaller than its object
-/

namespace Gridlock

inductive Json
  | null
  | bool (b : Bool)
  | num (n : Number)
  | str (s : Text)
  | arr (items : List Json)
  | obj (fields : List (Text × Json))
deriving Inhabited, Repr

namespace Json

/-- An object. A repeated name keeps its first place and takes its last value. -/
def ofFields (fields : List (Text × Json)) : Json :=
  obj (fields.foldl (fun done f => Assoc.put f.1 f.2 done) [])

def field? (name : Text) : Json → Option Json
  | obj fields => fields.lookup name
  | _ => none

/-- The value of a field, where a field that is not there counts as null. -/
def field (name : Text) (j : Json) : Json :=
  (j.field? name).getD null

def isNull : Json → Bool
  | null => true
  | _ => false

/-- Whether a value says something. -/
def holds : Json → Bool
  | null => false
  | bool b => b
  | num n => !n.isZero
  | str s => s ≠ ""
  | arr items => !items.isEmpty
  | obj fields => !fields.isEmpty

theorem sizeOf_lookup_lt {fields : List (Text × Json)} {name : Text} {v : Json}
    (h : fields.lookup name = some v) : sizeOf v < sizeOf fields := by
  induction fields with
  | nil => simp at h
  | cons e rest ih =>
    obtain ⟨k, w⟩ := e
    rw [List.lookup_cons] at h
    split at h
    · cases h
      simp
      omega
    · have := ih h
      simp
      omega

/-- A field is smaller than its object. -/
theorem sizeOf_field?_lt {j v : Json} {name : Text} (h : j.field? name = some v) :
    sizeOf v < sizeOf j := by
  cases j with
  | obj fields =>
    have := sizeOf_lookup_lt h
    simp
    omega
  | _ => simp [field?] at h

end Json

end Gridlock

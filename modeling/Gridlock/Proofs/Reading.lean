import Mathlib.Data.List.DropRight
import Gridlock.Trace.Reader

/-!
# What the entries of a trace are read as

Each reader is described once, by what it gives on an entry that is kept and on one that is left out. The
description does not speak of places: these only show in the wording of the warnings.

* `trim_trim` : a name without blanks around it stays as it is
* `Json.entries`, `Json.misplaces` : a field that should be a list
* `Json.action?`, `Json.lock`, `Json.givenFlavour`, `Json.takenFlavour`, `Json.event` : what an entry says
* `Json.MakesEvent`, `Json.MakesBlock`, `Json.MakesThread` : which entries are kept
* `readEvent_of_makes`, `readRegion_of_makesBlock`, `readThread_of_makes` : the readers on entries that are kept
-/

namespace Gridlock

/-! ## Blanks -/

namespace Text

theorem trimEndPoints_eq_rdropWhile (s : List CodePoint) : trimEndPoints s = s.rdropWhile CodePoint.isBlank :=
  rfl

theorem dropWhile_isBlank_trimPoints (s : List CodePoint) :
    (trimPoints s).dropWhile CodePoint.isBlank = trimPoints s := by
  unfold trimPoints
  rw [trimEndPoints_eq_rdropWhile]
  obtain ⟨rest, hrest⟩ := List.rdropWhile_prefix CodePoint.isBlank (s.dropWhile CodePoint.isBlank)
  cases hkept : (s.dropWhile CodePoint.isBlank).rdropWhile CodePoint.isBlank with
  | nil => rfl
  | cons c kept =>
    rw [hkept, List.cons_append] at hrest
    have hc : CodePoint.isBlank c = false := by
      have hhead := List.head?_dropWhile_not CodePoint.isBlank s
      rw [← hrest, List.head?_cons] at hhead
      exact hhead
    rw [List.dropWhile_cons_of_neg (by simp [hc])]

theorem trimPoints_trimPoints (s : List CodePoint) : trimPoints (trimPoints s) = trimPoints s := by
  rw [trimPoints, dropWhile_isBlank_trimPoints, trimEndPoints_eq_rdropWhile, trimPoints,
    trimEndPoints_eq_rdropWhile, List.rdropWhile_idempotent]

theorem trim_trim (s : Text) : trim (trim s) = trim s := by
  unfold trim
  rw [points_ofPoints, trimPoints_trimPoints]

end Text

/-! ## What an entry says -/

namespace Json

/-- The items of a field that is a list, and none if it is no list. -/
def entries (name : Text) (j : Json) : List Json :=
  match j.field name with
  | .arr items => items
  | _ => []

/-- Whether a field has a value that is no list. -/
def misplaces (name : Text) (j : Json) : Bool :=
  match j.field name with
  | .null | .arr _ => false
  | _ => true

def action? (j : Json) : Option Action :=
  operation? ((j.field? "op").getD (.str "")).text

def lock (j : Json) : Text :=
  Text.trim (j.field "resource").text

def givenFlavour (j : Json) : Option Flavour :=
  if (j.field "kind").isNull then none else Flavour.ofName? (j.field "kind").text

/-- The flavour under which the lock is taken: an entry that gives none takes a monitor. -/
def takenFlavour (j : Json) : Option Flavour :=
  if (j.field "kind").isNull then some (monitorOf j.lock).2 else j.givenFlavour

/-- Whether the entry gives a flavour that is not known. -/
def strange (j : Json) : Bool :=
  !(j.field "kind").isNull && (Flavour.ofName? (j.field "kind").text).isNone

def event (thread : Text) (action : Action) (j : Json) : Event where
  action := action
  thread := thread
  lock := if (j.field "resource").holds then some j.lock else none
  flavour := if action.takesLock then j.takenFlavour else j.givenFlavour
  timed := (j.field "timed").holds
  target := if (j.field "target").holds then some (j.field "target").text else none

/-- The entry names an action, and a lock if the action needs one. -/
def MakesEvent (j : Json) (action : Action) : Prop :=
  j.action? = some action ∧ (action.needsLock = true → (j.field "resource").holds = true)

/-- The entry names no action but a lock. -/
def MakesBlock (j : Json) : Prop :=
  j.field? "op" = none ∧ (j.field "resource").holds = true

def MakesThread (j : Json) : Prop :=
  (j.field "id").holds = true

theorem field?_op_isSome {j : Json} {action : Action} (h : j.action? = some action) :
    (j.field? "op").isSome = true := by
  cases hop : j.field? "op" with
  | some op => rfl
  | none =>
    rw [action?, hop] at h
    cases h

theorem exists_obj_of_field? {j v : Json} {name : Text} (h : j.field? name = some v) :
    ∃ fields, j = .obj fields := by
  cases j with
  | obj fields => exact ⟨fields, rfl⟩
  | _ => cases h

theorem exists_obj_of_holds {j : Json} {name : Text} (h : (j.field name).holds = true) :
    ∃ fields, j = .obj fields := by
  cases hf : j.field? name with
  | some v => exact exists_obj_of_field? hf
  | none =>
    rw [field, hf] at h
    cases h

end Json

/-! ## Events -/

section Event
variable (thread : Text) (place : Place) {j : Json} {action : Action}

def flavourWarnings (place : Place) (j : Json) : List Warning :=
  if j.strange then [.unknownFlavour place (j.field "kind")] else []

theorem length_flavourWarnings (j : Json) :
    (flavourWarnings place j).length = if j.strange then 1 else 0 := by
  unfold flavourWarnings
  split <;> rfl

theorem readFlavour_eq (j : Json) :
    readFlavour place (j.field "kind") = ⟨j.givenFlavour, flavourWarnings place j⟩ := by
  unfold readFlavour Json.givenFlavour flavourWarnings Json.strange
  cases hk : (j.field "kind").isNull with
  | true => simp
  | false => cases hf : Flavour.ofName? (j.field "kind").text <;> simp [Reading.skip]

theorem flavourWarnings_of_isNull (h : (j.field "kind").isNull = true) : flavourWarnings place j = [] := by
  simp [flavourWarnings, Json.strange, h]

theorem monitorOf_lock_fst (j : Json) : (monitorOf j.lock).1 = j.lock :=
  Text.trim_trim _

theorem needsLock_of_takesLock (h : action.takesLock = true) : action.needsLock = true := by
  simp [Action.needsLock, h]

theorem readLock_eq (h : j.MakesEvent action) :
    readLock place action (j.field "resource") (j.field "kind") =
      ((j.event thread action).lock, ⟨(j.event thread action).flavour, flavourWarnings place j⟩) := by
  unfold readLock Json.event
  by_cases ht : action.takesLock = true
  · have hl := h.2 (needsLock_of_takesLock ht)
    by_cases hk : (j.field "kind").isNull = true
    · have hname := monitorOf_lock_fst j
      rw [Json.lock] at hname
      simp only [hl, hk, ht, Bool.and_self, if_true, Option.getD_some, Json.takenFlavour, Json.lock,
        flavourWarnings_of_isNull place hk, hname]
    · simp only [hl, hk, ht, Bool.and_true, Bool.false_eq_true, if_true, if_false, Json.takenFlavour,
        Json.lock, readFlavour_eq]
  · simp only [ht, Bool.and_false, Bool.false_eq_true, if_false, Json.lock, readFlavour_eq]

/-- An entry that names an action, and a lock where one is needed, is kept. -/
theorem readEvent_of_makes (h : j.MakesEvent action) :
    readEvent thread place j = ⟨some (j.event thread action), flavourWarnings place j⟩ := by
  obtain ⟨op, hop⟩ := Option.isSome_iff_exists.mp (Json.field?_op_isSome h.1)
  obtain ⟨fields, rfl⟩ := Json.exists_obj_of_field? hop
  have haction : operation? (((Json.obj fields).field? "op").getD (.str "")).text = some action := h.1
  have hneeds : (action.needsLock && !((Json.obj fields).field "resource").holds) = false := by
    cases hn : action.needsLock with
    | false => rfl
    | true => simp [h.2 hn]
  unfold readEvent
  simp only [haction, hneeds, Bool.false_eq_true, if_false, readLock_eq thread place h]
  rfl

/-- Any other entry is left out, with one warning. -/
theorem readEvent_of_not_makes (h : ∀ action, ¬ j.MakesEvent action) :
    ∃ w, readEvent thread place j = .skip w := by
  unfold readEvent
  split
  · next fields =>
    split
    · exact ⟨_, rfl⟩
    · next action haction =>
      split
      · exact ⟨_, rfl⟩
      · next hneeds =>
        refine absurd ⟨haction, fun hn => ?_⟩ (h action)
        simpa [hn] using hneeds
  · exact ⟨_, rfl⟩

end Event

/-! ## Regions -/

section Region
variable (thread : Text) (path : List Nat) {j : Json}

theorem readRegion_of_op (h : (j.field? "op").isSome = true) :
    readRegion thread path j = (readEvent thread (.region thread path) j).map .event := by
  obtain ⟨op, hop⟩ := Option.isSome_iff_exists.mp h
  obtain ⟨fields, rfl⟩ := Json.exists_obj_of_field? hop
  rw [readRegion]
  exact if_pos h

theorem readRegion_of_makesEvent {action : Action} (h : j.MakesEvent action) :
    readRegion thread path j =
      ⟨some (.event (j.event thread action)), flavourWarnings (.region thread path) j⟩ := by
  rw [readRegion_of_op thread path (Json.field?_op_isSome h.1), readEvent_of_makes thread _ h]
  rfl

def listWarnings (place : Place) (name : String) (j : Json) : List Warning :=
  if j.misplaces name then [.notList place name] else []

theorem length_listWarnings (place : Place) (name : String) (j : Json) :
    (listWarnings place name j).length = if j.misplaces name then 1 else 0 := by
  unfold listWarnings
  split <;> rfl

theorem readList_eq (place : Place) (name : String) (j : Json) :
    readList place name j = (j.entries name, listWarnings place name j) := by
  unfold readList Json.entries listWarnings Json.misplaces
  cases j.field name <;> rfl

/-- An entry that names a lock and no action is a block around its body. -/
theorem readRegion_of_makesBlock (h : j.MakesBlock) :
    readRegion thread path j =
      ⟨some (.block j.lock j.takenFlavour (readRegions thread path 0 (j.entries "body")).1),
        flavourWarnings (.region thread path) j ++ (listWarnings (.region thread path) "body" j ++
          (readRegions thread path 0 (j.entries "body")).2)⟩ := by
  obtain ⟨fields, rfl⟩ := Json.exists_obj_of_holds h.2
  have hlock : (monitorOf ((Json.obj fields).field "resource").text).1 = (Json.obj fields).lock := rfl
  have hflavour : (if ((Json.obj fields).field "kind").isNull then
      (⟨some (monitorOf ((Json.obj fields).field "resource").text).2, []⟩ : Reading Flavour)
      else readFlavour (.region thread path) ((Json.obj fields).field "kind")) =
      ⟨(Json.obj fields).takenFlavour, flavourWarnings (.region thread path) (Json.obj fields)⟩ := by
    unfold Json.takenFlavour
    split
    · next hk =>
      rw [flavourWarnings_of_isNull _ hk]
      unfold monitorOf
      rw [Json.lock, Text.trim_trim]
    · exact readFlavour_eq _ _
  have hnil : readRegions thread path 0 [] = ([], []) := by rw [readRegions]
  rw [readRegion]
  simp only [h.1, h.2, Option.isSome_none, Bool.false_eq_true, if_false, Bool.not_true, hflavour, hlock]
  have hbody : (Json.obj fields).field "body" = (fields.lookup ("body" : Text)).getD .null := rfl
  unfold listWarnings Json.misplaces Json.entries
  rw [hbody]
  split
  · next hl => simp [hl, hnil]
  · next hl => simp [hl, hnil]
  · next items hl => simp [hl]
  · next v hnull harr hl =>
    cases v with
    | null => exact absurd rfl hnull
    | arr items => exact absurd rfl (harr items)
    | _ => simp [hl, hnil]

/-- Any other entry is left out, with one warning. -/
theorem readRegion_of_not_makes (he : ∀ action, ¬ j.MakesEvent action) (hb : ¬ j.MakesBlock) :
    ∃ w, readRegion thread path j = .skip w := by
  by_cases hop : (j.field? "op").isSome = true
  · obtain ⟨w, hw⟩ := readEvent_of_not_makes thread (.region thread path) he
    exact ⟨w, by rw [readRegion_of_op thread path hop, hw]; rfl⟩
  · rw [Bool.not_eq_true, Option.isSome_eq_false_iff, Option.isNone_iff_eq_none] at hop
    have hres : (j.field "resource").holds = false := by
      rw [← Bool.not_eq_true]
      exact fun hres => hb ⟨hop, hres⟩
    unfold readRegion
    cases j with
    | obj fields => exact ⟨.regionLockMissing (.region thread path), by simp [hop, hres]⟩
    | _ => exact ⟨_, rfl⟩

end Region

/-! ## Threads -/

section Thread
variable (position : Nat) {j : Json}

/-- An entry that names a thread is kept. -/
theorem readThread_of_makes (h : j.MakesThread) :
    readThread position j =
      ⟨some { thread := (j.field "id").text
              events := (readEvents (j.field "id").text 0 (j.entries "events")).1
              regions := (readRegions (j.field "id").text [] 0 (j.entries "regions")).1 },
        listWarnings (.thread (j.field "id").text) "events" j ++
          (readEvents (j.field "id").text 0 (j.entries "events")).2 ++
          listWarnings (.thread (j.field "id").text) "regions" j ++
          (readRegions (j.field "id").text [] 0 (j.entries "regions")).2⟩ := by
  obtain ⟨fields, rfl⟩ := Json.exists_obj_of_holds h
  unfold readThread
  simp only [readList_eq]
  exact if_pos h

/-- Any other entry is left out, with one warning. -/
theorem readThread_of_not_makes (h : ¬ j.MakesThread) : ∃ w, readThread position j = .skip w := by
  unfold readThread
  split
  · exact ⟨_, if_neg h⟩
  · exact ⟨_, rfl⟩

end Thread

end Gridlock

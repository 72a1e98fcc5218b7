import Gridlock.Deadlock
import Gridlock.Proofs.Account

/-!
# Entries that are left out leave nothing behind

Whether an entry of a trace is kept depends on the entry alone. So the entries that are left out can be taken out of
the value beforehand, and the values that should be lists and are none with them: what is read is the same. The
places of the entries that stay are other ones then, but they show in the wording of warnings only.

* `Json.isEvent`, `Json.isBlock`, `Json.isThread` : which entries are kept
* `Json.editList` : an object with another list under a name, or without what is there and is no list
* `Json.cleanEvent?`, `Json.cleanRegion?`, `Json.cleanThread?` : an entry without what is left out of it
* `Json.cleaned` : the whole value
* `Tidied` : warnings of which only those about flavours are left; `readEvents_clean`, `readRegions_clean`,
  `readThreads_clean` : what is read of a list and of the clean list
* `ofJson?_cleaned` : the trace that is read from the clean value
-/

namespace Gridlock

namespace Json

/-! ## Entries that are kept -/

/-- Whether the entry names an action, and a lock if the action needs one. -/
def isEvent (j : Json) : Bool :=
  j.action?.any fun action => !action.needsLock || (j.field "resource").holds

/-- Whether the entry names a lock and no action. -/
def isBlock (j : Json) : Bool :=
  (j.field? "op").isNone && (j.field "resource").holds

def isThread (j : Json) : Bool :=
  (j.field "id").holds

theorem isEvent_iff {j : Json} : j.isEvent = true ↔ ∃ action, j.MakesEvent action := by
  simp only [isEvent, MakesEvent, Option.any_eq_true, Bool.or_eq_true, Bool.not_eq_true']
  refine exists_congr fun action => and_congr_right fun _ => ?_
  cases action.needsLock <;> simp

theorem isBlock_iff {j : Json} : j.isBlock = true ↔ j.MakesBlock := by
  rw [isBlock, MakesBlock, Bool.and_eq_true, Option.isNone_iff_eq_none]

theorem not_isEvent_iff {j : Json} : ¬ j.isEvent = true ↔ j.MakesNoEvent := by
  rw [isEvent_iff, not_exists, MakesNoEvent]

/-! ## Lists under a name -/

/-- The object with another list under the name. What is under the name and is no list is removed. -/
def editList (name : Text) (f : List Json → List Json) (j : Json) : Json :=
  match j with
  | obj fields =>
    match fields.lookup name with
    | some (arr items) => obj (Assoc.put name (arr (f items)) fields)
    | some _ => obj (fields.filter (·.1 ≠ name))
    | none => obj fields
  | j => j

theorem lookup_filter_self (name : Text) (fields : List (Text × Json)) :
    (fields.filter (·.1 ≠ name)).lookup name = none := by
  rw [List.lookup_eq_none_iff]
  intro e he
  simpa using Ne.symm (of_decide_eq_true (List.mem_filter.mp he).2)

theorem lookup_filter_of_ne {name name' : Text} (h : name' ≠ name) (fields : List (Text × Json)) :
    (fields.filter (·.1 ≠ name)).lookup name' = fields.lookup name' := by
  induction fields with
  | nil => rfl
  | cons e fields ih =>
    obtain ⟨k, v⟩ := e
    by_cases hk : k = name
    · have hk' : (name' == k) = false := by rw [hk]; exact beq_eq_false_iff_ne.mpr h
      rw [List.filter_cons_of_neg (by simpa using hk), ih, List.lookup_cons, hk']
    · rw [List.filter_cons_of_pos (by simpa using hk), List.lookup_cons, List.lookup_cons, ih]

section EditList
variable {name name' : Text} {f : List Json → List Json} {j : Json}

theorem field?_editList_of_ne (h : name' ≠ name) : (j.editList name f).field? name' = j.field? name' := by
  unfold editList
  split
  · split
    · exact Assoc.lookup_put_of_ne h _ _
    · exact lookup_filter_of_ne h _
    · rfl
  · rfl

theorem field_editList_of_ne (h : name' ≠ name) : (j.editList name f).field name' = j.field name' := by
  rw [field, field?_editList_of_ne h, field]

theorem entries_editList_of_ne (h : name' ≠ name) : (j.editList name f).entries name' = j.entries name' := by
  unfold entries
  rw [field_editList_of_ne h]

theorem field?_editList_of_arr {items : List Json} (h : j.field? name = some (arr items)) :
    (j.editList name f).field? name = some (arr (f items)) := by
  obtain ⟨fields, rfl⟩ := exists_obj_of_field? h
  have hlookup : fields.lookup name = some (arr items) := h
  unfold editList
  simp only [hlookup]
  exact Assoc.lookup_put_self _ _ _

theorem field?_editList_of_not_arr (h : ∀ items, j.field? name ≠ some (arr items)) :
    (j.editList name f).field? name = none := by
  unfold editList
  split
  · next fields =>
    split
    · next items hlookup => exact absurd hlookup (h items)
    · exact lookup_filter_self name fields
    · next hlookup => exact hlookup
  · next hobj =>
    cases j with
    | obj fields => exact absurd rfl (hobj fields)
    | _ => rfl

theorem entries_of_field?_arr {items : List Json} (h : j.field? name = some (arr items)) :
    j.entries name = items := by
  unfold entries field
  rw [h]
  rfl

theorem entries_of_not_arr (h : ∀ items, j.field? name ≠ some (arr items)) : j.entries name = [] := by
  unfold entries field
  split
  · next items hitems =>
    cases hf : j.field? name with
    | none => rw [hf] at hitems; cases hitems
    | some v =>
      rw [hf, Option.getD_some] at hitems
      rw [hitems] at hf
      exact absurd hf (h items)
  · rfl

theorem entries_editList (hf : f [] = []) : (j.editList name f).entries name = f (j.entries name) := by
  by_cases h : ∃ items, j.field? name = some (arr items)
  · obtain ⟨items, h⟩ := h
    rw [entries_of_field?_arr h, entries_of_field?_arr (field?_editList_of_arr h)]
  · rw [not_exists] at h
    rw [entries_of_not_arr h, hf, entries_of_not_arr]
    rw [field?_editList_of_not_arr h]
    simp

theorem misplaces_editList : (j.editList name f).misplaces name = false := by
  unfold misplaces field
  by_cases h : ∃ items, j.field? name = some (arr items)
  · obtain ⟨items, h⟩ := h
    rw [field?_editList_of_arr h]
    rfl
  · rw [not_exists] at h
    rw [field?_editList_of_not_arr h]
    rfl

theorem misplaces_editList_of_ne (h : name' ≠ name) :
    (j.editList name f).misplaces name' = j.misplaces name' := by
  unfold misplaces
  rw [field_editList_of_ne h]

end EditList

/-! ## The clean value -/

def cleanEvent? (j : Json) : Option Json :=
  if j.isEvent then some j else none

mutual

/-- An entry in a list of regions, if it is kept, without what is left out of its body. -/
def cleanRegion? (j : Json) : Option Json :=
  if j.isEvent then some j
  else if j.isBlock then
    match j with
    | obj fields =>
      match _h : fields.lookup ("body" : Text) with
      | some (arr items) => some (obj (Assoc.put "body" (arr (cleanRegions items)) fields))
      | some _ => some (obj (fields.filter (·.1 ≠ "body")))
      | none => some (obj fields)
    | j => some j
  else none
termination_by sizeOf j
decreasing_by
  have := sizeOf_lookup_lt _h
  simp only [arr.sizeOf_spec] at this
  simp only [obj.sizeOf_spec]
  omega

def cleanRegions (items : List Json) : List Json :=
  match items with
  | [] => []
  | j :: rest => j.cleanRegion?.toList ++ cleanRegions rest
termination_by sizeOf items

end

theorem cleanRegions_eq (items : List Json) : cleanRegions items = items.filterMap cleanRegion? := by
  induction items with
  | nil => rw [cleanRegions, List.filterMap_nil]
  | cons j rest ih =>
    rw [cleanRegions, ih, List.filterMap_cons]
    cases j.cleanRegion? <;> rfl

theorem cleanRegion?_of_isEvent {j : Json} (h : j.isEvent = true) : j.cleanRegion? = some j := by
  rw [cleanRegion?.eq_def, if_pos h]

theorem cleanRegion?_of_isBlock {j : Json} (he : ¬ j.isEvent = true) (hb : j.isBlock = true) :
    j.cleanRegion? = some (j.editList "body" (·.filterMap cleanRegion?)) := by
  rw [cleanRegion?.eq_def, if_neg he, if_pos hb]
  unfold editList
  split
  · split <;> simp only [*, cleanRegions_eq]
  · rfl

theorem cleanEvent?_eq_none_iff {j : Json} : j.cleanEvent? = none ↔ j.MakesNoEvent := by
  rw [← not_isEvent_iff, cleanEvent?]
  split <;> simp [*]

theorem cleanRegion?_eq_none_iff {j : Json} : j.cleanRegion? = none ↔ j.MakesNoRegion := by
  rw [MakesNoRegion, ← not_isEvent_iff, ← isBlock_iff]
  by_cases he : j.isEvent = true
  · simp [cleanRegion?_of_isEvent he, he]
  · by_cases hb : j.isBlock = true
    · simp [cleanRegion?_of_isBlock he hb, hb]
    · rw [cleanRegion?.eq_def, if_neg he, if_neg hb]
      exact ⟨fun _ => ⟨he, hb⟩, fun _ => rfl⟩

/-- A thread without what is left out of its events and regions. -/
def thinned (j : Json) : Json :=
  (j.editList "events" (·.filterMap cleanEvent?)).editList "regions" (·.filterMap cleanRegion?)

def cleanThread? (j : Json) : Option Json :=
  if j.isThread then some j.thinned else none

theorem cleanThread?_eq_none_iff {j : Json} : j.cleanThread? = none ↔ j.MakesNoThread := by
  show j.cleanThread? = none ↔ ¬ j.isThread = true
  rw [cleanThread?]
  split <;> simp [*]

/-- The value without all entries that are left out when it is read as a trace, and without the values that should
be lists of entries and are none. -/
def cleaned : Json → Json
  | arr items => arr (items.filterMap cleanThread?)
  | j => j.editList "threads" (·.filterMap cleanThread?)

section Thinned
variable (j : Json)

theorem field_id_thinned : j.thinned.field "id" = j.field "id" := by
  rw [thinned, field_editList_of_ne (by decide), field_editList_of_ne (by decide)]

theorem entries_events_thinned : j.thinned.entries "events" = (j.entries "events").filterMap cleanEvent? := by
  rw [thinned, entries_editList_of_ne (by decide), entries_editList List.filterMap_nil]

theorem entries_regions_thinned : j.thinned.entries "regions" = (j.entries "regions").filterMap cleanRegion? := by
  rw [thinned, entries_editList List.filterMap_nil, entries_editList_of_ne (by decide)]

theorem misplaces_events_thinned : j.thinned.misplaces "events" = false := by
  rw [thinned, misplaces_editList_of_ne (by decide), misplaces_editList]

theorem misplaces_regions_thinned : j.thinned.misplaces "regions" = false := by
  rw [thinned, misplaces_editList]

end Thinned

end Json

theorem threadList?_cleaned {j : Json} {items : List Json} (h : threadList? j = some items) :
    threadList? j.cleaned = some (items.filterMap Json.cleanThread?) := by
  rcases threadList?_cases h with rfl | hfield
  · rfl
  · have hclean := Json.field?_editList_of_arr (f := (·.filterMap Json.cleanThread?)) hfield
    obtain ⟨fields, rfl⟩ := Json.exists_obj_of_field? hfield
    obtain ⟨fields', hfields'⟩ := Json.exists_obj_of_field? hclean
    show threadList? ((Json.obj fields).editList "threads" (·.filterMap Json.cleanThread?)) = _
    rw [hfields'] at hclean ⊢
    unfold threadList?
    simp only [hclean]

/-! ## Warnings -/

/-- The flavour that is not known, if the warning is about one. -/
def Warning.flavour? : Warning → Option Json
  | unknownFlavour _ flavour => some flavour
  | _ => none

/-- All warnings of the second list are about flavours, and about the same ones as in the first. -/
def Tidied (ws ws' : List Warning) : Prop :=
  ws'.map (·.flavour?) = (ws.filterMap (·.flavour?)).map some

namespace Tidied

variable {ws₁ ws₁' ws₂ ws₂' : List Warning}

theorem append (h₁ : Tidied ws₁ ws₁') (h₂ : Tidied ws₂ ws₂') : Tidied (ws₁ ++ ws₂) (ws₁' ++ ws₂') := by
  unfold Tidied at h₁ h₂ ⊢
  rw [List.map_append, h₁, h₂, List.filterMap_append, List.map_append]

theorem of_nil (h : ws₁.filterMap (·.flavour?) = []) : Tidied ws₁ [] := by
  unfold Tidied
  rw [h]
  rfl

theorem flavourWarnings {j j' : Json} (h : j'.field "kind" = j.field "kind") (place place' : Place) :
    Tidied (flavourWarnings place j) (flavourWarnings place' j') := by
  unfold Tidied Gridlock.flavourWarnings Json.strange
  rw [h]
  split <;> rfl

theorem listWarnings (place place' : Place) (name : String) {j j' : Json} (h : j'.misplaces name = false) :
    Tidied (listWarnings place name j) (listWarnings place' name j') := by
  have hnone : Gridlock.listWarnings place' name j' = [] := by
    unfold Gridlock.listWarnings
    rw [h]
    rfl
  rw [hnone]
  apply of_nil
  unfold Gridlock.listWarnings
  split <;> rfl

theorem exists_flavour {ws ws' : List Warning} (h : Tidied ws ws') :
    ∀ w ∈ ws', ∃ place flavour, w = .unknownFlavour place flavour := by
  intro w hw
  have hmem : w.flavour? ∈ ws'.map (·.flavour?) := List.mem_map_of_mem hw
  rw [show ws'.map (·.flavour?) = _ from h, List.mem_map] at hmem
  obtain ⟨flavour, -, hflavour⟩ := hmem
  cases w with
  | unknownFlavour place flavour => exact ⟨place, flavour, rfl⟩
  | _ => cases hflavour

theorem filterMap_eq {ws ws' : List Warning} (h : Tidied ws ws') :
    ws'.filterMap (·.flavour?) = ws.filterMap (·.flavour?) := by
  have hids := congrArg (List.filterMap id) h
  simpa [List.filterMap_map] using hids

end Tidied

/-! ## Entries that are left out

No entry is left out for its flavour. -/

theorem flavours_readEvent_of_skip {thread : Text} {place : Place} {j : Json}
    (h : (readEvent thread place j).kept = none) :
    (readEvent thread place j).warnings.filterMap (·.flavour?) = [] := by
  unfold readEvent at h ⊢
  split at h
  · split at h
    · rfl
    · split at h
      · next hneeds => rw [if_pos hneeds]; rfl
      · cases h
  · rfl

theorem flavours_readRegion_of_skip {thread : Text} {path : List Nat} {j : Json}
    (h : (readRegion thread path j).kept = none) :
    (readRegion thread path j).warnings.filterMap (·.flavour?) = [] := by
  by_cases hop : (j.field? "op").isSome = true
  · rw [readRegion_of_op thread path hop] at h ⊢
    exact flavours_readEvent_of_skip (Option.map_eq_none_iff.mp h)
  · cases j with
    | obj fields =>
      by_cases hlock : ((Json.obj fields).field "resource").holds = true
      · have hblock : (Json.obj fields).MakesBlock := by
          rw [Bool.not_eq_true, Option.isSome_eq_false_iff, Option.isNone_iff_eq_none] at hop
          exact ⟨hop, hlock⟩
        rw [readRegion_of_makesBlock thread path hblock] at h
        cases h
      · rw [readRegion]
        simp [hop, hlock, Reading.skip, Warning.flavour?]
    | _ =>
      unfold readRegion
      rfl

theorem flavours_readThread_of_not_makes {position : Nat} {j : Json} (h : ¬ j.MakesThread) :
    (readThread position j).warnings.filterMap (·.flavour?) = [] := by
  unfold readThread
  split
  · next fields =>
    have hid : ¬ ((Json.obj fields).field "id").holds = true := h
    rw [if_neg hid]
    rfl
  · rfl

/-! ## Lists of entries -/

/-- What is read of a list and what is read of the clean list, from other places on: the same is kept, and of the
warnings those about flavours are left. -/
theorem clean_list {β : Type} {clean? : Json → Option Json} (read read' : Nat → Json → Reading β)
    (list list' : Nat → List Json → List β × List Warning)
    (hnil : ∀ i, list i [] = ([], [])) (hnil' : ∀ i, list' i [] = ([], []))
    (hcons : ∀ i j rest, list i (j :: rest) =
      ((read i j).kept.toList ++ (list (i + 1) rest).1, (read i j).warnings ++ (list (i + 1) rest).2))
    (hcons' : ∀ i j rest, list' i (j :: rest) =
      ((read' i j).kept.toList ++ (list' (i + 1) rest).1, (read' i j).warnings ++ (list' (i + 1) rest).2))
    (items : List Json)
    (hskip : ∀ i, ∀ j ∈ items, clean? j = none →
      (read i j).kept = none ∧ (read i j).warnings.filterMap (·.flavour?) = [])
    (hkeep : ∀ i i', ∀ j ∈ items, ∀ j', clean? j = some j' →
      (read' i' j').kept = (read i j).kept ∧ Tidied (read i j).warnings (read' i' j').warnings)
    (i i' : Nat) :
    (list' i' (items.filterMap clean?)).1 = (list i items).1 ∧
      Tidied (list i items).2 (list' i' (items.filterMap clean?)).2 := by
  induction items generalizing i i' with
  | nil =>
    rw [List.filterMap_nil, hnil, hnil']
    exact ⟨rfl, rfl⟩
  | cons j rest ih =>
    have ih := ih (fun k x hx => hskip k x (List.mem_cons_of_mem j hx))
      (fun k k' x hx => hkeep k k' x (List.mem_cons_of_mem j hx)) (i + 1)
    cases hj : clean? j with
    | none =>
      obtain ⟨hkept, hflavours⟩ := hskip i j List.mem_cons_self hj
      obtain ⟨hrest, htidied⟩ := ih i'
      rw [List.filterMap_cons_none hj, hcons, hkept]
      exact ⟨hrest, (Tidied.of_nil hflavours).append htidied⟩
    | some j' =>
      obtain ⟨hkept, hfirst⟩ := hkeep i i' j List.mem_cons_self j' hj
      obtain ⟨hrest, htidied⟩ := ih (i' + 1)
      rw [List.filterMap_cons_some hj, hcons, hcons', hkept, hrest]
      exact ⟨rfl, hfirst.append htidied⟩

theorem readEvents_clean (thread : Text) (items : List Json) (i i' : Nat) :
    (readEvents thread i' (items.filterMap Json.cleanEvent?)).1 = (readEvents thread i items).1 ∧
      Tidied (readEvents thread i items).2 (readEvents thread i' (items.filterMap Json.cleanEvent?)).2 := by
  refine clean_list (fun i => readEvent thread (.event thread i)) (fun i => readEvent thread (.event thread i))
    (readEvents thread) (readEvents thread) (fun _ => rfl) (fun _ => rfl) (fun _ _ _ => rfl) (fun _ _ _ => rfl)
    items ?_ ?_ i i'
  · intro k j _ hj
    obtain ⟨w, hw⟩ := readEvent_of_not_makes thread (.event thread k) (Json.cleanEvent?_eq_none_iff.mp hj)
    have hkept : (readEvent thread (.event thread k) j).kept = none := by rw [hw]; rfl
    exact ⟨hkept, flavours_readEvent_of_skip hkept⟩
  · intro k k' j _ j' hj
    obtain ⟨he, rfl⟩ : j.isEvent = true ∧ j = j' := by simpa [Json.cleanEvent?] using hj
    obtain ⟨action, ha⟩ := Json.isEvent_iff.mp he
    rw [readEvent_of_makes thread _ ha, readEvent_of_makes thread _ ha]
    exact ⟨rfl, Tidied.flavourWarnings rfl _ _⟩

theorem takenFlavour_editList_body (f : List Json → List Json) (j : Json) :
    (j.editList "body" f).lock = j.lock ∧ (j.editList "body" f).takenFlavour = j.takenFlavour := by
  unfold Json.takenFlavour Json.givenFlavour Json.lock
  rw [Json.field_editList_of_ne (by decide), Json.field_editList_of_ne (by decide)]
  exact ⟨rfl, rfl⟩

theorem makesBlock_editList_body {f : List Json → List Json} {j : Json} (h : j.MakesBlock) :
    (j.editList "body" f).MakesBlock := by
  unfold Json.MakesBlock
  rw [Json.field?_editList_of_ne (by decide), Json.field_editList_of_ne (by decide)]
  exact h

theorem readRegion_of_cleanRegion?_eq_none {thread : Text} {path : List Nat} {j : Json}
    (h : j.cleanRegion? = none) :
    (readRegion thread path j).kept = none ∧
      (readRegion thread path j).warnings.filterMap (·.flavour?) = [] := by
  obtain ⟨he, hb⟩ := Json.cleanRegion?_eq_none_iff.mp h
  obtain ⟨w, hw⟩ := readRegion_of_not_makes thread path he hb
  have hkept : (readRegion thread path j).kept = none := by rw [hw]; rfl
  exact ⟨hkept, flavours_readRegion_of_skip hkept⟩

theorem readRegions_clean_of (thread : Text) (path path' : List Nat) (items : List Json)
    (h : ∀ i i', ∀ j ∈ items, ∀ j', j.cleanRegion? = some j' →
      (readRegion thread (path' ++ [i']) j').kept = (readRegion thread (path ++ [i]) j).kept ∧
        Tidied (readRegion thread (path ++ [i]) j).warnings (readRegion thread (path' ++ [i']) j').warnings)
    (i i' : Nat) :
    (readRegions thread path' i' (items.filterMap Json.cleanRegion?)).1 = (readRegions thread path i items).1 ∧
      Tidied (readRegions thread path i items).2
        (readRegions thread path' i' (items.filterMap Json.cleanRegion?)).2 := by
  refine clean_list (fun i => readRegion thread (path ++ [i])) (fun i => readRegion thread (path' ++ [i]))
    (readRegions thread path) (readRegions thread path') ?_ ?_ ?_ ?_ items ?_ h i i'
  · intro k
    rw [readRegions]
  · intro k
    rw [readRegions]
  · intro k j rest
    rw [readRegions]
  · intro k j rest
    rw [readRegions]
  · intro k j _ hj
    exact readRegion_of_cleanRegion?_eq_none hj

/-- The recursion is on the entry: what is in the body of a block is smaller than the block. -/
theorem readRegion_clean (thread : Text) (path path' : List Nat) (j j' : Json) (h : j.cleanRegion? = some j') :
    (readRegion thread path' j').kept = (readRegion thread path j).kept ∧
      Tidied (readRegion thread path j).warnings (readRegion thread path' j').warnings := by
  by_cases he : j.isEvent = true
  · rw [Json.cleanRegion?_of_isEvent he] at h
    obtain rfl := Option.some.inj h
    obtain ⟨action, ha⟩ := Json.isEvent_iff.mp he
    rw [readRegion_of_makesEvent thread path ha, readRegion_of_makesEvent thread path' ha]
    exact ⟨rfl, Tidied.flavourWarnings rfl _ _⟩
  · by_cases hb : j.isBlock = true
    · rw [Json.cleanRegion?_of_isBlock he hb] at h
      obtain rfl := Option.some.inj h
      rw [Json.isBlock_iff] at hb
      obtain ⟨hbody, htidied⟩ := readRegions_clean_of thread path path' (j.entries "body")
        (fun i i' x hx x' hx' => readRegion_clean thread (path ++ [i]) (path' ++ [i']) x x' hx') 0 0
      obtain ⟨hlock, hflavour⟩ := takenFlavour_editList_body (·.filterMap Json.cleanRegion?) j
      rw [readRegion_of_makesBlock thread path hb,
        readRegion_of_makesBlock thread path' (makesBlock_editList_body hb),
        Json.entries_editList List.filterMap_nil, hlock, hflavour, hbody]
      exact ⟨rfl, (Tidied.flavourWarnings (Json.field_editList_of_ne (by decide)) _ _).append
        ((Tidied.listWarnings _ _ _ Json.misplaces_editList).append htidied)⟩
    · rw [Json.isBlock_iff] at hb
      rw [Json.cleanRegion?_eq_none_iff.mpr ⟨Json.not_isEvent_iff.mp he, hb⟩] at h
      cases h
termination_by sizeOf j
decreasing_by exact sizeOf_lt_of_mem_entries hx

theorem readRegions_clean (thread : Text) (path path' : List Nat) (items : List Json) (i i' : Nat) :
    (readRegions thread path' i' (items.filterMap Json.cleanRegion?)).1 = (readRegions thread path i items).1 ∧
      Tidied (readRegions thread path i items).2
        (readRegions thread path' i' (items.filterMap Json.cleanRegion?)).2 :=
  readRegions_clean_of thread path path' items
    (fun i i' j _ j' hj => readRegion_clean thread (path ++ [i]) (path' ++ [i']) j j' hj) i i'

theorem makesThread_thinned {j : Json} (h : j.MakesThread) : j.thinned.MakesThread := by
  unfold Json.MakesThread
  rw [Json.field_id_thinned]
  exact h

theorem readThread_clean (position position' : Nat) {j j' : Json} (h : j.cleanThread? = some j') :
    (readThread position' j').kept = (readThread position j).kept ∧
      Tidied (readThread position j).warnings (readThread position' j').warnings := by
  unfold Json.cleanThread? at h
  split at h
  · next hthread =>
    obtain rfl := Option.some.inj h
    obtain ⟨hevents, hew⟩ := readEvents_clean (j.field "id").text (j.entries "events") 0 0
    obtain ⟨hregions, hrw⟩ := readRegions_clean (j.field "id").text [] [] (j.entries "regions") 0 0
    rw [readThread_of_makes position hthread, readThread_of_makes position' (makesThread_thinned hthread),
      Json.field_id_thinned, Json.entries_events_thinned, Json.entries_regions_thinned, hevents, hregions]
    have hlists := fun (name : String) place (hname : j.thinned.misplaces name = false) =>
      Tidied.listWarnings place place name hname (j := j)
    exact ⟨rfl, (((hlists "events" _ j.misplaces_events_thinned).append hew).append
      (hlists "regions" _ j.misplaces_regions_thinned)).append hrw⟩
  · cases h

theorem readThreads_clean (items : List Json) (i i' : Nat) :
    (readThreads i' (items.filterMap Json.cleanThread?)).1 = (readThreads i items).1 ∧
      Tidied (readThreads i items).2 (readThreads i' (items.filterMap Json.cleanThread?)).2 := by
  refine clean_list readThread readThread readThreads readThreads (fun _ => rfl) (fun _ => rfl)
    (fun _ _ _ => rfl) (fun _ _ _ => rfl) items ?_ ?_ i i'
  · intro k j _ hj
    have hthread := Json.cleanThread?_eq_none_iff.mp hj
    obtain ⟨w, hw⟩ := readThread_of_not_makes k hthread
    have hkept : (readThread k j).kept = none := by rw [hw]; rfl
    exact ⟨hkept, flavours_readThread_of_not_makes hthread⟩
  · intro k k' j _ j' hj
    exact readThread_clean k k' hj

/-! ## Whole traces -/

theorem exists_ofJson?_cleaned {j : Json} {t : Trace} (h : Trace.ofJson? j = some t) :
    ∃ t', Trace.ofJson? j.cleaned = some t' ∧ t'.threads = t.threads ∧ Tidied t.warnings t'.warnings := by
  obtain ⟨items, hitems, rfl⟩ := Option.map_eq_some_iff.mp h
  obtain ⟨hthreads, htidied⟩ := readThreads_clean items 0 0
  have hclean : Trace.ofJson? j.cleaned = some
      { threads := (readThreads 0 (items.filterMap Json.cleanThread?)).1
        warnings := (readThreads 0 (items.filterMap Json.cleanThread?)).2 } := by
    rw [Trace.ofJson?, threadList?_cleaned hitems]
    rfl
  exact ⟨_, hclean, hthreads, htidied⟩

/-- Of the clean value the same threads are read, with warnings about flavours only, and with all of these. So as
many events are counted, and they leave the same graph behind with the same deadlocks in it. -/
theorem ofJson?_cleaned {j : Json} {t : Trace} (h : Trace.ofJson? j = some t) :
    ∃ t', Trace.ofJson? j.cleaned = some t' ∧ t'.threads = t.threads ∧
      (∀ w ∈ t'.warnings, ∃ place flavour, w = .unknownFlavour place flavour) ∧
      t'.warnings.filterMap (·.flavour?) = t.warnings.filterMap (·.flavour?) ∧
      t'.eventCount = t.eventCount ∧
      ∀ s : Session, s.load t' = s.load t ∧ (s.load t').graph.detect = (s.load t).graph.detect := by
  obtain ⟨t', ht', hthreads, htidied⟩ := exists_ofJson?_cleaned h
  refine ⟨t', ht', hthreads, htidied.exists_flavour, htidied.filterMap_eq, ?_, ?_⟩
  · unfold Trace.eventCount
    rw [hthreads]
  · intro s
    unfold Session.load Trace.script
    rw [hthreads]
    exact ⟨rfl, rfl⟩

theorem ofJson?_cleaned_patchy :
    ∃ t, Trace.ofJson? patchyJson = some t ∧ t.warnings.length = 6 ∧
      ∃ t', Trace.ofJson? patchyJson.cleaned = some t' ∧ t'.threads = t.threads ∧
        (∀ w ∈ t'.warnings, ∃ place flavour, w = .unknownFlavour place flavour) ∧
        t'.warnings.filterMap (·.flavour?) = t.warnings.filterMap (·.flavour?) ∧
        t'.eventCount = t.eventCount ∧
        ∀ s : Session, s.load t' = s.load t ∧ (s.load t').graph.detect = (s.load t).graph.detect := by
  have hread : (Trace.ofJson? patchyJson).map (·.warnings.length) = some 6 := by decide +kernel
  obtain ⟨t, ht, hlength⟩ := Option.map_eq_some_iff.mp hread
  exact ⟨t, ht, hlength, ofJson?_cleaned ht⟩

end Gridlock

import Mathlib.Data.List.Forall2
import Gridlock.Deadlock
import Gridlock.Proofs.Nesting
import Gridlock.Proofs.Reading

/-!
# Regions and flat lists of events

A trace can give what a thread does as regions or as a flat list of events. Written flat, a block is an entry
that takes its lock, then the entries of its body, then an entry that gives the lock back, which may leave out
the flavour. The two forms are read and followed as the same.

* `Json.Takes`, `Json.GivesBack` : the two entries of a block in a flat list
* `Flattened` : a list of regions and the same as a list of events
* `Unrolled` : both as they are read, `unrolled_of_flattened`; a session goes through both alike, `Unrolled.feed`,
  and both have the same size, `Unrolled.sizes`
* `Reshaped` : a thread in the one form and in the other
* `load_reshaped` : traces that differ in the forms of their threads
-/

namespace Gridlock

namespace Json

/-- The entry takes the lock of a block, under the same flavour. -/
structure Takes (a j : Json) : Prop where
  action : a.action? = some .acquire
  lock : a.field "resource" = j.field "resource"
  flavour : a.field "kind" = j.field "kind"

/-- The entry gives back the lock of a block, under the same flavour or without one. -/
structure GivesBack (b j : Json) : Prop where
  action : b.action? = some .release
  lock : b.field "resource" = j.field "resource"
  flavour : b.field "kind" = j.field "kind" ∨ b.field "kind" = .null

/-- The entry parks or unparks a thread, or tries a lock without waiting. -/
def Idle (j : Json) : Prop :=
  j.action? = some .park ∨ j.action? = some .unpark ∨
    j.action? = some .tryAcquire ∧ (j.field "timed").holds = false

end Json

/-- A list of regions, and the same as a list of events: idle entries stay as they are, and a block becomes the
entries around its body. -/
inductive Flattened : List Json → List Json → Prop
  | nil : Flattened [] []
  | idle {j : Json} {rest flat : List Json} (hj : j.Idle) (h : Flattened rest flat) :
    Flattened (j :: rest) (j :: flat)
  | block {j a b : Json} {inner rest flat : List Json} (hj : j.MakesBlock) (ha : a.Takes j) (hb : b.GivesBack j)
    (hbody : Flattened (j.entries "body") inner) (h : Flattened rest flat) :
    Flattened (j :: rest) (a :: inner ++ b :: flat)

/-! ## Both forms as they are read -/

structure Event.Takes (e : Event) (thread lock : Text) (flavour : Option Flavour) : Prop where
  action : e.action = .acquire
  thread : e.thread = thread
  lock : e.lock = some lock
  flavour : e.flavour = flavour

structure Event.GivesBack (e : Event) (thread lock : Text) (flavour : Option Flavour) : Prop where
  action : e.action = .release
  thread : e.thread = thread
  lock : e.lock = some lock
  flavour : e.flavour = flavour ∨ e.flavour = none

/-- A list of regions with idle events, and the same as a list of events. -/
inductive Unrolled (thread : Text) : List Region → List Event → Prop
  | nil : Unrolled thread [] []
  | event {e : Event} {rs : List Region} {es : List Event} (he : e.Idle) (h : Unrolled thread rs es) :
    Unrolled thread (.event e :: rs) (e :: es)
  | block {lock : Text} {flavour : Option Flavour} {body rs : List Region} {a b : Event}
    {inner es : List Event} (ha : a.Takes thread lock flavour) (hb : b.GivesBack thread lock flavour)
    (hbody : Unrolled thread body inner) (h : Unrolled thread rs es) :
    Unrolled thread (.block lock flavour body :: rs) (a :: inner ++ b :: es)

namespace Unrolled

variable {thread : Text} {rs : List Region} {es : List Event}

theorem allIdle (h : Unrolled thread rs es) : Region.AllIdle rs := by
  induction h with
  | nil => trivial
  | event he h ih => exact ⟨he, ih⟩
  | block ha hb hbody h ihbody ih => exact ⟨ihbody, ih⟩

/-- Both have the same number of operations. -/
theorem sizes (h : Unrolled thread rs es) : Region.sizes rs = es.length := by
  induction h with
  | nil => rfl
  | event he h ih =>
    rw [Region.sizes, Region.size, ih, List.length_cons]
    omega
  | block ha hb hbody h ihbody ih =>
    rw [Region.sizes, Region.size, ihbody, ih, List.cons_append, List.length_cons, List.length_append,
      List.length_cons]
    omega

/-- A lock that is taken around idle regions can be given back under its flavour or without one. -/
theorem release_around {lock : Text} {flavour flavour' : Option Flavour} (h : Region.AllIdle rs)
    (hf : flavour' = flavour ∨ flavour' = none) {s s' : Session}
    (hs : s' = (s.acquire thread (some lock) flavour).feed (Region.scripts thread rs)) :
    s'.release thread (some lock) flavour' = s'.release thread (some lock) flavour := by
  by_cases hl : lock = ""
  · subst hl
    rfl
  · have hh : s'.holdings thread = (s.holdings thread).push (lockKey lock flavour) (some lock) := by
      rw [hs, Session.holdings_feed_scripts h, Session.holdings_acquire hl]
    rw [Session.release_newest hl hh hf, Session.release_newest hl hh (Or.inl rfl)]

theorem apply_takes {e : Event} {lock : Text} {flavour : Option Flavour} (h : e.Takes thread lock flavour)
    (s : Session) : s.apply e = s.acquire thread (some lock) flavour := by
  rw [Session.apply, h.action, h.thread, h.lock, h.flavour]

theorem apply_givesBack {e : Event} {lock : Text} {flavour : Option Flavour}
    (h : e.GivesBack thread lock flavour) (s : Session) :
    s.apply e = s.release thread (some lock) e.flavour := by
  rw [Session.apply, h.action, h.thread, h.lock]

/-- A session goes through both alike. In a block both sessions are the same up to the event that gives the lock
back, and there the lock is the newest one. -/
theorem feed (h : Unrolled thread rs es) (s : Session) :
    s.feed (Region.scripts thread rs) = s.feed es := by
  induction h generalizing s with
  | nil => rfl
  | event he h ih => exact ih (s.apply _)
  | @block lock flavour body rs a b inner es ha hb hbody h ihbody ih =>
    have hinner := ihbody (s.acquire thread (some lock) flavour)
    have hback := release_around hbody.allIdle hb.flavour hinner.symm
    calc s.feed (Region.scripts thread (.block lock flavour body :: rs))
      _ = (((s.acquire thread (some lock) flavour).feed (Region.scripts thread body)).release thread (some lock)
            flavour).feed (Region.scripts thread rs) := by
          rw [Session.feed_scripts_cons, Session.feed_block]
      _ = (((s.acquire thread (some lock) flavour).feed inner).release thread (some lock) b.flavour).feed es := by
          rw [ih, hinner, hback]
      _ = s.feed (a :: inner ++ b :: es) := by
          rw [List.cons_append, Session.feed_cons, Session.feed_append, Session.feed_cons, apply_takes ha,
            apply_givesBack hb]

end Unrolled

/-! ## The events of an entry -/

section Event
variable (thread : Text) {j a b : Json}

/-- The event that an entry stands for, if it is kept. -/
def Json.event? (j : Json) : Option Event :=
  (readEvent thread (.thread thread) j).kept

theorem event?_of_makes {action : Action} (h : j.MakesEvent action) :
    j.event? thread = some (j.event thread action) := by
  rw [Json.event?, readEvent_of_makes thread _ h]

theorem kept_readEvent (place : Place) (j : Json) : (readEvent thread place j).kept = j.event? thread := by
  by_cases h : ∃ action, j.MakesEvent action
  · obtain ⟨action, h⟩ := h
    rw [readEvent_of_makes thread place h, event?_of_makes thread h]
  · rw [not_exists] at h
    obtain ⟨w, hw⟩ := readEvent_of_not_makes thread place h
    obtain ⟨w', hw'⟩ := readEvent_of_not_makes thread (.thread thread) h
    rw [Json.event?, hw, hw']
    rfl

theorem readEvents_fst (index : Nat) (items : List Json) :
    (readEvents thread index items).1 = items.filterMap (Json.event? thread) := by
  induction items generalizing index with
  | nil => rfl
  | cons j rest ih =>
    show (readEvent thread (.event thread index) j).kept.toList ++ (readEvents thread (index + 1) rest).1 = _
    rw [kept_readEvent, ih, List.filterMap_cons]
    cases j.event? thread <;> rfl

theorem idle_of_event? (h : j.Idle) : ∀ e ∈ j.event? thread, e.Idle := by
  intro e he
  by_cases hm : ∃ action, j.MakesEvent action
  · obtain ⟨action, hm⟩ := hm
    rw [event?_of_makes thread hm, Option.mem_some_iff] at he
    subst he
    have haction : j.action? = some action := hm.1
    simp only [Json.Idle, haction, Option.some.injEq] at h
    exact h
  · rw [not_exists] at hm
    obtain ⟨w, hw⟩ := readEvent_of_not_makes thread (.thread thread) hm
    rw [Json.event?, hw] at he
    cases he

theorem Json.Takes.event? (h : a.Takes j) (hj : j.MakesBlock) :
    ∃ e, a.event? thread = some e ∧ e.Takes thread j.lock j.takenFlavour := by
  have hheld : (a.field "resource").holds = true := by
    rw [h.lock]
    exact hj.2
  refine ⟨a.event thread .acquire, event?_of_makes thread ⟨h.action, fun _ => hheld⟩, rfl, rfl, ?_, ?_⟩
  · show (if (a.field "resource").holds then some a.lock else none) = some j.lock
    rw [if_pos hheld, Json.lock, h.lock, Json.lock]
  · show a.takenFlavour = j.takenFlavour
    unfold Json.takenFlavour Json.givenFlavour Json.lock
    rw [h.lock, h.flavour]

theorem Json.GivesBack.event? (h : b.GivesBack j) (hj : j.MakesBlock) :
    ∃ e, b.event? thread = some e ∧ e.GivesBack thread j.lock j.takenFlavour := by
  have hheld : (b.field "resource").holds = true := by
    rw [h.lock]
    exact hj.2
  refine ⟨b.event thread .release, event?_of_makes thread ⟨h.action, fun _ => hheld⟩, rfl, rfl, ?_, ?_⟩
  · show (if (b.field "resource").holds then some b.lock else none) = some j.lock
    rw [if_pos hheld, Json.lock, h.lock, Json.lock]
  · show b.givenFlavour = j.takenFlavour ∨ b.givenFlavour = none
    unfold Json.givenFlavour Json.takenFlavour
    by_cases hk : (b.field "kind").isNull = true
    · exact Or.inr (if_pos hk)
    · rcases h.flavour with hf | hf
      · rw [hf] at hk ⊢
        rw [if_neg hk, if_neg hk, Json.givenFlavour, if_neg hk]
        exact Or.inl rfl
      · exact absurd (by rw [hf]; rfl) hk

end Event

/-! ## Reading both forms -/

section Regions
variable (thread : Text) {regions flat : List Json}

theorem readRegions_cons_fst (path : List Nat) (index : Nat) (j : Json) (rest : List Json) :
    (readRegions thread path index (j :: rest)).1 =
      (readRegion thread (path ++ [index]) j).kept.toList ++ (readRegions thread path (index + 1) rest).1 := by
  rw [readRegions]

theorem kept_readRegion_of_idle {j : Json} (h : j.Idle) (path : List Nat) :
    (readRegion thread path j).kept = (j.event? thread).map .event := by
  have hop : (j.field? "op").isSome = true := by
    rcases h with h | h | ⟨h, -⟩
    · exact Json.field?_op_isSome h
    · exact Json.field?_op_isSome h
    · exact Json.field?_op_isSome h
  rw [readRegion_of_op thread path hop]
  show Option.map _ (readEvent thread (.region thread path) j).kept = _
  rw [kept_readEvent]

theorem unrolled_of_flattened (h : Flattened regions flat) (path : List Nat) (index : Nat) :
    Unrolled thread (readRegions thread path index regions).1 (flat.filterMap (Json.event? thread)) := by
  induction h generalizing path index with
  | nil =>
    rw [readRegions]
    exact .nil
  | @idle j rest flat hj h ih =>
    have hidle := idle_of_event? thread hj
    rw [readRegions_cons_fst, kept_readRegion_of_idle thread hj]
    cases he : j.event? thread with
    | none =>
      rw [List.filterMap_cons_none he]
      exact ih path (index + 1)
    | some e =>
      rw [List.filterMap_cons_some he]
      exact .event (hidle e he) (ih path (index + 1))
  | @block j a b inner rest flat hj ha hb hbody h ihbody ih =>
    obtain ⟨ea, hea, htakes⟩ := ha.event? thread hj
    obtain ⟨eb, heb, hgives⟩ := hb.event? thread hj
    rw [readRegions_cons_fst, readRegion_of_makesBlock thread _ hj, List.cons_append,
      List.filterMap_cons_some hea, List.filterMap_append, List.filterMap_cons_some heb]
    exact .block htakes hgives (ihbody (path ++ [index]) 0) (ih path (index + 1))

end Regions

/-! ## Both forms of a thread -/

/-- The same thread, given by its regions and by the flat list. -/
structure Reshaped (j j' : Json) : Prop where
  id : j.field "id" = j'.field "id"
  events : j.field "events" = .null
  regions' : j'.field "regions" = .null
  flattened : ∃ regions flat, j.field "regions" = .arr regions ∧ j'.field "events" = .arr flat ∧
    Flattened regions flat

/-- A session goes through both alike, and both have the same number of operations. -/
def ThreadTrace.Alike (t t' : ThreadTrace) : Prop :=
  (∀ s : Session, s.feed t.script = s.feed t'.script) ∧ t.eventCount = t'.eventCount

theorem alike_of_reshaped {j j' : Json} (h : Reshaped j j') (position : Nat) :
    Option.Rel ThreadTrace.Alike (readThread position j).kept (readThread position j').kept := by
  obtain ⟨regions, flat, hr, hf, hflat⟩ := h.flattened
  by_cases hm : j.MakesThread
  · have hm' : j'.MakesThread := by
      unfold Json.MakesThread at hm ⊢
      rwa [← h.id]
    have hnil (thread : Text) : readRegions thread [] 0 [] = ([], []) := by rw [readRegions]
    rw [readThread_of_makes position hm, readThread_of_makes position hm']
    simp only [Json.entries, hr, hf, h.events, h.regions', h.id, hnil, readEvents_fst]
    have hu := unrolled_of_flattened (j'.field "id").text hflat [] 0
    refine .some ⟨?_, ?_⟩
    · intro s
      show Session.feed _ (Region.scripts _ _) = Session.feed _ (flat.filterMap _ ++ [])
      rw [List.append_nil]
      exact hu.feed _
    · show 0 + Region.sizes _ = (flat.filterMap _).length + 0
      rw [Nat.zero_add]
      exact hu.sizes
  · have hm' : ¬ j'.MakesThread := by
      unfold Json.MakesThread at hm ⊢
      rwa [← h.id]
    obtain ⟨w, hw⟩ := readThread_of_not_makes position hm
    obtain ⟨w', hw'⟩ := readThread_of_not_makes position hm'
    rw [hw, hw']
    exact .none

/-! ## Traces -/

theorem ThreadTrace.Alike.refl (t : ThreadTrace) : t.Alike t :=
  ⟨fun _ => rfl, rfl⟩

/-- Threads of two traces, each given in the same form or first by its regions and then by the flat list. -/
def ThreadsReshaped (js js' : List Json) : Prop :=
  List.Forall₂ (fun j j' => j = j' ∨ Reshaped j j') js js'

theorem alike_readThread {j j' : Json} (h : j = j' ∨ Reshaped j j') (position : Nat) :
    Option.Rel ThreadTrace.Alike (readThread position j).kept (readThread position j').kept := by
  rcases h with rfl | h
  · cases (readThread position j).kept with
    | none => exact .none
    | some t => exact .some (.refl t)
  · exact alike_of_reshaped h position

theorem alike_readThreads {js js' : List Json} (h : ThreadsReshaped js js') (position : Nat) :
    List.Forall₂ ThreadTrace.Alike (readThreads position js).1 (readThreads position js').1 := by
  induction h generalizing position with
  | nil => exact .nil
  | @cons j j' js js' hj h ih =>
    have hrel := alike_readThread hj position
    show List.Forall₂ ThreadTrace.Alike
      ((readThread position j).kept.toList ++ (readThreads (position + 1) js).1)
      ((readThread position j').kept.toList ++ (readThreads (position + 1) js').1)
    generalize (readThread position j).kept = kept at hrel
    generalize (readThread position j').kept = kept' at hrel
    cases hrel with
    | some halike => exact .cons halike (ih (position + 1))
    | none => exact ih (position + 1)

section Alike
variable {ts ts' : List ThreadTrace} (h : List.Forall₂ ThreadTrace.Alike ts ts')
include h

theorem feed_of_alike (s : Session) : s.feed (ts.flatMap (·.script)) = s.feed (ts'.flatMap (·.script)) := by
  induction h generalizing s with
  | nil => rfl
  | cons halike h ih =>
    rw [List.flatMap_cons, List.flatMap_cons, Session.feed_append, Session.feed_append, halike.1 s, ih]

theorem eventCount_of_alike : Trace.eventCount { threads := ts } = Trace.eventCount { threads := ts' } := by
  induction h with
  | nil => rfl
  | @cons t t' ts ts' halike h ih =>
    show t.eventCount + Trace.eventCount { threads := ts } = t'.eventCount + Trace.eventCount { threads := ts' }
    rw [halike.2, ih]

end Alike

/-- Traces that give their threads by regions and by flat lists are both read, and a session that is fed with the
one or the other has the same graph, the same locks held by each thread, as many events and the same deadlocks. -/
theorem load_reshaped {v v' : Json} {js js' : List Json} (hv : threadList? v = some js)
    (hv' : threadList? v' = some js') (h : ThreadsReshaped js js') (s : Session) :
    ∃ t t', Trace.ofJson? v = some t ∧ Trace.ofJson? v' = some t' ∧
      (s.load t).graph = (s.load t').graph ∧ (∀ x, (s.load t).heldBy x = (s.load t').heldBy x) ∧
      t.eventCount = t'.eventCount ∧ (s.load t).graph.detect = (s.load t').graph.detect := by
  have halike := alike_readThreads h 0
  have hload : s.load { threads := (readThreads 0 js).1, warnings := (readThreads 0 js).2 } =
      s.load { threads := (readThreads 0 js').1, warnings := (readThreads 0 js').2 } :=
    feed_of_alike halike s
  refine ⟨_, _, ?_, ?_, congrArg _ hload, ?_, eventCount_of_alike halike, ?_⟩
  · rw [Trace.ofJson?, hv, Option.map_some]
  · rw [Trace.ofJson?, hv', Option.map_some]
  · intro x
    rw [hload]
  · rw [hload]

/-- A thread that takes a read lock twice inside the monitor of a class, and parks. -/
def nestedJson : Json :=
  let read (body : List Json) : Json :=
    .obj [("resource", .str "rw"), ("kind", .str "read_lock"), ("body", .arr body)]
  .obj [("threads", .arr [.obj [("id", .str "T"), ("regions", .arr [.obj [("resource", .str " Foo.class "),
    ("body", .arr [.obj [("op", .str "park")], read [read []]])]])]])]

/-- The same as a flat list, in which some locks are given back without their flavour. -/
def flatJson : Json :=
  .obj [("threads", .arr [.obj [("id", .str "T"), ("events", .arr [
    .obj [("op", .str "acquire"), ("resource", .str " Foo.class ")], .obj [("op", .str "park")],
    .obj [("op", .str "acquire"), ("resource", .str "rw"), ("kind", .str "read_lock")],
    .obj [("op", .str "acquire"), ("resource", .str "rw"), ("kind", .str "read_lock")],
    .obj [("op", .str "release"), ("resource", .str "rw")],
    .obj [("op", .str "release"), ("resource", .str "rw"), ("kind", .str "read_lock")],
    .obj [("op", .str "release"), ("resource", .str " Foo.class ")]])]])]

theorem load_reshaped_nested :
    ∃ js js', threadList? nestedJson = some js ∧ threadList? flatJson = some js' ∧ ThreadsReshaped js js' ∧
      ∃ t t', Trace.ofJson? nestedJson = some t ∧ Trace.ofJson? flatJson = some t' ∧
        (Session.load {} t).graph = (Session.load {} t').graph ∧
        (∀ x, (Session.load {} t).heldBy x = (Session.load {} t').heldBy x) ∧
        t.eventCount = t'.eventCount ∧
        (Session.load {} t).graph.detect = (Session.load {} t').graph.detect := by
  refine ⟨_, _, rfl, rfl, ?h, load_reshaped rfl rfl ?h {}⟩
  refine .cons (Or.inr ⟨rfl, rfl, rfl, _, _, rfl, rfl, ?_⟩) .nil
  refine @Flattened.block _ _ _ [_, _, _, _, _] _ [] ⟨rfl, by decide⟩ ⟨by decide, rfl, rfl⟩
    ⟨by decide, rfl, Or.inl rfl⟩ (.idle (Or.inl (by decide)) ?_) .nil
  refine @Flattened.block _ _ _ [_, _] _ [] ⟨rfl, by decide⟩ ⟨by decide, rfl, rfl⟩
    ⟨by decide, rfl, Or.inl rfl⟩ ?_ .nil
  exact @Flattened.block _ _ _ [] _ [] ⟨rfl, by decide⟩ ⟨by decide, rfl, rfl⟩
    ⟨by decide, rfl, Or.inr rfl⟩ .nil .nil

end Gridlock

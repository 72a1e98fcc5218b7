import Gridlock.Proofs.Account

/-!
# Locks whose name is blank

An entry of a trace that should name a lock is kept if the name is not empty. The blanks around the name are cut off
only then, so an entry whose name consists of blanks is kept with an empty name, and sessions pass over it.

* `Text.Trimmed`, `Text.trim_eq_empty_iff` : what trimming leaves
* `Json.isBlankText`, `Json.trim_text_eq_empty_iff` : which values are blank as names
* `Json.LockWithin`, `Json.LockEntry` : the entries that are kept and name a lock
* `RegionEntry.exists_lockWithin`, `Json.LockWithin.exists_event` : they are where the names in a region come from
* `ofJson?_lockNames` : when all lock operations of a trace name a lock
-/

namespace Gridlock

/-! ## Trimming -/

namespace Text

def Trimmed (s : Text) : Prop :=
  (∀ p ∈ s.points.head?, p.isBlank = false) ∧ ∀ p ∈ s.points.getLast?, p.isBlank = false

theorem trimmed_trim (s : Text) : Trimmed (trim s) := by
  unfold Trimmed trim
  rw [points_ofPoints]
  constructor
  · intro p hp
    have hhead := List.head?_dropWhile_not CodePoint.isBlank (trimPoints s.points)
    rw [dropWhile_isBlank_trimPoints, hp] at hhead
    exact hhead
  · intro p hp
    obtain ⟨hne, rfl⟩ := List.mem_getLast?_eq_getLast hp
    exact Bool.eq_false_iff.mpr
      (List.rdropWhile_last_not CodePoint.isBlank (s.points.dropWhile CodePoint.isBlank) hne)

theorem eq_empty_iff {s : Text} : s = "" ↔ s.points = [] :=
  ⟨fun h => h ▸ rfl, fun h => points_injective h⟩

theorem trim_eq_empty_iff {s : Text} : trim s = "" ↔ ∀ p ∈ s.points, p.isBlank = true := by
  rw [eq_empty_iff, trim, points_ofPoints, trimPoints, trimEndPoints_eq_rdropWhile, List.rdropWhile_eq_nil_iff]
  constructor
  · intro h p hp
    rw [← List.takeWhile_append_dropWhile (p := CodePoint.isBlank) (l := s.points), List.mem_append] at hp
    exact hp.elim List.mem_takeWhile_imp (h p)
  · intro h p hp
    exact h p ((List.dropWhile_sublist _).mem hp)

/-- The text is more than blanks. -/
def Shows (s : List Char) : Prop :=
  ∃ c ∈ s, isBlank c = false

theorem trim_plain_ne_empty {s : String} (h : Shows s.toList) : trim s ≠ "" := by
  obtain ⟨c, hc, hblank⟩ := h
  intro he
  have hall := trim_eq_empty_iff.mp he (.char c) (List.mem_map_of_mem hc)
  rw [CodePoint.isBlank, hblank] at hall
  cases hall

theorem isBlank_eq_false_of_isDigit {c : Char} (h : c.isDigit = true) : isBlank c = false := by
  have hdigit : 48 ≤ c.toNat ∧ c.toNat ≤ 57 := by
    simpa [Char.isDigit, UInt32.le_iff_toNat_le] using h
  unfold isBlank
  simp only [Bool.or_eq_false_iff, Bool.and_eq_false_iff, decide_eq_false_iff_not, beq_eq_false_iff_ne]
  omega

theorem shows_toDigits (n : Nat) : Shows (Nat.toDigits 10 n) := by
  obtain ⟨c, hc⟩ := List.exists_mem_of_ne_nil _ (Nat.toDigits_ne_nil (n := n) (b := 10))
  exact ⟨c, hc, isBlank_eq_false_of_isDigit (Nat.isDigit_of_mem_toDigits (by decide) (by decide) hc)⟩

end Text

namespace Number
open Text (Shows)

theorem shows_signed (negative : Bool) {s : List Char} (h : Shows s) : Shows (signed negative s).toList := by
  obtain ⟨c, hc, hblank⟩ := h
  refine ⟨c, ?_, hblank⟩
  unfold signed
  rw [String.toList_ofList]
  split
  · exact List.mem_cons_of_mem _ hc
  · exact hc

/-- A number with a fraction has a point or the mark of an exponent. -/
theorem shows_layout {digits : List Char} (h : digits ≠ []) (point : Int) : Shows (layout digits point) := by
  unfold layout
  split
  · split
    · exact ⟨'.', by simp, rfl⟩
    · split
      · exact ⟨'.', by simp, rfl⟩
      · exact ⟨'.', by simp, rfl⟩
  · split
    · exact absurd rfl h
    · exact ⟨'e', by simp, rfl⟩
    · exact ⟨'e', by simp, rfl⟩

theorem shows_text : ∀ n : Number, Shows n.text.toList
  | whole n => shows_signed _ (Text.shows_toDigits _)
  | real .undefined => ⟨'n', by decide, rfl⟩
  | real (.infinite negative) => shows_signed negative ⟨'i', by decide, rfl⟩
  | real (.finite negative m q) => by
    rw [text, Binary64.text]
    split
    · exact shows_signed negative ⟨'0', by decide, rfl⟩
    · exact shows_signed negative (shows_layout Nat.toDigits_ne_nil _)

end Number

namespace Json

/-- A text that is not empty and consists of blanks. -/
def isBlankText : Json → Bool
  | str s => s ≠ "" && s.points.all CodePoint.isBlank
  | _ => false

theorem shows_display (j : Json) (h : ∀ s, j ≠ .str s) : Text.Shows j.display.toList := by
  cases j with
  | null => exact ⟨'N', by decide, rfl⟩
  | bool b => cases b with
    | true => exact ⟨'T', by decide, rfl⟩
    | false => exact ⟨'F', by decide, rfl⟩
  | num n =>
    rw [display]
    exact Number.shows_text n
  | str s => exact absurd rfl (h s)
  | arr items =>
    rw [display]
    exact ⟨'[', by simp, rfl⟩
  | obj fields =>
    rw [display]
    exact ⟨'\x7b', by simp, rfl⟩

/-- Of the values that say something, only a blank text is empty as a name. -/
theorem trim_text_eq_empty_iff {j : Json} (h : j.holds = true) : Text.trim j.text = "" ↔ j.isBlankText = true := by
  by_cases hs : ∃ s, j = .str s
  · obtain ⟨s, rfl⟩ := hs
    have hne : s ≠ "" := by simpa [holds] using h
    show Text.trim s = "" ↔ _
    rw [Text.trim_eq_empty_iff]
    simp [isBlankText, hne]
  · rw [not_exists] at hs
    have hshows := shows_display j hs
    have htext : j.text = j.display := by
      cases j with
      | str s => exact absurd rfl (hs s)
      | _ => rfl
    have hblank : j.isBlankText = false := by
      cases j with
      | str s => exact absurd rfl (hs s)
      | _ => rfl
    rw [htext, hblank]
    simpa using Text.trim_plain_ne_empty hshows

/-! ## Entries that name a lock -/

/-- The entry is kept as an event, and the event is about a lock. -/
def MakesLockEvent (j : Json) : Prop :=
  ∃ action, j.MakesEvent action ∧ action.needsLock = true

/-- In an entry of a list of regions, `k` is kept and names a lock: it is the entry itself or an entry in a body, and it
is an event about a lock or a block. -/
inductive LockWithin : Json → Json → Prop
  | event {j : Json} (h : j.MakesLockEvent) : LockWithin j j
  | block {j : Json} (h : j.MakesBlock) : LockWithin j j
  | inside {j j' k : Json} (h : j.MakesBlock) (hin : j' ∈ j.entries "body") (hk : LockWithin j' k) : LockWithin j k

/-- In an entry of a list of threads, `k` is kept and names a lock. -/
def LockOfThread (j k : Json) : Prop :=
  j.MakesThread ∧ (k ∈ j.entries "events" ∧ k.MakesLockEvent ∨ ∃ r ∈ j.entries "regions", r.LockWithin k)

/-- In a value that is read as a trace, `k` is an entry that is kept and names a lock. -/
def LockEntry (j k : Json) : Prop :=
  ∃ items, threadList? j = some items ∧ ∃ thread ∈ items, thread.LockOfThread k

theorem MakesLockEvent.holds {j : Json} (h : j.MakesLockEvent) : (j.field "resource").holds = true := by
  obtain ⟨action, hmakes, hneeds⟩ := h
  exact hmakes.2 hneeds

theorem LockWithin.holds {j k : Json} (h : j.LockWithin k) : (k.field "resource").holds = true := by
  induction h with
  | event h => exact h.holds
  | block h => exact h.2
  | inside h hin hk ih => exact ih

theorem LockEntry.holds {j k : Json} (h : j.LockEntry k) : (k.field "resource").holds = true := by
  obtain ⟨items, -, thread, -, -, ⟨-, hevent⟩ | ⟨r, -, hr⟩⟩ := h
  · exact hevent.holds
  · exact hr.holds

theorem MakesEvent.unique {j : Json} {action action' : Action} (h : j.MakesEvent action) (h' : j.MakesEvent action') :
    action = action' :=
  Option.some.inj (h.1.symm.trans h'.1)

theorem not_makesEvent_of_makesBlock {j : Json} (h : j.MakesBlock) : j.MakesNoEvent := by
  intro action hevent
  have hop := field?_op_isSome hevent.1
  rw [h.1] at hop
  cases hop

theorem LockWithin.not_makesNoRegion {j k : Json} (h : j.LockWithin k) : ¬ j.MakesNoRegion := by
  rintro ⟨hevent, hblock⟩
  cases h with
  | event h =>
    obtain ⟨action, hmakes, -⟩ := h
    exact hevent action hmakes
  | block h => exact hblock h
  | inside h hin hk => exact hblock h

theorem lock_event {thread : Text} {j : Json} {action : Action} (h : j.MakesEvent action)
    (hneeds : action.needsLock = true) : (j.event thread action).lock = some j.lock :=
  if_pos (h.2 hneeds)

end Json

/-! ## Where the names come from -/

theorem Retained.exists_kept {β : Type} {keeps : Json → β → Tally → Prop} {skips : Json → Prop}
    {items : List Json} {kept : List β} {n : Tally} (h : Retained keeps skips items kept n) :
    ∀ j ∈ items, skips j ∨ ∃ b ∈ kept, ∃ m, keeps j b m := by
  induction h with
  | nil => simp
  | skip hj h ih =>
    intro j hmem
    rcases List.mem_cons.mp hmem with rfl | hmem
    · exact Or.inl hj
    · exact ih j hmem
  | @keep j b _ _ m _ hj h ih =>
    intro j' hmem
    rcases List.mem_cons.mp hmem with rfl | hmem
    · exact Or.inr ⟨b, List.mem_cons_self, m, hj⟩
    · refine (ih j' hmem).imp_right ?_
      rintro ⟨b', hb', hkeeps⟩
      exact ⟨b', List.mem_cons_of_mem b hb', hkeeps⟩

mutual

/-- The locks that a region names are named by its entry or by entries in it. -/
theorem RegionEntry.exists_lockWithin {thread : Text} {j : Json} {r : Region} {n : Tally} :
    RegionEntry thread j r n → ∀ e ∈ r.script thread, e.action.needsLock = true →
      ∃ k, j.LockWithin k ∧ e.lock = some k.lock
  | .event h => by
    simp only [Region.script, List.mem_singleton, forall_eq]
    intro hneeds
    exact ⟨j, .event ⟨_, h, hneeds⟩, Json.lock_event h hneeds⟩
  | .block h hbody => by
    have hin := hbody.exists_lockWithin
    intro e he hneeds
    simp only [Region.script, List.mem_cons, List.mem_append, List.not_mem_nil, or_false] at he
    rcases he with rfl | he | rfl
    · exact ⟨j, .block h, rfl⟩
    · obtain ⟨j', hj', k, hk, hlock⟩ := hin e he hneeds
      exact ⟨k, .inside h hj' hk, hlock⟩
    · exact ⟨j, .block h, rfl⟩

theorem Retained.exists_lockWithin {thread : Text} {items : List Json} {kept : List Region} {n : Tally} :
    Retained (RegionEntry thread) Json.MakesNoRegion items kept n →
      ∀ e ∈ Region.scripts thread kept, e.action.needsLock = true →
        ∃ j ∈ items, ∃ k, j.LockWithin k ∧ e.lock = some k.lock
  | .nil => by simp [Region.scripts]
  | .skip _ h => by
    have hrest := h.exists_lockWithin
    intro e he hneeds
    obtain ⟨j, hj, hk⟩ := hrest e he hneeds
    exact ⟨j, List.mem_cons_of_mem _ hj, hk⟩
  | .keep hj h => by
    have hfirst := hj.exists_lockWithin
    have hrest := h.exists_lockWithin
    intro e he hneeds
    rcases List.mem_append.mp he with he | he
    · exact ⟨_, List.mem_cons_self, hfirst e he hneeds⟩
    · obtain ⟨j, hj, hk⟩ := hrest e he hneeds
      exact ⟨j, List.mem_cons_of_mem _ hj, hk⟩

end

theorem mem_scripts {thread : Text} {r : Region} {rs : List Region} (h : r ∈ rs) {e : Event}
    (he : e ∈ r.script thread) : e ∈ Region.scripts thread rs := by
  induction rs with
  | nil => cases h
  | cons r' rs ih =>
    rw [Region.scripts, List.mem_append]
    rcases List.mem_cons.mp h with rfl | h
    · exact Or.inl he
    · exact Or.inr (ih h)

/-- All entries that are kept and name a lock show in the script. -/
theorem Json.LockWithin.exists_event {thread : Text} {j k : Json} (h : j.LockWithin k) :
    ∀ {r : Region} {n : Tally}, RegionEntry thread j r n →
      ∃ e ∈ r.script thread, e.action.needsLock = true ∧ e.lock = some k.lock := by
  induction h with
  | @event j h =>
    intro r n hr
    obtain ⟨action, hmakes, hneeds⟩ := h
    cases hr with
    | event hmakes' =>
      obtain rfl := hmakes.unique hmakes'
      exact ⟨_, List.mem_singleton.mpr rfl, hneeds, lock_event hmakes hneeds⟩
    | block hblock hbody => exact absurd hmakes (not_makesEvent_of_makesBlock hblock action)
  | @block j h =>
    intro r n hr
    cases hr with
    | event hmakes => exact absurd hmakes (not_makesEvent_of_makesBlock h _)
    | block hblock hbody => exact ⟨_, List.mem_cons_self, rfl, rfl⟩
  | @inside j j' k h hin hk ih =>
    intro r n hr
    cases hr with
    | event hmakes => exact absurd hmakes (not_makesEvent_of_makesBlock h _)
    | block hblock hbody =>
      obtain ⟨r', hr', m, hkeeps⟩ := (hbody.exists_kept j' hin).resolve_left hk.not_makesNoRegion
      obtain ⟨e, he, hlock⟩ := ih hkeeps
      refine ⟨e, ?_, hlock⟩
      rw [Region.script]
      exact List.mem_cons_of_mem _ (List.mem_append_left _ (mem_scripts hr' he))

theorem ThreadEntry.exists_lockOfThread {j : Json} {t : ThreadTrace} {n : Tally} (h : ThreadEntry j t n) :
    ∀ e ∈ t.script, e.action.needsLock = true → ∃ k, j.LockOfThread k ∧ e.lock = some k.lock := by
  obtain ⟨hthread, hevents, hregions⟩ := h
  intro e he hneeds
  rcases List.mem_cons.mp he with rfl | he
  · cases hneeds
  · rcases List.mem_append.mp he with he | he
    · obtain ⟨k, hk, m, hkeeps⟩ := hevents.exists_entry e he
      obtain ⟨hmakes⟩ := hkeeps
      exact ⟨k, ⟨hthread, Or.inl ⟨hk, _, hmakes, hneeds⟩⟩, Json.lock_event hmakes hneeds⟩
    · obtain ⟨r, hr, k, hk, hlock⟩ := hregions.exists_lockWithin e he hneeds
      exact ⟨k, ⟨hthread, Or.inr ⟨r, hr, hk⟩⟩, hlock⟩

theorem Json.LockOfThread.exists_event {j k : Json} {t : ThreadTrace} {n : Tally} (h : j.LockOfThread k)
    (ht : ThreadEntry j t n) : ∃ e ∈ t.script, e.action.needsLock = true ∧ e.lock = some k.lock := by
  obtain ⟨-, hevents, hregions⟩ := ht
  rcases h.2 with ⟨hk, action, hmakes, hneeds⟩ | ⟨r, hr, hk⟩
  · obtain ⟨e, he, m, hkeeps⟩ := (hevents.exists_kept k hk).resolve_left fun hnone => hnone action hmakes
    cases hkeeps with
    | event hmakes' =>
      obtain rfl := hmakes.unique hmakes'
      exact ⟨_, List.mem_cons_of_mem _ (List.mem_append_left _ he), hneeds, lock_event hmakes hneeds⟩
  · obtain ⟨region, hregion, m, hkeeps⟩ := (hregions.exists_kept r hr).resolve_left hk.not_makesNoRegion
    obtain ⟨e, he, hlock⟩ := hk.exists_event hkeeps
    exact ⟨e, List.mem_cons_of_mem _ (List.mem_append_right _ (mem_scripts hregion he)), hlock⟩

/-! ## Whole traces -/

section Trace
variable {j : Json} {t : Trace} (h : Trace.ofJson? j = some t)
include h

theorem exists_lockEntry : ∀ e ∈ t.script, e.action.needsLock = true → ∃ k, j.LockEntry k ∧ e.lock = some k.lock := by
  obtain ⟨items, hitems, rfl⟩ := Option.map_eq_some_iff.mp h
  obtain ⟨n, hthreads, -⟩ := readThreads_retained 0 items
  intro e he hneeds
  obtain ⟨entry, hentry, he⟩ := List.mem_flatMap.mp he
  obtain ⟨thread, hthread, m, hkeeps⟩ := hthreads.exists_entry entry hentry
  obtain ⟨k, hk, hlock⟩ := hkeeps.exists_lockOfThread e he hneeds
  exact ⟨k, ⟨items, hitems, thread, hthread, hk⟩, hlock⟩

theorem exists_event_of_lockEntry {k : Json} (hk : j.LockEntry k) :
    ∃ e ∈ t.script, e.action.needsLock = true ∧ e.lock = some k.lock := by
  obtain ⟨items, hitems, rfl⟩ := Option.map_eq_some_iff.mp h
  obtain ⟨n, hthreads, -⟩ := readThreads_retained 0 items
  obtain ⟨items', hitems', thread, hthread, hk⟩ := hk
  rw [hitems, Option.some.injEq] at hitems'
  subst hitems'
  obtain ⟨entry, hentry, m, hkeeps⟩ := (hthreads.exists_kept thread hthread).resolve_left fun hnone => hnone hk.1
  obtain ⟨e, he, hlock⟩ := hk.exists_event hkeeps
  exact ⟨e, List.mem_flatMap.mpr ⟨entry, hentry, he⟩, hlock⟩

end Trace

theorem lock_eq_empty_iff {j k : Json} (h : j.LockEntry k) : k.lock = "" ↔ (k.field "resource").isBlankText = true :=
  Json.trim_text_eq_empty_iff h.holds

/-- Of a trace that is read, every operation on a lock gives the lock a name without blanks at its ends. This name is
never empty exactly if there is no entry that is kept and names its lock by a blank text: for such an entry the name is
empty, and a session that takes or gives back the lock does nothing. -/
theorem ofJson?_lockNames {j : Json} {t : Trace} (h : Trace.ofJson? j = some t) :
    (∀ e ∈ t.script, e.action.needsLock = true → ∃ name, e.lock = some name ∧ Text.Trimmed name) ∧
      ((∀ e ∈ t.script, e.action.needsLock = true → named? e.lock ≠ none) ↔
        ∀ k, j.LockEntry k → (k.field "resource").isBlankText = false) := by
  refine ⟨?_, ?_, ?_⟩
  · intro e he hneeds
    obtain ⟨k, -, hlock⟩ := exists_lockEntry h e he hneeds
    exact ⟨k.lock, hlock, Text.trimmed_trim _⟩
  · intro hnamed k hk
    obtain ⟨e, he, hneeds, hlock⟩ := exists_event_of_lockEntry h hk
    have hne := hnamed e he hneeds
    rw [← Bool.not_eq_true, ← lock_eq_empty_iff hk]
    intro hempty
    rw [hlock, hempty] at hne
    exact hne rfl
  · intro hblank e he hneeds
    obtain ⟨k, hk, hlock⟩ := exists_lockEntry h e he hneeds
    have hne : k.lock ≠ "" := by
      rw [ne_eq, lock_eq_empty_iff hk, hblank k hk]
      exact Bool.false_ne_true
    rw [hlock]
    simp [named?, hne]

/-- Names with blanks around them, a number as a name, and a block whose name is a wide space. -/
def sparseJson : Json :=
  .obj [("threads", .arr [.obj [("id", .str "T"),
    ("events", .arr [.obj [("op", .str "acquire"), ("resource", .str " L\n")],
      .obj [("op", .str "release"), ("resource", .num (.whole 5))]]),
    ("regions", .arr [.obj [("resource", .arr [.str " "]), ("body", .arr [
      .obj [("op", .str "park"), ("resource", .str " ")], .obj [("resource", .str "\u2003")]])]])]])]

def sparseLocks : List (Option Text) :=
  [none, some "L", some "5", some "[' ']", some "", some "", some "", some "[' ']"]

theorem ofJson?_lockNames_sparse : ∃ t, Trace.ofJson? sparseJson = some t ∧ t.script.map (·.lock) = sparseLocks ∧
    (∀ e ∈ t.script, e.action.needsLock = true → ∃ name, e.lock = some name ∧ Text.Trimmed name) ∧
    ((∀ e ∈ t.script, e.action.needsLock = true → named? e.lock ≠ none) ↔
      ∀ k, sparseJson.LockEntry k → (k.field "resource").isBlankText = false) := by
  have hread : (Trace.ofJson? sparseJson).map (·.script.map (·.lock)) = some sparseLocks := by
    decide +kernel
  obtain ⟨t, ht, hlocks⟩ := Option.map_eq_some_iff.mp hread
  exact ⟨t, ht, hlocks, ofJson?_lockNames ht⟩

def spaceJson : Json :=
  .obj [("threads", .arr [.obj [("id", .str "T"),
    ("events", .arr [.obj [("op", .str "acquire"), ("resource", .str " ")]])]])]

/-- The entry is kept with an empty name and without a warning, and no session takes a lock for it. -/
theorem ofJson?_space : ∃ t, Trace.ofJson? spaceJson = some t ∧ t.warnings = [] ∧
    ∃ e ∈ t.script, e.action = .acquire ∧ e.lock = some "" ∧ ∀ s : Session, s.apply e = s := by
  have hread : (Trace.ofJson? spaceJson).map (fun t => (t.warnings.length, t.script)) =
      some (0, [{ action := .start, thread := "T" },
        { action := .acquire, thread := "T", lock := some "", flavour := some .monitor }]) := by
    decide +kernel
  obtain ⟨t, ht, hparts⟩ := Option.map_eq_some_iff.mp hread
  obtain ⟨hwarnings, hscript⟩ := Prod.mk.inj hparts
  refine ⟨t, ht, List.eq_nil_of_length_eq_zero hwarnings, ?_⟩
  rw [hscript]
  exact ⟨_, List.mem_cons_of_mem _ List.mem_cons_self, rfl, rfl, fun s => rfl⟩

end Gridlock

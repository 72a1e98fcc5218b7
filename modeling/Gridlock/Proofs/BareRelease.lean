import Mathlib.Data.List.Forall2
import Gridlock.Proofs.Nesting

/-!
# Locks given back by their bare names

Under a flavour, a lock is looked for by its key. Without one, every entry answers that was taken under the name or
that has the name as its key. If each lock is always taken under the same flavour, and the key of a lock is neither the
key nor the name of another one, the two ways find the same entry.

* `Event.lockName?` : the lock that an event takes or gives back
* `Unambiguous` : each name has one flavour, and no two names can be taken for each other
* `Session.Labelled` : the stacks hold locks under their names and flavours; `Labelled.apply` : events keep this
* `Event.Bares`, `apply_bares` : an event, and the same event without its flavour
* `feed_bares` : a history, and the same one in which some locks are given back by their bare names
-/

namespace Gridlock

/-- The name of the lock that an event takes or gives back. An attempt counts if it waits for a while. -/
def Event.lockName? (e : Event) : Option Text :=
  if e.action = .acquire ∨ e.action = .tryAcquire ∧ e.timed = true ∨ e.action = .release then named? e.lock else none

def lockNames (events : List Event) : List Text :=
  events.filterMap Event.lockName?

/-- Each lock is taken under the flavour of its name, and given back under this flavour or under none. The key of a lock
is neither the key nor the name of another lock. -/
structure Unambiguous (flavourOf : Text → Option Flavour) (events : List Event) : Prop where
  flavour : ∀ e ∈ events, ∀ name ∈ e.lockName?,
    e.flavour = flavourOf name ∨ e.action = .release ∧ e.flavour = none
  apart : ∀ name ∈ lockNames events, ∀ name' ∈ lockNames events, name ≠ name' →
    lockKey name (flavourOf name) ≠ lockKey name' (flavourOf name') ∧ lockKey name (flavourOf name) ≠ name'

/-! ## What answers -/

theorem eraseP_congr {α : Type} {p q : α → Bool} {l : List α} (h : ∀ a ∈ l, p a = q a) : l.eraseP p = l.eraseP q := by
  induction l with
  | nil => rfl
  | cons a l ih =>
    have hrest := ih fun b hb => h b (List.mem_cons_of_mem a hb)
    rw [List.eraseP_cons, List.eraseP_cons, h a List.mem_cons_self, hrest]

namespace Holdings

theorem matchesHold_iff {key : Text} {name : Option Text} {x : Hold} :
    matchesHold key name x = true ↔ x.key = key ∨ name = some x.name := by
  simp [matchesHold]

theorem release?_congr {h : Holdings} {key key' : Text} {name name' : Option Text}
    (hmatch : ∀ x ∈ h.entries, matchesHold key name x = matchesHold key' name' x) :
    h.release? key name = h.release? key' name' := by
  have hany : h.entries.any (matchesHold key name) = h.entries.any (matchesHold key' name') := by
    rw [Bool.eq_iff_iff, List.any_eq_true, List.any_eq_true]
    refine exists_congr fun x => and_congr_right fun hx => ?_
    rw [hmatch x hx]
  unfold release?
  rw [hany, eraseP_congr hmatch]

end Holdings

namespace Session

variable {flavourOf : Text → Option Flavour} {events : List Event} {s : Session}

/-- Every lock that is held has a name of the history, and the key that goes with the flavour of this name. -/
def Labelled (s : Session) (flavourOf : Text → Option Flavour) (events : List Event) : Prop :=
  ∀ t, ∀ x ∈ (s.holdings t).entries, x.name ∈ lockNames events ∧ x.key = lockKey x.name (flavourOf x.name)

/-- The bare name finds what the flavour of the lock finds. -/
theorem release_bare (h : Unambiguous flavourOf events) (hs : s.Labelled flavourOf events) (thread : Text)
    {name : Text} (hname : name ∈ lockNames events) :
    s.release thread (some name) none = s.release thread (some name) (flavourOf name) := by
  cases hf : flavourOf name with
  | none => rfl
  | some f =>
    have hmatch : ∀ x ∈ (s.holdings thread).entries, Holdings.matchesHold name (some name) x =
        Holdings.matchesHold (lockKey name (some f)) none x := by
      intro x hx
      obtain ⟨hmem, hkey⟩ := hs thread x hx
      rw [Bool.eq_iff_iff, Holdings.matchesHold_iff, Holdings.matchesHold_iff]
      by_cases hxn : x.name = name
      · rw [hxn, hf] at hkey
        simp [hxn, hkey]
      · obtain ⟨hkeys, hbare⟩ := h.apart x.name hmem name hname hxn
        rw [hf, ← hkey] at hkeys
        rw [← hkey] at hbare
        simp [hkeys, hbare, Ne.symm hxn]
    have hreleasing : s.releasing? thread name none = s.releasing? thread name (some f) :=
      Holdings.release?_congr hmatch
    unfold release
    cases hn : named? (some name) with
    | none => rfl
    | some l =>
      obtain ⟨hl, -⟩ := named?_eq_some_iff.mp hn
      rw [Option.some.inj hl] at hreleasing
      simp only [hreleasing]

/-! ## What stands on a stack -/

theorem mem_entries_acquire {thread t : Text} {lock : Option Text} {flavour : Option Flavour} {x : Hold}
    (hx : x ∈ ((s.acquire thread lock flavour).holdings t).entries) :
    x ∈ (s.holdings t).entries ∨ ∃ name ∈ named? lock, x = ⟨name, lockKey name flavour⟩ := by
  by_cases ht : t = thread
  · subst ht
    cases hl : named? lock with
    | none =>
      rw [acquire_of_unnamed hl] at hx
      exact Or.inl hx
    | some name =>
      obtain ⟨rfl, hname⟩ := named?_eq_some_iff.mp hl
      rw [holdings_acquire hname, Holdings.push_some hname, List.mem_cons] at hx
      exact hx.symm.imp_right fun h => ⟨name, rfl, h⟩
  · rw [holdings_acquire_of_ne ht] at hx
    exact Or.inl hx

theorem mem_entries_release {thread t : Text} {lock : Option Text} {flavour : Option Flavour} {x : Hold}
    (hx : x ∈ ((s.release thread lock flavour).holdings t).entries) : x ∈ (s.holdings t).entries := by
  by_cases ht : t = thread
  · subst ht
    cases hl : named? lock with
    | none =>
      rw [release_of_unnamed hl] at hx
      exact hx
    | some name =>
      obtain ⟨rfl, hname⟩ := named?_eq_some_iff.mp hl
      rw [holdings_release hname] at hx
      exact List.mem_of_mem_eraseP hx
  · rw [holdings_release_of_ne ht] at hx
    exact hx

/-- What stands on a stack after an event stood there before, or is the lock that the event takes. -/
theorem mem_entries_apply {e : Event} {t : Text} {x : Hold} (hx : x ∈ ((s.apply e).holdings t).entries) :
    x ∈ (s.holdings t).entries ∨ e.action ≠ .release ∧ ∃ name ∈ e.lockName?, x = ⟨name, lockKey name e.flavour⟩ := by
  unfold apply at hx
  cases ha : e.action with
  | start =>
    simp only [ha] at hx
    by_cases ht : t = e.thread
    · rw [ht, holdings, start, Recorder.holdings_setHoldings_self] at hx
      cases hx
    · rw [holdings, start, Recorder.holdings_setHoldings_of_ne _ ht] at hx
      exact Or.inl hx
  | acquire =>
    simp only [ha] at hx
    refine (mem_entries_acquire hx).imp_right fun h => ⟨by simp, ?_⟩
    rwa [Event.lockName?, if_pos (by simp [ha])]
  | tryAcquire =>
    simp only [ha] at hx
    unfold tryAcquire at hx
    split at hx
    · next htimed =>
      refine (mem_entries_acquire hx).imp_right fun h => ⟨by simp, ?_⟩
      rwa [Event.lockName?, if_pos (by simp [ha, htimed])]
    · exact Or.inl hx
  | release =>
    simp only [ha] at hx
    exact Or.inl (mem_entries_release hx)
  | park =>
    simp only [ha] at hx
    exact Or.inl hx
  | unpark =>
    simp only [ha] at hx
    exact Or.inl hx

theorem mem_lockNames {e : Event} {name : Text} (he : e ∈ events) (hname : name ∈ e.lockName?) :
    name ∈ lockNames events :=
  List.mem_filterMap.mpr ⟨e, he, hname⟩

/-- Events of the history keep the stacks labelled. -/
theorem Labelled.apply (hs : s.Labelled flavourOf events) (h : Unambiguous flavourOf events) {e : Event}
    (he : e ∈ events) : (s.apply e).Labelled flavourOf events := by
  intro t x hx
  rcases mem_entries_apply hx with hx | ⟨ha, name, hname, rfl⟩
  · exact hs t x hx
  · have hflavour := (h.flavour e he name hname).resolve_right fun hrelease => ha hrelease.1
    exact ⟨mem_lockNames he hname, by rw [hflavour]⟩

end Session

/-! ## Histories -/

/-- The same event, or the same lock given back without its flavour. -/
def Event.Bares (e e' : Event) : Prop :=
  e' = e ∨ e.action = .release ∧ e' = { e with flavour := none }

instance (e e' : Event) : Decidable (e.Bares e') :=
  inferInstanceAs (Decidable (_ ∨ _))

namespace Session

variable {flavourOf : Text → Option Flavour} {events : List Event}

theorem apply_bares {s : Session} (h : Unambiguous flavourOf events) (hs : s.Labelled flavourOf events) {e e' : Event}
    (he : e ∈ events) (hb : e.Bares e') : s.apply e' = s.apply e := by
  rcases hb with rfl | ⟨ha, rfl⟩
  · rfl
  · unfold apply
    simp only [ha]
    cases hl : named? e.lock with
    | none => rw [release_of_unnamed hl, release_of_unnamed hl]
    | some name =>
      have hname : e.lockName? = some name := by rw [Event.lockName?, if_pos (by simp [ha]), hl]
      have hbare := release_bare h hs e.thread (mem_lockNames he hname)
      obtain ⟨hlock, -⟩ := named?_eq_some_iff.mp hl
      rw [hlock]
      rcases h.flavour e he name hname with hf | ⟨-, hf⟩
      · rw [hf, hbare]
      · rw [hf]

theorem feed_of_bares (h : Unambiguous flavourOf events) {es es' : List Event} (hb : List.Forall₂ Event.Bares es es')
    (hes : ∀ e ∈ es, e ∈ events) {s : Session} (hs : s.Labelled flavourOf events) : s.feed es' = s.feed es := by
  induction hb generalizing s with
  | nil => rfl
  | @cons e e' es es' hbare hb ih =>
    have he := hes e List.mem_cons_self
    rw [feed_cons, feed_cons, apply_bares h hs he hbare]
    refine ih ?_ (hs.apply h he)
    intro e'' he''
    exact hes e'' (List.mem_cons_of_mem e he'')

end Session

/-- In a history in which each name has one flavour and no lock can be taken for another, it makes no difference whether
a lock is given back under its flavour or by its bare name: at every point the session is the same, with the stacks
of all threads and the graph. -/
theorem feed_bares {flavourOf : Text → Option Flavour} {events events' : List Event}
    (h : Unambiguous flavourOf events) (hb : List.Forall₂ Event.Bares events events') (n : Nat) :
    Session.feed {} (events'.take n) = Session.feed {} (events.take n) := by
  have hempty : Session.Labelled {} flavourOf events := by
    intro t x hx
    cases hx
  exact Session.feed_of_bares h (List.forall₂_take n hb) (fun e he => List.mem_of_mem_take he) hempty

/-- The flavours of the locks below: a lock that is only read, and the monitor of a class. -/
def usualFlavour : Text → Option Flavour
  | "rw" => some .readView
  | "Foo.class" => some .classMonitor
  | _ => none

/-- A thread takes the read view twice around the monitor of a class. It gives the locks back out of order, the monitor
once too often, and takes a lock without a flavour in between. -/
def outOfTurn : List Event := [
  { action := .acquire, thread := "A", lock := some "rw", flavour := some .readView },
  { action := .acquire, thread := "A", lock := some "Foo.class", flavour := some .classMonitor },
  { action := .acquire, thread := "A", lock := some "rw", flavour := some .readView },
  { action := .release, thread := "A", lock := some "Foo.class", flavour := some .classMonitor },
  { action := .release, thread := "A", lock := some "rw", flavour := some .readView },
  { action := .release, thread := "A", lock := some "Foo.class", flavour := some .classMonitor },
  { action := .acquire, thread := "A", lock := some "L" },
  { action := .release, thread := "A", lock := some "rw", flavour := some .readView },
  { action := .acquire, thread := "A", lock := some "Foo.class", flavour := some .classMonitor }]

/-- The same, where all locks but one are given back by their bare names. -/
def outOfTurnBare : List Event :=
  outOfTurn.mapIdx fun i e => if e.action = .release ∧ i ≠ 4 then { e with flavour := none } else e

theorem feed_bares_outOfTurn :
    Unambiguous usualFlavour outOfTurn ∧ List.Forall₂ Event.Bares outOfTurn outOfTurnBare ∧
      outOfTurnBare ≠ outOfTurn ∧
      (Session.feed {} outOfTurn).heldBy "A" = (["L", "CLASS_Foo.class"] : List Text) ∧
      (Session.feed {} outOfTurn).graph.waits "A" = (["CLASS_Foo.class", "L", "CLASS_Foo.class"] : List Text) ∧
      Session.feed {} (outOfTurnBare.take 9) = Session.feed {} (outOfTurn.take 9) := by
  have hclear : Unambiguous usualFlavour outOfTurn := ⟨by decide, by decide⟩
  have hbares : List.Forall₂ Event.Bares outOfTurn outOfTurnBare := by decide
  exact ⟨hclear, hbares, by decide, by decide, by decide, feed_bares hclear hbares 9⟩

end Gridlock

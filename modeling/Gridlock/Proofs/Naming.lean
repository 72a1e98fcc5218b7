import Gridlock.Proofs.Consistency

/-!
# Names for threads that have none

A session numbers the names that it gives out, and the number is the last part of the name, after an underscore. The
parts before it are free text, which may hold underscores and digits of its own; still the number can be read off the
name, since a number holds no underscore. So two names of one session are never the same, unless the session has
forgotten how many it has given out.

* `Numbered` : a name that ends with a number; `Numbered.unique` : the number can be read off the name
* `Session.nameFor?`, `Session.names` : the names that calls give out
* `Call.forgets` : the calls after which the numbers begin anew
* `issued_apply`, `issued_call` : what a call does to the count; `numbered_of_mem_names` : what calls give out
* `nodup_names` : no name is given out twice; `names_distinct` : every call that asks
  gets a name, and all of them differ
-/

namespace Gridlock

/-! ## Numbers at the end of a name -/

/-- The last part of the name, after an underscore, is the number `n`. -/
def Numbered (name : Text) (n : Nat) : Prop :=
  ∃ front, name = front ++ "_" ++ Number.natText n

theorem eq_of_toDigits_eq {m n : Nat} (h : Nat.toDigits 10 m = Nat.toDigits 10 n) : m = n := by
  rw [← Nat.ofDigitChars_ten_toDigits (n := m), h, Nat.ofDigitChars_ten_toDigits]

/-- What comes after the last mark does not depend on what comes before it. -/
theorem eq_of_append_mark {α : Type} {mark : α} {front front' last last' : List α} (hlast : mark ∉ last)
    (hlast' : mark ∉ last') (h : front ++ mark :: last = front' ++ mark :: last') : last = last' := by
  rcases List.append_eq_append_iff.mp h with ⟨between, -, he⟩ | ⟨between, -, he⟩
  · cases between with
    | nil => exact (List.cons.inj he).2
    | cons x between =>
      refine absurd ?_ hlast
      rw [(List.cons.inj he).2]
      exact List.mem_append_right between List.mem_cons_self
  · cases between with
    | nil => exact (List.cons.inj he).2.symm
    | cons x between =>
      refine absurd ?_ hlast'
      rw [(List.cons.inj he).2]
      exact List.mem_append_right between List.mem_cons_self

theorem Numbered.unique {name : Text} {m n : Nat} (hm : Numbered name m) (hn : Numbered name n) : m = n := by
  obtain ⟨front, rfl⟩ := hm
  obtain ⟨front', he⟩ := hn
  have hmark (k : Nat) : CodePoint.char '_' ∉ (Nat.toDigits 10 k).map .char := by
    simp [Nat.underscore_not_in_toDigits]
  have hpoints : front.points ++ .char '_' :: (Nat.toDigits 10 m).map .char =
      front'.points ++ .char '_' :: (Nat.toDigits 10 n).map .char := by
    simpa [Text.points, Number.natText] using congrArg Text.points he
  exact eq_of_toDigits_eq (Text.map_char_inj (eq_of_append_mark (hmark m) (hmark n) hpoints))

/-! ## The names that calls give out -/

namespace Session

def Call.asksName : Call → Bool
  | .freshThreadName _ _ => true
  | _ => false

/-- Whether a call makes the session forget what its recorder knows. -/
def Call.forgets : Call → Bool
  | .resetRecorder | .reset => true
  | _ => false

def nameFor? (s : Session) : Call → Option Text
  | .freshThreadName owner offset => some (s.freshThreadName owner offset).1
  | _ => none

def names (s : Session) : List Call → List Text
  | [] => []
  | c :: calls => (s.nameFor? c).toList ++ (s.call c).names calls

variable {s : Session} {c : Call} {calls : List Call}

theorem nameFor?_of_script? {events : List Event} (h : c.script? = some events) (s : Session) :
    s.nameFor? c = none := by
  cases c with
  | freshThreadName owner offset => cases h
  | _ => rfl

theorem length_names (s : Session) (calls : List Call) : (s.names calls).length = calls.countP Call.asksName := by
  induction calls generalizing s with
  | nil => rfl
  | cons c calls ih =>
    have hone : (s.nameFor? c).toList.length = if c.asksName then 1 else 0 := by
      cases c <;> rfl
    rw [names, List.length_append, ih, hone, List.countP_cons, Nat.add_comm]

/-! ## The count of a session -/

theorem issued_acquire (s : Session) (thread : Text) (lock : Option Text) (flavour : Option Flavour) :
    (s.acquire thread lock flavour).recorder.issued = s.recorder.issued := by
  unfold acquire
  dsimp only
  split <;> rfl

theorem issued_release (s : Session) (thread : Text) (lock : Option Text) (flavour : Option Flavour) :
    (s.release thread lock flavour).recorder.issued = s.recorder.issued := by
  unfold release
  split
  · rfl
  · split <;> rfl

/-- Events do not change the count. -/
theorem issued_apply (s : Session) (e : Event) : (s.apply e).recorder.issued = s.recorder.issued := by
  unfold apply
  cases e.action with
  | acquire => exact s.issued_acquire _ _ _
  | tryAcquire =>
    dsimp only
    unfold tryAcquire
    split
    · exact s.issued_acquire _ _ _
    · rfl
  | release => exact s.issued_release _ _ _
  | _ => rfl

theorem issued_feed (s : Session) (events : List Event) : (s.feed events).recorder.issued = s.recorder.issued := by
  induction events generalizing s with
  | nil => rfl
  | cons e events ih => exact (ih (s.apply e)).trans (s.issued_apply e)

/-- A call that does not make the session forget counts the name that it gives out. -/
theorem issued_call (h : c.forgets = false) (s : Session) :
    (s.call c).recorder.issued = s.recorder.issued + (s.nameFor? c).toList.length := by
  cases hc : c.script? with
  | some events =>
    rw [call_of_script? hc, issued_feed, nameFor?_of_script? hc]
    rfl
  | none =>
    cases c with
    | freshThreadName owner offset => rfl
    | resetGraph => rfl
    | resetRecorder => cases h
    | reset => cases h
    | _ => cases hc

/-! ## No name is given out twice -/

theorem numbered_of_nameFor? {name : Text} (h : s.nameFor? c = some name) :
    Numbered name (s.recorder.issued + 1) := by
  cases c with
  | freshThreadName owner offset =>
    obtain rfl := Option.some.inj h
    exact ⟨_, rfl⟩
  | _ => cases h

/-- The numbers of the names that are given out are above the count. -/
theorem numbered_of_mem_names (h : ∀ c ∈ calls, c.forgets = false) (s : Session) {name : Text}
    (hname : name ∈ s.names calls) : ∃ n, s.recorder.issued < n ∧ Numbered name n := by
  induction calls generalizing s with
  | nil => cases hname
  | cons c calls ih =>
    obtain ⟨hc, hcalls⟩ := List.forall_mem_cons.mp h
    rcases List.mem_append.mp hname with hname | hname
    · exact ⟨_, Nat.lt_succ_self _, numbered_of_nameFor? (Option.mem_toList.mp hname)⟩
    · obtain ⟨n, hn, hnumbered⟩ := ih hcalls (s.call c) hname
      rw [issued_call hc] at hn
      exact ⟨n, by omega, hnumbered⟩

theorem nodup_names (h : ∀ c ∈ calls, c.forgets = false) (s : Session) : (s.names calls).Nodup := by
  induction calls generalizing s with
  | nil => exact .nil
  | cons c calls ih =>
    obtain ⟨hc, hcalls⟩ := List.forall_mem_cons.mp h
    have hlater := ih hcalls (s.call c)
    rw [names]
    cases hname : s.nameFor? c with
    | none => exact hlater
    | some name =>
      refine List.nodup_cons.mpr ⟨fun hmem => ?_, hlater⟩
      obtain ⟨n, hn, hnumbered⟩ := numbered_of_mem_names hcalls (s.call c) hmem
      have hnext := (numbered_of_nameFor? hname).unique hnumbered
      rw [issued_call hc, hname, Option.toList_some, List.length_singleton] at hn
      omega

/-- Every call that asks for a name gets one, and as long as the session does not forget what it has given out, all
these names are different, whatever the owners and the places in them are and whatever else is asked of the session. -/
theorem names_distinct (h : ∀ c ∈ calls, c.forgets = false) (s : Session) :
    (s.names calls).length = calls.countP Call.asksName ∧ (s.names calls).Nodup :=
  ⟨s.length_names calls, nodup_names h s⟩

/-- Names for owners whose text looks like the rest of a name, for no owner and for an owner without a name; in between
threads work and the graph is emptied. -/
def lookalikes : List Call := [
  .freshThreadName (some "A") (-1),
  .acquire "Thread_A_-1_1" (some "L") none,
  .freshThreadName (some "A_-1_1") 0,
  .resetGraph,
  .freshThreadName (some "A_-1") 1,
  .freshThreadName none 12,
  .feed [{ action := .start, thread := "Thread_AnonymousThread_12_4" }],
  .freshThreadName (some "") 12,
  .freshThreadName (some "AnonymousThread") 12]

theorem names_distinct_lookalikes : (∀ c ∈ lookalikes, c.forgets = false) ∧
    names {} lookalikes = (["Thread_A_-1_1", "Thread_A_-1_1_0_2", "Thread_A_-1_1_3", "Thread_AnonymousThread_12_4",
      "Thread_AnonymousThread_12_5", "Thread_AnonymousThread_12_6"] : List Text) ∧
    (names {} lookalikes).Nodup := by
  have h : ∀ c ∈ lookalikes, c.forgets = false := by decide
  exact ⟨h, by decide, (names_distinct h {}).2⟩

end Session

end Gridlock

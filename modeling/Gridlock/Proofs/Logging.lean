import Gridlock.Log.Registry

/-!
# Logs that leave the files alone

Only a handler that writes to a file can change one. None is there at first, and none comes in as long as loggers
are set up without a file. Up to then the files are what they were, whatever is logged.

* `Log.Registry.Unfiled` : no handler writes to a file
* `Unfiled.setup` : a logger that is set up without a file
* `unfiled_send`, `unfiled_sendAll` : one record, and a row of records
-/

namespace Gridlock

theorem Assoc.mem_put {κ ν : Type} [BEq κ] {k : κ} {v : ν} {l : List (κ × ν)} {e : κ × ν} (h : e ∈ put k v l) :
    e.2 = v ∨ e ∈ l := by
  induction l with
  | nil =>
    rw [put_nil, List.mem_singleton] at h
    exact Or.inl (congrArg Prod.snd h)
  | cons x l ih =>
    unfold put at h
    split at h
    · rcases List.mem_cons.mp h with rfl | h
      · exact Or.inl rfl
      · exact Or.inr (List.mem_cons_of_mem _ h)
    · rcases List.mem_cons.mp h with rfl | h
      · exact Or.inr List.mem_cons_self
      · exact (ih h).imp_right (List.mem_cons_of_mem _)

namespace Log

def Logger.Unfiled (l : Logger) : Prop :=
  ∀ h ∈ l.handlers, ∀ path, h.sink ≠ .file path

namespace Registry

/-- No handler writes to a file. -/
structure Unfiled (r : Registry) : Prop where
  root : r.root.Unfiled
  loggers : ∀ e ∈ r.loggers, e.2.Unfiled

theorem unfiled_initial : initial.Unfiled := by
  refine ⟨nofun, ?_⟩
  intro e he
  rw [initial, List.mem_singleton] at he
  subst he
  intro h hh
  rw [List.mem_singleton] at hh
  subst hh
  exact nofun

namespace Unfiled

variable {r : Registry} (h : r.Unfiled)
include h

theorem logger (name : String) : (r.logger name).Unfiled := by
  unfold Registry.logger
  split
  · exact h.root
  · cases hl : r.loggers.lookup name with
    | none => exact nofun
    | some l =>
      obtain ⟨before, after, hloggers, -⟩ := List.lookup_eq_some_iff.mp hl
      have hmem : (name, l) ∈ r.loggers := by
        rw [hloggers]
        exact List.mem_append_right before List.mem_cons_self
      exact h.loggers (name, l) hmem

theorem upwards (n : Nat) (name : Option String) : ∀ l ∈ r.upwards n name, l.Unfiled := by
  induction n generalizing name with
  | zero =>
    intro l hl
    rw [List.mem_singleton.mp hl]
    exact h.root
  | succ n ih =>
    cases name with
    | none =>
      intro l hl
      rw [List.mem_singleton.mp hl]
      exact h.root
    | some name =>
      intro l hl
      rcases List.mem_cons.mp hl with rfl | hl
      · exact h.logger name
      · exact ih _ l hl

theorem handlers (name : String) : ∀ x ∈ r.handlers name, ∀ path, x.sink ≠ .file path := by
  intro x hx
  obtain ⟨l, hl, hx⟩ := List.mem_flatMap.mp hx
  unfold Registry.chain at hl
  split at hl
  · rw [List.mem_singleton.mp hl] at hx
    exact h.root x hx
  · exact h.upwards _ _ l hl x hx

theorem know (name : String) : (r.know name).Unfiled := by
  unfold Registry.know
  split
  · exact h
  · refine ⟨h.root, ?_⟩
    intro e he
    rcases List.mem_append.mp he with he | he
    · obtain ⟨e', he', rfl⟩ := List.mem_map.mp he
      split
      · exact h.loggers e' he'
      · exact h.loggers e' he'
    · rw [List.mem_singleton.mp he]
      exact nofun

theorem update {l : Logger} (hl : l.Unfiled) (name : String) : (r.update name l).Unfiled := by
  unfold Registry.update
  split
  · exact ⟨hl, h.loggers⟩
  · refine ⟨h.root, ?_⟩
    intro e he
    rcases Assoc.mem_put he with he | he
    · rw [he]
      exact hl
    · exact h.loggers e he

/-- Setting up a logger without a file leaves the files alone. -/
theorem setup (files : FileTree) (name : String) (level : Int) :
    ∃ r', r.setup files name level none = (r', .ok files) ∧ r'.Unfiled := by
  have hknown : Unfiled { r.know name with decisions := [] } := ⟨(h.know name).root, (h.know name).loggers⟩
  unfold Registry.setup
  dsimp only
  split
  · refine ⟨_, rfl, hknown.update ?_ name⟩
    intro x hx
    obtain ⟨x', hx', rfl⟩ := List.mem_map.mp hx
    exact hknown.logger name x' hx'
  · refine ⟨_, rfl, hknown.update ?_ name⟩
    intro x hx
    obtain ⟨x', hx', rfl⟩ := List.mem_map.mp hx
    rcases List.mem_append.mp hx' with hx' | hx'
    · exact hknown.logger name x' hx'
    · rw [List.mem_singleton.mp hx']
      exact nofun

theorem files_handle (now : Moment) (c : Console) (x : Record) : (r.handle now c x).files = c.files := by
  have hfold (hs : List Handler) (hhs : ∀ y ∈ hs, ∀ path, y.sink ≠ .file path) (line : Text) (c : Console) :
      (hs.foldl (fun c y => deliver c line y.sink) c).files = c.files := by
    induction hs generalizing c with
    | nil => rfl
    | cons y hs ih =>
      rw [List.foldl_cons, ih fun y' hy' => hhs y' (List.mem_cons_of_mem y hy')]
      cases hs : y.sink with
      | nothing => rfl
      | console => rfl
      | file path => exact absurd hs (hhs y List.mem_cons_self path)
  unfold Registry.handle
  split
  · split <;> rfl
  · exact hfold _ (fun y hy => h.handlers x.source y (List.mem_filter.mp hy).1) _ c

end Unfiled

theorem unfiled_send (now : Moment) (rc : Registry × Console) (h : rc.1.Unfiled) (x : Record) :
    (send now rc x).1.Unfiled ∧ (send now rc x).2.files = rc.2.files := by
  have hsettled : ((rc.1.know x.source).settle x).Unfiled := ⟨(h.know x.source).root, (h.know x.source).loggers⟩
  refine ⟨hsettled, ?_⟩
  unfold send
  dsimp only
  split
  · exact hsettled.files_handle now rc.2 x
  · rfl

theorem unfiled_sendAll (now : Moment) (rc : Registry × Console) (h : rc.1.Unfiled) (records : List Record) :
    (sendAll now rc records).1.Unfiled ∧ (sendAll now rc records).2.files = rc.2.files := by
  unfold sendAll
  induction records generalizing rc with
  | nil => exact ⟨h, rfl⟩
  | cons x records ih =>
    obtain ⟨hx, hfiles⟩ := unfiled_send now rc h x
    rw [List.foldl_cons, ← hfiles]
    exact ih _ hx

end Registry

end Log

end Gridlock

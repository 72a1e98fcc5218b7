import Gridlock.File.Tree

/-!
# Writing to files and finding them

A file can be written if its path can be followed to the end, and there is a file that may be opened or nothing yet.
Writing does not change where paths lead that could be followed before, since they lead through directories only.

* `FileTree.Writable` : there can be a file at the path
* `FileTree.writable_iff` : the path can be followed to a file that may be opened, or to nothing
* `FileTree.Writable.write_plain`, `FileTree.Writable.write_unencodable` : what becomes of the file
* `FileTree.read_replace` : what was written can be read
* `FileTree.Writable.replace` : writing one file does not keep another one from being written
* `FileTree.OnePart`, `FileTree.OnePart.lookup_eq` : names that are looked up where one is, unless they are too long
-/

namespace Gridlock.FileTree

variable {t t' : FileTree} {path : String} {spot : List String} {content : ByteArray}

/-! ## Following paths -/

theorem bind_eq_ok_iff {ε α β : Type} {x : Except ε α} {f : α → Except ε β} {b : β} :
    x >>= f = .ok b ↔ ∃ a, x = .ok a ∧ f a = .ok b := by
  cases x with
  | error e => exact ⟨nofun, nofun⟩
  | ok a => exact ⟨fun h => ⟨a, rfl, h⟩, fun ⟨_, ha, h⟩ => Except.ok.inj ha ▸ h⟩

theorem exists_slashParts_eq (path : String) : ∃ init last, slashParts path = init ++ [last] := by
  have hne : slashParts path ≠ [] := by
    unfold slashParts
    rw [ne_eq, List.map_eq_nil_iff]
    exact List.splitOn_ne_nil _ _
  exact ⟨_, _, (List.dropLast_concat_getLast hne).symm⟩

theorem dropSlashes_concat_of_ne {last : String} (h : last ≠ "") (init : List String) :
    dropSlashes (init ++ [last]) = init ++ [last] := by
  unfold dropSlashes
  rw [List.reverse_append, List.reverse_singleton, List.singleton_append,
    List.dropWhile_cons_of_neg (by simpa using h), List.reverse_cons, List.reverse_reverse]

theorem follow_concat (t : FileTree) (spot init : List String) (last : String) :
    t.follow spot (init ++ [last]) = (t.follow spot init >>= fun d => t.enter d last) := by
  induction init generalizing spot with
  | nil =>
    show (t.enter spot last >>= fun d => t.follow d []) = t.enter spot last
    cases t.enter spot last <;> rfl
  | cons part init ih =>
    show (t.enter spot part >>= fun d => t.follow d (init ++ [last])) =
      (t.enter spot part >>= fun d => t.follow d init) >>= _
    cases t.enter spot part with
    | error e => rfl
    | ok d => exact ih d

/-- A step along a path starts at a directory. -/
theorem entryAt_of_enter {part : String} {next : List String} (h : t.enter spot part = .ok next) :
    t.entryAt spot = some .directory := by
  unfold enter at h
  split at h
  · cases h
  · cases h
  · cases h
  · cases h
  · assumption

/-- A part that says nothing leads to where one is. -/
theorem eq_of_enter {part : String} {next : List String} (h : t.enter spot part = .ok next)
    (hpart : part = "" ∨ part = ".") : next = spot := by
  have hdir := entryAt_of_enter h
  unfold enter at h
  rw [hdir] at h
  dsimp only at h
  rw [if_pos hpart] at h
  exact (Except.ok.inj h).symm

theorem lookup_of_follow (hfault : fault? path = none)
    (hfollow : t.follow (t.origin path) (slashParts path) = .ok spot) :
    t.lookup path = (t.entryAt spot).elim (.error .missing) .ok := by
  unfold lookup
  rw [hfault]
  simp only [hfollow, bind, Except.bind]
  cases t.entryAt spot <;> rfl

/-! ## Where files can be written -/

def Writable (t : FileTree) (path : String) : Prop :=
  ∃ t', t.replace path .empty = .ok t'

/-- If there is something at the spot, it is a file that may be opened. -/
def Free (t : FileTree) (spot : List String) : Prop :=
  ∀ e ∈ t.entryAt spot, ∃ content, e = .file content

theorem Free.ne_directory (h : t.Free spot) : t.entryAt spot ≠ some .directory := by
  intro hdir
  obtain ⟨content, hfile⟩ := h _ hdir
  cases hfile

/-- The path can be followed to the spot, which is free. -/
structure LeadsTo (t : FileTree) (path : String) (spot : List String) : Prop where
  fault : fault? path = none
  follow : t.follow (t.origin path) (slashParts path) = .ok spot
  free : t.Free spot

/-- The last part of a path that leads to no directory says something. -/
theorem LeadsTo.dropSlashes_eq (h : t.LeadsTo path spot) : dropSlashes (slashParts path) = slashParts path := by
  obtain ⟨init, last, hparts⟩ := exists_slashParts_eq path
  have hfollow := h.follow
  rw [hparts, follow_concat] at hfollow
  obtain ⟨d, -, hlast⟩ := bind_eq_ok_iff.mp hfollow
  rw [hparts]
  apply dropSlashes_concat_of_ne
  intro hempty
  have hspot := eq_of_enter hlast (Or.inl hempty)
  exact h.free.ne_directory (hspot ▸ entryAt_of_enter hlast)

/-- What `target` does at the end of a path. -/
def contentAt (t : FileTree) (spot : List String) : Except FileError.Cause (List String × ByteArray) :=
  match t.entryAt spot with
  | some .directory | some (.barred .directory) => throw .isDirectory
  | some (.barred (.file _)) => throw .denied
  | some (.file content) => return (spot, content)
  | none => return (spot, .empty)

theorem contentAt_eq_ok_iff {r : List String × ByteArray} : t.contentAt spot = .ok r ↔
    r.1 = spot ∧ (t.entryAt spot = some (.file r.2) ∨ t.entryAt spot = none ∧ r.2 = .empty) := by
  unfold contentAt
  obtain ⟨spot', content⟩ := r
  split
  · next h => simp [h, throw, throwThe, MonadExceptOf.throw]
  · next h => simp [h, throw, throwThe, MonadExceptOf.throw]
  · next h => simp [h, throw, throwThe, MonadExceptOf.throw]
  · next content' h => simp [h, pure, Except.pure, eq_comm]
  · next h => simp [h, pure, Except.pure, eq_comm]

theorem target_eq (t : FileTree) (path : String) : t.target path =
    match fault? path, (dropSlashes (slashParts path)).getLast? with
    | some cause, _ => .error cause
    | none, none => .error .isDirectory
    | none, some last =>
      t.follow (t.origin path) (dropSlashes (slashParts path)).dropLast >>= fun directory =>
        t.enter directory (if dropSlashes (slashParts path) = slashParts path then last else ".") >>= t.contentAt := by
  rfl

theorem LeadsTo.target_eq (h : t.LeadsTo path spot) : t.target path = t.contentAt spot := by
  obtain ⟨init, last, hparts⟩ := exists_slashParts_eq path
  have hfollow := h.follow
  rw [hparts, follow_concat] at hfollow
  obtain ⟨d, hd, hlast⟩ := bind_eq_ok_iff.mp hfollow
  have hnamed := h.dropSlashes_eq
  rw [FileTree.target_eq, h.fault, hnamed, hparts, List.getLast?_concat, List.dropLast_concat]
  dsimp only
  rw [if_pos rfl, hd]
  show t.enter d last >>= t.contentAt = _
  rw [hlast]
  rfl

theorem leadsTo_of_target {r : List String × ByteArray} (h : t.target path = .ok r) : t.LeadsTo path r.1 := by
  rw [target_eq] at h
  split at h
  · cases h
  · cases h
  · next last hfault hlast =>
    obtain ⟨d, hd, h⟩ := bind_eq_ok_iff.mp h
    obtain ⟨s, hs, hr⟩ := bind_eq_ok_iff.mp h
    obtain ⟨rfl, hr⟩ := contentAt_eq_ok_iff.mp hr
    have hfree : t.Free r.1 := by
      intro e he
      rcases hr with hr | ⟨hr, -⟩
      · exact ⟨_, (Option.some.inj (hr.symm.trans he)).symm⟩
      · cases hr.symm.trans he
    split at hs
    · next hnamed =>
      obtain ⟨init, last', hparts⟩ := exists_slashParts_eq path
      rw [hnamed, hparts, List.dropLast_concat] at hd
      rw [hnamed, hparts, List.getLast?_concat, Option.some.injEq] at hlast
      refine ⟨hfault, ?_, hfree⟩
      rw [hparts, follow_concat, hd, hlast]
      exact hs
    · have hr := eq_of_enter hs (Or.inr rfl)
      exact absurd (hr ▸ entryAt_of_enter hs) hfree.ne_directory

/-! ## After writing -/

def put (t : FileTree) (spot : List String) (content : ByteArray) : FileTree :=
  { t with entries := Assoc.put spot (.file content) t.entries }

theorem LeadsTo.replace_eq (h : t.LeadsTo path spot) (content : ByteArray) :
    t.replace path content = .ok (t.put spot content) := by
  have hcontent : ∃ content, t.contentAt spot = .ok (spot, content) := by
    cases he : t.entryAt spot with
    | none => exact ⟨.empty, contentAt_eq_ok_iff.mpr ⟨rfl, Or.inr ⟨he, rfl⟩⟩⟩
    | some e =>
      obtain ⟨content, rfl⟩ := h.free e he
      exact ⟨content, contentAt_eq_ok_iff.mpr ⟨rfl, Or.inl he⟩⟩
  obtain ⟨content, hcontent⟩ := hcontent
  unfold replace modify
  rw [h.target_eq, hcontent]
  rfl

theorem replace_eq_ok_iff :
    t.replace path content = .ok t' ↔ ∃ spot, t.LeadsTo path spot ∧ t' = t.put spot content := by
  constructor
  · intro h
    have hspot : ∃ spot, t.LeadsTo path spot := by
      unfold replace modify at h
      split at h
      · next spot content htarget => exact ⟨spot, leadsTo_of_target htarget⟩
      · cases h
    obtain ⟨spot, hl⟩ := hspot
    rw [hl.replace_eq, Except.ok.injEq] at h
    exact ⟨spot, hl, h.symm⟩
  · rintro ⟨spot, hl, rfl⟩
    exact hl.replace_eq content

theorem writable_iff : t.Writable path ↔ ∃ spot, t.LeadsTo path spot := by
  unfold Writable
  simp only [replace_eq_ok_iff]
  exact ⟨fun ⟨_, spot, hl, _⟩ => ⟨spot, hl⟩, fun ⟨spot, hl⟩ => ⟨_, spot, hl, rfl⟩⟩

theorem entryAt_put_of_ne {spot' : List String} (h : spot' ≠ spot) :
    (t.put spot content).entryAt spot' = t.entryAt spot' := by
  unfold entryAt put
  dsimp only
  rw [Assoc.lookup_put_of_ne h]

theorem entryAt_put_self (h : t.entryAt spot ≠ some .directory) :
    (t.put spot content).entryAt spot = some (.file content) := by
  unfold entryAt put
  dsimp only
  rw [if_neg, Assoc.lookup_put_self]
  intro hhome
  exact h (if_pos hhome)

section Put
variable (h : t.entryAt spot ≠ some .directory)
include h

theorem enter_put {spot' next : List String} {part : String} (he : t.enter spot' part = .ok next) :
    (t.put spot content).enter spot' part = .ok next := by
  have hdir := entryAt_of_enter he
  -- the step starts at a directory, and none is where the file is put
  have hne : spot' ≠ spot := by
    rintro rfl
    exact h hdir
  unfold enter at he ⊢
  rw [entryAt_put_of_ne hne]
  exact he

/-- Paths that can be followed lead to where they led. -/
theorem follow_put {start spot' : List String} {parts : List String} (hf : t.follow start parts = .ok spot') :
    (t.put spot content).follow start parts = .ok spot' := by
  induction parts generalizing start with
  | nil => exact hf
  | cons part parts ih =>
    obtain ⟨d, hd, hrest⟩ := bind_eq_ok_iff.mp hf
    exact bind_eq_ok_iff.mpr ⟨d, enter_put h hd, ih hrest⟩

theorem LeadsTo.put {spot' : List String} (hl : t.LeadsTo path spot') :
    (t.put spot content).LeadsTo path spot' where
  fault := hl.fault
  follow := follow_put h hl.follow
  free := by
    intro e he
    by_cases hs : spot' = spot
    · rw [hs, entryAt_put_self h] at he
      exact ⟨content, (Option.some.inj he).symm⟩
    · rw [entryAt_put_of_ne hs] at he
      exact hl.free e he

end Put

/-- What was written can be read. -/
theorem read_replace (h : t.replace path content = .ok t') : t'.read path = .ok content := by
  obtain ⟨spot, hl, rfl⟩ := replace_eq_ok_iff.mp h
  have hafter : (t.put spot content).LeadsTo path spot := hl.put hl.free.ne_directory
  unfold read
  rw [lookup_of_follow hafter.fault hafter.follow, entryAt_put_self hl.free.ne_directory]
  rfl

/-- Writing one file does not keep another one from being written. -/
theorem Writable.replace {path' : String} (hw : t.Writable path') (h : t.replace path content = .ok t') :
    t'.Writable path' := by
  obtain ⟨spot, hl, rfl⟩ := replace_eq_ok_iff.mp h
  obtain ⟨spot', hl'⟩ := writable_iff.mp hw
  exact writable_iff.mpr ⟨spot', hl'.put hl.free.ne_directory⟩

theorem Writable.exists_replace (hw : t.Writable path) (content : ByteArray) :
    ∃ t', t.replace path content = .ok t' := by
  obtain ⟨spot, hl⟩ := writable_iff.mp hw
  exact ⟨_, hl.replace_eq content⟩

/-- Where a file can be written, every text of characters can. -/
theorem Writable.write_plain (hw : t.Writable path) (s : String) :
    ∃ t', t.replace path s.toUTF8 = .ok t' ∧ t.write path s = (t', .ok ()) := by
  obtain ⟨t', h⟩ := hw.exists_replace s.toUTF8
  refine ⟨t', h, ?_⟩
  unfold write
  simp only [Text.encode, h]

/-- Of a text with a lone half, there is an empty file. -/
theorem Writable.write_unencodable (hw : t.Writable path) {text : Text} {f : Text.Unencodable}
    (hf : text.encode = .error f) :
    ∃ t', t.replace path .empty = .ok t' ∧ t.write path text = (t', .error (.text f)) := by
  obtain ⟨t', h⟩ := hw.exists_replace .empty
  refine ⟨t', h, ?_⟩
  unfold write
  simp only [hf, h]

/-! ## Names of one part -/

/-- A name of one part, which leads on from where one is. -/
structure OnePart (name : String) : Prop where
  slash : '/' ∉ name.toList
  null : '\x00' ∉ name.toList
  short : name.utf8ByteSize ≤ pathLimit
  proper : name ∉ ["", ".", ".."]

instance (name : String) : Decidable (OnePart name) :=
  decidable_of_iff ('/' ∉ name.toList ∧ '\x00' ∉ name.toList ∧ name.utf8ByteSize ≤ pathLimit ∧ name ∉ ["", ".", ".."])
    ⟨fun ⟨hs, hn, hl, hp⟩ => ⟨hs, hn, hl, hp⟩, fun ⟨hs, hn, hl, hp⟩ => ⟨hs, hn, hl, hp⟩⟩

theorem entryAt_home (t : FileTree) : t.entryAt t.home = some .directory := by
  unfold entryAt
  rw [if_pos (by simp)]

section Name
variable {name : String} (h : OnePart name)
include h

theorem OnePart.slashParts_eq : slashParts name = [name] := by
  unfold slashParts
  rw [List.splitOn_eq_singleton h.slash, List.map_singleton, String.ofList_toList]

theorem OnePart.text_eq : (Path.ofString name).text = name := by
  have hproper := h.proper
  simp only [List.mem_cons, not_or] at hproper
  have hparts : (Path.ofString name).parts = [name] := by
    show (slashParts name).filter _ = _
    rw [h.slashParts_eq]
    apply List.filter_cons_of_pos
    exact decide_eq_true ⟨hproper.1, hproper.2.1⟩
  have hroot : (Path.ofString name).root = "" := by
    have hnone : name.toList.takeWhile (· = '/') = [] := by
      have hslash := h.slash
      cases hname : name.toList with
      | nil => rfl
      | cons x rest =>
        rw [hname] at hslash
        apply List.takeWhile_cons_of_neg
        simpa using Ne.symm (List.ne_of_not_mem_cons hslash)
    show Path.rootOf name.toList = ""
    rw [Path.rootOf, hnone]
    rfl
  unfold Path.text
  rw [hparts, hroot]
  simp

/-- A name of one part is looked up in the directory where one is. -/
theorem OnePart.lookup_eq (t : FileTree) : t.lookup name =
    if nameLimit < name.utf8ByteSize then .error .tooLong
    else (t.entryAt (t.home ++ [name])).elim (.error .missing) .ok := by
  have hproper := h.proper
  simp only [List.mem_cons, List.not_mem_nil, or_false, not_or] at hproper
  have hfault : fault? name = none := by
    unfold fault?
    rw [if_neg h.null, if_neg (Nat.not_lt.mpr h.short)]
  have horigin : t.origin name = t.home := by
    unfold origin
    rw [if_neg fun hhead => h.slash (List.mem_of_head? hhead)]
  have hfollow : t.follow (t.origin name) (slashParts name) =
      if nameLimit < name.utf8ByteSize then .error .tooLong else .ok (t.home ++ [name]) := by
    rw [horigin, h.slashParts_eq]
    show (t.enter t.home name >>= fun spot => .ok spot) = _
    unfold enter
    rw [entryAt_home]
    dsimp only
    rw [if_neg (not_or.mpr ⟨hproper.1, hproper.2.1⟩), if_neg hproper.2.2]
    split <;> rfl
  by_cases hlong : nameLimit < name.utf8ByteSize
  · rw [if_pos hlong] at hfollow ⊢
    unfold lookup
    rw [hfault]
    simp only [hfollow, bind, Except.bind]
  · rw [if_neg hlong] at hfollow ⊢
    exact lookup_of_follow hfault hfollow

theorem OnePart.has_of_none (hshort : name.utf8ByteSize ≤ nameLimit) (hnone : t.entryAt (t.home ++ [name]) = none) :
    t.has (Path.ofString name).text = .ok false := by
  unfold has
  rw [h.text_eq, h.lookup_eq, if_neg (Nat.not_lt.mpr hshort), hnone]
  rfl

/-- A name that is too long is not told to be missing. -/
theorem OnePart.has_of_long (hlong : nameLimit < name.utf8ByteSize) (t : FileTree) :
    t.has (Path.ofString name).text = .error ⟨.tooLong, name⟩ := by
  unfold has
  rw [h.text_eq, h.lookup_eq, if_pos hlong]
  rfl

end Name

end Gridlock.FileTree

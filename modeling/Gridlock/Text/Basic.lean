/-!
# Text

The names of threads and locks come from JSON, where half a character can be written on its own:
one of the UTF-16 units that make a character only in pairs. A lone half is no character and cannot
be printed, but names that differ in it are different names. So a text is a run of characters, or a
run that is broken off by a lone half and goes on after it.

* `Half`, `CodePoint` : halves, and what a text is made of
* `Text` : texts; a `String` is one
* `Text.points`, `Text.points_injective` : the code points of a text, which tell it from all others
* `Text.ofPoints` : the text of some code points
* `Text.append`, `Text.intercalate` : texts in a row
-/

namespace Gridlock

/-- Half a character. Those below `0x400` come first in a pair, the others come second. -/
abbrev Half := Fin 0x800

def Half.unit (h : Half) : Nat := 0xD800 + h.val

inductive CodePoint
  | char (c : Char)
  | half (h : Half)
deriving DecidableEq, Repr

/-- A run of characters, or a run that a lone half breaks off, and the text after it. -/
inductive Text
  | plain (run : String)
  | broken (run : String) (half : Half) (rest : Text)
deriving DecidableEq, Repr

namespace Text

instance : Coe String Text := ⟨plain⟩

instance : Inhabited Text := ⟨""⟩

def points : Text → List CodePoint
  | plain run => run.toList.map .char
  | broken run half rest => run.toList.map .char ++ .half half :: rest.points

/-- The text of some code points after a run of characters, which come last one first. -/
def ofPointsFrom (run : List Char) : List CodePoint → Text
  | [] => plain (String.ofList run.reverse)
  | .char c :: rest => ofPointsFrom (c :: run) rest
  | .half h :: rest => broken (String.ofList run.reverse) h (ofPointsFrom [] rest)

def ofPoints (s : List CodePoint) : Text :=
  ofPointsFrom [] s

def prepend (s : String) : Text → Text
  | plain run => plain (s ++ run)
  | broken run half rest => broken (s ++ run) half rest

def append : Text → Text → Text
  | plain run, t => t.prepend run
  | broken run half rest, t => broken run half (rest.append t)

instance : Append Text := ⟨append⟩

/-- Texts in a row, with a text between each two. -/
def intercalate (s : Text) : List Text → Text
  | [] => ""
  | t :: rest => rest.foldl (fun done u => done ++ s ++ u) t

/-! ## Code points -/

theorem map_char_inj {a b : List Char} (h : a.map CodePoint.char = b.map CodePoint.char) : a = b :=
  List.map_inj_right (fun _ _ => CodePoint.char.inj) |>.mp h

theorem map_char_append_half_inj {a b : List Char} {h h' : Half} {s t : List CodePoint}
    (he : a.map CodePoint.char ++ .half h :: s = b.map CodePoint.char ++ .half h' :: t) :
    a = b ∧ h = h' ∧ s = t := by
  induction a generalizing b with
  | nil =>
    cases b with
    | nil => simpa using he
    | cons d b => simp at he
  | cons c a ih =>
    cases b with
    | nil => simp at he
    | cons d b =>
      simp only [List.map_cons, List.cons_append, List.cons.injEq, CodePoint.char.injEq] at he
      obtain ⟨rfl, he⟩ := he
      simpa using ih he

theorem map_char_ne_append_half {a b : List Char} {h : Half} {s : List CodePoint} :
    a.map CodePoint.char ≠ b.map CodePoint.char ++ .half h :: s := by
  intro he
  have hm : CodePoint.half h ∈ a.map CodePoint.char := by
    rw [he]
    simp
  simp at hm

theorem points_injective {s t : Text} (h : s.points = t.points) : s = t := by
  induction s generalizing t with
  | plain run =>
    cases t with
    | plain run' => rw [String.toList_inj.mp (map_char_inj h)]
    | broken run' half rest => exact (map_char_ne_append_half h).elim
  | broken run half rest ih =>
    cases t with
    | plain run' => exact (map_char_ne_append_half h.symm).elim
    | broken run' half' rest' =>
      obtain ⟨hrun, rfl, hrest⟩ := map_char_append_half_inj h
      rw [String.toList_inj.mp hrun, ih hrest]

theorem points_ofPointsFrom (run : List Char) (s : List CodePoint) :
    (ofPointsFrom run s).points = run.reverse.map .char ++ s := by
  induction s generalizing run with
  | nil => simp [ofPointsFrom, points]
  | cons p s ih =>
    cases p with
    | char c => simp [ofPointsFrom, ih]
    | half h => simp [ofPointsFrom, points, ih]

@[simp] theorem points_ofPoints (s : List CodePoint) : (ofPoints s).points = s :=
  points_ofPointsFrom [] s

/-! ## Texts in a row -/

theorem broken_append (s : String) (h : Half) (t u : Text) :
    broken s h t ++ u = broken s h (t ++ u) := rfl

theorem points_prepend (s : String) (t : Text) :
    (t.prepend s).points = s.toList.map .char ++ t.points := by
  cases t <;> simp [prepend, points]

@[simp] theorem points_append (s t : Text) : (s ++ t).points = s.points ++ t.points := by
  induction s with
  | plain run => exact points_prepend run t
  | broken run half rest ih => simp [broken_append, points, ih]

theorem append_assoc (s t u : Text) : s ++ t ++ u = s ++ (t ++ u) :=
  points_injective (by simp)

theorem append_right_inj (s : Text) {t u : Text} : s ++ t = s ++ u ↔ t = u := by
  refine ⟨fun h => points_injective ?_, fun h => h ▸ rfl⟩
  simpa using congrArg points h

theorem append_left_inj (s : Text) {t u : Text} : t ++ s = u ++ s ↔ t = u := by
  refine ⟨fun h => points_injective ?_, fun h => h ▸ rfl⟩
  simpa using congrArg points h

theorem foldl_append (s a b : Text) (l : List Text) :
    l.foldl (fun done u => done ++ s ++ u) (a ++ b) =
      a ++ l.foldl (fun done u => done ++ s ++ u) b := by
  induction l generalizing b with
  | nil => rfl
  | cons t l ih =>
    rw [List.foldl_cons, List.foldl_cons, append_assoc a, append_assoc a, ih]

theorem intercalate_cons_of_ne_nil {s t : Text} {l : List Text} (h : l ≠ []) :
    intercalate s (t :: l) = t ++ s ++ intercalate s l := by
  cases l with
  | nil => exact absurd rfl h
  | cons u l => exact foldl_append s (t ++ s) u l

theorem intercalate_append_of_ne_nil {s : Text} {l m : List Text} (hl : l ≠ []) (hm : m ≠ []) :
    intercalate s (l ++ m) = intercalate s l ++ s ++ intercalate s m := by
  induction l with
  | nil => exact absurd rfl hl
  | cons t l ih =>
    cases l with
    | nil => exact intercalate_cons_of_ne_nil hm
    | cons u l =>
      rw [List.cons_append, intercalate_cons_of_ne_nil (by simp), ih (List.cons_ne_nil u l),
        intercalate_cons_of_ne_nil (List.cons_ne_nil u l)]
      simp only [append_assoc]

end Text

end Gridlock

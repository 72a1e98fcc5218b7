import Mathlib.Data.List.Basic
import Gridlock.Json.Reader

/-!
# The grammar of JSON

What a text has to look like to be a value is said here without the reader, by relations between texts and
what they stand for. The parts of texts are simply put one after the other.

* `Blank`, `Quoted`, `SpellsString` : blanks and strings
* `Digits`, `Whole`, `Fraction`, `Exponent` : the parts of numbers
* `Spells`, `SpellsItems`, `SpellsMembers` : values, and what stands between brackets and braces
* `SpellsText` : a whole text
* `Overlong` : a whole number of too many digits stands at the start of a text
* `Reaches` : how far a reader can come who goes through a text and looks at one value after the other
* `MeetsOverlong` : such a number is what a reader comes to
-/

namespace Gridlock.Json

open Reader

/-- Blanks, which may stand around values and marks. -/
def Blank (b : List Char) : Prop :=
  ∀ x ∈ b, isSpace x = true

/-- A mark between two parts, with blanks around it. -/
inductive Between (mark : Char) : List Char → Prop
  | intro {b b' : List Char} : Blank b → Blank b' → Between mark (b ++ mark :: b')

/-! ## Strings -/

/-- What stands between the quotes of a string. -/
inductive Quoted : List Char → List CodePoint → Prop
  | nil : Quoted [] []
  | plain {x t ps} : 0x20 ≤ x.toNat → x ≠ '"' → x ≠ '\\' → Quoted t ps → Quoted (x :: t) (.char x :: ps)
  | short {x y t ps} : shortEscape? x = some y → Quoted t ps → Quoted ('\\' :: x :: t) (.char y :: ps)
  | unit {x₁ x₂ x₃ x₄ n t ps} : unit? x₁ x₂ x₃ x₄ = some n → Quoted t ps →
      Quoted ('\\' :: 'u' :: x₁ :: x₂ :: x₃ :: x₄ :: t) (pointOf n :: ps)

inductive SpellsString : List Char → Text → Prop
  | intro {t ps} : Quoted t ps → SpellsString ('"' :: (t ++ ['"'])) (Text.ofPoints (joinHalves ps))

/-! ## Numbers -/

def Digits (ds : List Char) : Prop :=
  ds ≠ [] ∧ ∀ x ∈ ds, x.isDigit = true

/-- The digits before the point: no zero comes before others. -/
def Whole (ds : List Char) : Prop :=
  Digits ds ∧ (ds.head? = some '0' → ds = ['0'])

inductive Fraction : List Char → List Char → Prop
  | none : Fraction [] []
  | point {fs} : Digits fs → Fraction ('.' :: fs) fs

inductive Sign : List Char → Bool → Prop
  | none : Sign [] false
  | plus : Sign ['+'] false
  | minus : Sign ['-'] true

def signed (negative : Bool) (n : Nat) : Int :=
  if negative then -n else n

/-- An exponent, which may be missing and is zero then. -/
inductive Exponent : List Char → Int → Prop
  | none : Exponent [] 0
  | mark {x sign negative ds} : x = 'e' ∨ x = 'E' → Sign sign negative → Digits ds →
      Exponent (x :: (sign ++ ds)) (signed negative (natOfDigits ds))

def minusText (negative : Bool) : List Char :=
  if negative then ['-'] else []

/-! ## Values -/

mutual

inductive Spells : List Char → Json → Prop
  | word {t v} : (t, v) ∈ words → Spells t v
  | whole (negative) {ds} : Whole ds → ds.length ≤ Number.digitLimit →
      Spells (minusText negative ++ ds) (num (.whole (signed negative (natOfDigits ds))))
  | real (negative) {ds f fs x e} : Whole ds → Fraction f fs → Exponent x e → f ++ x ≠ [] →
      Spells (minusText negative ++ ds ++ f ++ x)
        (num (.real (.ofDecimal negative (natOfDigits (ds ++ fs)) (e - fs.length))))
  | string {t s} : SpellsString t s → Spells t (str s)
  | noItems {b} : Blank b → Spells ('[' :: (b ++ [']'])) (arr [])
  | items {b t vs b'} : Blank b → SpellsItems t vs → Blank b' → Spells ('[' :: (b ++ t ++ b' ++ [']'])) (arr vs)
  | noMembers {b} : Blank b → Spells ('\x7b' :: (b ++ ['\x7d'])) (obj [])
  | members {b t fs b'} : Blank b → SpellsMembers t fs → Blank b' →
      Spells ('\x7b' :: (b ++ t ++ b' ++ ['\x7d'])) (ofFields fs)

inductive SpellsItems : List Char → List Json → Prop
  | one {t v} : Spells t v → SpellsItems t [v]
  | cons {t v m u vs} : Spells t v → Between ',' m → SpellsItems u vs → SpellsItems (t ++ m ++ u) (v :: vs)

inductive SpellsMembers : List Char → List (Text × Json) → Prop
  | one {k name m t v} : SpellsString k name → Between ':' m → Spells t v → SpellsMembers (k ++ m ++ t) [(name, v)]
  | cons {k name m t v m' u fs} : SpellsString k name → Between ':' m → Spells t v → Between ',' m' →
      SpellsMembers u fs → SpellsMembers (k ++ m ++ t ++ m' ++ u) ((name, v) :: fs)

end

/-- A text is a value with blanks around it. -/
inductive SpellsText : List Char → Json → Prop
  | intro {b t j b'} : Blank b → Spells t j → Blank b' → SpellsText (b ++ t ++ b') j

/-! ## Numbers that are too long -/

def NoDigit (s : List Char) : Prop :=
  ∀ x ∈ s.head?, x.isDigit = false

/-- Nothing at the start of the text belongs to a number whose digits come before it. -/
structure EndsNumber (s : List Char) : Prop where
  digit : NoDigit s
  fraction : ∀ f fs u, s = f ++ u → Fraction f fs → f = []
  exponent : ∀ x e u, s = x ++ u → Exponent x e → x = []

/-- A whole number of too many digits stands at the start of the text. -/
inductive Overlong : List Char → Nat → Prop
  | intro (negative) {ds s} : Whole ds → Number.digitLimit < ds.length → EndsNumber s →
      Overlong (minusText negative ++ ds ++ s) ds.length

mutual

/-- Going through the first text, one comes to a value that starts where the second text starts. -/
inductive Reaches : List Char → List Char → Prop
  | here (s) : Reaches s s
  | items {b t s} : Blank b → ReachesItem t s → Reaches ('[' :: (b ++ t)) s
  | members {b t s} : Blank b → ReachesMember t s → Reaches ('\x7b' :: (b ++ t)) s

inductive ReachesItem : List Char → List Char → Prop
  | first {t s} : Reaches t s → ReachesItem t s
  | later {t v m u s} : Spells t v → Between ',' m → ReachesItem u s → ReachesItem (t ++ m ++ u) s

inductive ReachesMember : List Char → List Char → Prop
  | first {k name m t s} : SpellsString k name → Between ':' m → Reaches t s → ReachesMember (k ++ m ++ t) s
  | later {k name m t v m' u s} : SpellsString k name → Between ':' m → Spells t v → Between ',' m' →
      ReachesMember u s → ReachesMember (k ++ m ++ t ++ m' ++ u) s

end

/-- A text in which a reader comes upon a whole number of `n` digits, which are too many, before anything else
is wrong. -/
inductive MeetsOverlong : List Char → Nat → Prop
  | intro {b t s n} : Blank b → Reaches t s → Overlong s n → MeetsOverlong (b ++ t) n

end Gridlock.Json

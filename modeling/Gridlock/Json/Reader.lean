import Gridlock.Json.Basic

/-!
# Reading JSON

The reader goes through a list of characters once. Every function takes the characters that are
left and gives back what it read together with a rest that is shorter, which is why reading ends. A
fault is described by its cause and by the number of characters from its place to the end of the
text.

Besides the standard grammar the reader takes `NaN`, `Infinity` and `-Infinity`. A whole number may
have at most `Number.digitLimit` digits. Values may be nested to any depth: a limit on the depth of
recursion, as an interpreter has it, is left out.

* `Fault`, `Fault.Cause` : what can be wrong, and where
* `Reader.stringRest`, `Reader.number`, `Reader.value` : the parts of the grammar
* `Json.parse` : a whole text
-/

namespace Gridlock.Json

inductive Fault.Cause
  | byteOrderMark
  | extraData
  | noValue
  | noName
  | noColon
  | noComma
  | unterminated
  | control
  | unknownEscape
  | unitEscape
deriving DecidableEq, Repr

inductive Fault
  /-- The text is malformed at the place that has `left` characters from it to the end. -/
  | malformed (cause : Fault.Cause) (left : Nat)
  /-- A whole number has too many digits. -/
  | tooLong (digits : Nat)
deriving DecidableEq, Repr

def Fault.Cause.message : Fault.Cause → String
  | byteOrderMark => "Unexpected UTF-8 BOM (decode using utf-8-sig)"
  | extraData => "Extra data"
  | noValue => "Expecting value"
  | noName => "Expecting property name enclosed in double quotes"
  | noColon => "Expecting ':' delimiter"
  | noComma => "Expecting ',' delimiter"
  | unterminated => "Unterminated string starting at"
  | control => "Invalid control character at"
  | unknownEscape => "Invalid \\escape"
  | unitEscape => "Invalid \\uXXXX escape"

namespace Reader

/-- What is left after something has been read from `s`. -/
abbrev Rest (s : List Char) := { r : List Char // r.length < s.length }

abbrev Read (α : Type) (s : List Char) := Except Fault (α × Rest s)

def fail {α : Type} {s : List Char} (cause : Fault.Cause) (place : List Char) : Read α s :=
  .error (.malformed cause place.length)

/-- A rest of a rest is a rest. -/
def Rest.widen {s t : List Char} (h : t.length ≤ s.length) (r : Rest t) : Rest s :=
  ⟨r.val, Nat.lt_of_lt_of_le r.property h⟩

def isSpace (c : Char) : Bool :=
  c = ' ' ∨ c = '\t' ∨ c = '\n' ∨ c = '\r'

def skip (s : List Char) : List Char :=
  s.dropWhile isSpace

theorem length_dropWhile_le (p : Char → Bool) (s : List Char) :
    (s.dropWhile p).length ≤ s.length :=
  (List.dropWhile_suffix p).length_le

theorem length_skip_le (s : List Char) : (skip s).length ≤ s.length :=
  length_dropWhile_le isSpace s

/-! ## Strings -/

def hexValue? (c : Char) : Option Nat :=
  if '0' ≤ c ∧ c ≤ '9' then some (c.toNat - '0'.toNat)
  else if 'a' ≤ c ∧ c ≤ 'f' then some (c.toNat - 'a'.toNat + 10)
  else if 'A' ≤ c ∧ c ≤ 'F' then some (c.toNat - 'A'.toNat + 10)
  else none

/-- The number of four hexadecimal digits. -/
def unit? (a b c d : Char) : Option Nat := do
  let a ← hexValue? a
  let b ← hexValue? b
  let c ← hexValue? c
  let d ← hexValue? d
  return ((a * 16 + b) * 16 + c) * 16 + d

/-- What a UTF-16 unit stands for on its own. -/
def pointOf (n : Nat) : CodePoint :=
  if h : 0xD800 ≤ n ∧ n < 0xE000 then .half ⟨n - 0xD800, by omega⟩ else .char (Char.ofNat n)

/-- The character that a letter stands for after a backslash. -/
def shortEscape? : Char → Option Char
  | '"' => some '"'
  | '\\' => some '\\'
  | '/' => some '/'
  | 'b' => some '\x08'
  | 'f' => some '\x0c'
  | 'n' => some '\n'
  | 'r' => some '\r'
  | 't' => some '\t'
  | _ => none

/-- Joins the halves of characters. A half without its partner stays a half. -/
def joinHalves : List CodePoint → List CodePoint
  | [] => []
  | .char c :: rest => .char c :: joinHalves rest
  | .half n :: .half m :: rest =>
    if n.val < 0x400 ∧ 0x400 ≤ m.val then
      .char (Char.ofNat (0x10000 + n.val * 0x400 + (m.val - 0x400))) :: joinHalves rest
    else .half n :: joinHalves (.half m :: rest)
  | .half n :: rest => .half n :: joinHalves rest

/-- Reads the code points of a string after its opening quote, at which `place` starts. Four digits that
end the text do not make a unit. -/
def pieces (place s : List Char) : Read (List CodePoint) s :=
  match s with
  | [] => fail .unterminated place
  | '"' :: r => .ok ([], ⟨r, by simp⟩)
  | ['\\'] => fail .unterminated place
  | '\\' :: 'u' :: a :: b :: c :: d :: e :: r =>
    match unit? a b c d with
    | some n => do
      let (ps, rest) ← pieces place (e :: r)
      return (pointOf n :: ps, rest.widen (by simp only [List.length_cons]; omega))
    | none => fail .unitEscape ('u' :: a :: b :: c :: d :: e :: r)
  | '\\' :: 'u' :: r => fail .unitEscape ('u' :: r)
  | '\\' :: c :: r =>
    match shortEscape? c with
    | some x => do
      let (ps, rest) ← pieces place r
      return (.char x :: ps, rest.widen (by simp only [List.length_cons]; omega))
    | none => fail .unknownEscape ('\\' :: c :: r)
  | c :: r =>
    if c.toNat < 0x20 then fail .control (c :: r)
    else do
      let (ps, rest) ← pieces place r
      return (.char c :: ps, rest.widen (by simp))
termination_by s.length

def stringRest (s : List Char) : Read Text s := do
  let (ps, rest) ← pieces ('"' :: s) s
  return (Text.ofPoints (joinHalves ps), rest)

/-! ## Numbers -/

/-- The longest run of digits, and what follows it. -/
def digits (s : List Char) : List Char × List Char :=
  (s.takeWhile Char.isDigit, s.dropWhile Char.isDigit)

/-- The digits before the point: a zero alone, or digits that start with another digit. -/
def wholeDigits? : List Char → Option (List Char × List Char)
  | '0' :: r => some (['0'], r)
  | c :: r => if c.isDigit then some (c :: (digits r).1, (digits r).2) else none
  | [] => none

/-- The digits after the point, if a point with digits comes next. -/
def fraction? : List Char → Option (List Char × List Char)
  | '.' :: r => if (digits r).1.isEmpty then none else some (digits r)
  | _ => none

/-- A sign that may be left out, and whether it is a minus. -/
def sign : List Char → Bool × List Char
  | '-' :: r => (true, r)
  | '+' :: r => (false, r)
  | r => (false, r)

def natOfDigits (s : List Char) : Nat :=
  s.foldl (fun n c => 10 * n + (c.toNat - '0'.toNat)) 0

/-- The exponent, if the mark of an exponent with digits comes next. -/
def exponent? : List Char → Option (Int × List Char)
  | c :: r =>
    if c = 'e' ∨ c = 'E' then
      let (negative, r) := sign r
      let ds := (digits r).1
      if ds.isEmpty then none
      else some (if negative then -(natOfDigits ds : Int) else natOfDigits ds, (digits r).2)
    else none
  | [] => none

def minus : List Char → Bool × List Char
  | '-' :: r => (true, r)
  | r => (false, r)

theorem length_minus_le (s : List Char) : (minus s).2.length ≤ s.length := by
  unfold minus
  split <;> simp

theorem length_sign_le (s : List Char) : (sign s).2.length ≤ s.length := by
  unfold sign
  split <;> simp

theorem length_wholeDigits?_lt {s ds r : List Char} (h : wholeDigits? s = some (ds, r)) :
    r.length < s.length := by
  unfold wholeDigits? at h
  split at h
  · simp at h
    simp [h.2]
  · split at h
    · simp only [digits, Option.some.injEq, Prod.mk.injEq] at h
      have := length_dropWhile_le Char.isDigit ‹List Char›
      rw [← h.2]
      simp only [List.length_cons]
      omega
    · simp at h
  · simp at h

theorem length_fraction?_le {s ds r : List Char} (h : fraction? s = some (ds, r)) :
    r.length ≤ s.length := by
  unfold fraction? at h
  split at h
  · next t =>
    split at h
    · simp at h
    · simp only [digits, Option.some.injEq, Prod.mk.injEq] at h
      have := length_dropWhile_le Char.isDigit t
      rw [← h.2]
      simp only [List.length_cons]
      omega
  · simp at h

theorem length_exponent?_le {s r : List Char} {e : Int} (h : exponent? s = some (e, r)) :
    r.length ≤ s.length := by
  unfold exponent? at h
  split at h
  · next c t =>
    split at h
    · dsimp only at h
      split at h
      · simp at h
      · simp only [digits, Option.some.injEq, Prod.mk.injEq] at h
        have := length_dropWhile_le Char.isDigit (sign t).2
        have := length_sign_le t
        rw [← h.2]
        simp only [List.length_cons]
        omega
    · simp at h
  · simp at h

/-- Reads a number, if one comes next: the longest text that is one. -/
def number (s : List Char) : Read Json s :=
  match h : wholeDigits? (minus s).2 with
  | none => fail .noValue s
  | some (ds, r) =>
    have hr : r.length < s.length :=
      Nat.lt_of_lt_of_le (length_wholeDigits?_lt h) (length_minus_le s)
    match hf : fraction? r with
    | some (fs, r') =>
      have hr' : r'.length < s.length := Nat.lt_of_le_of_lt (length_fraction?_le hf) hr
      let mantissa := natOfDigits (ds ++ fs)
      match he : exponent? r' with
      | some (e, r'') =>
        .ok (num (.real (.ofDecimal (minus s).1 mantissa (e - fs.length))),
          ⟨r'', Nat.lt_of_le_of_lt (length_exponent?_le he) hr'⟩)
      | none => .ok (num (.real (.ofDecimal (minus s).1 mantissa (-fs.length))), ⟨r', hr'⟩)
    | none =>
      match he : exponent? r with
      | some (e, r'') =>
        .ok (num (.real (.ofDecimal (minus s).1 (natOfDigits ds) e)),
          ⟨r'', Nat.lt_of_le_of_lt (length_exponent?_le he) hr⟩)
      | none =>
        if Number.digitLimit < ds.length then .error (.tooLong ds.length)
        else
          let n : Int := natOfDigits ds
          .ok (num (.whole (if (minus s).1 then -n else n)), ⟨r, hr⟩)

/-! ## Values -/

/-- The words that are values. -/
def words : List (List Char × Json) :=
  [("null".toList, null), ("true".toList, bool true), ("false".toList, bool false),
    ("NaN".toList, num (.real .undefined)), ("Infinity".toList, num (.real (.infinite false))),
    ("-Infinity".toList, num (.real (.infinite true)))]

def scalar (s : List Char) : Read Json s :=
  match words.find? fun w => w.1.isPrefixOf s with
  | some (w, v) =>
    if h : w ≠ [] ∧ s ≠ [] then
      .ok (v, ⟨s.drop w.length, by
        have := List.length_pos_iff.mpr h.1
        have := List.length_pos_iff.mpr h.2
        rw [List.length_drop]
        omega⟩)
    else fail .noValue s
  | none => number s

mutual

def value (s : List Char) : Read Json s :=
  match s with
  | '"' :: r => do
    let (text, rest) ← stringRest r
    return (str text, rest.widen (by simp))
  | '[' :: r =>
    match h : skip r with
    | ']' :: r' => .ok (arr [], ⟨r', by
        have := length_skip_le r
        simp only [h, List.length_cons] at this ⊢
        omega⟩)
    | _ => do
      let (vs, rest) ← items (skip r)
      return (arr vs, rest.widen (by
        have := length_skip_le r
        simp only [List.length_cons]
        omega))
  | '\x7b' :: r =>
    match h : skip r with
    | '\x7d' :: r' => .ok (obj [], ⟨r', by
        have := length_skip_le r
        simp only [h, List.length_cons] at this ⊢
        omega⟩)
    | _ => do
      let (fs, rest) ← members (skip r)
      return (ofFields fs, rest.widen (by
        have := length_skip_le r
        simp only [List.length_cons]
        omega))
  | t => scalar t
termination_by (s.length, 0)
decreasing_by
  all_goals
    have := length_skip_le r
    simp only [List.length_cons]
    exact Prod.Lex.left _ _ (by omega)

/-- Reads the items of a list, of which the first starts here, and the closing bracket. -/
def items (s : List Char) : Read (List Json) s :=
  match value s with
  | .error f => .error f
  | .ok (v, ⟨r, hr⟩) =>
    match h : skip r with
    | ']' :: r' => .ok ([v], ⟨r', by
        have := length_skip_le r
        simp only [h, List.length_cons] at this
        omega⟩)
    | ',' :: r' =>
      have hr' : (skip r').length < s.length := by
        have := length_skip_le r
        have := length_skip_le r'
        simp only [h, List.length_cons] at *
        omega
      do
        let (vs, rest) ← items (skip r')
        return (v :: vs, rest.widen (Nat.le_of_lt hr'))
    | _ => fail .noComma (skip r)
termination_by (s.length, 1)

/-- Reads the fields of an object, of which the first should start here, and the closing
brace. -/
def members (s : List Char) : Read (List (Text × Json)) s :=
  match s with
  | '"' :: t =>
    match stringRest t with
    | .error f => .error f
    | .ok (name, ⟨r, hr⟩) =>
      match h : skip r with
      | ':' :: r' =>
        have hr' : (skip r').length < t.length := by
          have := length_skip_le r
          have := length_skip_le r'
          simp only [h, List.length_cons] at *
          omega
        match value (skip r') with
        | .error f => .error f
        | .ok (v, ⟨u, hu⟩) =>
          match h' : skip u with
          | '\x7d' :: u' => .ok ([(name, v)], ⟨u', by
              have := length_skip_le u
              simp only [h', List.length_cons] at *
              omega⟩)
          | ',' :: u' =>
            have hu' : (skip u').length < t.length := by
              have := length_skip_le u
              have := length_skip_le u'
              simp only [h', List.length_cons] at *
              omega
            do
              let (fs, rest) ← members (skip u')
              return ((name, v) :: fs, rest.widen (by simp only [List.length_cons]; omega))
          | _ => fail .noComma (skip u)
      | _ => fail .noColon (skip r)
  | _ => fail .noName s
termination_by (s.length, 1)

end

end Reader

def parse (s : List Char) : Except Fault Json :=
  if s.head? = some '\uFEFF' then .error (.malformed .byteOrderMark s.length)
  else do
    let (v, rest) ← Reader.value (Reader.skip s)
    if (Reader.skip rest.val).isEmpty then return v
    else throw (.malformed .extraData (Reader.skip rest.val).length)

end Gridlock.Json

import Mathlib.Data.List.DropRight
import Gridlock.Proofs.Scanning

/-!
# Reading JSON is undoing its grammar

The reader accepts exactly the texts of the grammar and gives the value that they spell. It stops at a number
of too many digits exactly if it comes upon one before anything else is wrong with the text.

* `plain_items`, `plain_members` : the loops of the reader, one turn at a time
* `plain_value` : the reader reads what the grammar spells
* `plain_value_of_reaches` : the reader stops at a number of too many digits that it can come to
* `read_spec` : the grammar spells what the reader reads, and leads to the number at which it stops
* `parse_eq_ok_iff`, `parse_eq_tooLong_iff` : whole texts
-/

namespace Gridlock.Json.Reader

/-! ## The loops -/

theorem plain_items (s : List Char) : (items s).plain =
    match (value s).plain with
    | .error e => .error e
    | .ok (v, u) =>
      match skip u with
      | ']' :: r => .ok ([v], r)
      | ',' :: r => (items (skip r)).plain.map fun p => (v :: p.1, p.2)
      | w => .error (.malformed .noComma w.length) := by
  rw [items]
  cases value s with
  | error e => rfl
  | ok p =>
    obtain ⟨v, u, hu⟩ := p
    dsimp only [plain_ok]
    split
    · next r h => simp only [h, plain_ok]
    · next r h =>
      simp only [h]
      cases items (skip r) <;> rfl
    · next h h' =>
      split
      · next r h'' => exact absurd h'' (h r)
      · next r h'' => exact absurd h'' (h' r)
      · rfl

theorem plain_members (t : List Char) : (members ('"' :: t)).plain =
    match (stringRest t).plain with
    | .error e => .error e
    | .ok (name, r) =>
      match skip r with
      | ':' :: r =>
        match (value (skip r)).plain with
        | .error e => .error e
        | .ok (v, u) =>
          match skip u with
          | '\x7d' :: r => .ok ([(name, v)], r)
          | ',' :: r => (members (skip r)).plain.map fun p => ((name, v) :: p.1, p.2)
          | w => .error (.malformed .noComma w.length)
      | w => .error (.malformed .noColon w.length) := by
  rw [members]
  cases stringRest t with
  | error e => rfl
  | ok p =>
    obtain ⟨name, r, hr⟩ := p
    dsimp only [plain_ok]
    split
    · next r' h =>
      simp only [h]
      cases value (skip r') with
      | error e => rfl
      | ok q =>
        obtain ⟨v, u, hu⟩ := q
        dsimp only [plain_ok]
        split
        · next r'' h' => simp only [h', plain_ok]
        · next r'' h' =>
          simp only [h']
          cases members (skip r'') <;> rfl
        · next h' h'' =>
          split
          · next r'' h => exact absurd h (h' r'')
          · next r'' h => exact absurd h (h'' r'')
          · rfl
    · next h =>
      split
      · next r' h' => exact absurd h' (h r')
      · rfl

theorem plain_members_of_ne {s : List Char} (h : ∀ t, s ≠ '"' :: t) :
    (members s).plain = .error (.malformed .noName s.length) := by
  rw [members]
  · rfl
  · exact h

theorem plain_value_string (t : List Char) :
    (value ('"' :: t)).plain = (stringRest t).plain.map fun p => (str p.1, p.2) := by
  rw [value]
  cases stringRest t <;> rfl

theorem plain_value_noItems {s r : List Char} (h : skip s = ']' :: r) :
    (value ('[' :: s)).plain = .ok (arr [], r) := by
  rw [value]
  split
  · next r' h' =>
    rw [h] at h'
    cases h'
    rfl
  · next h' => exact absurd h (h' r)

theorem plain_value_items {s : List Char} (h : ∀ r, skip s ≠ ']' :: r) :
    (value ('[' :: s)).plain = (items (skip s)).plain.map fun p => (arr p.1, p.2) := by
  rw [value]
  split
  · next r' h' => exact absurd h' (h r')
  · cases items (skip s) <;> rfl

theorem plain_value_noMembers {s r : List Char} (h : skip s = '\x7d' :: r) :
    (value ('\x7b' :: s)).plain = .ok (obj [], r) := by
  rw [value]
  split
  · next r' h' =>
    rw [h] at h'
    cases h'
    rfl
  · next h' => exact absurd h (h' r)

theorem plain_value_members {s : List Char} (h : ∀ r, skip s ≠ '\x7d' :: r) :
    (value ('\x7b' :: s)).plain = (members (skip s)).plain.map fun p => (ofFields p.1, p.2) := by
  rw [value]
  split
  · next r' h' => exact absurd h' (h r')
  · cases members (skip s) <;> rfl

theorem value_eq_scalar {s : List Char} (h : ∀ x ∈ s.head?, x ≠ '"' ∧ x ≠ '[' ∧ x ≠ '\x7b') :
    value s = scalar s := by
  rw [value.eq_def]
  split
  · exact absurd rfl (h '"' rfl).1
  · exact absurd rfl (h '[' rfl).2.1
  · exact absurd rfl (h '\x7b' rfl).2.2
  · rfl

/-! ## How values start -/

theorem isSpace_iff {x : Char} : isSpace x = true ↔ x = ' ' ∨ x = '\t' ∨ x = '\n' ∨ x = '\r' := by
  simp [isSpace]

/-- The text starts as a value may: not with a blank, a bracket that closes or the mark of a byte order. -/
def Starts (s : List Char) : Prop :=
  ∃ x t, s = x :: t ∧ isSpace x = false ∧ x ≠ ']' ∧ x ≠ '\uFEFF'

namespace Starts

variable {s : List Char} (h : Starts s)
include h

theorem append (r : List Char) : Starts (s ++ r) := by
  obtain ⟨x, t, rfl, hx⟩ := h
  exact ⟨x, t ++ r, rfl, hx⟩

theorem skip : skip s = s := by
  obtain ⟨x, t, rfl, hx, -⟩ := h
  exact skip_cons hx t

theorem ne_close (r : List Char) : s ≠ ']' :: r := by
  obtain ⟨x, t, rfl, -, hx, -⟩ := h
  intro h
  cases h
  exact hx rfl

theorem head?_ne_mark : s.head? ≠ some '\uFEFF' := by
  obtain ⟨x, t, rfl, -, -, hx⟩ := h
  intro h
  cases h
  exact hx rfl

end Starts

/-- The text starts as a word or a number does. -/
def StartsScalar (s : List Char) : Prop :=
  ∃ x t, s = x :: t ∧ (x.isDigit = true ∨ x ∈ ['-', 'n', 't', 'f', 'N', 'I'])

namespace StartsScalar

variable {s : List Char} (h : StartsScalar s)
include h

theorem append (r : List Char) : StartsScalar (s ++ r) := by
  obtain ⟨x, t, rfl, hx⟩ := h
  exact ⟨x, t ++ r, rfl, hx⟩

theorem starts : Starts s := by
  obtain ⟨x, t, rfl, hx⟩ := h
  refine ⟨x, t, rfl, ?_, ?_, ?_⟩
  · rw [Bool.eq_false_iff, ne_eq, isSpace_iff]
    rintro (rfl | rfl | rfl | rfl) <;> simp at hx
  · rintro rfl
    simp at hx
  · rintro rfl
    simp at hx

theorem value_eq : value s = scalar s := by
  obtain ⟨x, t, rfl, hx⟩ := h
  apply value_eq_scalar
  intro y hy
  cases hy
  refine ⟨?_, ?_, ?_⟩
  all_goals
    rintro rfl
    simp at hx

end StartsScalar

theorem startsScalar_minusText (negative : Bool) {ds : List Char} (h : Digits ds) :
    StartsScalar (minusText negative ++ ds) := by
  obtain ⟨x, t, rfl, hx⟩ := exists_digit h
  cases negative with
  | false => exact ⟨x, t, rfl, Or.inl hx⟩
  | true => exact ⟨'-', x :: t, rfl, Or.inr (by simp)⟩

theorem startsScalar_word {w : List Char} {v : Json} (h : (w, v) ∈ words) : StartsScalar w := by
  simp only [words, List.mem_cons, Prod.mk.injEq, List.not_mem_nil, or_false] at h
  rcases h with ⟨rfl, -⟩ | ⟨rfl, -⟩ | ⟨rfl, -⟩ | ⟨rfl, -⟩ | ⟨rfl, -⟩ | ⟨rfl, -⟩ <;>
    exact ⟨_, _, rfl, Or.inr (by decide)⟩

theorem starts_of_spells {t : List Char} {j : Json} (h : Spells t j) : Starts t := by
  cases h with
  | word h => exact (startsScalar_word h).starts
  | whole negative h hl => exact (startsScalar_minusText negative h.1).starts
  | real negative h hf hx hne => exact ((startsScalar_minusText negative h.1).starts.append _).append _
  | string h =>
    cases h
    exact ⟨'"', _, rfl, by decide, by decide, by decide⟩
  | noItems hb => exact ⟨'[', _, rfl, by decide, by decide, by decide⟩
  | items hb h hb' => exact ⟨'[', _, rfl, by decide, by decide, by decide⟩
  | noMembers hb => exact ⟨'\x7b', _, rfl, by decide, by decide, by decide⟩
  | members hb h hb' => exact ⟨'\x7b', _, rfl, by decide, by decide, by decide⟩

theorem starts_of_spellsItems {t : List Char} {vs : List Json} (h : SpellsItems t vs) : Starts t := by
  cases h with
  | one h => exact starts_of_spells h
  | cons h hm h' => exact ((starts_of_spells h).append _).append _

def StartsQuote (s : List Char) : Prop :=
  ∃ t, s = '"' :: t

namespace StartsQuote

variable {s : List Char} (h : StartsQuote s)
include h

theorem append (r : List Char) : StartsQuote (s ++ r) := by
  obtain ⟨t, rfl⟩ := h
  exact ⟨t ++ r, rfl⟩

theorem skip : skip s = s := by
  obtain ⟨t, rfl⟩ := h
  rfl

theorem ne_close (r : List Char) : s ≠ '\x7d' :: r := by
  obtain ⟨t, rfl⟩ := h
  exact fun h => by cases h

end StartsQuote

theorem startsQuote_of_spellsString {k : List Char} {name : Text} (h : SpellsString k name) :
    StartsQuote k := by
  cases h
  exact ⟨_, rfl⟩

theorem startsQuote_of_spellsMembers {t : List Char} {fs : List (Text × Json)} (h : SpellsMembers t fs) :
    StartsQuote t := by
  cases h with
  | one hk hm h => exact ((startsQuote_of_spellsString hk).append _).append _
  | cons hk hm h hm' h' =>
    exact ((((startsQuote_of_spellsString hk).append _).append _).append _).append _

/-! ## What may follow -/

theorem apart_blank {b r : List Char} (hb : Blank b) (hr : Apart r) : Apart (b ++ r) := by
  cases b with
  | nil => exact hr
  | cons x b =>
    intro y hy
    cases hy
    rcases isSpace_iff.mp (hb x (by simp)) with rfl | rfl | rfl | rfl <;> decide

theorem apart_between {mark : Char} {m : List Char} (h : Between mark m) (hm : Apart [mark]) (r : List Char) :
    Apart (m ++ r) := by
  cases h with
  | @intro b b' hb hb' =>
    rw [List.append_assoc]
    exact apart_blank hb fun x hx => hm x (by simpa using hx)

/-- Reading on after a mark between two parts. -/
theorem skip_between {mark : Char} {m : List Char} (h : Between mark m) (hm : isSpace mark = false)
    (r : List Char) : ∃ u, skip (m ++ r) = mark :: u ∧ skip u = skip r := by
  cases h with
  | @intro b b' hb hb' =>
    refine ⟨b' ++ r, ?_, skip_append hb' r⟩
    rw [List.append_assoc, skip_append hb, List.cons_append, skip_cons hm]

/-! ## One turn of a loop -/

section Turn
variable {s u w r m k b : List Char} {v : Json} {name : Text}

theorem plain_value_list (hb : Blank b) (hs : Starts s) :
    (value ('[' :: (b ++ s))).plain = (items s).plain.map fun p => (arr p.1, p.2) := by
  have hskip : skip (b ++ s) = s := by rw [skip_append hb, hs.skip]
  rw [plain_value_items (by rw [hskip]; exact hs.ne_close), hskip]

theorem plain_value_object (hb : Blank b) (hs : StartsQuote s) :
    (value ('\x7b' :: (b ++ s))).plain = (members s).plain.map fun p => (ofFields p.1, p.2) := by
  have hskip : skip (b ++ s) = s := by rw [skip_append hb, hs.skip]
  rw [plain_value_members (by rw [hskip]; exact hs.ne_close), hskip]

theorem plain_items_last (hv : (value s).plain = .ok (v, b ++ ']' :: r)) (hb : Blank b) :
    (items s).plain = .ok ([v], r) := by
  rw [plain_items, hv]
  dsimp only
  rw [skip_append hb]
  rfl

theorem plain_items_more (hv : (value s).plain = .ok (v, m ++ w)) (hm : Between ',' m) (hw : skip w = w) :
    (items s).plain = (items w).plain.map fun p => (v :: p.1, p.2) := by
  obtain ⟨u, hu, hu'⟩ := skip_between hm (by decide) w
  rw [plain_items, hv]
  dsimp only
  rw [hu]
  show (items (skip u)).plain.map _ = _
  rw [hu', hw]

theorem plain_items_error {e : Fault} (hv : (value s).plain = .error e) : (items s).plain = .error e := by
  rw [plain_items, hv]

/-- A name and a colon have been read. -/
theorem plain_members_name (hk : SpellsString k name) (hm : Between ':' m) (hw : skip w = w) :
    (members (k ++ (m ++ w))).plain =
      match (value w).plain with
      | .error e => .error e
      | .ok (v, u) =>
        match skip u with
        | '\x7d' :: r => .ok ([(name, v)], r)
        | ',' :: r => (members (skip r)).plain.map fun p => ((name, v) :: p.1, p.2)
        | w => .error (.malformed .noComma w.length) := by
  obtain ⟨t, ht, hs⟩ := plain_stringRest hk (m ++ w)
  obtain ⟨u, hu, hu'⟩ := skip_between hm (by decide) w
  rw [ht, plain_members, hs]
  dsimp only
  rw [hu, ← hw, ← hu']
  rfl

theorem plain_members_last (hk : SpellsString k name) (hm : Between ':' m) (hw : skip w = w)
    (hv : (value w).plain = .ok (v, b ++ '\x7d' :: r)) (hb : Blank b) :
    (members (k ++ (m ++ w))).plain = .ok ([(name, v)], r) := by
  rw [plain_members_name hk hm hw, hv]
  dsimp only
  rw [skip_append hb]
  rfl

theorem plain_members_more {m' w' : List Char} (hk : SpellsString k name) (hm : Between ':' m)
    (hw : skip w = w) (hv : (value w).plain = .ok (v, m' ++ w')) (hm' : Between ',' m') (hw' : skip w' = w') :
    (members (k ++ (m ++ w))).plain = (members w').plain.map fun p => ((name, v) :: p.1, p.2) := by
  obtain ⟨u, hu, hu'⟩ := skip_between hm' (by decide) w'
  rw [plain_members_name hk hm hw, hv]
  dsimp only
  rw [hu]
  show (members (skip u)).plain.map _ = _
  rw [hu', hw']

theorem plain_members_error {e : Fault} (hk : SpellsString k name) (hm : Between ':' m) (hw : skip w = w)
    (hv : (value w).plain = .error e) : (members (k ++ (m ++ w))).plain = .error e := by
  rw [plain_members_name hk hm hw, hv]

end Turn

/-! ## What the grammar spells is read -/

mutual

theorem plain_value {t : List Char} {j : Json} (h : Spells t j) (r : List Char) (hr : Apart r) :
    (value (t ++ r)).plain = .ok (j, r) := by
  match h with
  | .word h =>
    rw [((startsScalar_word h).append r).value_eq]
    exact plain_scalar_word h r
  | .whole negative h hl =>
    rw [((startsScalar_minusText negative h.1).append r).value_eq,
      scalar_minusText negative h.1 (List.append_assoc ..)]
    exact plain_number_whole negative h hl hr
  | @Spells.real negative ds f fs x e h hf hx hne =>
    rw [((((startsScalar_minusText negative h.1).append f).append x).append r).value_eq,
      scalar_minusText negative (r := f ++ (x ++ r)) h.1 (by simp)]
    exact plain_number_real negative h hf hx hne hr
  | .string h =>
    obtain ⟨s, hs, h⟩ := plain_stringRest h r
    rw [hs, plain_value_string, h]
    rfl
  | .noItems hb =>
    rw [List.cons_append, List.append_assoc]
    exact plain_value_noItems (skip_append hb _)
  | @Spells.items b t vs b' hb h hb' =>
    have hs := (starts_of_spellsItems h).append (b' ++ ']' :: r)
    rw [show '[' :: (b ++ t ++ b' ++ [']']) ++ r = '[' :: (b ++ (t ++ (b' ++ ']' :: r))) by simp]
    rw [plain_value_list hb hs, plain_items_of_spells h hb']
    rfl
  | .noMembers hb =>
    rw [List.cons_append, List.append_assoc]
    exact plain_value_noMembers (skip_append hb _)
  | @Spells.members b t fs b' hb h hb' =>
    have hs := (startsQuote_of_spellsMembers h).append (b' ++ '\x7d' :: r)
    rw [show '\x7b' :: (b ++ t ++ b' ++ ['\x7d']) ++ r = '\x7b' :: (b ++ (t ++ (b' ++ '\x7d' :: r))) by simp]
    rw [plain_value_object hb hs, plain_members_of_spells h hb']
    rfl

theorem plain_items_of_spells {t : List Char} {vs : List Json} (h : SpellsItems t vs) {b : List Char}
    (hb : Blank b) (r : List Char) : (items (t ++ (b ++ ']' :: r))).plain = .ok (vs, r) := by
  match h with
  | .one h => exact plain_items_last (plain_value h _ (apart_blank hb (by simp [Apart]))) hb
  | @SpellsItems.cons t v m u vs h hm h' =>
    have hs := ((starts_of_spellsItems h').append (b ++ ']' :: r)).skip
    have hv := plain_value h (m ++ (u ++ (b ++ ']' :: r))) (apart_between hm (by simp [Apart]) _)
    rw [List.append_assoc, List.append_assoc, plain_items_more hv hm hs, plain_items_of_spells h' hb]
    rfl

theorem plain_members_of_spells {t : List Char} {fs : List (Text × Json)} (h : SpellsMembers t fs)
    {b : List Char} (hb : Blank b) (r : List Char) :
    (members (t ++ (b ++ '\x7d' :: r))).plain = .ok (fs, r) := by
  match h with
  | @SpellsMembers.one k name m t v hk hm h =>
    have hs := ((starts_of_spells h).append (b ++ '\x7d' :: r)).skip
    have hv := plain_value h (b ++ '\x7d' :: r) (apart_blank hb (by simp [Apart]))
    rw [List.append_assoc, List.append_assoc]
    exact plain_members_last hk hm hs hv hb
  | @SpellsMembers.cons k name m t v m' u fs hk hm h hm' h' =>
    have hs := ((starts_of_spells h).append (m' ++ (u ++ (b ++ '\x7d' :: r)))).skip
    have hs' := ((startsQuote_of_spellsMembers h').append (b ++ '\x7d' :: r)).skip
    have hv := plain_value h (m' ++ (u ++ (b ++ '\x7d' :: r))) (apart_between hm' (by simp [Apart]) _)
    rw [List.append_assoc, List.append_assoc, List.append_assoc, List.append_assoc,
      plain_members_more hk hm hs hv hm' hs', plain_members_of_spells h' hb]
    rfl

end

/-! ## What is read is spelt by the grammar -/

/-- A value that was read is spelt by what was taken from the text. If a number was too long, it is reached. -/
def ValueSpec (s : List Char) : Except Fault (Json × List Char) → Prop
  | .ok (j, r) => ∃ t, s = t ++ r ∧ Spells t j
  | .error (.tooLong n) => ∃ u, Reaches s u ∧ Overlong u n
  | .error (.malformed _ _) => True

/-- The same of the items of a list, after which the list is closed. -/
def ItemsSpec (s : List Char) : Except Fault (List Json × List Char) → Prop
  | .ok (vs, r) => ∃ t b, s = t ++ (b ++ ']' :: r) ∧ SpellsItems t vs ∧ Blank b
  | .error (.tooLong n) => ∃ u, ReachesItem s u ∧ Overlong u n
  | .error (.malformed _ _) => True

/-- The same of the fields of an object, after which the object is closed. -/
def MembersSpec (s : List Char) : Except Fault (List (Text × Json) × List Char) → Prop
  | .ok (fs, r) => ∃ t b, s = t ++ (b ++ '\x7d' :: r) ∧ SpellsMembers t fs ∧ Blank b
  | .error (.tooLong n) => ∃ u, ReachesMember s u ∧ Overlong u n
  | .error (.malformed _ _) => True

theorem valueSpec_scalar (s : List Char) : ValueSpec s (scalar s).plain := by
  cases h : (scalar s).plain with
  | ok p => exact spells_of_scalar h
  | error e =>
    cases e with
    | malformed cause left => trivial
    | tooLong n => exact ⟨s, .here s, plain_scalar_eq_tooLong_iff.mp h⟩

theorem valueSpec_string (t : List Char) : ValueSpec ('"' :: t) (value ('"' :: t)).plain := by
  rw [plain_value_string]
  cases h : (stringRest t).plain with
  | ok p =>
    obtain ⟨k, hk, hs⟩ := spells_of_stringRest h
    exact ⟨k, hk, .string hs⟩
  | error e =>
    cases e with
    | malformed cause left => trivial
    | tooLong n => exact absurd h (stringRest_ne_tooLong t n)

/-- A list, if its items are read as they should be. -/
theorem valueSpec_items {t : List Char} (h : ItemsSpec (skip t) (items (skip t)).plain) :
    ValueSpec ('[' :: t) (value ('[' :: t)).plain := by
  obtain ⟨b, hb, ht⟩ := exists_blank t
  by_cases hclose : ∃ r, skip t = ']' :: r
  · obtain ⟨r, hr⟩ := hclose
    rw [plain_value_noItems hr]
    rw [hr] at ht
    exact ⟨'[' :: (b ++ [']']), by rw [ht]; simp, .noItems hb⟩
  · rw [plain_value_items (fun r hr => hclose ⟨r, hr⟩)]
    generalize (items (skip t)).plain = x at h
    match x, h with
    | .ok (vs, r), ⟨u, b', hu, hvs, hb'⟩ =>
      exact ⟨'[' :: (b ++ u ++ b' ++ [']']), by rw [ht, hu]; simp, .items hb hvs hb'⟩
    | .error (.tooLong n), ⟨u, hu, ho⟩ =>
      refine ⟨u, ?_, ho⟩
      rw [ht]
      exact .items hb hu
    | .error (.malformed _ _), _ => trivial

theorem valueSpec_members {t : List Char} (h : MembersSpec (skip t) (members (skip t)).plain) :
    ValueSpec ('\x7b' :: t) (value ('\x7b' :: t)).plain := by
  obtain ⟨b, hb, ht⟩ := exists_blank t
  by_cases hclose : ∃ r, skip t = '\x7d' :: r
  · obtain ⟨r, hr⟩ := hclose
    rw [plain_value_noMembers hr]
    rw [hr] at ht
    exact ⟨'\x7b' :: (b ++ ['\x7d']), by rw [ht]; simp, .noMembers hb⟩
  · rw [plain_value_members (fun r hr => hclose ⟨r, hr⟩)]
    generalize (members (skip t)).plain = x at h
    match x, h with
    | .ok (fs, r), ⟨u, b', hu, hfs, hb'⟩ =>
      exact ⟨'\x7b' :: (b ++ u ++ b' ++ ['\x7d']), by rw [ht, hu]; simp, .members hb hfs hb'⟩
    | .error (.tooLong n), ⟨u, hu, ho⟩ =>
      refine ⟨u, ?_, ho⟩
      rw [ht]
      exact .members hb hu
    | .error (.malformed _ _), _ => trivial

/-- Where a mark stands behind blanks, it stands between what is before and what is after it. -/
theorem exists_between {u r : List Char} {mark : Char} (h : skip u = mark :: r) :
    ∃ m, Between mark m ∧ u = m ++ skip r := by
  obtain ⟨b, hb, hu⟩ := exists_blank u
  obtain ⟨b', hb', hr⟩ := exists_blank r
  refine ⟨b ++ mark :: b', .intro hb hb', ?_⟩
  rw [h] at hu
  rw [hu, List.append_assoc, List.cons_append, ← hr]

theorem length_skip_lt {u r : List Char} {mark : Char} (h : skip u = mark :: r) :
    (skip r).length < u.length := by
  have hu := length_skip_le u
  have hr := length_skip_le r
  rw [h, List.length_cons] at hu
  omega

theorem itemsSpec_of {s : List Char} (hv : ValueSpec s (value s).plain)
    (hi : ∀ t, t.length < s.length → ItemsSpec t (items t).plain) : ItemsSpec s (items s).plain := by
  rw [plain_items]
  cases h : (value s).plain with
  | error e =>
    rw [h] at hv
    cases e with
    | malformed cause left => trivial
    | tooLong n =>
      obtain ⟨u, hu, ho⟩ := hv
      exact ⟨u, .first hu, ho⟩
  | ok p =>
    obtain ⟨v, u⟩ := p
    obtain ⟨hlen, -⟩ := exists_of_plain_eq_ok h
    rw [h] at hv
    obtain ⟨t, rfl, ht⟩ := hv
    dsimp only
    split
    · next r hr =>
      obtain ⟨b, hb, hu⟩ := exists_blank u
      exact ⟨t, b, by rw [hu, hr], .one ht, hb⟩
    · next r hr =>
      obtain ⟨m, hm, hu⟩ := exists_between hr
      have hi := hi (skip r) (Nat.lt_trans (length_skip_lt hr) hlen)
      generalize (items (skip r)).plain = x at hi
      match x, hi with
      | .ok (vs, r'), ⟨t', b, hr', hvs, hb⟩ =>
        exact ⟨t ++ m ++ t', b, by rw [hu, hr']; simp, .cons ht hm hvs, hb⟩
      | .error (.tooLong n), ⟨w, hw, ho⟩ =>
        refine ⟨w, ?_, ho⟩
        rw [hu, ← List.append_assoc]
        exact .later ht hm hw
      | .error (.malformed _ _), _ => trivial
    · trivial

theorem skip_skip (s : List Char) : skip (skip s) = skip s :=
  List.dropWhile_idempotent isSpace s

/-- The fields from a name on that has been read. -/
theorem membersSpec_name {k m w : List Char} {name : Text} (hk : SpellsString k name) (hm : Between ':' m)
    (hw : skip w = w) (hv : ValueSpec w (value w).plain)
    (hi : ∀ t, t.length < w.length → MembersSpec t (members t).plain) :
    MembersSpec (k ++ (m ++ w)) (members (k ++ (m ++ w))).plain := by
  rw [plain_members_name hk hm hw]
  cases h : (value w).plain with
  | error e =>
    rw [h] at hv
    cases e with
    | malformed cause left => trivial
    | tooLong n =>
      obtain ⟨u, hu, ho⟩ := hv
      refine ⟨u, ?_, ho⟩
      rw [← List.append_assoc]
      exact .first hk hm hu
  | ok p =>
    obtain ⟨v, u⟩ := p
    obtain ⟨hlen, -⟩ := exists_of_plain_eq_ok h
    rw [h] at hv
    obtain ⟨t, rfl, ht⟩ := hv
    dsimp only
    split
    · next r hr =>
      obtain ⟨b, hb, hu⟩ := exists_blank u
      exact ⟨k ++ m ++ t, b, by rw [hu, hr]; simp, .one hk hm ht, hb⟩
    · next r hr =>
      obtain ⟨m', hm', hu⟩ := exists_between hr
      have hi := hi (skip r) (Nat.lt_trans (length_skip_lt hr) hlen)
      generalize (members (skip r)).plain = x at hi
      match x, hi with
      | .ok (fs, r'), ⟨t', b, hr', hfs, hb⟩ =>
        exact ⟨k ++ m ++ t ++ m' ++ t', b, by rw [hu, hr']; simp, .cons hk hm ht hm' hfs, hb⟩
      | .error (.tooLong n), ⟨x, hx, ho⟩ =>
        refine ⟨x, ?_, ho⟩
        rw [hu, ← List.append_assoc, ← List.append_assoc, ← List.append_assoc]
        exact .later hk hm ht hm' hx
      | .error (.malformed _ _), _ => trivial
    · trivial

theorem membersSpec_of {s : List Char} (hv : ∀ t, t.length < s.length → ValueSpec t (value t).plain)
    (hi : ∀ t, t.length < s.length → MembersSpec t (members t).plain) :
    MembersSpec s (members s).plain := by
  by_cases hquote : ∃ t, s = '"' :: t
  · obtain ⟨t, rfl⟩ := hquote
    cases h : (stringRest t).plain with
    | error e =>
      rw [plain_members, h]
      cases e with
      | malformed cause left => trivial
      | tooLong n => exact absurd h (stringRest_ne_tooLong t n)
    | ok p =>
      obtain ⟨name, w⟩ := p
      obtain ⟨hlen, -⟩ := exists_of_plain_eq_ok h
      by_cases hcolon : ∃ r, skip w = ':' :: r
      · obtain ⟨r, hr⟩ := hcolon
        obtain ⟨k, hkw, hk⟩ := spells_of_stringRest h
        obtain ⟨m, hm, hw⟩ := exists_between hr
        have hlen' : (skip r).length < ('"' :: t).length := by
          have := length_skip_lt hr
          rw [List.length_cons]
          omega
        rw [hkw, hw]
        exact membersSpec_name hk hm (skip_skip r) (hv _ hlen') fun t' ht' => hi t' (by omega)
      · rw [plain_members, h]
        dsimp only
        split
        · next r hr => exact absurd ⟨r, hr⟩ hcolon
        · trivial
  · rw [plain_members_of_ne fun t h => hquote ⟨t, h⟩]
    trivial

theorem value_cases (s : List Char) : (∃ t, s = '"' :: t) ∨ (∃ t, s = '[' :: t) ∨ (∃ t, s = '\x7b' :: t) ∨
    value s = scalar s := by
  match s with
  | [] => exact Or.inr (Or.inr (Or.inr (value_eq_scalar (by simp))))
  | x :: t =>
    by_cases h₁ : x = '"'
    · exact Or.inl ⟨t, by rw [h₁]⟩
    by_cases h₂ : x = '['
    · exact Or.inr (Or.inl ⟨t, by rw [h₂]⟩)
    by_cases h₃ : x = '\x7b'
    · exact Or.inr (Or.inr (Or.inl ⟨t, by rw [h₃]⟩))
    refine Or.inr (Or.inr (Or.inr (value_eq_scalar ?_)))
    intro y hy
    cases hy
    exact ⟨h₁, h₂, h₃⟩

/-- Every part of the reader does what it should. -/
theorem read_spec (s : List Char) : ValueSpec s (value s).plain ∧ ItemsSpec s (items s).plain ∧
    MembersSpec s (members s).plain := by
  induction hn : s.length using Nat.strongRecOn generalizing s with
  | ind n ih =>
    have ih (t : List Char) (ht : t.length < s.length) := ih t.length (by omega) t rfl
    have hskip (x : Char) (t : List Char) (hs : s = x :: t) : (skip t).length < s.length := by
      have := length_skip_le t
      rw [hs, List.length_cons]
      omega
    have hv : ValueSpec s (value s).plain := by
      rcases value_cases s with ⟨t, hs⟩ | ⟨t, hs⟩ | ⟨t, hs⟩ | hs
      · rw [hs]
        exact valueSpec_string t
      · have h := (ih (skip t) (hskip '[' t hs)).2.1
        rw [hs]
        exact valueSpec_items h
      · have h := (ih (skip t) (hskip '\x7b' t hs)).2.2
        rw [hs]
        exact valueSpec_members h
      · rw [hs]
        exact valueSpec_scalar s
    exact ⟨hv, itemsSpec_of hv fun t ht => (ih t ht).2.1,
      membersSpec_of (fun t ht => (ih t ht).1) fun t ht => (ih t ht).2.2⟩

/-! ## Numbers that are too long are met -/

theorem startsScalar_of_overlong {s : List Char} {n : Nat} (h : Overlong s n) : StartsScalar s := by
  obtain ⟨negative, hw, -, -⟩ := h
  exact (startsScalar_minusText negative hw.1).append _

theorem starts_of_reaches {s u : List Char} {n : Nat} (h : Reaches s u) (ho : Overlong u n) : Starts s := by
  cases h with
  | here => exact (startsScalar_of_overlong ho).starts
  | items hb h => exact ⟨'[', _, rfl, by decide, by decide, by decide⟩
  | members hb h => exact ⟨'\x7b', _, rfl, by decide, by decide, by decide⟩

theorem starts_of_reachesItem {s u : List Char} {n : Nat} (h : ReachesItem s u) (ho : Overlong u n) :
    Starts s := by
  cases h with
  | first h => exact starts_of_reaches h ho
  | later ht hm h => exact ((starts_of_spells ht).append _).append _

theorem startsQuote_of_reachesMember {s u : List Char} (h : ReachesMember s u) : StartsQuote s := by
  cases h with
  | first hk hm h => exact ((startsQuote_of_spellsString hk).append _).append _
  | later hk hm ht hm' h =>
    exact ((((startsQuote_of_spellsString hk).append _).append _).append _).append _

mutual

theorem plain_value_of_reaches {s u : List Char} {n : Nat} (h : Reaches s u) (ho : Overlong u n) :
    (value s).plain = .error (.tooLong n) := by
  match h with
  | .here s =>
    rw [(startsScalar_of_overlong ho).value_eq]
    exact plain_scalar_eq_tooLong_iff.mpr ho
  | .items hb h =>
    rw [plain_value_list hb (starts_of_reachesItem h ho), plain_items_of_reaches h ho]
    rfl
  | .members hb h =>
    rw [plain_value_object hb (startsQuote_of_reachesMember h), plain_members_of_reaches h ho]
    rfl

theorem plain_items_of_reaches {s u : List Char} {n : Nat} (h : ReachesItem s u) (ho : Overlong u n) :
    (items s).plain = .error (.tooLong n) := by
  match h with
  | .first h => exact plain_items_error (plain_value_of_reaches h ho)
  | @ReachesItem.later t v m w s ht hm h =>
    have hv := plain_value ht (m ++ w) (apart_between hm (by simp [Apart]) w)
    rw [List.append_assoc, plain_items_more hv hm (starts_of_reachesItem h ho).skip,
      plain_items_of_reaches h ho]
    rfl

theorem plain_members_of_reaches {s u : List Char} {n : Nat} (h : ReachesMember s u) (ho : Overlong u n) :
    (members s).plain = .error (.tooLong n) := by
  match h with
  | .first hk hm h =>
    rw [List.append_assoc]
    exact plain_members_error hk hm (starts_of_reaches h ho).skip (plain_value_of_reaches h ho)
  | @ReachesMember.later k name m t v m' w s hk hm ht hm' h =>
    have hs := ((starts_of_spells ht).append (m' ++ w)).skip
    have hv := plain_value ht (m' ++ w) (apart_between hm' (by simp [Apart]) w)
    rw [List.append_assoc, List.append_assoc, List.append_assoc,
      plain_members_more hk hm hs hv hm' (startsQuote_of_reachesMember h).skip, plain_members_of_reaches h ho]
    rfl

end

end Reader

/-! ## Whole texts -/

open Reader

theorem parse_eq (s : List Char) : parse s =
    if s.head? = some '\uFEFF' then .error (.malformed .byteOrderMark s.length)
    else
      match (value (skip s)).plain with
      | .error e => .error e
      | .ok (j, r) =>
        if skip r = [] then .ok j else .error (.malformed .extraData (skip r).length) := by
  unfold parse
  split
  · rfl
  · cases value (skip s) with
    | error e => rfl
    | ok p =>
      show (if (skip p.2.val).isEmpty then _ else _) = _
      simp only [List.isEmpty_iff]
      rfl

/-- A text that starts as a value does, behind blanks, does not start with the mark of a byte order. -/
theorem head?_blank_append {b s : List Char} (hb : Blank b) (hs : Starts s) :
    (b ++ s).head? ≠ some '\uFEFF' := by
  cases b with
  | nil => exact hs.head?_ne_mark
  | cons x b =>
    intro h
    cases h
    have hx := hb '\uFEFF' (by simp)
    revert hx
    decide

/-- A text can be read if the grammar spells it, and gives the value that it spells. -/
theorem parse_eq_ok_iff {s : List Char} {j : Json} : parse s = .ok j ↔ SpellsText s j := by
  rw [parse_eq]
  constructor
  · intro h
    split at h
    · cases h
    · have hv := (read_spec (skip s)).1
      obtain ⟨b, hb, hs⟩ := exists_blank s
      generalize (value (skip s)).plain = x at h hv
      match x, hv with
      | .error e, _ => cases h
      | .ok (j', r), ⟨t, ht, hj⟩ =>
        dsimp only at h
        split at h
        · next hr =>
          cases h
          obtain ⟨b', hb', hr'⟩ := exists_blank r
          rw [hr, List.append_nil] at hr'
          rw [hs, ht, hr', ← List.append_assoc]
          exact .intro hb hj hb'
        · cases h
  · rintro ⟨hb, ht, hb'⟩
    next b t b' =>
    have hs := (starts_of_spells ht).append b'
    have hv := plain_value ht b' (by simpa using apart_blank hb' (r := []) (by simp [Apart]))
    rw [List.append_assoc, if_neg (head?_blank_append hb hs), skip_append hb, hs.skip, hv]
    dsimp only
    rw [if_pos (skip_blank hb')]

/-- A text spells no more than one value. -/
theorem eq_of_spellsText {s : List Char} {j j' : Json} (h : SpellsText s j) (h' : SpellsText s j') : j = j' :=
  Except.ok.inj ((parse_eq_ok_iff.mpr h).symm.trans (parse_eq_ok_iff.mpr h'))

/-- Reading stops at a number of too many digits if one is met before anything else is wrong. -/
theorem parse_eq_tooLong_iff {s : List Char} {n : Nat} :
    parse s = .error (.tooLong n) ↔ MeetsOverlong s n := by
  rw [parse_eq]
  constructor
  · intro h
    split at h
    · cases h
    · have hv := (read_spec (skip s)).1
      obtain ⟨b, hb, hs⟩ := exists_blank s
      generalize (value (skip s)).plain = x at h hv
      match x, hv with
      | .error (.malformed _ _), _ => cases h
      | .error (.tooLong n'), ⟨u, hu, ho⟩ =>
        cases h
        rw [hs]
        exact .intro hb hu ho
      | .ok (j', r), _ =>
        dsimp only at h
        split at h <;> cases h
  · rintro ⟨hb, hu, ho⟩
    have hs := starts_of_reaches hu ho
    rw [if_neg (head?_blank_append hb hs), skip_append hb, hs.skip, plain_value_of_reaches hu ho]

theorem not_spellsText_of_meetsOverlong {s : List Char} {n : Nat} (h : MeetsOverlong s n) (j : Json) :
    ¬ SpellsText s j := by
  intro hj
  rw [← parse_eq_ok_iff, parse_eq_tooLong_iff.mpr h] at hj
  cases hj

end Gridlock.Json

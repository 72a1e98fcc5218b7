import Gridlock.Proofs.Grammar

/-!
# Reading blanks, strings and numbers

Each part of the reader gives exactly what the grammar says, and the rest of the text. A number is read as far
as it goes, so what follows it must not go on with it.

* `Read.plain` : what was read and what is left, without the proof that it is shorter
* `plain_stringRest`, `spells_of_stringRest` : strings
* `plain_number_whole`, `plain_number_real`, `spells_of_number` : numbers
* `plain_number_eq_tooLong_iff` : a number is too long exactly if the grammar says so
-/

namespace Gridlock.Json.Reader

def Read.plain {α : Type} {s : List Char} (x : Read α s) : Except Fault (α × List Char) :=
  x.map fun p => (p.1, p.2.val)

section Plain
variable {α β : Type} {s t : List Char}

@[simp] theorem plain_ok (v : α) (r : Rest s) : Read.plain (.ok (v, r)) = .ok (v, r.val) := rfl

theorem exists_of_plain_eq_ok {x : Read α s} {v : α} {r : List Char} (h : x.plain = .ok (v, r)) :
    ∃ hr, x = .ok (v, ⟨r, hr⟩) := by
  cases x with
  | error e => cases h
  | ok p =>
    cases h
    exact ⟨p.2.property, rfl⟩

variable {x : Read α t} {g : α × Rest t → Read β s} {f : α → β}

/-- Where reading goes on with what was read, and leaves the rest alone, something has been read. -/
theorem exists_of_bind_eq_ok {v : β} {r : List Char} (h : Read.plain (x >>= g) = .ok (v, r))
    (hg : ∀ p, (g p).plain = .ok (f p.1, p.2.val)) : ∃ w, x.plain = .ok (w, r) ∧ v = f w := by
  cases x with
  | error e => cases h
  | ok p =>
    have h : (g p).plain = .ok (v, r) := h
    rw [hg] at h
    cases h
    exact ⟨p.1, rfl, rfl⟩

theorem eq_error_of_bind_eq_error {e : Fault} (h : Read.plain (x >>= g) = .error e)
    (hg : ∀ p, (g p).plain = .ok (f p.1, p.2.val)) : x.plain = .error e := by
  cases x with
  | error e =>
    cases h
    rfl
  | ok p =>
    have h : (g p).plain = .error e := h
    rw [hg] at h
    cases h

end Plain

/-! ## Blanks -/

theorem skip_append {b : List Char} (h : Blank b) (s : List Char) : skip (b ++ s) = skip s :=
  List.dropWhile_append_of_pos h

theorem skip_cons {x : Char} (h : isSpace x = false) (s : List Char) : skip (x :: s) = x :: s := by
  unfold skip
  rw [List.dropWhile_cons_of_neg (by simp [h])]

theorem skip_blank {b : List Char} (h : Blank b) : skip b = [] := by
  have := skip_append h []
  rwa [List.append_nil] at this

theorem exists_blank (s : List Char) : ∃ b, Blank b ∧ s = b ++ skip s :=
  ⟨s.takeWhile isSpace, List.all_eq_true.mp List.all_takeWhile, List.takeWhile_append_dropWhile.symm⟩

/-! ## Strings -/

theorem plain_pieces_of_quoted {t : List Char} {ps : List CodePoint} (h : Quoted t ps) (place r : List Char) :
    (pieces place (t ++ '"' :: r)).plain = .ok (ps, r) := by
  induction h with
  | nil => rw [List.nil_append, pieces, plain_ok]
  | plain hx hq hb h ih =>
    obtain ⟨hr, ih⟩ := exists_of_plain_eq_ok ih
    rw [List.cons_append, pieces]
    · rw [if_neg (by omega), ih]
      rfl
    · exact hq
    · exact fun h => absurd h hb
    · exact fun _ _ _ _ _ _ h => absurd h hb
    · exact fun _ h => absurd h hb
    · exact fun _ _ h => absurd h hb
  | @short x y t ps hx h ih =>
    obtain ⟨hr, ih⟩ := exists_of_plain_eq_ok ih
    have hu : x ≠ 'u' := by
      rintro rfl
      cases hx
    rw [List.cons_append, List.cons_append, pieces, hx, ih]
    · rfl
    · exact fun _ _ _ _ _ _ h => absurd h hu
    · exact fun h => absurd h hu
  | @unit x₁ x₂ x₃ x₄ n t ps hn h ih =>
    obtain ⟨e, r', he⟩ := List.exists_cons_of_ne_nil (by simp : t ++ '"' :: r ≠ [])
    simp only [List.cons_append]
    rw [he] at ih ⊢
    obtain ⟨hr, ih⟩ := exists_of_plain_eq_ok ih
    rw [pieces, hn, ih]
    rfl

theorem quoted_of_pieces {place s r : List Char} {ps : List CodePoint}
    (h : (pieces place s).plain = .ok (ps, r)) : ∃ t, s = t ++ '"' :: r ∧ Quoted t ps := by
  fun_induction pieces place s generalizing ps r with
  | case2 r' =>
    cases h
    exact ⟨[], rfl, .nil⟩
  | case4 x₁ x₂ x₃ x₄ e r' n hn ih =>
    obtain ⟨ps', hps, rfl⟩ := exists_of_bind_eq_ok (f := (pointOf n :: ·)) h fun _ => rfl
    obtain ⟨t, ht, hq⟩ := ih hps
    exact ⟨_, by rw [ht]; rfl, .unit hn hq⟩
  | case7 x r' hx hu y hy ih =>
    obtain ⟨ps', hps, rfl⟩ := exists_of_bind_eq_ok (f := (CodePoint.char y :: ·)) h fun _ => rfl
    obtain ⟨t, rfl, hq⟩ := ih hps
    exact ⟨_, rfl, .short hy hq⟩
  | case10 x r' hq hb hu hu' hs hx ih =>
    obtain ⟨ps', hps, rfl⟩ := exists_of_bind_eq_ok (f := (CodePoint.char x :: ·)) h fun _ => rfl
    have hb' : x ≠ '\\' := by
      intro hx
      cases r' with
      | nil => exact hb hx rfl
      | cons y r' => exact hs y r' hx rfl
    obtain ⟨t, rfl, hq'⟩ := ih hps
    exact ⟨_, rfl, .plain (by omega) hq hb' hq'⟩
  | _ => cases h

theorem pieces_ne_tooLong (place s : List Char) (n : Nat) :
    (pieces place s).plain ≠ .error (.tooLong n) := by
  intro h
  fun_induction pieces place s with
  | case4 x₁ x₂ x₃ x₄ e r' m hm ih =>
    exact ih (eq_error_of_bind_eq_error (f := (pointOf m :: ·)) h fun _ => rfl)
  | case7 x r' hx hu y hy ih => exact ih (eq_error_of_bind_eq_error (f := (CodePoint.char y :: ·)) h fun _ => rfl)
  | case10 x r' hq hb hu hu' hs hx ih =>
    exact ih (eq_error_of_bind_eq_error (f := (CodePoint.char x :: ·)) h fun _ => rfl)
  | _ => cases h

theorem plain_stringRest {k : List Char} {name : Text} (h : SpellsString k name) (r : List Char) :
    ∃ s, k ++ r = '"' :: s ∧ (stringRest s).plain = .ok (name, r) := by
  cases h with
  | @intro t ps h =>
    refine ⟨t ++ '"' :: r, by simp, ?_⟩
    obtain ⟨hr, hx⟩ := exists_of_plain_eq_ok (plain_pieces_of_quoted h ('"' :: (t ++ '"' :: r)) r)
    unfold stringRest
    rw [hx]
    rfl

theorem spells_of_stringRest {s r : List Char} {name : Text} (h : (stringRest s).plain = .ok (name, r)) :
    ∃ k, '"' :: s = k ++ r ∧ SpellsString k name := by
  obtain ⟨ps, hps, rfl⟩ := exists_of_bind_eq_ok (f := fun ps => Text.ofPoints (joinHalves ps)) h fun _ => rfl
  obtain ⟨t, rfl, hq⟩ := quoted_of_pieces hps
  exact ⟨_, by simp, .intro hq⟩

theorem stringRest_ne_tooLong (s : List Char) (n : Nat) : (stringRest s).plain ≠ .error (.tooLong n) := by
  intro h
  exact pieces_ne_tooLong _ _ _
    (eq_error_of_bind_eq_error (f := fun ps => Text.ofPoints (joinHalves ps)) h fun _ => rfl)

/-! ## Parts of numbers -/

theorem digits_append {ds r : List Char} (h : ∀ x ∈ ds, x.isDigit = true) (hr : NoDigit r) :
    digits (ds ++ r) = (ds, r) := by
  unfold digits
  rw [List.takeWhile_append_of_pos h, List.dropWhile_append_of_pos h]
  cases r with
  | nil => simp
  | cons x r => simp [hr x rfl]

theorem digits_spec (s : List Char) :
    s = (digits s).1 ++ (digits s).2 ∧ (∀ x ∈ (digits s).1, x.isDigit = true) ∧ NoDigit (digits s).2 := by
  refine ⟨List.takeWhile_append_dropWhile.symm, List.all_eq_true.mp List.all_takeWhile, ?_⟩
  intro x hx
  have h := List.head?_dropWhile_not Char.isDigit s
  have hx : (s.dropWhile Char.isDigit).head? = some x := hx
  rw [hx] at h
  exact h

theorem digits_of_fst_ne_nil {s : List Char} (h : (digits s).1 ≠ []) : Digits (digits s).1 :=
  ⟨h, (digits_spec s).2.1⟩

/-- Digits that come first are among the digits that are read. -/
theorem fst_digits_ne_nil {ds : List Char} (h : Digits ds) (r : List Char) : (digits (ds ++ r)).1 ≠ [] := by
  obtain ⟨x, ds, rfl⟩ := List.exists_cons_of_ne_nil h.1
  have hx : x.isDigit = true := h.2 x (by simp)
  simp [digits, hx]

/-- Digits start with a digit. -/
theorem exists_digit {ds : List Char} (h : Digits ds) : ∃ x t, ds = x :: t ∧ x.isDigit = true := by
  obtain ⟨x, ds, rfl⟩ := List.exists_cons_of_ne_nil h.1
  exact ⟨x, ds, rfl, h.2 x (by simp)⟩

theorem wholeDigits?_append {ds r : List Char} (h : Whole ds) (hr : NoDigit r) :
    wholeDigits? (ds ++ r) = some (ds, r) := by
  obtain ⟨x, t, rfl, hx⟩ := exists_digit h.1
  by_cases h0 : x = '0'
  · subst h0
    obtain rfl : t = [] := by simpa using h.2 rfl
    rfl
  · have ht : ∀ x ∈ t, x.isDigit = true := fun y hy => h.1.2 y (List.mem_cons_of_mem x hy)
    rw [List.cons_append, wholeDigits?]
    · rw [if_pos hx, digits_append ht hr]
    · exact h0

theorem whole_of_wholeDigits? {s ds r : List Char} (h : wholeDigits? s = some (ds, r)) :
    s = ds ++ r ∧ Whole ds ∧ (1 < ds.length → NoDigit r) := by
  unfold wholeDigits? at h
  split at h
  · cases h
    exact ⟨rfl, ⟨⟨by simp, by simp⟩, fun _ => rfl⟩, fun h => absurd h (by simp)⟩
  · next x t h0 =>
    split at h
    · next hx =>
      cases h
      obtain ⟨ht, hd, hn⟩ := digits_spec t
      refine ⟨by rw [List.cons_append, ← ht], ⟨⟨by simp, ?_⟩, ?_⟩, fun _ => hn⟩
      · intro y hy
        rcases List.mem_cons.mp hy with rfl | hy
        · exact hx
        · exact hd y hy
      · intro h
        cases h
        exact absurd rfl h0
    · cases h
  · cases h

theorem fraction?_append {f fs r : List Char} (h : Fraction f fs) (hf : f ≠ []) (hr : NoDigit r) :
    fraction? (f ++ r) = some (fs, r) := by
  cases h with
  | none => exact absurd rfl hf
  | point h =>
    rw [List.cons_append, fraction?, digits_append h.2 hr, if_neg]
    simpa using h.1

theorem fraction_of_fraction? {s fs r : List Char} (h : fraction? s = some (fs, r)) :
    ∃ f, s = f ++ r ∧ f ≠ [] ∧ Fraction f fs := by
  unfold fraction? at h
  split at h
  · next t =>
    split at h
    · cases h
    · next hd =>
      cases h
      rw [List.isEmpty_iff] at hd
      exact ⟨'.' :: (digits t).1, congrArg ('.' :: ·) (digits_spec t).1, by simp,
        .point (digits_of_fst_ne_nil hd)⟩
  · cases h

theorem fraction?_eq_none_iff {s : List Char} :
    fraction? s = none ↔ ∀ f fs u, s = f ++ u → Fraction f fs → f = [] := by
  constructor
  · rintro h f fs u rfl hf
    cases hf with
    | none => rfl
    | point hf =>
      rw [List.cons_append, fraction?, if_neg] at h
      · cases h
      · simpa using fst_digits_ne_nil hf u
  · intro h
    cases hs : fraction? s with
    | none => rfl
    | some p =>
      obtain ⟨f, hf, hne, hff⟩ := fraction_of_fraction? hs
      exact absurd (h f _ _ hf hff) hne

theorem sign_append {sg ds : List Char} {negative : Bool} (h : Sign sg negative) (hd : Digits ds)
    (r : List Char) : sign (sg ++ (ds ++ r)) = (negative, ds ++ r) := by
  obtain ⟨x, t, rfl, hx⟩ := exists_digit hd
  cases h with
  | none =>
    rw [List.nil_append, List.cons_append, sign]
    · intro y h
      cases h
      cases hx
    · intro y h
      cases h
      cases hx
  | plus => rfl
  | minus => rfl

theorem sign_of_sign (s : List Char) : ∃ sg, s = sg ++ (sign s).2 ∧ Sign sg (sign s).1 := by
  unfold sign
  split
  · exact ⟨['-'], rfl, .minus⟩
  · exact ⟨['+'], rfl, .plus⟩
  · exact ⟨[], rfl, .none⟩

theorem exponent?_append {x r : List Char} {e : Int} (h : Exponent x e) (hx : x ≠ []) (hr : NoDigit r) :
    exponent? (x ++ r) = some (e, r) := by
  cases h with
  | none => exact absurd rfl hx
  | @mark y sg negative ds hy hs hd =>
    rw [List.cons_append, List.append_assoc, exponent?, if_pos hy, sign_append hs hd]
    dsimp only
    rw [digits_append hd.2 hr, if_neg (by simpa using hd.1)]
    rfl

theorem exponent_of_exponent? {s r : List Char} {e : Int} (h : exponent? s = some (e, r)) :
    ∃ x, s = x ++ r ∧ x ≠ [] ∧ Exponent x e := by
  unfold exponent? at h
  split at h
  · next y t =>
    split at h
    · next hy =>
      dsimp only at h
      split at h
      · cases h
      · next hd =>
        cases h
        rw [List.isEmpty_iff] at hd
        obtain ⟨sg, ht, hs⟩ := sign_of_sign t
        refine ⟨y :: (sg ++ (digits (sign t).2).1), ?_, by simp, .mark hy hs (digits_of_fst_ne_nil hd)⟩
        rw [List.cons_append, List.append_assoc, ← (digits_spec (sign t).2).1, ← ht]
    · cases h
  · cases h

theorem exponent?_eq_none_iff {s : List Char} :
    exponent? s = none ↔ ∀ x e u, s = x ++ u → Exponent x e → x = [] := by
  constructor
  · rintro h x e u rfl hx
    cases hx with
    | none => rfl
    | mark hy hs hd =>
      rw [List.cons_append, List.append_assoc, exponent?, if_pos hy, sign_append hs hd] at h
      dsimp only at h
      rw [if_neg] at h
      · cases h
      · simpa using fst_digits_ne_nil hd u
  · intro h
    cases hs : exponent? s with
    | none => rfl
    | some p =>
      obtain ⟨x, hx, hne, hxe⟩ := exponent_of_exponent? hs
      exact absurd (h x _ _ hx hxe) hne

theorem minus_append {ds : List Char} (negative : Bool) (hd : Digits ds) (r : List Char) :
    minus (minusText negative ++ (ds ++ r)) = (negative, ds ++ r) := by
  obtain ⟨x, t, rfl, hx⟩ := exists_digit hd
  cases negative with
  | true => rfl
  | false =>
    show minus (x :: (t ++ r)) = (false, x :: (t ++ r))
    rw [minus]
    intro y h
    cases h
    cases hx

theorem minusText_minus (s : List Char) : s = minusText (minus s).1 ++ (minus s).2 := by
  unfold minus
  split <;> rfl

/-! ## Numbers -/

/-- What comes first cannot belong to a number before it. -/
def Apart (s : List Char) : Prop :=
  ∀ x ∈ s.head?, x.isDigit = false ∧ x ≠ '.' ∧ x ≠ 'e' ∧ x ≠ 'E'

theorem Apart.noDigit {s : List Char} (h : Apart s) : NoDigit s :=
  fun x hx => (h x hx).1

theorem Apart.fraction? {s : List Char} (h : Apart s) : fraction? s = none := by
  unfold Reader.fraction?
  split
  · exact absurd rfl (h '.' rfl).2.1
  · rfl

theorem Apart.exponent? {s : List Char} (h : Apart s) : exponent? s = none := by
  unfold Reader.exponent?
  split
  · next x t =>
    have hx := h x rfl
    rw [if_neg (by simp [hx.2.2.1, hx.2.2.2])]
  · rfl

def fractionOf (s : List Char) : List Char × List Char :=
  (fraction? s).getD ([], s)

theorem fractionOf_append {f fs r : List Char} (h : Fraction f fs) (hr : NoDigit r)
    (hnone : fraction? r = none) : fractionOf (f ++ r) = (fs, r) := by
  unfold fractionOf
  by_cases hf : f = []
  · cases h with
    | none => rw [List.nil_append, hnone, Option.getD_none]
    | point h => cases hf
  · rw [fraction?_append h hf hr, Option.getD_some]

theorem fractionOf_spec (s : List Char) : ∃ f, s = f ++ (fractionOf s).2 ∧ Fraction f (fractionOf s).1 ∧
    (f = [] → fraction? s = none) := by
  unfold fractionOf
  cases h : fraction? s with
  | none => exact ⟨[], rfl, .none, fun _ => rfl⟩
  | some p =>
    obtain ⟨f, hs, hne, hf⟩ := fraction_of_fraction? h
    exact ⟨f, hs, hf, fun h => absurd h hne⟩

def exponentOf (s : List Char) : Int × List Char :=
  (exponent? s).getD (0, s)

theorem exponentOf_append {x r : List Char} {e : Int} (h : Exponent x e) (hr : NoDigit r)
    (hnone : exponent? r = none) : exponentOf (x ++ r) = (e, r) := by
  unfold exponentOf
  by_cases hx : x = []
  · cases h with
    | none => rw [List.nil_append, hnone, Option.getD_none]
    | mark _ _ _ => cases hx
  · rw [exponent?_append h hx hr, Option.getD_some]

theorem exponentOf_spec (s : List Char) : ∃ x, s = x ++ (exponentOf s).2 ∧ Exponent x (exponentOf s).1 ∧
    (x = [] → exponent? s = none) := by
  unfold exponentOf
  cases h : exponent? s with
  | none => exact ⟨[], rfl, .none, fun _ => rfl⟩
  | some p =>
    obtain ⟨x, hs, hne, hx⟩ := exponent_of_exponent? h
    exact ⟨x, hs, hx, fun h => absurd h hne⟩

/-- A number whose digits before the point are known. It is a whole number if nothing comes after them. -/
theorem plain_number {s ds r : List Char} (h : wholeDigits? (minus s).2 = some (ds, r)) :
    (number s).plain =
      if fraction? r = none ∧ exponent? r = none then
        if Number.digitLimit < ds.length then .error (.tooLong ds.length)
        else .ok (num (.whole (signed (minus s).1 (natOfDigits ds))), r)
      else
        .ok (num (.real (.ofDecimal (minus s).1 (natOfDigits (ds ++ (fractionOf r).1))
          ((exponentOf (fractionOf r).2).1 - (fractionOf r).1.length))), (exponentOf (fractionOf r).2).2) := by
  unfold number fractionOf exponentOf
  split
  · next hn =>
    rw [h] at hn
    cases hn
  · next ds' r' hd =>
    rw [h] at hd
    cases hd
    dsimp only
    split
    · next fs r' hf =>
      split
      · next e r'' he => simp [hf, he]
      · next he => simp [hf, he]
    · next hf =>
      split
      · next e r'' he => simp [hf, he]
      · next he =>
        simp only [hf, he, and_self, if_true]
        split <;> rfl

theorem plain_number_of_none {s : List Char} (h : wholeDigits? (minus s).2 = none) :
    (number s).plain = .error (.malformed .noValue s.length) := by
  unfold number
  split
  · rfl
  · next hd =>
    rw [h] at hd
    cases hd

theorem wholeDigits?_minus (negative : Bool) {ds r : List Char} (h : Whole ds) (hr : NoDigit r) :
    minus (minusText negative ++ ds ++ r) = (negative, ds ++ r) ∧ wholeDigits? (ds ++ r) = some (ds, r) := by
  rw [List.append_assoc, minus_append negative h.1]
  exact ⟨rfl, wholeDigits?_append h hr⟩

theorem plain_number_whole (negative : Bool) {ds r : List Char} (h : Whole ds)
    (hl : ds.length ≤ Number.digitLimit) (hr : Apart r) :
    (number (minusText negative ++ ds ++ r)).plain =
      .ok (num (.whole (signed negative (natOfDigits ds))), r) := by
  obtain ⟨hm, hd⟩ := wholeDigits?_minus negative h hr.noDigit
  rw [plain_number (by rw [hm, hd]), hm, if_pos ⟨hr.fraction?, hr.exponent?⟩, if_neg (by omega)]

theorem plain_number_real (negative : Bool) {ds f fs x r : List Char} {e : Int} (h : Whole ds)
    (hf : Fraction f fs) (hx : Exponent x e) (hne : f ++ x ≠ []) (hr : Apart r) :
    (number (minusText negative ++ ds ++ f ++ x ++ r)).plain =
      .ok (num (.real (.ofDecimal negative (natOfDigits (ds ++ fs)) (e - fs.length))), r) := by
  have hxr : NoDigit (x ++ r) ∧ fraction? (x ++ r) = none := by
    cases hx with
    | none => exact ⟨hr.noDigit, hr.fraction?⟩
    | mark hy hs hd => rcases hy with rfl | rfl <;> simp [NoDigit, fraction?]
  have hfxr : NoDigit (f ++ (x ++ r)) := by
    cases hf with
    | none => exact hxr.1
    | point hd => simp [NoDigit]
  have hreal : ¬ (fraction? (f ++ (x ++ r)) = none ∧ exponent? (f ++ (x ++ r)) = none) := by
    rintro ⟨hf', hx'⟩
    obtain rfl := fraction?_eq_none_iff.mp hf' f fs _ rfl hf
    exact hne (exponent?_eq_none_iff.mp hx' x e r rfl hx)
  obtain ⟨hm, hd⟩ := wholeDigits?_minus negative h hfxr
  rw [List.append_assoc _ x, List.append_assoc _ f, plain_number (by rw [hm, hd]), hm, if_neg hreal,
    fractionOf_append hf hxr.1 hxr.2, exponentOf_append hx hr.noDigit hr.exponent?]

/-- A number has been read, or a whole number was too long. -/
theorem number_cases (s : List Char) {ds r : List Char} (h : wholeDigits? (minus s).2 = some (ds, r)) :
    (∃ t j r', (number s).plain = .ok (j, r') ∧ s = t ++ r' ∧ Spells t j) ∨
      (number s).plain = .error (.tooLong ds.length) ∧ Overlong s ds.length := by
  obtain ⟨hs, hw, hn⟩ := whole_of_wholeDigits? h
  have hs : s = minusText (minus s).1 ++ ds ++ r := by
    rw [List.append_assoc, ← hs]
    exact minusText_minus s
  rw [plain_number h]
  by_cases hnone : fraction? r = none ∧ exponent? r = none
  · rw [if_pos hnone]
    by_cases hl : Number.digitLimit < ds.length
    · rw [if_pos hl]
      refine Or.inr ⟨rfl, ?_⟩
      rw [hs]
      exact .intro _ hw hl ⟨hn (by unfold Number.digitLimit at hl; omega), fraction?_eq_none_iff.mp hnone.1,
        exponent?_eq_none_iff.mp hnone.2⟩
    · rw [if_neg hl]
      exact Or.inl ⟨_, _, _, rfl, hs, .whole _ hw (by omega)⟩
  · rw [if_neg hnone]
    obtain ⟨f, hf, hff, hf'⟩ := fractionOf_spec r
    obtain ⟨x, hx, hxx, hx'⟩ := exponentOf_spec (fractionOf r).2
    refine Or.inl ⟨_, _, _, rfl, ?_, .real _ hw hff hxx ?_⟩
    · rw [List.append_assoc _ x, ← hx, List.append_assoc _ f, ← hf]
      exact hs
    · intro hne
      obtain ⟨rfl, rfl⟩ := List.append_eq_nil_iff.mp hne
      have hr : r = (fractionOf r).2 := hf
      exact hnone ⟨hf' rfl, by rw [hr]; exact hx' rfl⟩

theorem spells_of_number {s r : List Char} {j : Json} (h : (number s).plain = .ok (j, r)) :
    ∃ t, s = t ++ r ∧ Spells t j := by
  cases hd : wholeDigits? (minus s).2 with
  | none =>
    rw [plain_number_of_none hd] at h
    cases h
  | some p =>
    rcases number_cases s hd with ⟨t, j', r', h', ht⟩ | ⟨h', -⟩
    · rw [h] at h'
      cases h'
      exact ⟨t, ht⟩
    · rw [h] at h'
      cases h'

theorem plain_number_eq_tooLong_iff {s : List Char} {n : Nat} :
    (number s).plain = .error (.tooLong n) ↔ Overlong s n := by
  constructor
  · intro h
    cases hd : wholeDigits? (minus s).2 with
    | none =>
      rw [plain_number_of_none hd] at h
      cases h
    | some p =>
      rcases number_cases s hd with ⟨t, j', r', h', -⟩ | ⟨h', ho⟩
      · rw [h] at h'
        cases h'
      · rw [h] at h'
        cases h'
        exact ho
  · rintro ⟨negative, hw, hl, he⟩
    obtain ⟨hm, hd⟩ := wholeDigits?_minus negative hw he.digit
    rw [plain_number (by rw [hm, hd]), if_pos hl, if_pos]
    exact ⟨fraction?_eq_none_iff.mpr he.fraction, exponent?_eq_none_iff.mpr he.exponent⟩

/-! ## Words and numbers -/

theorem plain_scalar_word {w : List Char} {v : Json} (h : (w, v) ∈ words) (r : List Char) :
    (scalar (w ++ r)).plain = .ok (v, r) := by
  have hfind : words.find? (fun p => p.1.isPrefixOf (w ++ r)) = some (w, v) := by
    simp only [words, List.mem_cons, Prod.mk.injEq, List.not_mem_nil, or_false] at h
    rcases h with ⟨rfl, rfl⟩ | ⟨rfl, rfl⟩ | ⟨rfl, rfl⟩ | ⟨rfl, rfl⟩ | ⟨rfl, rfl⟩ | ⟨rfl, rfl⟩ <;> rfl
  have hw : w ≠ [] := by
    rintro rfl
    simp [words] at h
  unfold scalar
  split
  · next w' v' h' =>
    rw [hfind] at h'
    cases h'
    rw [dif_pos ⟨hw, by simp [hw]⟩]
    show Except.ok (v, (w ++ r).drop w.length) = .ok (v, r)
    rw [List.drop_left]
  · next h' =>
    rw [hfind] at h'
    cases h'

/-- Where no word comes next, a number may. -/
theorem scalar_eq_number {s : List Char} (h : ∀ w ∈ words, w.1.isPrefixOf s = false) : scalar s = number s := by
  have hfind : words.find? (fun w => w.1.isPrefixOf s) = none := by
    rw [List.find?_eq_none]
    intro w hw
    simp [h w hw]
  unfold scalar
  rw [hfind]

theorem scalar_minusText (negative : Bool) {s ds r : List Char} (h : Digits ds)
    (hs : s = minusText negative ++ (ds ++ r)) : scalar s = number s := by
  subst hs
  apply scalar_eq_number
  obtain ⟨x, t, rfl, hx⟩ := exists_digit h
  have hne (y : Char) (hy : y.isDigit = false) : (y == x) = false := by
    rw [beq_eq_false_iff_ne]
    rintro rfl
    rw [hx] at hy
    cases hy
  intro w hw
  simp only [words, List.mem_cons, List.not_mem_nil, or_false] at hw
  cases negative <;> rcases hw with rfl | rfl | rfl | rfl | rfl | rfl <;>
    simp [minusText, List.isPrefixOf, hne]

theorem spells_of_scalar {s r : List Char} {j : Json} (h : (scalar s).plain = .ok (j, r)) :
    ∃ t, s = t ++ r ∧ Spells t j := by
  unfold scalar at h
  split at h
  · next w v hw =>
    split at h
    · cases h
      have hp := List.find?_some hw
      obtain ⟨u, rfl⟩ := List.isPrefixOf_iff_prefix.mp hp
      exact ⟨w, by simp, .word (List.mem_of_find?_eq_some hw)⟩
    · cases h
  · exact spells_of_number h

theorem plain_scalar_eq_tooLong_iff {s : List Char} {n : Nat} :
    (scalar s).plain = .error (.tooLong n) ↔ Overlong s n := by
  constructor
  · intro h
    unfold scalar at h
    split at h
    · split at h <;> cases h
    · exact plain_number_eq_tooLong_iff.mp h
  · intro h
    obtain ⟨negative, hw, hl, he⟩ := h
    rw [scalar_minusText negative hw.1 (List.append_assoc ..)]
    exact plain_number_eq_tooLong_iff.mpr (.intro negative hw hl he)

end Gridlock.Json.Reader

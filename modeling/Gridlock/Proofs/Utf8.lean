import Mathlib.Data.List.Forall2
import Gridlock.Text.Encoding

/-!
# What can be read as UTF-8

The reader takes exactly the bytes that are the encoding of a list of characters, and gives these characters.

* `Spelt` : a first byte, and bytes in the ranges that it asks for, spell a code point
* `encode_of_spelt`, `spelt_of_valid` : what spells a code point is its encoding
* `run_spelt`, `exists_spelt_of_run` : reading the bytes of one character
* `decode_eq_ok_iff` : reading undoes encoding, and does nothing else
-/

namespace Gridlock.Text.Utf8

/-! ## One character -/

def InRanges (ranges : List (Nat × Nat)) (tail : List UInt8) : Prop :=
  List.Forall₂ (fun r b => r.1 ≤ b.toNat ∧ b.toNat ≤ r.2) ranges tail

/-- The code point of which some bits are known and the others are in the bytes that follow. -/
def assemble (bits : Nat) (tail : List UInt8) : Nat :=
  tail.foldl (fun n b => n * 0x40 + b.toNat % 0x40) bits

/-- A first byte and the bytes that follow spell a code point. -/
def Spelt (b : UInt8) (tail : List UInt8) (n : Nat) : Prop :=
  ∃ ranges, following? b.toNat = some ranges ∧ InRanges ranges tail ∧
    assemble (leadBits b.toNat ranges.length) tail = n

section Encoding
variable {n : Nat} {a b c d : UInt8}

theorem toNat_char (h : n.isValidChar) : (Char.ofNat n).val.toNat = n := by
  unfold Char.ofNat
  rw [dif_pos h]
  rfl

theorem toNat_byte (h : n < 0x100) : (UInt8.ofNat n).toNat = n :=
  UInt8.toNat_ofNat_of_lt h

theorem byte_eq (h : n = b.toNat) : UInt8.ofNat n = b := by
  rw [h, UInt8.ofNat_toNat]

theorem encode_one (h : n < 0x80) (ha : a.toNat = n) : String.utf8EncodeChar (Char.ofNat n) = [a] := by
  unfold String.utf8EncodeChar
  rw [toNat_char (Or.inl (by omega)), if_pos (by omega), byte_eq ha.symm]

theorem encode_two (h : 0x80 ≤ n) (h' : n < 0x800) (ha : a.toNat = 0xC0 + n / 0x40)
    (hb : b.toNat = 0x80 + n % 0x40) : String.utf8EncodeChar (Char.ofNat n) = [a, b] := by
  unfold String.utf8EncodeChar
  rw [toNat_char (Or.inl (by omega)), if_neg (by omega), if_pos (by omega)]
  rw [byte_eq (by omega : n / 64 % 32 + 192 = a.toNat), byte_eq (by omega : n % 64 + 128 = b.toNat)]

theorem encode_three (hv : n.isValidChar) (h : 0x800 ≤ n) (h' : n < 0x10000)
    (ha : a.toNat = 0xE0 + n / 0x1000) (hb : b.toNat = 0x80 + n / 0x40 % 0x40)
    (hc : c.toNat = 0x80 + n % 0x40) : String.utf8EncodeChar (Char.ofNat n) = [a, b, c] := by
  unfold String.utf8EncodeChar
  rw [toNat_char hv, if_neg (by omega), if_neg (by omega), if_pos (by omega)]
  rw [byte_eq (by omega : n / 4096 % 16 + 224 = a.toNat), byte_eq (by omega : n / 64 % 64 + 128 = b.toNat),
    byte_eq (by omega : n % 64 + 128 = c.toNat)]

theorem encode_four (hv : n.isValidChar) (h : 0x10000 ≤ n) (ha : a.toNat = 0xF0 + n / 0x40000)
    (hb : b.toNat = 0x80 + n / 0x1000 % 0x40) (hc : c.toNat = 0x80 + n / 0x40 % 0x40)
    (hd : d.toNat = 0x80 + n % 0x40) : String.utf8EncodeChar (Char.ofNat n) = [a, b, c, d] := by
  have := a.toNat_lt
  unfold String.utf8EncodeChar
  rw [toNat_char hv, if_neg (by omega), if_neg (by omega), if_neg (by omega)]
  rw [byte_eq (by omega : n / 262144 % 8 + 240 = a.toNat),
    byte_eq (by omega : n / 4096 % 64 + 128 = b.toNat), byte_eq (by omega : n / 64 % 64 + 128 = c.toNat),
    byte_eq (by omega : n % 64 + 128 = d.toNat)]

end Encoding

/-- The first bytes and the ranges of what follows them, by the number of bytes. -/
theorem following?_cases {b : Nat} {ranges : List (Nat × Nat)} (h : following? b = some ranges) :
    (b < 0x80 ∧ ranges = []) ∨
    (0xC2 ≤ b ∧ b ≤ 0xDF ∧ ranges = [(0x80, 0xBF)]) ∨
    (∃ low high, 0xE0 ≤ b ∧ b ≤ 0xEF ∧ (b = 0xE0 → 0xA0 ≤ low) ∧ (b = 0xED → high ≤ 0x9F) ∧
      0x80 ≤ low ∧ high ≤ 0xBF ∧ ranges = [(low, high), (0x80, 0xBF)]) ∨
    (∃ low high, 0xF0 ≤ b ∧ b ≤ 0xF4 ∧ (b = 0xF0 → 0x90 ≤ low) ∧ (b = 0xF4 → high ≤ 0x8F) ∧
      0x80 ≤ low ∧ high ≤ 0xBF ∧ ranges = [(low, high), (0x80, 0xBF), (0x80, 0xBF)]) := by
  unfold following? at h
  dsimp only at h
  by_cases h₁ : b < 0x80
  · rw [if_pos h₁] at h
    exact Or.inl ⟨h₁, by cases h; rfl⟩
  rw [if_neg h₁] at h
  by_cases h₂ : 0xC2 ≤ b ∧ b ≤ 0xDF
  · rw [if_pos h₂] at h
    exact Or.inr (Or.inl ⟨h₂.1, h₂.2, by cases h; rfl⟩)
  rw [if_neg h₂] at h
  refine Or.inr (Or.inr ?_)
  by_cases h₃ : 0xE0 ≤ b ∧ b ≤ 0xEF
  · left
    by_cases h0 : b = 0xE0
    · rw [if_pos h0] at h
      cases h
      exact ⟨_, _, by omega, by omega, by omega, by omega, by omega, by omega, rfl⟩
    rw [if_neg h0] at h
    by_cases hD : b = 0xED
    · rw [if_pos hD] at h
      cases h
      exact ⟨_, _, by omega, by omega, by omega, by omega, by omega, by omega, rfl⟩
    rw [if_neg hD, if_pos (by omega)] at h
    cases h
    exact ⟨_, _, by omega, by omega, by omega, by omega, by omega, by omega, rfl⟩
  · right
    rw [if_neg (by omega), if_neg (by omega), if_neg (by omega)] at h
    by_cases h0 : b = 0xF0
    · rw [if_pos h0] at h
      cases h
      exact ⟨_, _, by omega, by omega, by omega, by omega, by omega, by omega, rfl⟩
    rw [if_neg h0] at h
    by_cases h4 : b = 0xF4
    · rw [if_pos h4] at h
      cases h
      exact ⟨_, _, by omega, by omega, by omega, by omega, by omega, by omega, rfl⟩
    rw [if_neg h4] at h
    by_cases h₄ : 0xF1 ≤ b ∧ b ≤ 0xF3
    · rw [if_pos h₄] at h
      cases h
      exact ⟨_, _, by omega, by omega, by omega, by omega, by omega, by omega, rfl⟩
    · rw [if_neg h₄] at h
      cases h

/-- Bytes that spell a code point are its encoding. -/
theorem encode_of_spelt {b : UInt8} {tail : List UInt8} {n : Nat} (h : Spelt b tail n) :
    String.utf8EncodeChar (Char.ofNat n) = b :: tail := by
  obtain ⟨ranges, hr, ht, hn⟩ := h
  rcases following?_cases hr with ⟨hb, rfl⟩ | ⟨hb, hb', rfl⟩ | ⟨low, high, hb, hb', h0, hD, hl, hh, rfl⟩ |
    ⟨low, high, hb, hb', h0, h4, hl, hh, rfl⟩
  all_goals
    simp only [InRanges, List.forall₂_cons_left_iff, List.forall₂_nil_left_iff] at ht
  · subst ht
    change b.toNat = n at hn
    exact encode_one (by omega) hn
  · obtain ⟨b₁, -, h₁, rfl, rfl⟩ := ht
    change b.toNat % 0x20 * 0x40 + b₁.toNat % 0x40 = n at hn
    exact encode_two (by omega) (by omega) (by omega) (by omega)
  · obtain ⟨b₁, -, h₁, ⟨b₂, -, h₂, rfl, rfl⟩, rfl⟩ := ht
    change (b.toNat % 0x10 * 0x40 + b₁.toNat % 0x40) * 0x40 + b₂.toNat % 0x40 = n at hn
    have hv : n < 0xD800 ∨ 0xDFFF < n ∧ n < 0x110000 := by omega
    exact encode_three hv (by omega) (by omega) (by omega) (by omega) (by omega)
  · obtain ⟨b₁, -, h₁, ⟨b₂, -, h₂, ⟨b₃, -, h₃, rfl, rfl⟩, rfl⟩, rfl⟩ := ht
    change ((b.toNat % 0x08 * 0x40 + b₁.toNat % 0x40) * 0x40 + b₂.toNat % 0x40) * 0x40 + b₃.toNat % 0x40 = n at hn
    have hv : n < 0xD800 ∨ 0xDFFF < n ∧ n < 0x110000 := by omega
    exact encode_four hv (by omega) (by omega) (by omega) (by omega) (by omega)

/-- The ranges after the first byte of three, of which the second byte is in the first. -/
theorem following?_three {n : Nat} (h : 0x800 ≤ n) (h' : n < 0x10000) (hv : n < 0xD800 ∨ 0xDFFF < n) :
    ∃ r, following? (0xE0 + n / 0x1000) = some [r, (0x80, 0xBF)] ∧
      r.1 ≤ 0x80 + n / 0x40 % 0x40 ∧ 0x80 + n / 0x40 % 0x40 ≤ r.2 := by
  unfold following?
  dsimp only
  rw [if_neg (by omega), if_neg (by omega)]
  by_cases h0 : 0xE0 + n / 0x1000 = 0xE0
  · exact ⟨_, if_pos h0, by dsimp only; omega⟩
  rw [if_neg h0]
  by_cases hD : 0xE0 + n / 0x1000 = 0xED
  · exact ⟨_, if_pos hD, by dsimp only; omega⟩
  rw [if_neg hD, if_pos (by omega)]
  exact ⟨_, rfl, by dsimp only; omega⟩

/-- The ranges after the first byte of four. -/
theorem following?_four {n : Nat} (h : 0x10000 ≤ n) (h' : n < 0x110000) :
    ∃ r, following? (0xF0 + n / 0x40000) = some [r, (0x80, 0xBF), (0x80, 0xBF)] ∧
      r.1 ≤ 0x80 + n / 0x1000 % 0x40 ∧ 0x80 + n / 0x1000 % 0x40 ≤ r.2 := by
  unfold following?
  dsimp only
  rw [if_neg (by omega), if_neg (by omega), if_neg (by omega), if_neg (by omega), if_neg (by omega)]
  by_cases h0 : 0xF0 + n / 0x40000 = 0xF0
  · exact ⟨_, if_pos h0, by dsimp only; omega⟩
  rw [if_neg h0]
  by_cases h4 : 0xF0 + n / 0x40000 = 0xF4
  · exact ⟨_, if_pos h4, by dsimp only; omega⟩
  rw [if_neg h4, if_pos (by omega)]
  exact ⟨_, rfl, by dsimp only; omega⟩

/-- The encoding of a code point spells it. -/
theorem spelt_of_valid {n : Nat} (hv : n.isValidChar) :
    ∃ b tail, String.utf8EncodeChar (Char.ofNat n) = b :: tail ∧ Spelt b tail n := by
  have hv' : n < 0xD800 ∨ 0xDFFF < n ∧ n < 0x110000 := hv
  by_cases h₁ : n < 0x80
  · have ha := toNat_byte (n := n) (by omega)
    refine ⟨_, _, encode_one h₁ ha, [], ?_, .nil, ha⟩
    unfold following?
    rw [ha, if_pos h₁]
  by_cases h₂ : n < 0x800
  · have ha := toNat_byte (n := 0xC0 + n / 0x40) (by omega)
    have hb := toNat_byte (n := 0x80 + n % 0x40) (by omega)
    refine ⟨_, _, encode_two (by omega) h₂ ha hb, [(0x80, 0xBF)], ?_, .cons ?_ .nil, ?_⟩
    · unfold following?
      rw [if_neg (by omega), if_pos (by omega)]
    · dsimp only
      omega
    · change (UInt8.ofNat _).toNat % 0x20 * 0x40 + (UInt8.ofNat _).toNat % 0x40 = n
      omega
  by_cases h₃ : n < 0x10000
  · have ha := toNat_byte (n := 0xE0 + n / 0x1000) (by omega)
    have hb := toNat_byte (n := 0x80 + n / 0x40 % 0x40) (by omega)
    have hc := toNat_byte (n := 0x80 + n % 0x40) (by omega)
    obtain ⟨r, hr, hrb⟩ := following?_three (n := n) (by omega) h₃ (by omega)
    rw [← ha] at hr
    rw [← hb] at hrb
    refine ⟨_, _, encode_three hv (by omega) h₃ ha hb hc, _, hr, .cons hrb (.cons ?_ .nil), ?_⟩
    · dsimp only
      omega
    · change ((UInt8.ofNat _).toNat % 0x10 * 0x40 + (UInt8.ofNat _).toNat % 0x40) * 0x40 +
        (UInt8.ofNat _).toNat % 0x40 = n
      omega
  · have ha := toNat_byte (n := 0xF0 + n / 0x40000) (by omega)
    have hb := toNat_byte (n := 0x80 + n / 0x1000 % 0x40) (by omega)
    have hc := toNat_byte (n := 0x80 + n / 0x40 % 0x40) (by omega)
    have hd := toNat_byte (n := 0x80 + n % 0x40) (by omega)
    obtain ⟨r, hr, hrb⟩ := following?_four (n := n) (by omega) (by omega)
    rw [← ha] at hr
    rw [← hb] at hrb
    refine ⟨_, _, encode_four hv (by omega) ha hb hc hd, _, hr, .cons hrb (.cons ?_ (.cons ?_ .nil)), ?_⟩
    · dsimp only
      omega
    · dsimp only
      omega
    · change (((UInt8.ofNat _).toNat % 0x08 * 0x40 + (UInt8.ofNat _).toNat % 0x40) * 0x40 +
        (UInt8.ofNat _).toNat % 0x40) * 0x40 + (UInt8.ofNat _).toNat % 0x40 = n
      omega

/-! ## Many characters -/

theorem run_nil (done : List Char) (position : Nat) : run done position {} [] = .ok done.reverse := rfl

/-- What is left of a character, and what follows it. -/
theorem run_tail (done : List Char) (position bits : Nat) (bytes : List UInt8) (range : Nat × Nat)
    (ranges : List (Nat × Nat)) {tail : List UInt8} (h : InRanges (range :: ranges) tail) (rest : List UInt8) :
    run done position ⟨bits, bytes, range :: ranges⟩ (tail ++ rest) =
      run (Char.ofNat (assemble bits tail) :: done) (position + tail.length) {} rest := by
  induction ranges generalizing position bits bytes range tail with
  | nil =>
    obtain ⟨b, tail, hb, ht, rfl⟩ := List.forall₂_cons_left_iff.mp h
    cases ht
    rw [List.singleton_append, run]
    dsimp only
    rw [if_pos hb, if_pos List.isEmpty_nil]
    rfl
  | cons range' ranges ih =>
    obtain ⟨b, tail, hb, ht, rfl⟩ := List.forall₂_cons_left_iff.mp h
    rw [List.cons_append, run]
    dsimp only
    rw [if_pos hb, if_neg (by simp), ih _ _ _ _ ht, List.length_cons, Nat.add_assoc, Nat.add_comm 1]
    rfl

/-- Reading on inside a character goes well only if its bytes are all there. -/
theorem exists_tail_of_run {done text : List Char} {position bits : Nat} {bytes : List UInt8}
    {range : Nat × Nat} {ranges : List (Nat × Nat)} {l : List UInt8}
    (h : run done position ⟨bits, bytes, range :: ranges⟩ l = .ok text) :
    ∃ tail rest, l = tail ++ rest ∧ InRanges (range :: ranges) tail := by
  induction l generalizing position bits bytes range ranges with
  | nil => cases h
  | cons b l ih =>
    rw [run] at h
    dsimp only at h
    split at h
    · next hb =>
      cases ranges with
      | nil => exact ⟨[b], l, rfl, .cons hb .nil⟩
      | cons range' ranges =>
        rw [if_neg (by simp)] at h
        obtain ⟨tail, rest, rfl, ht⟩ := ih h
        exact ⟨b :: tail, rest, rfl, .cons hb ht⟩
    · cases h

/-- The bytes of one character, and what follows them. -/
theorem run_spelt {b : UInt8} {tail : List UInt8} {n : Nat} (h : Spelt b tail n) (done : List Char)
    (position : Nat) (rest : List UInt8) :
    run done position {} (b :: tail ++ rest) =
      run (Char.ofNat n :: done) (position + 1 + tail.length) {} rest := by
  obtain ⟨ranges, hr, ht, rfl⟩ := h
  rw [List.cons_append, run]
  dsimp only
  rw [hr]
  cases ranges with
  | nil =>
    cases ht
    rfl
  | cons range ranges => exact run_tail done _ _ [b] range ranges ht rest

theorem exists_spelt_of_run {done text : List Char} {position : Nat} {b : UInt8} {l : List UInt8}
    (h : run done position {} (b :: l) = .ok text) :
    ∃ tail rest n, l = tail ++ rest ∧ Spelt b tail n := by
  rw [run] at h
  dsimp only at h
  cases hr : following? b.toNat with
  | none =>
    rw [hr] at h
    cases h
  | some ranges =>
    cases ranges with
    | nil => exact ⟨[], l, _, rfl, [], hr, .nil, rfl⟩
    | cons range ranges =>
      rw [hr] at h
      obtain ⟨tail, rest, rfl, ht⟩ := exists_tail_of_run h
      exact ⟨tail, rest, _, rfl, _, hr, ht, rfl⟩

theorem run_encode (done : List Char) (position : Nat) (text : List Char) :
    run done position {} (text.flatMap String.utf8EncodeChar) = .ok (done.reverse ++ text) := by
  induction text generalizing done position with
  | nil => rw [List.flatMap_nil, run_nil, List.append_nil]
  | cons c text ih =>
    obtain ⟨b, tail, hc, h⟩ := spelt_of_valid (n := c.toNat) c.valid
    rw [Char.ofNat_toNat] at hc
    rw [List.flatMap_cons, hc, run_spelt h, ih, Char.ofNat_toNat, List.reverse_cons, List.append_assoc,
      List.singleton_append]

theorem exists_of_run {done text : List Char} {position : Nat} {l : List UInt8}
    (h : run done position {} l = .ok text) :
    ∃ more, text = done.reverse ++ more ∧ l = more.flatMap String.utf8EncodeChar := by
  induction hl : l.length using Nat.strongRecOn generalizing done position l with
  | ind k ih =>
    cases l with
    | nil =>
      cases h
      exact ⟨[], by simp, rfl⟩
    | cons b l =>
      obtain ⟨tail, rest, n, rfl, hs⟩ := exists_spelt_of_run h
      rw [← List.cons_append, run_spelt hs] at h
      have hlt : rest.length < k := by
        rw [← hl, List.length_cons, List.length_append]
        omega
      obtain ⟨more, rfl, hrest⟩ := ih rest.length hlt h rfl
      refine ⟨Char.ofNat n :: more, by simp, ?_⟩
      rw [List.flatMap_cons, encode_of_spelt hs, ← hrest, List.cons_append]

/-- Reading gives the characters of which the bytes are the encoding. -/
theorem decode_eq_ok_iff {bytes : List UInt8} {text : List Char} :
    decode bytes = .ok text ↔ bytes = text.flatMap String.utf8EncodeChar := by
  constructor
  · intro h
    obtain ⟨more, rfl, hl⟩ := exists_of_run h
    exact hl
  · rintro rfl
    exact run_encode [] 0 text

end Gridlock.Text.Utf8

/-!
# Association lists in order of first writing

A dictionary whose order matters is a list of keys and values. Reading is `List.lookup`; writing
under a key that is there keeps the place of the key, a new key goes to the end.

* `Assoc.put` : writing
* `lookup_put_self`, `lookup_put_of_ne` : what reading gives after writing
* `put_put`, `put_of_lookup` : writing twice, and writing what is there
* `put_of_lookup_eq_none`, `nodup_put` : writing under a new key; the keys stay distinct
-/

namespace Gridlock.Assoc

variable {κ ν : Type} [BEq κ]

/-- Writes `v` under `k`. -/
def put (k : κ) (v : ν) : List (κ × ν) → List (κ × ν)
  | [] => [(k, v)]
  | e :: rest => if e.1 == k then (e.1, v) :: rest else e :: put k v rest

@[simp] theorem put_nil (k : κ) (v : ν) : put k v [] = [(k, v)] := rfl

variable [LawfulBEq κ]

@[simp] theorem lookup_put_self (k : κ) (v : ν) (l : List (κ × ν)) :
    (put k v l).lookup k = some v := by
  induction l with
  | nil => simp [put]
  | cons e rest ih =>
    obtain ⟨a, w⟩ := e
    by_cases h : a = k
    · simp [put, h]
    · have h' : (k == a) = false := beq_eq_false_iff_ne.mpr fun e => h e.symm
      simp [put, h, List.lookup_cons, h', ih]

theorem lookup_put_of_ne {k k' : κ} (h : k' ≠ k) (v : ν) (l : List (κ × ν)) :
    (put k v l).lookup k' = l.lookup k' := by
  have hk : (k' == k) = false := beq_eq_false_iff_ne.mpr h
  induction l with
  | nil => simp [put, List.lookup_cons, hk]
  | cons e rest ih =>
    obtain ⟨a, w⟩ := e
    by_cases he : a = k
    · subst he
      simp [put, List.lookup_cons, hk]
    · simp [put, he, List.lookup_cons, ih]

theorem put_put (k : κ) (v w : ν) (l : List (κ × ν)) : put k w (put k v l) = put k w l := by
  induction l with
  | nil => simp [put]
  | cons e rest ih =>
    by_cases he : e.1 = k
    · simp [put, he]
    · simp [put, he, ih]

theorem put_of_lookup {k : κ} {v : ν} {l : List (κ × ν)} (h : l.lookup k = some v) : put k v l = l := by
  induction l with
  | nil => simp at h
  | cons e rest ih =>
    obtain ⟨a, w⟩ := e
    by_cases he : a = k
    · subst he
      simp only [List.lookup_cons, beq_self_eq_true, Option.some.injEq] at h
      simp [put, h]
    · have hk : (k == a) = false := beq_eq_false_iff_ne.mpr (Ne.symm he)
      rw [List.lookup_cons, hk] at h
      simp [put, he, ih h]

theorem lookup_eq_none_iff {k : κ} {l : List (κ × ν)} : l.lookup k = none ↔ k ∉ l.map Prod.fst := by
  rw [List.lookup_eq_none_iff, List.mem_map]
  constructor
  · rintro h ⟨e, he, rfl⟩
    simpa using h e he
  · intro h e he
    refine bne_iff_ne.mpr ?_
    rintro rfl
    exact h ⟨e, he, rfl⟩

theorem put_of_lookup_eq_none {k : κ} {l : List (κ × ν)} (h : l.lookup k = none) (v : ν) :
    put k v l = l ++ [(k, v)] := by
  induction l with
  | nil => rfl
  | cons e rest ih =>
    obtain ⟨a, w⟩ := e
    rw [List.lookup_cons] at h
    split at h
    · simp at h
    · next hne =>
      have ha : ¬a = k := fun he => by simp [he] at hne
      simp [put, ha, ih h]

/-- What is written takes the place of what was there. -/
theorem exists_put_eq {k : κ} {v : ν} {l : List (κ × ν)} (h : l.lookup k = some v) :
    ∃ before after, l = before ++ (k, v) :: after ∧ ∀ w, put k w l = before ++ (k, w) :: after := by
  induction l with
  | nil => simp at h
  | cons e rest ih =>
    obtain ⟨a, u⟩ := e
    by_cases he : a = k
    · subst he
      simp only [List.lookup_cons, beq_self_eq_true, Option.some.injEq] at h
      exact ⟨[], rest, by simp [h], by simp [put]⟩
    · have hk : (k == a) = false := beq_eq_false_iff_ne.mpr (Ne.symm he)
      rw [List.lookup_cons, hk] at h
      obtain ⟨before, after, hrest, hput⟩ := ih h
      exact ⟨(a, u) :: before, after, by simp [hrest], by simp [put, he, hput]⟩

theorem eq_or_mem_of_mem_put {k : κ} {v : ν} {l : List (κ × ν)} {e : κ × ν} (h : e ∈ put k v l) :
    e = (k, v) ∨ e ∈ l := by
  induction l with
  | nil => simpa using h
  | cons f rest ih =>
    by_cases hf : f.1 = k
    · simp only [put, hf, beq_self_eq_true, if_true, List.mem_cons] at h
      exact h.imp id (List.mem_cons_of_mem _)
    · simp only [put, beq_iff_eq, hf, if_false, List.mem_cons] at h
      rcases h with rfl | h
      · exact .inr List.mem_cons_self
      · exact (ih h).imp id (List.mem_cons_of_mem _)

theorem nodup_put {l : List (κ × ν)} (h : (l.map Prod.fst).Nodup) (k : κ) (v : ν) :
    ((put k v l).map Prod.fst).Nodup := by
  induction l with
  | nil => simp
  | cons e rest ih =>
    rw [List.map_cons, List.nodup_cons] at h
    by_cases he : e.1 = k
    · simp only [put, he, beq_self_eq_true, if_true, List.map_cons, List.nodup_cons]
      exact he ▸ h
    · have hnew : e.1 ∉ (put k v rest).map Prod.fst := by
        intro hm
        obtain ⟨f, hf, hfe⟩ := List.mem_map.mp hm
        rcases eq_or_mem_of_mem_put hf with rfl | hf
        · exact he hfe.symm
        · exact h.1 (hfe ▸ List.mem_map_of_mem hf)
      simp only [put, beq_iff_eq, he, if_false, List.map_cons, List.nodup_cons]
      exact ⟨hnew, ih h.2⟩

end Gridlock.Assoc

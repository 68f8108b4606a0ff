namespace Mos6502.CommandLine

def splitFirst (c : Char) : List Char → Option (List Char × List Char)
  | [] => none
  | d :: s => if d = c then some ([], s) else (splitFirst c s).map fun (l, r) => (d :: l, r)

def splitLast (c : Char) : List Char → Option (List Char × List Char)
  | [] => none
  | d :: s => match splitLast c s with
    | some (l, r) => some (d :: l, r)
    | none => if d = c then some ([], s) else none

theorem splitFirst_append {c : Char} {l : List Char} (r : List Char) (h : c ∉ l) :
    splitFirst c (l ++ c :: r) = some (l, r) := by
  induction l with
  | nil => simp [splitFirst]
  | cons d l ih =>
    rw [List.mem_cons, not_or] at h
    simp [splitFirst, Ne.symm h.1, ih h.2]

theorem splitFirst_eq_some_iff {c : Char} {s l r : List Char} :
    splitFirst c s = some (l, r) ↔ s = l ++ c :: r ∧ c ∉ l := by
  constructor
  · intro h
    induction s generalizing l with
    | nil => simp [splitFirst] at h
    | cons d s ih =>
      by_cases hd : d = c
      · simp only [splitFirst, hd, if_true, Option.some.injEq, Prod.mk.injEq] at h
        simp [hd, ← h.1, h.2]
      · simp only [splitFirst, hd, if_false, Option.map_eq_some_iff, Prod.exists, Prod.mk.injEq] at h
        obtain ⟨l', r', h', rfl, rfl⟩ := h
        have := ih h'
        simp [this.1, this.2, Ne.symm hd]
  · rintro ⟨rfl, h⟩
    exact splitFirst_append r h

theorem splitFirst_eq_none_iff {c : Char} {s : List Char} : splitFirst c s = none ↔ c ∉ s := by
  induction s with
  | nil => simp [splitFirst]
  | cons d s ih =>
    by_cases h : d = c
    · simp [splitFirst, h]
    · simp [splitFirst, h, ih, Ne.symm h]

theorem splitLast_eq_none_iff {c : Char} {s : List Char} : splitLast c s = none ↔ c ∉ s := by
  induction s with
  | nil => simp [splitLast]
  | cons d s ih =>
    cases h : splitLast c s with
    | some p => simp only [splitLast, h] at ih ⊢; simp_all
    | none => by_cases hd : d = c <;> simp [splitLast, h, hd, ih.1 h, eq_comm]; exact Ne.symm hd

theorem splitLast_append {c : Char} (l : List Char) {r : List Char} (h : c ∉ r) :
    splitLast c (l ++ c :: r) = some (l, r) := by
  induction l with
  | nil => simp [splitLast, splitLast_eq_none_iff.2 h]
  | cons d l ih => simp [splitLast, ih]

theorem splitLast_eq_some_iff {c : Char} {s l r : List Char} :
    splitLast c s = some (l, r) ↔ s = l ++ c :: r ∧ c ∉ r := by
  constructor
  · intro h
    induction s generalizing l with
    | nil => simp [splitLast] at h
    | cons d s ih =>
      cases hs : splitLast c s with
      | some p =>
        simp only [splitLast, hs, Option.some.injEq, Prod.mk.injEq] at h
        obtain ⟨rfl, rfl⟩ := h
        have := ih (l := p.1) (by simp [hs])
        exact ⟨by simp [← this.1], this.2⟩
      | none =>
        by_cases hd : d = c
        · simp only [splitLast, hs, hd, if_true, Option.some.injEq, Prod.mk.injEq] at h
          obtain ⟨rfl, rfl⟩ := h
          exact ⟨by simp [hd], splitLast_eq_none_iff.1 hs⟩
        · simp [splitLast, hs, hd] at h
  · rintro ⟨rfl, h⟩
    exact splitLast_append l h

end Mos6502.CommandLine

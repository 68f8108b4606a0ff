import Mathlib.Data.List.Forall2
import Mathlib.Data.Nat.Digits.Defs
import Mos6502.CommandLine.Value

namespace Mos6502.CommandLine

/-- `c` is the digit `d` in `base`; for a digit that is a letter, the letter of either case. -/
def IsDigit (base : Nat) (c : Char) (d : Nat) : Prop := d < base ∧ c.toLower = d.digitChar

/-- `text` stands for `n` in `base`: it has a digit at least, and the first of them weighs most. -/
def Spells (base : Nat) (text : List Char) (n : Nat) : Prop :=
  text ≠ [] ∧ ∃ ds, List.Forall₂ (IsDigit base) text ds ∧ Nat.ofDigits base ds.reverse = n

section Spells

variable {base n : Nat} {text : List Char} {c : Char}

theorem Spells.not_mem (h : Spells base text n) (hc : ∀ d < base, c.toLower ≠ d.digitChar) :
    c ∉ text := by
  obtain ⟨-, ds, digits, -⟩ := h
  intro mem
  induction digits with
  | nil => cases mem
  | cons first _ ih =>
    rcases List.mem_cons.1 mem with rfl | later
    · exact hc _ first.1 first.2
    · exact ih later

theorem Spells.padded (h : Spells base text n) (hb : 0 < base) (k : Nat) :
    Spells base (List.replicate k '0' ++ text) n := by
  induction k with
  | zero => exact h
  | succ k ih =>
    obtain ⟨-, ds, digits, rfl⟩ := ih
    refine ⟨List.cons_ne_nil _ _, 0 :: ds, .cons ⟨hb, rfl⟩ digits, ?_⟩
    rw [Nat.ofDigits_reverse_cons, Nat.mul_zero, Nat.add_zero]

theorem exists_digits (hb : 1 < base) (n : Nat) :
    ∃ ds, List.Forall₂ (fun c d => d < base ∧ c = d.digitChar) (Nat.toDigits base n) ds ∧
      Nat.ofDigits base ds.reverse = n := by
  induction n using Nat.strong_induction_on with
  | _ n ih =>
    rw [Nat.toDigits_eq_if hb]
    split
    · rename_i small
      exact ⟨[n], .cons ⟨small, rfl⟩ .nil, Nat.ofDigits_singleton⟩
    · rename_i large
      obtain ⟨ds, digits, value⟩ := ih (n / base) (Nat.div_lt_self (by omega) hb)
      have last : n % base < base := Nat.mod_lt n (by omega)
      refine ⟨ds ++ [n % base], List.rel_append digits (.cons ⟨last, rfl⟩ .nil), ?_⟩
      rw [List.reverse_append, List.reverse_singleton, List.singleton_append, Nat.ofDigits_cons,
        value]
      exact Nat.mod_add_div n base

/-- Digits are known by their letters in lower case. -/
theorem digits_iff {ds : List Nat} : List.Forall₂ (IsDigit base) text ds ↔
    List.Forall₂ (fun c d => d < base ∧ c = d.digitChar) (text.map Char.toLower) ds := by
  rw [List.forall₂_map_left_iff]
  rfl

theorem Spells.of_map_toLower {text' : List Char} (h : Spells base text n)
    (same : text'.map Char.toLower = text.map Char.toLower) : Spells base text' n := by
  obtain ⟨nonempty, ds, digits, value⟩ := h
  rw [digits_iff, ← same, ← digits_iff] at digits
  refine ⟨?_, ds, digits, value⟩
  rintro rfl
  exact nonempty (List.map_eq_nil_iff.1 same.symm)

theorem spells_of_toDigits (hb : 1 < base) (h : text.map Char.toLower = Nat.toDigits base n) :
    Spells base text n := by
  obtain ⟨ds, digits, value⟩ := exists_digits hb n
  rw [← h, ← digits_iff] at digits
  refine ⟨?_, ds, digits, value⟩
  rintro rfl
  exact Nat.toDigits_ne_nil h.symm

theorem spells_toDigits (hb : 1 < base) (hb' : base ≤ 16) (n : Nat) :
    Spells base (Nat.toDigits base n) n := by
  have lower : ∀ d < 16, d.digitChar.toLower = d.digitChar := by decide
  obtain ⟨ds, digits, value⟩ := exists_digits hb n
  refine ⟨Nat.toDigits_ne_nil, ds, digits.imp ?_, value⟩
  rintro c d ⟨hd, rfl⟩
  exact ⟨hd, lower d (by omega)⟩

variable {value? : Char → Option Nat} (hv : ∀ c d, value? c = some d ↔ IsDigit base c d)
include hv

theorem foldlM_digits {acc : Nat} :
    text.foldlM (fun n c => (value? c).map (base * n + ·)) acc = some n ↔
      ∃ ds, List.Forall₂ (IsDigit base) text ds ∧ Nat.ofDigits base (acc :: ds).reverse = n := by
  -- each digit is weighed when the next one is read, so the number so far has to be any
  induction text generalizing acc with
  | nil => simp
  | cons c text ih =>
    rw [List.foldlM_cons, Option.bind_eq_bind, Option.bind_eq_some_iff]
    constructor
    · rintro ⟨acc', hd, rest⟩
      obtain ⟨d, digit, rfl⟩ := Option.map_eq_some_iff.1 hd
      obtain ⟨ds, digits, rfl⟩ := ih.1 rest
      refine ⟨d :: ds, .cons ((hv c d).1 digit) digits, ?_⟩
      simp only [Nat.ofDigits_reverse_cons, List.length_cons]
      ring
    · rintro ⟨_, digits, rfl⟩
      cases digits with
      | @cons _ d _ ds digit digits =>
        refine ⟨base * acc + d, ?_, ih.2 ⟨ds, digits, ?_⟩⟩
        · rw [(hv c d).2 digit]
          rfl
        · simp only [Nat.ofDigits_reverse_cons, List.length_cons]
          ring

/-- A number is read from digits, and from nothing else. -/
theorem number?_eq_some_iff : number? base value? text = some n ↔ Spells base text n := by
  cases text with
  | nil => simp [number?, Spells]
  | cons c text =>
    have read : number? base value? (c :: text) =
        (c :: text).foldlM (fun n c => (value? c).map (base * n + ·)) 0 := rfl
    rw [read, foldlM_digits hv, Spells, and_iff_right (List.cons_ne_nil c text)]
    simp only [Nat.ofDigits_reverse_cons, Nat.mul_zero, Nat.add_zero]

end Spells

theorem toNat_toLower (c : Char) :
    c.toLower.toNat = if 65 ≤ c.toNat ∧ c.toNat ≤ 90 then c.toNat + 32 else c.toNat := by
  unfold Char.toLower
  simp only [ge_iff_le, UInt32.le_iff_toNat_le, Char.toNat_val, Char.reduceToNat]
  split
  · have small : c.toNat + 32 < 2 ^ 32 := by omega
    exact (UInt32.toNat_add ..).trans (Nat.mod_eq_of_lt small)
  · rfl

theorem toNat_digitChar : ∀ d < 16, d.digitChar.toNat = if d < 10 then 48 + d else 87 + d := by
  decide

theorem isDigit_iff {base : Nat} (hb : base ≤ 16) (c : Char) (d : Nat) : IsDigit base c d ↔
    d < base ∧ (c.toNat = 48 + d ∧ d < 10 ∨ 10 ≤ d ∧ (c.toNat = 55 + d ∨ c.toNat = 87 + d)) := by
  refine and_congr_right fun hd => ?_
  rw [← Char.toNat_inj, toNat_toLower, toNat_digitChar d (by omega)]
  split <;> split <;> omega

theorem hexValue?_eq_some_iff (c : Char) (d : Nat) : Hex.value? c = some d ↔ IsDigit 16 c d := by
  rw [isDigit_iff (Nat.le_refl 16)]
  simp only [Hex.value?, Char.le_def, UInt32.le_iff_toNat_le, Char.toNat_val, Char.reduceToNat]
  split
  · rw [Option.some.injEq]
    omega
  split
  · rw [Option.some.injEq]
    omega
  split
  · rw [Option.some.injEq]
    omega
  · simp only [reduceCtorEq, false_iff]
    omega

theorem decimalValue?_eq_some_iff (c : Char) (d : Nat) :
    decimalValue? c = some d ↔ IsDigit 10 c d := by
  rw [isDigit_iff (by decide)]
  simp only [decimalValue?, Char.le_def, UInt32.le_iff_toNat_le, Char.toNat_val, Char.reduceToNat]
  split
  · rw [Option.some.injEq]
    omega
  · simp only [reduceCtorEq, false_iff]
    omega

/-- The marks of a hexadecimal number, of which none is one. -/
def marks : List String := ["", "0x", "0X", "$"]

def signs : List String := ["", "+"]

/-- `text` stands for `n` in hexadecimal: a mark, a sign and digits. -/
def HexText (text : String) (n : Nat) : Prop :=
  ∃ mark ∈ marks, ∃ sign ∈ signs, ∃ digits : String,
    text = mark ++ sign ++ digits ∧ Spells 16 digits.toList n

section HexText

variable {text : String} {n : Nat} {cs : List Char}

theorem exists_sign (cs : List Char) : ∃ sign ∈ signs, cs = sign.toList ++ withoutPlus cs := by
  unfold withoutPlus
  split
  · exact ⟨"+", by decide, rfl⟩
  · exact ⟨"", by decide, rfl⟩

theorem exists_mark (cs : List Char) : ∃ mark ∈ marks, cs = mark.toList ++ withoutMark cs := by
  unfold withoutMark
  split
  · exact ⟨"0x", by decide, rfl⟩
  · exact ⟨"0X", by decide, rfl⟩
  · exact ⟨"$", by decide, rfl⟩
  · exact ⟨"", by decide, rfl⟩

theorem withoutPlus_append {sign : String} (hs : sign ∈ signs) (h : '+' ∉ cs) :
    withoutPlus (sign.toList ++ cs) = cs := by
  have bare : withoutPlus cs = cs := by
    unfold withoutPlus
    split <;> simp_all
  simp only [signs, List.mem_cons, List.not_mem_nil, or_false] at hs
  rcases hs with rfl | rfl
  · exact bare
  · rfl

theorem withoutMark_append {mark : String} (hm : mark ∈ marks)
    (lower : 'x' ∉ cs) (upper : 'X' ∉ cs) (dollar : '$' ∉ cs) :
    withoutMark (mark.toList ++ cs) = cs := by
  have bare : withoutMark cs = cs := by
    unfold withoutMark
    split <;> simp_all
  simp only [marks, List.mem_cons, List.not_mem_nil, or_false] at hm
  rcases hm with rfl | rfl | rfl | rfl
  · exact bare
  · rfl
  · rfl
  · rfl

theorem HexText.not_mem (h : HexText text n) {c : Char} (hm : ∀ mark ∈ marks, c ∉ mark.toList)
    (hs : ∀ sign ∈ signs, c ∉ sign.toList) (hd : ∀ d < 16, c.toLower ≠ d.digitChar) :
    c ∉ text.toList := by
  obtain ⟨mark, mark_mem, sign, sign_mem, digits, rfl, spells⟩ := h
  simp only [String.toList_append, List.mem_append, not_or]
  exact ⟨⟨hm mark mark_mem, hs sign sign_mem⟩, spells.not_mem hd⟩

theorem hexText_iff : HexText text n ↔
    number? 16 Hex.value? (withoutPlus (withoutMark text.toList)) = some n := by
  rw [number?_eq_some_iff hexValue?_eq_some_iff]
  constructor
  · rintro ⟨mark, hm, sign, hs, digits, rfl, spells⟩
    have unsigned : '+' ∉ digits.toList := spells.not_mem (by decide)
    -- no mark can begin within a sign and digits, though some begin with a digit
    have clean {c : Char} (none : ∀ sign ∈ signs, c ∉ sign.toList)
        (hd : ∀ d < 16, c.toLower ≠ d.digitChar) : c ∉ sign.toList ++ digits.toList := by
      rw [List.mem_append, not_or]
      exact ⟨none sign hs, spells.not_mem hd⟩
    rw [String.toList_append, String.toList_append, List.append_assoc,
      withoutMark_append hm (clean (by decide) (by decide)) (clean (by decide) (by decide))
        (clean (by decide) (by decide)),
      withoutPlus_append hs unsigned]
    exact spells
  · intro spells
    obtain ⟨mark, hm, marked⟩ := exists_mark text.toList
    obtain ⟨sign, hs, signed⟩ := exists_sign (withoutMark text.toList)
    refine ⟨mark, hm, sign, hs, String.ofList (withoutPlus (withoutMark text.toList)), ?_, ?_⟩
    · rw [← String.toList_inj, String.toList_append, String.toList_append, String.toList_ofList,
        List.append_assoc, ← signed, ← marked]
    · rw [String.toList_ofList]
      exact spells

end HexText

theorem parseAddress_eq_ok_iff {text : String} {addr : Addr} :
    parseAddress text = .ok addr ↔ HexText text addr.toNat := by
  rw [hexText_iff, parseAddress, address?]
  cases number? 16 Hex.value? (withoutPlus (withoutMark text.toList)) with
  | none => simp
  | some n =>
    have top := addr.toNat_lt
    by_cases small : n ≤ 0xFFFF
    · simp only [small, if_true, Except.ok.injEq, Option.some.injEq]
      rw [← UInt16.toNat_inj, UInt16.toNat_ofNat', Nat.mod_eq_of_lt (by omega)]
    · simp only [small, if_false, reduceCtorEq, Option.some.injEq, false_iff]
      omega

theorem parseAddress_eq_error {text : String} (h : ∀ addr, parseAddress text ≠ .ok addr) :
    parseAddress text = .error (.notAnAddress text) := by
  unfold parseAddress at h ⊢
  split
  · rename_i addr ha
    rw [ha] at h
    exact absurd rfl (h addr)
  · rfl

/-- An address is read from the texts that stand for a number of sixteen bits, and any other text is
an error. In particular an address is read back from the digits that it is printed with, of either
case, behind any mark, any sign and any number of zeros. -/
theorem parseAddress_exact :
    (∀ text n, (∃ addr, parseAddress text = .ok addr ∧ addr.toNat = n) ↔
      HexText text n ∧ n ≤ 0xFFFF) ∧
    (∀ text, (∀ n ≤ 0xFFFF, ¬ HexText text n) → parseAddress text = .error (.notAnAddress text)) ∧
    ∀ mark ∈ marks, ∀ sign ∈ signs, ∀ (zeros : Nat) (digits : String) (addr : Addr),
      digits.toList.map Char.toLower = Nat.toDigits 16 addr.toNat →
        parseAddress (mark ++ sign ++ String.ofList (List.replicate zeros '0') ++ digits) =
          .ok addr := by
  refine ⟨?_, ?_, ?_⟩
  · intro text n
    constructor
    · rintro ⟨addr, read, rfl⟩
      exact ⟨parseAddress_eq_ok_iff.1 read, Nat.le_of_lt_succ addr.toNat_lt⟩
    · rintro ⟨hex, small⟩
      have fits : (UInt16.ofNat n).toNat = n := UInt16.toNat_ofNat_of_lt' (Nat.lt_succ_of_le small)
      refine ⟨UInt16.ofNat n, parseAddress_eq_ok_iff.2 ?_, fits⟩
      rw [fits]
      exact hex
  · intro text none
    apply parseAddress_eq_error
    intro addr read
    exact none addr.toNat (Nat.le_of_lt_succ addr.toNat_lt) (parseAddress_eq_ok_iff.1 read)
  · intro mark hm sign hs zeros digits addr printed
    have spells := (spells_of_toDigits (by decide) printed).padded (by decide) zeros
    apply parseAddress_eq_ok_iff.2
    refine ⟨mark, hm, sign, hs, String.ofList (List.replicate zeros '0') ++ digits, ?_, ?_⟩
    · rw [String.append_assoc]
    · rw [String.toList_append, String.toList_ofList]
      exact spells

example : parseAddress "$+00fF" = .ok 0xFF := by decide

end Mos6502.CommandLine

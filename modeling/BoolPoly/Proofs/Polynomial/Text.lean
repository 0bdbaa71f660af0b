import BoolPoly.Polynomial.Text
import BoolPoly.Proofs.Polynomial.Evaluation
import Mathlib.Data.List.Basic
import Mathlib.Data.List.Induction

namespace BoolPoly

namespace Text

section Trim

variable {cs : List Char} {c : Char}

/-- Whether a text has no blank at its ends, so that trimming does nothing to it. The empty text has none. -/
structure Tight (cs : List Char) : Prop where
  head : ∀ c ∈ cs.head?, isBlank c = false
  last : ∀ c ∈ cs.getLast?, isBlank c = false

theorem dropWhile_eq_self {drop : Char → Bool} (h : ∀ c ∈ cs.head?, drop c = false) : cs.dropWhile drop = cs := by
  cases cs with
  | nil => rfl
  | cons c cs => exact List.dropWhile_cons_of_neg (Bool.not_eq_true _ ▸ h c rfl)

theorem trimEnd_eq_self {drop : Char → Bool} (h : ∀ c ∈ cs.getLast?, drop c = false) : trimEnd drop cs = cs := by
  rw [← List.head?_reverse] at h
  rw [trimEnd, dropWhile_eq_self h, List.reverse_reverse]

theorem trimEnd_append_singleton {drop : Char → Bool} (hc : drop c = true) :
    trimEnd drop (cs ++ [c]) = trimEnd drop cs := by
  rw [trimEnd, List.reverse_append, List.reverse_singleton, List.singleton_append,
    List.dropWhile_cons_of_pos hc, trimEnd]

theorem Tight.trim_eq (h : Tight cs) : trim cs = cs := by
  rw [trim, dropWhile_eq_self h.head, trimEnd_eq_self h.last]

theorem tight_of_forall (h : ∀ c ∈ cs, isBlank c = false) : Tight cs :=
  ⟨fun c hc => h c (List.mem_of_head? hc), fun c hc => h c (List.mem_of_getLast? hc)⟩

theorem trim_cons_blank (hc : isBlank c = true) : trim (c :: cs) = trim cs := by
  rw [trim, List.dropWhile_cons_of_pos hc, trim]

theorem trim_append_blank (hc : isBlank c = true) : trim (cs ++ [c]) = trim cs := by
  unfold trim
  rw [List.dropWhile_append]
  split
  · next hnil => rw [List.isEmpty_iff.1 hnil, List.dropWhile_cons_of_pos hc, List.dropWhile_nil]
  · exact trimEnd_append_singleton hc

/-- The blanks around a text are trimmed off, beside those that it has at its own ends. -/
theorem trim_append {front back : List Char} (hfront : ∀ c ∈ front, isBlank c = true)
    (hback : ∀ c ∈ back, isBlank c = true) : trim (front ++ cs ++ back) = trim cs := by
  induction back using List.reverseRecOn with
  | nil =>
    rw [List.append_nil]
    induction front with
    | nil => rfl
    | cons c front ih =>
      obtain ⟨hc, hfront⟩ := List.forall_mem_cons.1 hfront
      rw [List.cons_append, trim_cons_blank hc, ih hfront]
  | append_singleton back c ih =>
    obtain ⟨hback, hc⟩ := List.forall_mem_append.1 hback
    rw [← List.append_assoc, trim_append_blank (hc c (List.mem_singleton_self c)), ih hback]

/-- A blank in front of a text goes to its first part. -/
theorem map_trim_splitOn_cons {separator : Char} (hc : isBlank c = true) (hne : c ≠ separator) :
    ((c :: cs).splitOn separator).map trim = (cs.splitOn separator).map trim := by
  rw [List.splitOn_cons_eq_if_modifyHead, if_neg (by simpa using hne)]
  obtain ⟨part, parts, hparts⟩ := List.exists_cons_of_ne_nil (List.splitOn_ne_nil separator cs)
  rw [hparts, List.modifyHead_cons, List.map_cons, List.map_cons, trim_cons_blank hc]

/-- A blank behind a text goes to its last part. -/
theorem map_trim_splitOn_append_blank {separator : Char} (hc : isBlank c = true) (hne : c ≠ separator) :
    ((cs ++ [c]).splitOn separator).map trim = (cs.splitOn separator).map trim := by
  induction hlength : cs.length using Nat.strongRecOn generalizing cs with
  | ind n ih =>
    by_cases hmem : separator ∈ cs
    · obtain ⟨front, rest, rfl⟩ := List.append_of_mem hmem
      have hshorter : rest.length < n := by
        rw [← hlength, List.length_append, List.length_cons]
        omega
      rw [List.append_assoc, List.cons_append, List.splitOn_append_cons_self, List.splitOn_append_cons_self,
        List.map_append, List.map_append, ih _ hshorter rfl]
    · have hmem' : separator ∉ cs ++ [c] := by simp [hmem, hne.symm]
      rw [List.splitOn_eq_singleton hmem, List.splitOn_eq_singleton hmem', List.map_singleton, List.map_singleton,
        trim_append_blank hc]

theorem ne_of_isBlank {d : Char} (hc : isBlank c = true) (hd : isBlank d = false) : c ≠ d := by
  rintro rfl
  exact Bool.false_ne_true (hd.symm.trans hc)

theorem map_trim_splitOn_dropWhile {separator : Char} (hseparator : isBlank separator = false) :
    ((cs.dropWhile isBlank).splitOn separator).map trim = (cs.splitOn separator).map trim := by
  induction cs with
  | nil => rfl
  | cons c cs ih =>
    cases hc : isBlank c with
    | false => rw [List.dropWhile_cons_of_neg (by simp [hc])]
    | true =>
      rw [List.dropWhile_cons_of_pos hc, ih, map_trim_splitOn_cons hc (ne_of_isBlank hc hseparator)]

theorem map_trim_splitOn_trimEnd {separator : Char} (hseparator : isBlank separator = false) :
    ((trimEnd isBlank cs).splitOn separator).map trim = (cs.splitOn separator).map trim := by
  induction cs using List.reverseRecOn with
  | nil => rfl
  | append_singleton cs c ih =>
    cases hc : isBlank c with
    | false => rw [trimEnd_eq_self (by simpa using hc)]
    | true =>
      rw [trimEnd_append_singleton hc, ih, map_trim_splitOn_append_blank hc (ne_of_isBlank hc hseparator)]

/-- The blanks around a text belong to its first and its last part. When the parts are trimmed anyway, it makes no
difference whether the text is trimmed before it is split. -/
theorem map_trim_splitOn_trim {separator : Char} (hseparator : isBlank separator = false) :
    ((trim cs).splitOn separator).map trim = (cs.splitOn separator).map trim := by
  rw [trim, map_trim_splitOn_trimEnd hseparator, map_trim_splitOn_dropWhile hseparator]

theorem mem_intercalate {separator : List Char} {parts : List (List Char)}
    (h : c ∈ separator.intercalate parts) : c ∈ separator ∨ ∃ part ∈ parts, c ∈ part := by
  induction parts with
  | nil => exact absurd h List.not_mem_nil
  | cons part parts ih =>
    cases parts with
    | nil =>
      rw [List.intercalate_singleton] at h
      exact .inr ⟨part, List.mem_singleton_self part, h⟩
    | cons next parts =>
      rw [List.intercalate_cons_cons, List.mem_append, List.mem_append] at h
      rcases h with (h | h) | h
      · exact .inr ⟨part, List.mem_cons_self, h⟩
      · exact .inl h
      · exact (ih h).imp_right fun ⟨other, hmem, hc⟩ => ⟨other, List.mem_cons_of_mem part hmem, hc⟩

/-- A text that is joined from tight ones begins with one of them and ends with one, so that it has no blank at its
ends, whatever the separator is. -/
theorem tight_intercalate {separator : List Char} {parts : List (List Char)}
    (hparts : ∀ part ∈ parts, part ≠ [] ∧ Tight part) : Tight (separator.intercalate parts) := by
  induction parts with
  | nil => exact ⟨nofun, nofun⟩
  | cons part parts ih =>
    obtain ⟨⟨hne, htight⟩, hrest⟩ := List.forall_mem_cons.1 hparts
    cases parts with
    | nil =>
      rw [List.intercalate_singleton]
      exact htight
    | cons next parts =>
      have hnext : separator.intercalate (next :: parts) ≠ [] := by
        obtain ⟨d, ds, rfl⟩ := List.exists_cons_of_ne_nil (hrest next List.mem_cons_self).1
        rw [List.intercalate_cons_cons_left]
        exact List.cons_ne_nil _ _
      rw [List.intercalate_cons_cons]
      constructor
      · rw [List.append_assoc, List.head?_append_of_ne_nil _ hne]
        exact htight.head
      · rw [List.getLast?_append_of_ne_nil _ hnext]
        exact (ih hrest).last

end Trim

section Digits

theorem toNat_of_isDigit {c : Char} (h : c.isDigit = true) : 48 ≤ c.toNat ∧ c.toNat ≤ 57 := by
  rw [Char.isDigit, Bool.and_eq_true, decide_eq_true_iff, decide_eq_true_iff] at h
  exact h

theorem isBlank_of_isDigit {c : Char} (h : c.isDigit = true) : isBlank c = false := by
  obtain ⟨hlow, hhigh⟩ := toNat_of_isDigit h
  simp [isBlank]
  omega

/-- Digits are read as the number that they write, if that lies below the bound. -/
theorem readDigits_of_isDigit {cs : List Char} (hcs : ∀ c ∈ cs, c.isDigit = true) {bound n : Nat}
    (hbound : Nat.ofDigitChars 10 cs n < bound) : readDigits bound n cs = .ok (Nat.ofDigitChars 10 cs n) := by
  induction cs generalizing n with
  | nil => rfl
  | cons c cs ih =>
    obtain ⟨hc, hcs⟩ := List.forall_mem_cons.1 hcs
    rw [Nat.ofDigitChars_cons] at hbound ⊢
    have hprefix : 10 * n + (c.toNat - '0'.toNat) < bound := by
      rw [Nat.ofDigitChars_eq_ofDigitChars_zero] at hbound
      have hpow : 0 < 10 ^ cs.length := Nat.pow_pos (by decide)
      have hfactor := Nat.le_mul_of_pos_left (10 * n + (c.toNat - '0'.toNat)) hpow
      omega
    rw [readDigits, digitValue?, if_pos hc]
    dsimp only
    rw [if_pos hprefix]
    exact ih hcs hbound

/-- A decimal number below a bound, with any number of leading zeros. The zeros are kept apart from the value. -/
structure Numeral (bound : Nat) where
  digits : List Char
  ne_nil : digits ≠ []
  isDigit : ∀ c ∈ digits, c.isDigit = true
  lt : Nat.ofDigitChars 10 digits 0 < bound

namespace Numeral

variable {bound : Nat}

def value (n : Numeral bound) : Nat := Nat.ofDigitChars 10 n.digits 0

/-- The shortest numeral of a number. -/
def ofNat (n : Nat) (h : n < bound) : Numeral bound where
  digits := Nat.toDigits 10 n
  ne_nil := Nat.toDigits_ne_nil
  isDigit _ hc := Nat.isDigit_of_mem_toDigits (by decide) (by decide) hc
  lt := by rwa [Nat.ofDigitChars_ten_toDigits]

theorem value_ofNat (n : Nat) (h : n < bound) : (ofNat n h).value = n := Nat.ofDigitChars_ten_toDigits

theorem readNumber_digits (n : Numeral bound) : readNumber bound n.digits = .ok n.value := by
  obtain ⟨c, cs, hcs⟩ := List.exists_cons_of_ne_nil n.ne_nil
  have hread := readDigits_of_isDigit n.isDigit n.lt
  rw [value, hcs] at *
  exact hread

end Numeral

end Digits

end Text

/-- The characters that may stand in a monomial: none of them is blank or a plus sign. -/
def IsPlain (c : Char) : Prop := c.isDigit = true ∨ c = 'x' ∨ c = '*'

theorem IsPlain.not_blank {c : Char} (h : IsPlain c) : Text.isBlank c = false := by
  rcases h with h | rfl | rfl
  · exact Text.isBlank_of_isDigit h
  · decide
  · decide

theorem IsPlain.ne {c d : Char} (h : IsPlain c) (hd : ¬IsPlain d) : c ≠ d := fun heq => hd (heq ▸ h)

instance (c : Char) : Decidable (IsPlain c) := inferInstanceAs (Decidable (_ ∨ _ ∨ _))

theorem Var.toList_text (v : Var) : (Var.text v).toList = 'x' :: Nat.toDigits 10 v := by
  have hdigits : (Nat.repr v).toList = Nat.toDigits 10 v := by
    rw [Nat.repr_eq_ofList_toDigits, String.toList_ofList]
  rw [Var.text, String.toList_append, hdigits]
  rfl

theorem Var.isDigit_of_mem {v : Var} {c : Char} (h : c ∈ Nat.toDigits 10 v) : c.isDigit = true :=
  Nat.isDigit_of_mem_toDigits (by decide) (by decide) h

theorem Var.isPlain_of_mem_text {v : Var} {c : Char} (h : c ∈ (Var.text v).toList) : c ≠ '*' ∧ IsPlain c := by
  rw [Var.toList_text] at h
  rcases List.mem_cons.1 h with rfl | h
  · decide
  · have hdigit := Var.isDigit_of_mem h
    refine ⟨?_, .inl hdigit⟩
    rintro rfl
    exact absurd hdigit (by decide)

namespace Monomial

variable {m : Monomial}

theorem toList_text (hm : m.isOne = false) :
    m.text.toList = ['*'].intercalate (m.varList.map fun v => (Var.text v).toList) := by
  rw [text, if_neg (Bool.eq_false_iff.1 hm), String.toList_intercalate, List.map_map]
  rfl

theorem isPlain_of_mem_text {c : Char} (h : c ∈ m.text.toList) : IsPlain c := by
  cases hm : m.isOne with
  | true =>
    rw [text, if_pos hm] at h
    obtain rfl := List.mem_singleton.1 h
    decide
  | false =>
    rw [toList_text hm] at h
    rcases Text.mem_intercalate h with h | ⟨part, hpart, hc⟩
    · obtain rfl := List.mem_singleton.1 h
      decide
    · obtain ⟨v, -, rfl⟩ := List.mem_map.1 hpart
      exact (Var.isPlain_of_mem_text hc).2

theorem toList_text_ne_nil : m.text.toList ≠ [] := by
  cases hm : m.isOne with
  | true =>
    rw [text, if_pos hm]
    exact List.cons_ne_nil _ _
  | false =>
    obtain ⟨v, vs, hvs⟩ := List.exists_cons_of_ne_nil (varList_ne_nil hm)
    rw [toList_text hm, hvs, List.map_cons, Var.toList_text, List.intercalate_cons_cons_left]
    exact List.cons_ne_nil _ _

theorem ofVars_varList (m : Monomial) : ofVars m.varList = m := by
  have hvars : (ofVars m.varList).vars = m.vars := OrderedSet.ext_mem fun v => OrderedSet.mem_ofList
  exact congrArg Monomial.mk hvars

end Monomial

namespace Polynomial

/-- Reading parts one by one succeeds if it succeeds on each. -/
theorem mapM_map_eq_ok {α β γ ε : Type} {read : β → Except ε γ} {write : α → β} {value : α → γ} {l : List α}
    (h : ∀ a ∈ l, read (write a) = .ok (value a)) : (l.map write).mapM read = .ok (l.map value) := by
  induction l with
  | nil => rfl
  | cons a l ih =>
    obtain ⟨ha, hl⟩ := List.forall_mem_cons.1 h
    rw [List.map_cons, List.mapM_cons, ha, ih hl]
    rfl

/-- A polynomial is the sum of its monomials in any order, so that the order in which they are written does not
matter. -/
theorem sum_of_perm {p : Polynomial} {ms : List Monomial} (h : ms.Perm p.monomialList) : sum ms = p := by
  have hmonomials : (sum ms).monomials = p.monomials := by
    apply OrderedSet.ext_mem
    intro m
    rw [sum, OrderedSet.mem_toggleAll (h.nodup_iff.2 p.nodup_monomialList), h.mem_iff, mem_monomialList]
    simp
  exact congrArg Polynomial.mk hmonomials

section Text

variable {p : Polynomial}

theorem written_perm (p : Polynomial) : p.written.Perm p.monomialList := List.mergeSort_perm _ _

theorem mem_written {m : Monomial} : m ∈ p.written ↔ m ∈ p.monomials := p.written_perm.mem_iff

theorem toList_text (hp : p.isZero = false) :
    p.text.toList = [' ', '+', ' '].intercalate (p.written.map fun m => m.text.toList) := by
  rw [text, if_neg (Bool.eq_false_iff.1 hp), String.toList_intercalate, List.map_map]
  rfl

theorem written_ne_nil (hp : p.isZero = false) : p.written ≠ [] := by
  have hne : p.monomialList ≠ [] := List.isEmpty_eq_false_iff.1 hp
  obtain ⟨m, hm⟩ := List.exists_mem_of_ne_nil _ hne
  exact List.ne_nil_of_mem (mem_written.2 hm)

theorem isPlain_of_mem_text {c : Char} (h : c ∈ p.text.toList) : IsPlain c ∨ c = ' ' ∨ c = '+' := by
  cases hp : p.isZero with
  | true =>
    rw [text, if_pos hp] at h
    obtain rfl := List.mem_singleton.1 h
    decide
  | false =>
    rw [toList_text hp] at h
    rcases Text.mem_intercalate h with h | ⟨part, hpart, hc⟩
    · simp only [List.mem_cons, List.not_mem_nil, or_false] at h
      grind
    · obtain ⟨m, -, rfl⟩ := List.mem_map.1 hpart
      exact .inl (Monomial.isPlain_of_mem_text hc)

/-- The text of a polynomial has no blank at its ends and begins like a monomial, so that a line with it is not
skipped. -/
theorem tight_text (p : Polynomial) : Text.Tight p.text.toList ∧ ∃ c cs, p.text.toList = c :: cs ∧ IsPlain c := by
  cases hp : p.isZero with
  | true =>
    have htext : p.text.toList = ['0'] := by
      rw [text, if_pos hp]
      rfl
    rw [htext]
    refine ⟨Text.tight_of_forall fun c hc => ?_, '0', [], rfl, by decide⟩
    obtain rfl := List.mem_singleton.1 hc
    decide
  | false =>
    rw [toList_text hp]
    constructor
    · apply Text.tight_intercalate
      intro part hpart
      obtain ⟨m, -, rfl⟩ := List.mem_map.1 hpart
      exact ⟨Monomial.toList_text_ne_nil,
        Text.tight_of_forall fun c hc => (Monomial.isPlain_of_mem_text hc).not_blank⟩
    · obtain ⟨m, ms, hms⟩ := List.exists_cons_of_ne_nil (written_ne_nil hp)
      obtain ⟨c, cs, hcs⟩ := List.exists_cons_of_ne_nil (Monomial.toList_text_ne_nil (m := m))
      rw [hms, List.map_cons, hcs, List.intercalate_cons_cons_left]
      exact ⟨c, _, rfl, Monomial.isPlain_of_mem_text (hcs ▸ List.mem_cons_self)⟩

end Text

end Polynomial

end BoolPoly

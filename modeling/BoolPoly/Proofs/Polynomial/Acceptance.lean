import BoolPoly.Proofs.Polynomial.Grammar
import Mathlib.Data.List.Forall2
import Mathlib.Data.List.TakeWhile

namespace BoolPoly

namespace Text

section Parts

variable {α β ε : Type} {cs : List Char} {c separator : Char}

theorem exists_trimEnd_append (drop : Char → Bool) (cs : List Char) :
    ∃ back, (∀ c ∈ back, drop c = true) ∧ trimEnd drop cs ++ back = cs := by
  refine ⟨(cs.reverse.takeWhile drop).reverse, fun c hc => ?_, ?_⟩
  · exact List.mem_takeWhile_imp (List.mem_reverse.1 hc)
  · rw [trimEnd, ← List.reverse_append, List.takeWhile_append_dropWhile, List.reverse_reverse]

theorem trimEnd_append {drop : Char → Bool} {back : List Char} (hback : ∀ c ∈ back, drop c = true) :
    trimEnd drop (cs ++ back) = trimEnd drop cs := by
  rw [trimEnd, List.reverse_append, List.dropWhile_append_of_pos fun c hc => hback c (List.mem_reverse.1 hc), trimEnd]

/-- A text is what is left of it when it is trimmed, with blanks around that. So a text may be trimmed before it is
read. -/
theorem exists_spaced {write : α → List Char} {a : α} (h : write a = trim cs) :
    ∃ s : Spaced α, s.text write = cs ∧ s.content = a := by
  obtain ⟨back, hback, happend⟩ := exists_trimEnd_append isBlank (cs.dropWhile isBlank)
  refine ⟨⟨⟨cs.takeWhile isBlank, fun c => List.mem_takeWhile_imp⟩, a, ⟨back, hback⟩⟩, ?_, rfl⟩
  rw [Spaced.text, h, trim, List.append_assoc, happend, List.takeWhile_append_dropWhile]

/-- The same blanks around something else. -/
def Spaced.map (f : α → β) (s : Spaced α) : Spaced β := { s with content := f s.content }

theorem join_map {write : α → List Char} {write' : β → List Char} {f : α → β} {parts : List (Spaced α)}
    (h : ∀ part ∈ parts, write' (f part.content) = write part.content) :
    join separator write' (parts.map (Spaced.map f)) = join separator write parts := by
  rw [join, join, List.map_map]
  refine congrArg ([separator].intercalate ·) (List.map_congr_left fun part hpart => ?_)
  rw [Function.comp_apply, Spaced.text, Spaced.text, ← h part hpart]
  rfl

theorem Spaced.not_mem_text {write : α → List Char} (hseparator : isBlank separator = false)
    (hwrite : ∀ a, separator ∉ write a) (s : Spaced α) : separator ∉ s.text write := by
  intro h
  cases s.mem_text h with
  | inl hblank => exact Bool.false_ne_true (hseparator.symm.trans hblank)
  | inr hcontent => exact hwrite s.content hcontent

theorem mapM_eq_ok_iff {read : α → Except ε β} {l : List α} {bs : List β} :
    l.mapM read = .ok bs ↔ List.Forall₂ (fun a b => read a = .ok b) l bs := by
  induction l generalizing bs with
  | nil => simp [pure, Except.pure, eq_comm]
  | cons a l ih =>
    rw [List.mapM_cons, List.forall₂_cons_left_iff]
    simp only [← ih]
    cases read a with
    | error e => simp [bind, Except.bind]
    | ok b => cases l.mapM read <;> simp [bind, Except.bind, pure, Except.pure, eq_comm]

theorem bind_pure_eq_ok_iff {x : Except ε α} {f : α → β} {b : β} :
    (x >>= fun a => pure (f a)) = .ok b ↔ ∃ a, x = .ok a ∧ f a = b := by
  cases x <;> simp [bind, Except.bind, pure, Except.pure]

/-- A text is split at a separator and read part by part just if it is joined from parts that are read. The parts have
no separator in them, and a part may be empty. -/
theorem mapM_splitOn_eq_ok_iff {read : List Char → Except ε β} {write : α → List Char} {value : α → β} {bs : List β}
    (hread : ∀ part b, read (trim part) = .ok b ↔ ∃ s : Spaced α, s.text write = part ∧ value s.content = b)
    (hwrite : ∀ s : Spaced α, separator ∉ s.text write) :
    ((cs.splitOn separator).map trim).mapM read = .ok bs ↔
      ∃ parts : List (Spaced α), parts ≠ [] ∧ join separator write parts = cs ∧
        (parts.map Spaced.content).map value = bs := by
  rw [mapM_eq_ok_iff, List.forall₂_map_left_iff]
  simp only [hread]
  constructor
  · intro h
    have hparts : ∃ parts : List (Spaced α), parts.map (Spaced.text write) = cs.splitOn separator ∧
        (parts.map Spaced.content).map value = bs := by
      generalize cs.splitOn separator = texts at h
      induction h with
      | nil => exact ⟨[], rfl, rfl⟩
      | cons hpart _ ih =>
        obtain ⟨part, rfl, rfl⟩ := hpart
        obtain ⟨parts, rfl, rfl⟩ := ih
        exact ⟨part :: parts, rfl, rfl⟩
    obtain ⟨parts, htexts, hvalues⟩ := hparts
    refine ⟨parts, ?_, ?_, hvalues⟩
    · rintro rfl
      exact List.splitOn_ne_nil _ _ htexts.symm
    · rw [join, htexts, List.intercalate_splitOn]
  · rintro ⟨parts, hne, rfl, rfl⟩
    rw [join, List.splitOn_intercalate separator (List.forall_mem_map.2 fun s _ => hwrite s) (by simpa using hne),
      List.map_map, List.forall₂_map_left_iff, List.forall₂_map_right_iff, List.forall₂_same]
    exact fun s _ => ⟨s, rfl, rfl⟩

end Parts

section Digits

variable {bound n m : Nat} {cs : List Char}

theorem isDigit_of_readDigits (h : readDigits bound n cs = .ok m) : ∀ c ∈ cs, c.isDigit = true := by
  fun_induction readDigits bound n cs with
  | case1 => exact List.forall_mem_nil _
  | case2 => cases h
  | case3 n c cs d hd hlt ih =>
    refine List.forall_mem_cons.2 ⟨?_, ih h⟩
    unfold digitValue? at hd
    split at hd
    · assumption
    · cases hd
  | case4 => cases h

theorem ofDigitChars_of_readDigits (h : readDigits bound n cs = .ok m) : Nat.ofDigitChars 10 cs n = m := by
  fun_induction readDigits bound n cs with
  | case1 => exact Except.ok.inj h
  | case2 => cases h
  | case3 n c cs d hd hlt ih =>
    have hvalue : c.toNat - '0'.toNat = d := by
      unfold digitValue? at hd
      split at hd
      · exact Option.some.inj hd
      · cases hd
    rw [Nat.ofDigitChars_cons, hvalue]
    exact ih h
  | case4 => cases h

/-- Numerals, and nothing else, are read as numbers. Leading zeros do not matter, and a value at the bound or above it
is refused. -/
theorem readNumber_eq_ok_iff (hbound : 0 < bound) :
    readNumber bound cs = .ok m ↔ ∃ index : Numeral bound, index.digits = cs ∧ index.value = m := by
  constructor
  · intro h
    cases cs with
    | nil => cases h
    | cons c cs =>
      change readDigits bound 0 (c :: cs) = .ok m at h
      have hvalue := ofDigitChars_of_readDigits h
      exact ⟨⟨c :: cs, List.cons_ne_nil c cs, isDigit_of_readDigits h, hvalue ▸ lt_of_readDigits hbound h⟩, rfl, hvalue⟩
  · rintro ⟨index, rfl, rfl⟩
    exact index.readNumber_digits

end Digits

end Text

namespace Polynomial

open Text (Numeral Spaced)

/-- A factor as it is read: parentheses open and close around the index of a variable, any number of them, whether
they match or not. -/
inductive LooseFactor where
  | zero
  | one
  | var (opening : Nat) (index : Numeral indexBound) (closing : Nat)

namespace LooseFactor

def text : LooseFactor → List Char
  | zero => ['0']
  | one => ['1']
  | var opening index closing => 'x' :: (List.replicate opening '(' ++ index.digits ++ List.replicate closing ')')

/-- The factor without its parentheses, which is one of the written ones. -/
def plain : LooseFactor → WrittenFactor
  | zero => .zero
  | one => .one
  | var _ index _ => .plain index

/-- Whether there are no parentheses, or just one that opens and one that closes. -/
def IsMatched : LooseFactor → Prop
  | var opening _ closing => opening = closing ∧ closing ≤ 1
  | _ => True

variable {f : LooseFactor} {cs : List Char} {v : Var} {m : Option Monomial}

theorem readIndex_eq_ok_iff : readIndex cs = .ok v ↔ ∃ (opening : Nat) (index : Numeral indexBound) (closing : Nat),
    List.replicate opening '(' ++ index.digits ++ List.replicate closing ')' = cs ∧ index.value = v := by
  rw [readIndex, Text.readNumber_eq_ok_iff (by decide)]
  constructor
  · rintro ⟨index, hdigits, rfl⟩
    have hopening : ∀ c ∈ cs.takeWhile (· == '('), c = '(' := fun c hc => by
      simpa using List.mem_takeWhile_imp hc
    obtain ⟨back, hback, happend⟩ := Text.exists_trimEnd_append (· == ')') (cs.dropWhile (· == '('))
    have hclosing : ∀ c ∈ back, c = ')' := fun c hc => beq_iff_eq.1 (hback c hc)
    refine ⟨(cs.takeWhile (· == '(')).length, index, back.length, ?_, rfl⟩
    rw [hdigits, List.append_assoc, ← List.eq_replicate_of_mem hopening, ← List.eq_replicate_of_mem hclosing, happend,
      List.takeWhile_append_dropWhile]
  · rintro ⟨opening, index, closing, rfl, rfl⟩
    have hopening : ∀ c ∈ List.replicate opening '(', (c == '(') = true := fun c hc =>
      beq_iff_eq.2 (List.eq_of_mem_replicate hc)
    have hclosing : ∀ c ∈ List.replicate closing ')', (c == ')') = true := fun c hc =>
      beq_iff_eq.2 (List.eq_of_mem_replicate hc)
    have hfirst : ∀ c ∈ (index.digits ++ List.replicate closing ')').head?, (c == '(') = false := by
      rw [List.head?_append_of_ne_nil _ index.ne_nil]
      exact fun c hc => WrittenFactor.beq_eq_false_of_mem_digits (List.mem_of_head? hc) (by decide)
    have hlast : ∀ c ∈ index.digits.getLast?, (c == ')') = false := fun c hc =>
      WrittenFactor.beq_eq_false_of_mem_digits (List.mem_of_getLast? hc) (by decide)
    refine ⟨index, ?_, rfl⟩
    rw [List.append_assoc, List.dropWhile_append_of_pos hopening, Text.dropWhile_eq_self hfirst,
      Text.trimEnd_append hclosing, Text.trimEnd_eq_self hlast]

/-- What is read as a factor, and as which: parentheses make no difference. Everything that is no loose factor is
refused. -/
theorem readFactor_eq_ok_iff :
    readFactor cs = .ok m ↔ ∃ f : LooseFactor, f.text = cs ∧ WrittenFactor.product? [f.plain] = m := by
  constructor
  · intro h
    unfold readFactor at h
    split at h
    · exact ⟨zero, rfl, Except.ok.inj h⟩
    · exact ⟨one, rfl, Except.ok.inj h⟩
    · split at h
      · next hindex =>
        obtain ⟨opening, index, closing, rfl, rfl⟩ := readIndex_eq_ok_iff.1 hindex
        exact ⟨var opening index closing, rfl, Except.ok.inj h⟩
      · cases h
    · cases h
  · rintro ⟨f, rfl, rfl⟩
    cases f with
    | zero => rfl
    | one => rfl
    | var opening index closing =>
      rw [text, readFactor, readIndex_eq_ok_iff.2 ⟨opening, index, closing, rfl, rfl⟩]
      rfl

theorem not_blank_of_mem_text {c : Char} (h : c ∈ f.text) : Text.isBlank c = false ∧ c ≠ '*' ∧ c ≠ '+' := by
  cases f with
  | zero => exact WrittenFactor.not_blank_of_mem_text (f := .zero) h
  | one => exact WrittenFactor.not_blank_of_mem_text (f := .one) h
  | var opening index closing =>
    rw [text, List.mem_cons, List.mem_append, List.mem_append] at h
    rcases h with rfl | (h | h) | h
    · decide
    · rw [List.eq_of_mem_replicate h]
      decide
    · exact WrittenFactor.not_blank_of_mem_text (f := .plain index) (List.mem_cons_of_mem _ h)
    · rw [List.eq_of_mem_replicate h]
      decide

theorem trim_text (f : LooseFactor) : Text.trim f.text = f.text :=
  Text.Tight.trim_eq (Text.tight_of_forall fun _ hc => (not_blank_of_mem_text hc).1)

theorem readFactor_trim_eq_ok_iff : readFactor (Text.trim cs) = .ok m ↔
    ∃ f : Spaced LooseFactor, f.text text = cs ∧ WrittenFactor.product? [f.content.plain] = m := by
  rw [readFactor_eq_ok_iff]
  constructor
  · rintro ⟨f, htext, rfl⟩
    obtain ⟨s, rfl, rfl⟩ := Text.exists_spaced htext
    exact ⟨s, rfl, rfl⟩
  · rintro ⟨s, rfl, rfl⟩
    refine ⟨s.content, ?_, rfl⟩
    rw [Spaced.text, Text.trim_append s.before.isBlank s.after.isBlank, trim_text]

theorem count_digits {index : Numeral indexBound} {c : Char} (hc : c.isDigit = false) : index.digits.count c = 0 :=
  List.count_eq_zero.2 fun h => Bool.false_ne_true (hc.symm.trans (index.isDigit c h))

/-- The parentheses match just if the factor is a written one. This is seen by counting them: a written factor has one
of each kind or none. -/
theorem isMatched_iff : f.IsMatched ↔ ∃ w : WrittenFactor, w.text = f.text := by
  cases f with
  | zero => exact iff_of_true trivial ⟨.zero, rfl⟩
  | one => exact iff_of_true trivial ⟨.one, rfl⟩
  | var opening index closing =>
    have hopen : (var opening index closing).text.count '(' = opening := by
      simp [text, count_digits, List.count_replicate]
    have hclose : (var opening index closing).text.count ')' = closing := by
      simp [text, count_digits, List.count_replicate]
    constructor
    · rintro ⟨rfl, hle⟩
      cases Nat.le_one_iff_eq_zero_or_eq_one.1 hle with
      | inl hzero => exact ⟨.plain index, by simp [hzero, text, WrittenFactor.text]⟩
      | inr hone => exact ⟨.enclosed index, by simp [hone, text, WrittenFactor.text]⟩
    · rintro ⟨w, hw⟩
      rw [← hw] at hopen hclose
      rw [IsMatched, ← hopen, ← hclose]
      cases w with
      | zero => decide
      | one => decide
      | plain index => simp [WrittenFactor.text, count_digits]
      | enclosed index => simp [WrittenFactor.text, count_digits]

end LooseFactor

/-- A term as it is read: one loose factor or more, with blanks around each. -/
structure LooseTerm where
  factors : List (Spaced LooseFactor)
  ne_nil : factors ≠ []

namespace LooseTerm

def text (t : LooseTerm) : List Char := Text.join '*' LooseFactor.text t.factors

/-- The product of the factors. -/
def monomial? (t : LooseTerm) : Option Monomial :=
  WrittenFactor.product? ((t.factors.map Spaced.content).map LooseFactor.plain)

/-- Whether the parentheses of every factor match. -/
def IsMatched (t : LooseTerm) : Prop := ∀ f ∈ t.factors, f.content.IsMatched

variable {cs : List Char} {m : Option Monomial}

theorem plus_not_mem_text (t : LooseTerm) : '+' ∉ t.text := by
  intro hmem
  rcases Text.mem_join hmem with h | h | ⟨f, -, h⟩
  · exact absurd h (by decide)
  · exact absurd h (by decide)
  · exact (LooseFactor.not_blank_of_mem_text h).2.2 rfl

/-- Splitting a term gives its factors again. -/
theorem map_trim_splitOn_text (t : LooseTerm) : ((Text.trim t.text).splitOn '*').map Text.trim =
    (t.factors.map Spaced.content).map LooseFactor.text := by
  rw [Text.map_trim_splitOn_trim (by decide), text, Text.map_trim_splitOn_join t.ne_nil (by decide)
    fun f _ hmem => (LooseFactor.not_blank_of_mem_text hmem).2.1 rfl]
  exact List.map_congr_left fun f _ => f.trim_text

/-- A term is read just if its factors are: an empty term has an empty factor, which is refused, too. -/
theorem readTerm_eq_ok_iff : readTerm cs = .ok m ↔
    ∃ ms, ((cs.splitOn '*').map Text.trim).mapM readFactor = .ok ms ∧ product ms = m := by
  rw [← Text.bind_pure_eq_ok_iff]
  cases cs with
  | nil => exact iff_of_false nofun nofun
  | cons c cs => rfl

/-- What is read as a term, and as which. Blanks around the term are trimmed before it is split. -/
theorem readTerm_trim_eq_ok_iff :
    readTerm (Text.trim cs) = .ok m ↔ ∃ t : LooseTerm, t.text = cs ∧ t.monomial? = m := by
  have hseparator : ∀ f : Spaced LooseFactor, '*' ∉ f.text LooseFactor.text :=
    Text.Spaced.not_mem_text (by decide) fun f hmem => (LooseFactor.not_blank_of_mem_text hmem).2.1 rfl
  have hvalue : ∀ factors : List (Spaced LooseFactor),
      product ((factors.map Spaced.content).map fun f => WrittenFactor.product? [f.plain]) =
        WrittenFactor.product? ((factors.map Spaced.content).map LooseFactor.plain) := by
    intro factors
    rw [← WrittenFactor.product_map_product?, List.map_map (f := LooseFactor.plain)]
    rfl
  have hread : ∀ ms, ((cs.splitOn '*').map Text.trim).mapM readFactor = .ok ms ↔ ∃ factors, factors ≠ [] ∧
      Text.join '*' LooseFactor.text factors = cs ∧
        ((factors.map Spaced.content).map fun f => WrittenFactor.product? [f.plain]) = ms := fun _ =>
    Text.mapM_splitOn_eq_ok_iff (fun _ _ => LooseFactor.readFactor_trim_eq_ok_iff) hseparator
  rw [readTerm_eq_ok_iff, Text.map_trim_splitOn_trim (by decide)]
  simp only [hread]
  constructor
  · rintro ⟨_, ⟨factors, hne, rfl, rfl⟩, rfl⟩
    exact ⟨⟨factors, hne⟩, rfl, (hvalue factors).symm⟩
  · rintro ⟨t, rfl, rfl⟩
    exact ⟨_, ⟨t.factors, t.ne_nil, rfl, rfl⟩, hvalue t.factors⟩

theorem readTerm_trim_eq_ok_iff_spaced : readTerm (Text.trim cs) = .ok m ↔
    ∃ t : Spaced LooseTerm, t.text text = cs ∧ t.content.monomial? = m := by
  rw [readTerm_trim_eq_ok_iff]
  constructor
  · rintro ⟨t, rfl, rfl⟩
    exact ⟨⟨.empty, t, .empty⟩, List.append_nil _, rfl⟩
  · rintro ⟨s, rfl, rfl⟩
    rw [← readTerm_trim_eq_ok_iff, Spaced.text, Text.trim_append s.before.isBlank s.after.isBlank]
    exact readTerm_trim_eq_ok_iff.2 ⟨s.content, rfl, rfl⟩

end LooseTerm

/-- A sum as it is read: one loose term or more, with blanks around each. -/
structure LooseSum where
  terms : List (Spaced LooseTerm)
  ne_nil : terms ≠ []

namespace LooseSum

def text (w : LooseSum) : List Char := Text.join '+' LooseTerm.text w.terms

/-- The sum of the products. -/
def polynomial (w : LooseSum) : Polynomial := sum ((w.terms.map Spaced.content).filterMap LooseTerm.monomial?)

/-- Whether all parentheses match. -/
def IsMatched (w : LooseSum) : Prop := ∀ t ∈ w.terms, t.content.IsMatched

variable {cs : List Char} {p : Polynomial}

/-- What is read as a polynomial, and as which: the loose sums, and every other text is refused. -/
theorem ofChars_eq_ok_iff : ofChars cs = .ok p ↔ ∃ w : LooseSum, w.text = cs ∧ w.polynomial = p := by
  have hseparator : ∀ t : Spaced LooseTerm, '+' ∉ t.text LooseTerm.text :=
    Text.Spaced.not_mem_text (by decide) LooseTerm.plus_not_mem_text
  have hvalue : ∀ terms : List (Spaced LooseTerm),
      sum (((terms.map Spaced.content).map LooseTerm.monomial?).filterMap id) =
        sum ((terms.map Spaced.content).filterMap LooseTerm.monomial?) := by
    intro terms
    rw [List.filterMap_map, Function.id_comp]
  rw [ofChars, Text.bind_pure_eq_ok_iff]
  simp only [Text.mapM_splitOn_eq_ok_iff (fun part b => LooseTerm.readTerm_trim_eq_ok_iff_spaced) hseparator]
  constructor
  · rintro ⟨_, ⟨terms, hne, rfl, rfl⟩, rfl⟩
    exact ⟨⟨terms, hne⟩, rfl, (hvalue terms).symm⟩
  · rintro ⟨w, rfl, rfl⟩
    exact ⟨_, ⟨w.terms, w.ne_nil, rfl, rfl⟩, hvalue w.terms⟩

/-- Splitting a sum gives its terms again. -/
theorem map_trim_splitOn_text (w : LooseSum) : (w.text.splitOn '+').map Text.trim =
    (w.terms.map Spaced.content).map fun t => Text.trim t.text :=
  Text.map_trim_splitOn_join w.ne_nil (by decide) fun t _ => t.content.plus_not_mem_text

/-- Two sums with the same text have the same factors, one kind of factors or the other, because splitting the text
gives them back. -/
theorem map_factors_eq {w : LooseSum} {v : WrittenSum} (h : v.text = w.text) :
    (v.terms.map Spaced.content).map (fun t => (t.factors.map Spaced.content).map WrittenFactor.text) =
      (w.terms.map Spaced.content).map fun t => (t.factors.map Spaced.content).map LooseFactor.text := by
  have hterms : (v.terms.map Spaced.content).map (fun t => Text.trim t.text) =
      (w.terms.map Spaced.content).map fun t => Text.trim t.text := by
    rw [← v.map_trim_splitOn_text, ← w.map_trim_splitOn_text, h]
  have hfactors := congrArg (List.map fun cs : List Char => (cs.splitOn '*').map Text.trim) hterms
  simp only [List.map_map (f := fun _ => Text.trim _), Function.comp_def, WrittenTerm.map_trim_splitOn_text,
    LooseTerm.map_trim_splitOn_text] at hfactors
  exact hfactors

/-- All parentheses match just if the sum is a written one. -/
theorem isMatched_iff (w : LooseSum) : w.IsMatched ↔ ∃ v : WrittenSum, v.text = w.text := by
  constructor
  · intro hw
    choose! g hg using fun (f : LooseFactor) (hf : f.IsMatched) => LooseFactor.isMatched_iff.1 hf
    have hne : ∀ t : LooseTerm, t.factors.map (Spaced.map g) ≠ [] := fun t => by simpa using t.ne_nil
    refine ⟨⟨w.terms.map (Spaced.map fun t => ⟨t.factors.map (Spaced.map g), hne t⟩), by simpa using w.ne_nil⟩, ?_⟩
    exact Text.join_map fun t ht => Text.join_map fun f hf => hg f.content (hw t ht f hf)
  · rintro ⟨v, hv⟩ t ht f hf
    rw [LooseFactor.isMatched_iff]
    have hmem : (t.content.factors.map Spaced.content).map LooseFactor.text ∈
        (w.terms.map Spaced.content).map fun t => (t.factors.map Spaced.content).map LooseFactor.text :=
      List.mem_map_of_mem (List.mem_map_of_mem ht)
    rw [← map_factors_eq hv] at hmem
    obtain ⟨t', -, hfactors⟩ := List.mem_map.1 hmem
    have hmem' : f.content.text ∈ (t'.factors.map Spaced.content).map WrittenFactor.text := by
      rw [hfactors]
      exact List.mem_map_of_mem (List.mem_map_of_mem hf)
    obtain ⟨g, -, hg⟩ := List.mem_map.1 hmem'
    exact ⟨g, hg⟩

end LooseSum

theorem ofList_eq_iff {cs : List Char} {s : String} : String.ofList cs = s ↔ cs = s.toList :=
  ⟨fun h => h ▸ String.toList_ofList.symm, fun h => h ▸ String.ofList_toList⟩

/-- A text is read as a polynomial just if it is a sum of products whose factors are `0`, `1`, or `x` with an index
below the bound, in front of which any number of parentheses may open and behind which any number may close; every
other text is refused. A text that is read is one of the ways to write a polynomial just if at each index the
parentheses match. -/
theorem ofText_accepts_iff (s : String) :
    (∀ p, ofText s = .ok p ↔ ∃ w : LooseSum, String.ofList w.text = s ∧ w.polynomial = p) ∧
    ((∃ e, ofText s = .error e) ↔ ∀ w : LooseSum, String.ofList w.text ≠ s) ∧
    ∀ w : LooseSum, String.ofList w.text = s → ((∃ v : WrittenSum, String.ofList v.text = s) ↔ w.IsMatched) := by
  simp only [Ne, ofList_eq_iff]
  refine ⟨fun p => LooseSum.ofChars_eq_ok_iff, ⟨?_, fun h => ?_⟩, fun w hw => ?_⟩
  · rintro ⟨e, he⟩ w hw
    have hok : ofText s = .ok w.polynomial := LooseSum.ofChars_eq_ok_iff.2 ⟨w, hw, rfl⟩
    rw [he] at hok
    cases hok
  · cases hread : ofText s with
    | error e => exact ⟨e, rfl⟩
    | ok p =>
      obtain ⟨w, hw, -⟩ := LooseSum.ofChars_eq_ok_iff.1 hread
      exact absurd hw (h w)
  · rw [w.isMatched_iff, hw]

/-- Two parentheses that open and none that closes: the text is read, but it is not one of the ways to write a
polynomial. -/
theorem ofText_accepts_unmatched :
    let five : Numeral indexBound := ⟨['5'], by decide, List.all_eq_true.1 rfl, by decide⟩
    let w : LooseSum := ⟨[⟨.empty, ⟨[⟨.empty, .var 2 five 0, .empty⟩], by simp⟩, .empty⟩], by simp⟩
    String.ofList w.text = "x((5" ∧ w.polynomial = .ofVar 5 ∧ ofText "x((5" = .ok (.ofVar 5) ∧
    ¬∃ v : WrittenSum, String.ofList v.text = "x((5" := by
  intro five w
  obtain ⟨hread, -, hmatched⟩ := ofText_accepts_iff "x((5"
  have htext : String.ofList w.text = "x((5" := by decide
  have hpolynomial : w.polynomial = .ofVar 5 := by decide
  refine ⟨htext, hpolynomial, (hread _).2 ⟨w, htext, hpolynomial⟩, fun hwritten => ?_⟩
  have hfactor := (hmatched w htext).1 hwritten _ List.mem_cons_self _ List.mem_cons_self
  exact absurd hfactor.1 (by decide)

end Polynomial

end BoolPoly

import BoolPoly.Proofs.Polynomial.Canonical
import BoolPoly.Proofs.Polynomial.Text

namespace BoolPoly

namespace Text

/-- A text of blanks, of any length and of any of the characters that count as blank. -/
structure Blanks where
  chars : List Char
  isBlank : ∀ c ∈ chars, isBlank c = true

/-- No blank at all. -/
def Blanks.empty : Blanks := ⟨[], List.forall_mem_nil _⟩

instance : Inhabited Blanks := ⟨.empty⟩

/-- Something that is written with blanks around it. The blanks are kept with it, so that a text is determined by its
parts. -/
structure Spaced (α : Type) where
  before : Blanks
  content : α
  after : Blanks
deriving Inhabited

section Spaced

variable {α : Type} {write : α → List Char} {separator : Char}

/-- The text with its blanks, given how the content is written. -/
def Spaced.text (write : α → List Char) (s : Spaced α) : List Char :=
  s.before.chars ++ write s.content ++ s.after.chars

theorem Spaced.mem_text {s : Spaced α} {c : Char} (h : c ∈ s.text write) :
    Text.isBlank c = true ∨ c ∈ write s.content := by
  rw [text, List.mem_append, List.mem_append] at h
  rcases h with (h | h) | h
  · exact .inl (s.before.isBlank c h)
  · exact .inr h
  · exact .inl (s.after.isBlank c h)

/-- The parts joined by a separator, each with the blanks around it. Terms and factors are written in the same way,
with different separators. -/
def join (separator : Char) (write : α → List Char) (parts : List (Spaced α)) : List Char :=
  [separator].intercalate (parts.map (Spaced.text write))

theorem mem_join {parts : List (Spaced α)} {c : Char} (h : c ∈ join separator write parts) :
    c = separator ∨ Text.isBlank c = true ∨ ∃ part ∈ parts, c ∈ write part.content := by
  rcases mem_intercalate h with h | ⟨cs, hcs, hc⟩
  · exact .inl (List.mem_singleton.1 h)
  · obtain ⟨part, hpart, rfl⟩ := List.mem_map.1 hcs
    exact .inr ((Spaced.mem_text hc).imp_right fun hmem => ⟨part, hpart, hmem⟩)

/-- Splitting at the separator and trimming gives the parts again, as long as neither they nor the blanks have the
separator in them. -/
theorem map_trim_splitOn_join {parts : List (Spaced α)} (hne : parts ≠ []) (hseparator : Text.isBlank separator = false)
    (hparts : ∀ part ∈ parts, separator ∉ write part.content) :
    ((join separator write parts).splitOn separator).map trim =
      (parts.map Spaced.content).map fun content => trim (write content) := by
  have hfree : ∀ cs ∈ parts.map (Spaced.text write), separator ∉ cs := by
    rw [List.forall_mem_map]
    intro part hpart hmem
    rcases Spaced.mem_text hmem with hblank | hcontent
    · exact Bool.false_ne_true (hseparator.symm.trans hblank)
    · exact hparts part hpart hcontent
  rw [join, List.splitOn_intercalate separator hfree (by simpa using hne), List.map_map, List.map_map]
  exact List.map_congr_left fun part _ => trim_append part.before.isBlank part.after.isBlank

/-- Texts that are joined by a separator with the same blanks on both of its sides are joined parts. In this way a
text that is written out is one of the written forms. -/
theorem exists_join (write : α → List Char) (separator : Char) (gap before : Blanks) {contents : List α}
    (hne : contents ≠ []) : ∃ parts : List (Spaced α), parts ≠ [] ∧ parts.map Spaced.content = contents ∧
      join separator write parts =
        before.chars ++ (gap.chars ++ separator :: gap.chars).intercalate (contents.map write) := by
  induction contents generalizing before with
  | nil => exact absurd rfl hne
  | cons content contents ih =>
    cases contents with
    | nil =>
      refine ⟨[⟨before, content, .empty⟩], List.cons_ne_nil _ _, rfl, ?_⟩
      simp [join, Spaced.text, Blanks.empty]
    | cons next contents =>
      obtain ⟨parts, hparts, hcontents, hjoin⟩ := ih gap (List.cons_ne_nil _ _)
      obtain ⟨part, rest, rfl⟩ := List.exists_cons_of_ne_nil hparts
      refine ⟨⟨before, content, gap⟩ :: part :: rest, List.cons_ne_nil _ _, congrArg (content :: ·) hcontents, ?_⟩
      rw [join] at hjoin
      rw [join, List.map_cons, List.map_cons, List.intercalate_cons_cons, ← List.map_cons, hjoin]
      simp [Spaced.text, List.intercalate_cons_cons]

end Spaced

end Text

namespace Polynomial

open Text (Numeral Spaced)

/-- The ways to write a factor: the constants, and a variable with or without parentheses around its index. The index
may have leading zeros, and lies below the bound. -/
inductive WrittenFactor where
  | zero
  | one
  | plain (index : Numeral indexBound)
  | enclosed (index : Numeral indexBound)
deriving Inhabited

namespace WrittenFactor

def text : WrittenFactor → List Char
  | zero => ['0']
  | one => ['1']
  | plain index => 'x' :: index.digits
  | enclosed index => 'x' :: '(' :: (index.digits ++ [')'])

/-- The value under an assignment. -/
def value (a : Var → Bool) : WrittenFactor → Bool
  | zero => false
  | one => true
  | plain index => a index.value
  | enclosed index => a index.value

def isZero : WrittenFactor → Bool
  | zero => true
  | _ => false

/-- The variable of a factor that is no constant. -/
def var? : WrittenFactor → Option Var
  | zero => none
  | one => none
  | plain index => some index.value
  | enclosed index => some index.value

/-- The product of factors: the variables, each of them once, and nothing beside a factor zero. A factor one has no
share in it. -/
def product? (factors : List WrittenFactor) : Option Monomial :=
  if factors.any isZero then none else some (.ofVars (factors.filterMap var?))

theorem not_blank_of_mem_text {f : WrittenFactor} {c : Char} (h : c ∈ f.text) :
    Text.isBlank c = false ∧ c ≠ '*' ∧ c ≠ '+' := by
  have hdigit : ∀ index : Numeral indexBound, c ∈ index.digits → Text.isBlank c = false ∧ c ≠ '*' ∧ c ≠ '+' := by
    intro index hc
    have hdigit := index.isDigit c hc
    refine ⟨Text.isBlank_of_isDigit hdigit, ?_, ?_⟩
    · rintro rfl
      exact absurd hdigit (by decide)
    · rintro rfl
      exact absurd hdigit (by decide)
  cases f with
  | zero =>
    obtain rfl := List.mem_singleton.1 h
    decide
  | one =>
    obtain rfl := List.mem_singleton.1 h
    decide
  | plain index =>
    rcases List.mem_cons.1 h with rfl | h
    · decide
    · exact hdigit index h
  | enclosed index =>
    simp only [text, List.mem_cons, List.mem_append, List.not_mem_nil, or_false] at h
    rcases h with rfl | rfl | h | rfl
    · decide
    · decide
    · exact hdigit index h
    · decide

theorem trim_text (f : WrittenFactor) : Text.trim f.text = f.text :=
  Text.Tight.trim_eq (Text.tight_of_forall fun _ hc => (not_blank_of_mem_text hc).1)

theorem text_ne_nil (f : WrittenFactor) : f.text ≠ [] := by
  cases f with
  | _ => exact List.cons_ne_nil _ _

section Read

variable (index : Numeral indexBound)

theorem beq_eq_false_of_mem_digits {index : Numeral indexBound} {c d : Char} (hc : c ∈ index.digits)
    (hd : d.isDigit = false) : (c == d) = false := by
  rw [beq_eq_false_iff_ne]
  rintro rfl
  exact Bool.false_ne_true (hd.symm.trans (index.isDigit c hc))

theorem readIndex_digits : readIndex index.digits = .ok index.value := by
  have hopen : ∀ c ∈ index.digits.head?, (c == '(') = false := fun c hc =>
    beq_eq_false_of_mem_digits (List.mem_of_head? hc) (by decide)
  have hclose : ∀ c ∈ index.digits.getLast?, (c == ')') = false := fun c hc =>
    beq_eq_false_of_mem_digits (List.mem_of_getLast? hc) (by decide)
  rw [readIndex, Text.dropWhile_eq_self hopen, Text.trimEnd_eq_self hclose, index.readNumber_digits]

theorem readIndex_enclosed : readIndex ('(' :: (index.digits ++ [')'])) = .ok index.value := by
  have hopen : ∀ c ∈ (index.digits ++ [')']).head?, (c == '(') = false := by
    rw [List.head?_append_of_ne_nil _ index.ne_nil]
    exact fun c hc => beq_eq_false_of_mem_digits (List.mem_of_head? hc) (by decide)
  have hclose : ∀ c ∈ index.digits.getLast?, (c == ')') = false := fun c hc =>
    beq_eq_false_of_mem_digits (List.mem_of_getLast? hc) (by decide)
  rw [readIndex, List.dropWhile_cons_of_pos (by decide), Text.dropWhile_eq_self hopen,
    Text.trimEnd_append_singleton (by decide), Text.trimEnd_eq_self hclose, index.readNumber_digits]

/-- A written factor is read as its product with nothing else, so that reading does not see how it was written. -/
theorem readFactor_text (f : WrittenFactor) : readFactor f.text = .ok (product? [f]) := by
  cases f with
  | zero => rfl
  | one => rfl
  | plain index =>
    rw [text, readFactor, readIndex_digits]
    rfl
  | enclosed index =>
    rw [text, readFactor, readIndex_enclosed]
    rfl

end Read

theorem product_map_product? (factors : List WrittenFactor) :
    product (factors.map fun f => product? [f]) = product? factors := by
  induction factors with
  | nil => rfl
  | cons f factors ih =>
    rw [product] at ih
    rw [List.map_cons, product, List.foldr_cons, ih, product?, product?, product?, List.any_cons, List.any_cons,
      List.any_nil, Bool.or_false, List.filterMap_cons, List.filterMap_cons, List.filterMap_nil]
    cases f.isZero with
    | true => rfl
    | false =>
      cases factors.any isZero with
      | true => rfl
      | false =>
        cases f.var? with
        | none => rfl
        | some v => rfl

/-- The product has the product of the values. -/
theorem any_eval_product? (a : Var → Bool) (factors : List WrittenFactor) :
    (product? factors).any (Monomial.eval a) = factors.all (value a) := by
  have hvalue : ∀ f, value a f = (!f.isZero && f.var?.all a) := by
    intro f
    cases f with
    | _ => rfl
  have hall : factors.all (value a) = (!factors.any isZero && (factors.filterMap var?).all a) := by
    induction factors with
    | nil => rfl
    | cons f factors ih =>
      rw [List.all_cons, ih, hvalue, List.any_cons, List.filterMap_cons]
      cases f.isZero with
      | true => rfl
      | false =>
        cases f.var? with
        | none => simp
        | some v => simp [Bool.and_left_comm]
  rw [hall, product?]
  cases factors.any isZero with
  | true => rfl
  | false => simp [Monomial.eval_ofVars]

end WrittenFactor

/-- A term is written as one factor or more, with blanks around each of them. -/
structure WrittenTerm where
  factors : List (Spaced WrittenFactor)
  ne_nil : factors ≠ []

namespace WrittenTerm

instance : Inhabited WrittenTerm := ⟨[default], List.cons_ne_nil _ _⟩

def text (t : WrittenTerm) : List Char := Text.join '*' WrittenFactor.text t.factors

/-- The product of the factors. -/
def monomial? (t : WrittenTerm) : Option Monomial := WrittenFactor.product? (t.factors.map Spaced.content)

/-- The value under an assignment. -/
def value (a : Var → Bool) (t : WrittenTerm) : Bool := (t.factors.map Spaced.content).all (WrittenFactor.value a)

theorem plus_not_mem_text (t : WrittenTerm) : '+' ∉ t.text := by
  intro hmem
  rcases Text.mem_join hmem with h | h | ⟨f, -, h⟩
  · exact absurd h (by decide)
  · exact absurd h (by decide)
  · exact (WrittenFactor.not_blank_of_mem_text h).2.2 rfl

/-- Splitting a written term gives its factors again. -/
theorem map_trim_splitOn_text (t : WrittenTerm) : ((Text.trim t.text).splitOn '*').map Text.trim =
    (t.factors.map Spaced.content).map WrittenFactor.text := by
  rw [Text.map_trim_splitOn_trim (by decide), text, Text.map_trim_splitOn_join t.ne_nil (by decide)
    fun f _ hmem => (WrittenFactor.not_blank_of_mem_text hmem).2.1 rfl]
  exact List.map_congr_left fun f _ => f.trim_text

/-- A written term is read as its product, also with blanks around it. -/
theorem readTerm_trim_text (t : WrittenTerm) : readTerm (Text.trim t.text) = .ok t.monomial? := by
  have hsplit := t.map_trim_splitOn_text
  have hne : Text.trim t.text ≠ [] := by
    intro hnil
    obtain ⟨f, factors, hfactors⟩ := List.exists_cons_of_ne_nil t.ne_nil
    rw [hnil, hfactors] at hsplit
    exact f.content.text_ne_nil (List.cons.inj hsplit).1.symm
  rw [readTerm, if_neg (by simpa using hne), hsplit, mapM_map_eq_ok fun f _ => f.readFactor_text]
  exact congrArg Except.ok (WrittenFactor.product_map_product? _)

end WrittenTerm

/-- A sum is written as one term or more, with blanks around each of them. -/
structure WrittenSum where
  terms : List (Spaced WrittenTerm)
  ne_nil : terms ≠ []

namespace WrittenSum

def text (w : WrittenSum) : List Char := Text.join '+' WrittenTerm.text w.terms

/-- The sum of the products: a term with a factor zero contributes nothing, and equal products cancel in pairs. -/
def polynomial (w : WrittenSum) : Polynomial := sum ((w.terms.map Spaced.content).filterMap WrittenTerm.monomial?)

/-- The value under an assignment: the sum modulo two of the products of the values of the factors. -/
def value (a : Var → Bool) (w : WrittenSum) : Bool := parity ((w.terms.map Spaced.content).map (WrittenTerm.value a))

/-- Splitting a written sum gives its terms again. -/
theorem map_trim_splitOn_text (w : WrittenSum) : (w.text.splitOn '+').map Text.trim =
    (w.terms.map Spaced.content).map fun t => Text.trim t.text :=
  Text.map_trim_splitOn_join w.ne_nil (by decide) fun t _ => t.content.plus_not_mem_text

/-- A written sum is read as its polynomial, whatever the blanks around its terms and factors. -/
theorem ofChars_text (w : WrittenSum) : ofChars w.text = .ok w.polynomial := by
  rw [ofChars, w.map_trim_splitOn_text, mapM_map_eq_ok fun t _ => t.readTerm_trim_text]
  change Except.ok (sum (((w.terms.map Spaced.content).map WrittenTerm.monomial?).filterMap id)) = _
  rw [List.filterMap_map, Function.id_comp, polynomial]

theorem eval_polynomial (a : Var → Bool) (w : WrittenSum) : w.polynomial.eval a = w.value a := by
  have hterms : ∀ ts : List WrittenTerm, parity ((ts.filterMap WrittenTerm.monomial?).map (Monomial.eval a)) =
      parity (ts.map (WrittenTerm.value a)) := by
    intro ts
    induction ts with
    | nil => rfl
    | cons t ts ih =>
      rw [List.map_cons, parity_cons, WrittenTerm.value, ← WrittenFactor.any_eval_product?, ← WrittenTerm.monomial?,
        ← ih, List.filterMap_cons]
      cases t.monomial? with
      | none => rw [Option.any_none, Bool.false_xor]
      | some m => rfl
  rw [polynomial, eval_sum, hterms, value]

end WrittenSum

section Text

theorem exists_writtenFactor {v : Var} (hv : v < indexBound) :
    ∃ f : WrittenFactor, f.text = (Var.text v).toList ∧ f.isZero = false ∧ f.var? = some v :=
  ⟨.plain (.ofNat v hv), v.toList_text.symm, rfl, congrArg some (Numeral.value_ofNat v hv)⟩

/-- The text of a monomial is one of the ways to write it: its variables in ascending order, or the constant one. -/
theorem exists_writtenTerm {m : Monomial} (hm : ∀ v ∈ m.vars, v < indexBound) :
    ∃ t : WrittenTerm, t.text = m.text.toList ∧ t.monomial? = some m := by
  cases hone : m.isOne with
  | true =>
    rw [Monomial.text, if_pos hone, Monomial.isOne_iff.1 hone]
    exact ⟨⟨[⟨.empty, .one, .empty⟩], List.cons_ne_nil _ _⟩, rfl, rfl⟩
  | false =>
    have hfactors : ∀ v ∈ m.varList, ∃ f : WrittenFactor,
        f.text = (Var.text v).toList ∧ f.isZero = false ∧ f.var? = some v := fun v hv => exists_writtenFactor (hm v hv)
    choose! factor htext hzero hvar using hfactors
    have hne : m.varList.map factor ≠ [] := by simpa using Monomial.varList_ne_nil hone
    obtain ⟨parts, hparts, hcontents, hjoin⟩ := Text.exists_join WrittenFactor.text '*' .empty .empty hne
    refine ⟨⟨parts, hparts⟩, ?_, ?_⟩
    · rw [WrittenTerm.text, hjoin, Monomial.toList_text hone, List.map_map]
      exact congrArg (['*'].intercalate ·) (List.map_congr_left htext)
    · have hany : (m.varList.map factor).any WrittenFactor.isZero = false := by
        rw [List.any_map, List.any_eq_false]
        intro v hv
        rw [Function.comp_apply, hzero v hv]
        exact Bool.false_ne_true
      have hvars : (m.varList.map factor).filterMap WrittenFactor.var? = m.varList := by
        rw [List.filterMap_map]
        exact (List.filterMap_congr hvar).trans List.filterMap_some
      rw [WrittenTerm.monomial?, hcontents, WrittenFactor.product?, hany, hvars, Monomial.ofVars_varList]
      rfl

variable {p : Polynomial}

/-- The text of a polynomial is one of the ways to write it, provided that its variables are below the bound. -/
theorem exists_writtenSum (hvars : ∀ v ∈ p.vars, v < indexBound) :
    ∃ w : WrittenSum, w.text = p.text.toList ∧ w.polynomial = p := by
  let blank : Text.Blanks := ⟨[' '], List.forall_mem_singleton.2 rfl⟩
  cases hp : p.isZero with
  | true =>
    rw [eq_zero_of_isZero hp]
    exact ⟨⟨[default], List.cons_ne_nil _ _⟩, rfl, rfl⟩
  | false =>
    have hterms : ∀ m ∈ p.written, ∃ t : WrittenTerm, t.text = m.text.toList ∧ t.monomial? = some m :=
      fun m hm => exists_writtenTerm fun v hv => hvars v (mem_vars.2 ⟨m, mem_written.1 hm, hv⟩)
    choose! term htext hmonomial using hterms
    have hne : p.written.map term ≠ [] := by simpa using written_ne_nil hp
    obtain ⟨parts, hparts, hcontents, hjoin⟩ := Text.exists_join WrittenTerm.text '+' blank .empty hne
    refine ⟨⟨parts, hparts⟩, ?_, ?_⟩
    · rw [WrittenSum.text, hjoin, toList_text hp, List.map_map]
      exact congrArg ([' ', '+', ' '].intercalate ·) (List.map_congr_left htext)
    · have hmonomials : (p.written.map term).filterMap WrittenTerm.monomial? = p.written := by
        rw [List.filterMap_map]
        exact (List.filterMap_congr hmonomial).trans List.filterMap_some
      rw [WrittenSum.polynomial, hcontents, hmonomials, sum_of_perm p.written_perm]

/-- A polynomial is read back from its text. -/
theorem ofChars_text (hvars : ∀ v ∈ p.vars, v < indexBound) : ofChars p.text.toList = .ok p := by
  obtain ⟨w, htext, hpolynomial⟩ := exists_writtenSum hvars
  rw [← htext, w.ofChars_text, hpolynomial]

end Text

/-- Reading gives a text its meaning. A sum of products of factors, written with any blanks around terms and factors,
is read as the sum modulo two of the products: a term with a factor zero contributes nothing, a variable that is
repeated in a term counts once, and equal terms cancel in pairs. The text of a polynomial is such a sum, so reading it
gives the polynomial back. Indices fit a 32-bit word. -/
theorem ofText_writtenSum :
    (∀ w : WrittenSum, ofText (String.ofList w.text) = .ok w.polynomial ∧ ∀ a, w.polynomial.eval a = w.value a) ∧
    ∀ p : Polynomial, (∀ v ∈ p.vars, v < indexBound) → ofText p.text = .ok p := by
  refine ⟨fun w => ⟨?_, fun a => w.eval_polynomial a⟩, fun p hvars => ofChars_text hvars⟩
  rw [ofText, String.toList_ofList, w.ofChars_text]

/-- A sum with a factor zero, a variable that is repeated within a term, leading zeros, parentheses and several kinds
of blanks, beside a polynomial with the greatest index. -/
theorem ofText_writtenSum_spaced :
    let wide : Text.Blanks := ⟨['\t', '\u2003'], List.all_eq_true.1 rfl⟩
    let seven : Numeral indexBound := ⟨['0', '0', '7'], by decide, List.all_eq_true.1 rfl, by decide⟩
    let vanishing : WrittenTerm := ⟨[⟨.empty, .enclosed seven, wide⟩, ⟨wide, .zero, .empty⟩], by simp⟩
    let repeated : WrittenTerm := ⟨[⟨wide, .plain seven, .empty⟩, ⟨.empty, .enclosed seven, wide⟩], by simp⟩
    let w : WrittenSum := ⟨[⟨wide, vanishing, .empty⟩, ⟨.empty, repeated, wide⟩], by simp⟩
    let p : Polynomial := .sum [.ofVars [5, 6], .ofVar 4294967295, .one]
    w.text = "\t\u2003x(007)\t\u2003*\t\u20030+\t\u2003x007*x(007)\t\u2003\t\u2003".toList ∧
    w.polynomial = .ofVar 7 ∧ ofText (String.ofList w.text) = .ok w.polynomial ∧
    (∀ a, w.polynomial.eval a = w.value a) ∧ (∀ v ∈ p.vars, v < indexBound) ∧ ofText p.text = .ok p := by
  intro wide seven vanishing repeated w p
  have hvars : ∀ v ∈ p.vars, v < indexBound := by
    change ∀ v ∈ p.vars.toList, v < indexBound
    decide
  obtain ⟨hwritten, htext⟩ := ofText_writtenSum
  exact ⟨by decide, by decide, (hwritten w).1, (hwritten w).2, hvars, htext p hvars⟩

end Polynomial

end BoolPoly

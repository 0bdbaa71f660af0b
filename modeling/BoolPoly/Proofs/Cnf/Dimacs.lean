import BoolPoly.Cnf.Dimacs
import BoolPoly.Proofs.Polynomial.Text
import Mathlib.Order.Bounds.Defs

namespace BoolPoly

namespace Dimacs

/-- The words of a text, with white space between them. -/
def words (cs : List Char) : List (List Char) := (cs.splitOnP Char.isWhitespace).filter (!·.isEmpty)

/-- Reads a number in decimal. -/
def number? (cs : List Char) : Option Nat :=
  if !cs.isEmpty && cs.all Char.isDigit then some (Nat.ofDigitChars 10 cs 0) else none

/-- Reads an integer in decimal; a negative one has a minus sign. -/
def integer? : List Char → Option Int
  | '-' :: cs => (number? cs).map fun n => -(n : Int)
  | cs => (number? cs).map Int.ofNat

/-- What stands in a text: the two numbers of the header and the integers behind it, which may be spread over any
number of lines. -/
structure Document where
  numVars : Nat
  numClauses : Nat
  numbers : List Int
deriving DecidableEq

/-- Reads a text, without a look at what its integers mean. The first line is the header; behind it stand integers,
separated by white space, where a zero ends a clause and any other integer stands for a literal. -/
def Document.ofText? (text : String) : Option Document := do
  match words (text.toList.takeWhile (· != '\n')) with
  | [['p'], ['c', 'n', 'f'], vars, clauses] =>
    return {
      numVars := ← number? vars
      numClauses := ← number? clauses
      numbers := ← (words (text.toList.dropWhile (· != '\n'))).mapM integer?
    }
  | _ => none

/-- The literal that a nonzero integer stands for: variables count from one, and the sign says whether the variable is
negated. -/
def literal (k : Int) : Literal := ⟨k.natAbs - 1, decide (0 < k)⟩

/-- Cuts integers into clauses behind one that is begun already. A clause that no zero ends is an error, so that the
last integer has to be a zero. -/
def clauses? (begun : Clause) : List Int → Option Cnf
  | [] => if begun.isEmpty then some [] else none
  | k :: ks => if k = 0 then (clauses? [] ks).map (begun :: ·) else clauses? (begun ++ [literal k]) ks

section Words

variable {cs rest : List Char} {c : Char}

theorem words_append_cons (hc : c.isWhitespace = true) : words (cs ++ c :: rest) = words cs ++ words rest := by
  rw [words, List.splitOnP_append_cons _ _ hc, List.filter_append]
  rfl

theorem words_eq_singleton (hne : cs ≠ []) (hcs : ∀ c ∈ cs, c.isWhitespace = false) : words cs = [cs] := by
  rw [words, List.splitOnP_eq_singleton hcs]
  simpa using hne

theorem not_isWhitespace_of_isDigit (h : c.isDigit = true) : c.isWhitespace = false := by
  rw [← Bool.not_eq_true]
  exact fun hblank => Bool.false_ne_true
    ((Text.isBlank_of_isDigit h).symm.trans (Text.isBlank_of_isWhitespace hblank))

theorem number?_toDigits (n : Nat) : number? (Nat.toDigits 10 n) = some n := by
  have hdigits : (Nat.toDigits 10 n).all Char.isDigit = true := List.all_eq_true.2 fun c => Var.isDigit_of_mem
  rw [number?, hdigits, List.isEmpty_eq_false_iff.2 Nat.toDigits_ne_nil, Nat.ofDigitChars_ten_toDigits]
  rfl

end Words

section Literals

/-- The integer that a literal is written as. -/
def number (l : Literal) : Int := if l.positive then l.var + 1 else -(l.var + 1)

variable {l : Literal}

theorem natAbs_number (l : Literal) : (number l).natAbs = l.var + 1 := by
  unfold number
  split <;> omega

theorem number_ne_zero (l : Literal) : number l ≠ 0 := by
  rw [← Int.natAbs_ne_zero, natAbs_number]
  exact Nat.succ_ne_zero _

theorem literal_number (l : Literal) : literal (number l) = l := by
  have hsign : decide (0 < number l) = l.positive := by
    unfold number
    cases l.positive with
    | true => exact decide_eq_true (Int.natCast_succ_pos _)
    | false => exact decide_eq_false (by rw [if_neg Bool.false_ne_true]; omega)
  rw [literal, natAbs_number, hsign, Nat.add_sub_cancel]

theorem toList_dimacs (l : Literal) :
    l.dimacs.toList = (if l.positive then [] else ['-']) ++ Nat.toDigits 10 (l.var + 1) := by
  rw [Literal.dimacs, String.toList_append, Nat.toList_repr]
  cases l.positive <;> rfl

theorem integer?_dimacs (l : Literal) : integer? l.dimacs.toList = some (number l) := by
  rw [toList_dimacs, number]
  cases l.positive with
  | true =>
    obtain ⟨c, cs, hcs⟩ := List.exists_cons_of_ne_nil (Nat.toDigits_ne_nil (n := l.var + 1) (b := 10))
    have hc : c ≠ '-' := by
      rintro rfl
      exact absurd (Var.isDigit_of_mem (hcs ▸ List.mem_cons_self)) (by decide)
    have hnumber := number?_toDigits (l.var + 1)
    rw [if_pos rfl, if_pos rfl, List.nil_append]
    rw [hcs] at hnumber ⊢
    rw [integer?.eq_2 _ fun cs h => hc (List.cons.inj h).1, hnumber]
    rfl
  | false =>
    rw [if_neg Bool.false_ne_true, if_neg Bool.false_ne_true, List.singleton_append, integer?, number?_toDigits]
    rfl

/-- A written literal is a single word of the text, as neither the sign nor a digit is white space. -/
theorem words_dimacs (l : Literal) : words l.dimacs.toList = [l.dimacs.toList] := by
  rw [toList_dimacs]
  apply words_eq_singleton
  · simp
  · intro c hc
    rcases List.mem_append.1 hc with hc | hc
    · cases hsign : l.positive with
      | true => simp [hsign] at hc
      | false =>
        obtain rfl : c = '-' := by simpa [hsign] using hc
        decide
    · exact not_isWhitespace_of_isDigit (Var.isDigit_of_mem hc)

end Literals

/-- What follows one another in the text of a formula: literals, and the ends of clauses. -/
def entries (f : Cnf) : List (Option Literal) := f.flatMap fun c => c.map some ++ [none]

namespace Entry

def word : Option Literal → List Char
  | some l => l.dimacs.toList
  | none => ['0']

def number : Option Literal → Int
  | some l => Dimacs.number l
  | none => 0

theorem integer?_word (e : Option Literal) : integer? (word e) = some (number e) := by
  cases e with
  | some l => exact integer?_dimacs l
  | none => rfl

end Entry

section Formula

variable {f : Cnf} {n : Nat}

/-- The words of the line of a clause are its literals and a zero. The line of an empty clause is a zero alone. -/
theorem words_clause (c : Clause) (rest : List Char) :
    words (c.dimacs.toList ++ rest) = (c.map some ++ [none]).map Entry.word ++ words rest := by
  induction c with
  | nil =>
    have hend : (Clause.dimacs []).toList = ['0', '\n'] := rfl
    rw [hend, List.cons_append, List.singleton_append, ← List.singleton_append, words_append_cons rfl,
      words_eq_singleton (List.cons_ne_nil _ _) (List.forall_mem_singleton.2 rfl)]
    rfl
  | cons l c ih =>
    have hclause : Clause.dimacs (l :: c) = l.dimacs ++ (" " ++ Clause.dimacs c) := by
      rw [Clause.dimacs, List.map_cons, String.join_cons, String.append_assoc, String.append_assoc]
      rfl
    have hblank : " ".toList = [' '] := rfl
    rw [hclause, String.toList_append, String.toList_append, hblank, List.singleton_append, List.append_assoc,
      List.cons_append, words_append_cons (by decide), words_dimacs, ih]
    rfl

theorem words_clauses (f : Cnf) : words (String.join (f.map Clause.dimacs)).toList = (entries f).map Entry.word := by
  induction f with
  | nil => rfl
  | cons c f ih =>
    rw [List.map_cons, String.join_cons, String.toList_append, words_clause, ih, ← List.map_append]
    rfl

theorem mem_entries {l : Literal} : some l ∈ entries f ↔ ∃ c ∈ f, l ∈ c := by
  simp [entries]

/-- The declared number of variables is just great enough for the integers in the text: it is the least one that is at
least the requested number and at least the absolute value of each of them. -/
theorem numVars_le_iff : f.numVars ≤ n ↔ ∀ k ∈ (entries f).map Entry.number, k.natAbs ≤ n := by
  have hfold : ∀ ls : List Literal, ls.foldr (fun l n => max (l.var + 1) n) 0 ≤ n ↔ ∀ l ∈ ls, l.var + 1 ≤ n := by
    intro ls
    induction ls with
    | nil => simp
    | cons l ls ih => rw [List.foldr_cons, Nat.max_le, ih, List.forall_mem_cons]
  rw [Cnf.numVars, hfold, List.forall_mem_map]
  constructor
  · intro h e he
    cases e with
    | none => exact Nat.zero_le n
    | some l =>
      obtain ⟨c, hc, hl⟩ := mem_entries.1 he
      rw [Entry.number, natAbs_number]
      exact h l (List.mem_flatten.2 ⟨c, hc, hl⟩)
  · intro h l hl
    have hbound := h (some l) (mem_entries.2 (List.mem_flatten.1 hl))
    rwa [Entry.number, natAbs_number] at hbound

theorem clauses?_append (begun c : Clause) (ks : List Int) :
    clauses? begun ((c.map some ++ [none]).map Entry.number ++ ks) = (clauses? [] ks).map ((begun ++ c) :: ·) := by
  induction c generalizing begun with
  | nil => rw [List.append_nil]; rfl
  | cons l c ih =>
    have hstep : clauses? begun (number l :: ((c.map some ++ [none]).map Entry.number ++ ks)) =
        clauses? (begun ++ [literal (number l)]) ((c.map some ++ [none]).map Entry.number ++ ks) :=
      if_neg (number_ne_zero l)
    rw [literal_number, ih, List.append_assoc, List.singleton_append] at hstep
    exact hstep

/-- The integers of a formula are cut into its clauses, because no literal is written as a zero. In this way the text
determines the formula. -/
theorem clauses?_entries (f : Cnf) : clauses? [] ((entries f).map Entry.number) = some f := by
  induction f with
  | nil => rfl
  | cons c f ih =>
    have hentries : (entries (c :: f)).map Entry.number =
        (c.map some ++ [none]).map Entry.number ++ (entries f).map Entry.number := by
      rw [← List.map_append]
      rfl
    rw [hentries, clauses?_append, ih, List.nil_append, Option.map_some]

/-- The first line of the text of a formula. -/
def header (f : Cnf) (n : Nat) : List Char :=
  ['p'] ++ ' ' :: (['c', 'n', 'f'] ++ ' ' :: (Nat.toDigits 10 (max n f.numVars) ++ ' ' :: Nat.toDigits 10 f.length))

theorem toList_dimacs_eq (f : Cnf) (n : Nat) :
    (f.dimacs n).toList = header f n ++ '\n' :: (String.join (f.map Clause.dimacs)).toList := by
  have hstart : "p cnf ".toList = ['p', ' ', 'c', 'n', 'f', ' '] := rfl
  have hblank : " ".toList = [' '] := rfl
  have hend : "\n".toList = ['\n'] := rfl
  simp only [Cnf.dimacs, header, String.toList_append, Nat.toList_repr, hstart, hblank, hend, List.append_assoc,
    List.cons_append, List.nil_append]

theorem words_header (f : Cnf) (n : Nat) : words (header f n) =
    [['p'], ['c', 'n', 'f'], Nat.toDigits 10 (max n f.numVars), Nat.toDigits 10 f.length] := by
  have hdigits : ∀ k, words (Nat.toDigits 10 k) = [Nat.toDigits 10 k] := fun k =>
    words_eq_singleton Nat.toDigits_ne_nil fun c hc => not_isWhitespace_of_isDigit (Var.isDigit_of_mem hc)
  have hp : words ['p'] = [['p']] := rfl
  have hcnf : words ['c', 'n', 'f'] = [['c', 'n', 'f']] := rfl
  rw [header, words_append_cons rfl, words_append_cons rfl, words_append_cons rfl, hp, hcnf, hdigits, hdigits]
  rfl

theorem bne_of_mem_header {c : Char} (hc : c ∈ header f n) : (c != '\n') = true := by
  have hdigits : ∀ k, '\n' ∉ Nat.toDigits 10 k := fun k hk => absurd (Var.isDigit_of_mem hk) (by decide)
  rw [bne_iff_ne]
  rintro rfl
  simp [header, hdigits] at hc

/-- The text of a formula is read as what was written: the numbers of variables and clauses, and the integers. -/
theorem ofText?_dimacs (f : Cnf) (n : Nat) : Document.ofText? (f.dimacs n) =
    some ⟨max n f.numVars, f.length, (entries f).map Entry.number⟩ := by
  have hbefore : ((f.dimacs n).toList.takeWhile (· != '\n')) = header f n := by
    rw [toList_dimacs_eq, List.takeWhile_append_of_pos fun c => bne_of_mem_header,
      List.takeWhile_cons_of_neg (by decide), List.append_nil]
  have hafter : words ((f.dimacs n).toList.dropWhile (· != '\n')) = (entries f).map Entry.word := by
    rw [toList_dimacs_eq, List.dropWhile_append_of_pos fun c => bne_of_mem_header,
      List.dropWhile_cons_of_neg (by decide), ← List.nil_append ('\n' :: _), words_append_cons (by decide),
      words_clauses]
    rfl
  have hnumbers : ((entries f).map Entry.word).mapM integer? = some ((entries f).map Entry.number) := by
    rw [List.mapM_map]
    exact mapM_eq_some_map fun e _ => Entry.integer?_word e
  rw [Document.ofText?, hbefore, words_header, hafter]
  simp only [number?_toDigits, hnumbers]
  rfl

end Formula

end Dimacs

open Dimacs

/-- The text of a formula, read by the rules of the format, has the number of clauses in its header, and the least
number of variables there that is at least the requested one and at least the absolute value of each integer behind
it. These integers make up the clauses of the formula, in order and with their literals in order. So formulas with the
same text are equal. -/
theorem Cnf.read_dimacs (f : Cnf) (n : Nat) :
    (∃ d, Document.ofText? (f.dimacs n) = some d ∧ d.numClauses = f.length ∧
      IsLeast {m | n ≤ m ∧ ∀ k ∈ d.numbers, k.natAbs ≤ m} d.numVars ∧ clauses? [] d.numbers = some f) ∧
    Function.Injective fun g : Cnf => g.dimacs n := by
  constructor
  · refine ⟨_, ofText?_dimacs f n, rfl, ⟨⟨?_, ?_⟩, fun m hm => ?_⟩, clauses?_entries f⟩
    · exact Nat.le_max_left _ _
    · exact numVars_le_iff.1 (Nat.le_max_right _ _)
    · exact Nat.max_le.2 ⟨hm.1, numVars_le_iff.2 hm.2⟩
  · intro g h hgh
    have hread := congrArg Document.ofText? hgh
    dsimp only at hread
    rw [ofText?_dimacs, ofText?_dimacs, Option.some_inj, Document.mk.injEq] at hread
    have hclauses := congrArg (clauses? []) hread.2.2
    rwa [clauses?_entries, clauses?_entries, Option.some_inj] at hclauses

/-- Clauses may run over several lines, and several may share one. -/
example : Document.ofText? "p cnf 4 3\n1 -3\n0\t0 4\n 0\n" = some ⟨4, 3, [1, -3, 0, 0, 4, 0]⟩ ∧
    clauses? [] [1, -3, 0, 0, 4, 0] = some [[⟨0, true⟩, ⟨2, false⟩], [], [⟨3, true⟩]] := by decide +kernel

end BoolPoly

import BoolPoly.Karnaugh.Conversion
import BoolPoly.Proofs.Karnaugh.Cover
import BoolPoly.Proofs.Karnaugh.PrimeImplicant
import BoolPoly.Proofs.Polynomial.Evaluation

namespace BoolPoly.Karnaugh

/-- The assignment of the listed variables as a number: bit `i` is the value of variable `i` of the list. -/
def bitsOf (vars : List Var) (a : Var → Bool) : Nat := Nat.ofBits fun i : Fin vars.length => a vars[i]

theorem bitsOf_lt (vars : List Var) (a : Var → Bool) : bitsOf vars a < 2 ^ vars.length :=
  Nat.ofBits_lt_two_pow _

theorem testBit_bitsOf {vars : List Var} {i : Nat} (hi : i < vars.length) (a : Var → Bool) :
    (bitsOf vars a).testBit i = a vars[i] :=
  Nat.testBit_ofBits_lt _ i hi

theorem valueIn_bitsOf {vars : List Var} {v : Var} (hv : v ∈ vars) (a : Var → Bool) :
    valueIn vars (bitsOf vars a) v = a v := by
  have hlt := List.idxOf_lt_length_iff.2 hv
  rw [valueIn, testBit_bitsOf hlt, List.getElem_idxOf]

theorem toNat_ofNat_of_lt {bits width : Nat} (hwidth : width < 32) (hbits : bits < 2 ^ width) :
    (UInt32.ofNat bits).toNat = bits := by
  rw [UInt32.toNat_ofNat']
  exact Nat.mod_eq_of_lt (hbits.trans (Nat.pow_lt_pow_right (by decide) hwidth))

/-- The assignment of the listed variables as a packed word, by which cubes and clauses are compared. Lists of up to
32 variables fit. -/
def word (vars : List Var) (a : Var → Bool) : UInt32 := UInt32.ofNat (bitsOf vars a)

section

variable {vars : List Var} {a : Var → Bool}

theorem testBit_word {i : Nat} (hwidth : vars.length < 32) (hi : i < vars.length) :
    (word vars a).toNat.testBit i = a vars[i] := by
  rw [word, toNat_ofNat_of_lt hwidth (bitsOf_lt vars a), testBit_bitsOf hi]

theorem testBit_word_ge {i : Nat} (hwidth : vars.length < 32) (hi : vars.length ≤ i) :
    (word vars a).toNat.testBit i = false := by
  rw [word, toNat_ofNat_of_lt hwidth (bitsOf_lt vars a)]
  exact Nat.testBit_ofBits_ge _ i hi

theorem mem_forbid {c : Cube} {l : Literal} (hwidth : vars.length < 32) : l ∈ forbid vars c ↔
    ∃ i, ∃ hi : i < vars.length, c.free.toNat.testBit i = false ∧
      l = ⟨vars[i], !c.value.toNat.testBit i⟩ := by
  rw [forbid, List.mem_filterMap]
  constructor
  · rintro ⟨⟨v, cell⟩, hmem, hl⟩
    obtain ⟨i, hi, hget⟩ := List.mem_iff_getElem.1 hmem
    rw [List.length_zip, Cube.cells, List.length_map, List.length_range, Nat.min_self] at hi
    rw [List.getElem_zip, Prod.mk.injEq] at hget
    obtain ⟨rfl, rfl⟩ := hget
    refine ⟨i, hi, ?_⟩
    simp only [Cube.cells, List.getElem_map, List.getElem_range, Cube.isFree_eq_testBit (hi.trans hwidth),
      Cube.isSet_eq_testBit (hi.trans hwidth)] at hl
    cases hfree : c.free.toNat.testBit i <;> cases hset : c.value.toNat.testBit i <;> simp_all
  · rintro ⟨i, hi, hfree, rfl⟩
    refine ⟨(vars[i], if c.value.toNat.testBit i then .one else .zero), List.mem_iff_getElem.2 ⟨i, ?_, ?_⟩, ?_⟩
    · rwa [List.length_zip, Cube.cells, List.length_map, List.length_range, Nat.min_self]
    · simp [Cube.cells, Cube.isFree_eq_testBit (hi.trans hwidth), Cube.isSet_eq_testBit (hi.trans hwidth), hfree]
    · cases c.value.toNat.testBit i <;> rfl

/-- A forbidding clause fails just on the assignments in its cube: its literals are about the fixed variables, each
with the value that the cube excludes. -/
theorem holds_forbid {c : Cube} (hwidth : vars.length < 32) (hc : c.Within vars.length) :
    Clause.holds a (forbid vars c) = true ↔ ¬c.Contains (word vars a) := by
  rw [Clause.holds, List.any_eq_true, Cube.Contains, not_forall]
  constructor
  · rintro ⟨l, hl, hholds⟩
    obtain ⟨i, hi, hfree, rfl⟩ := (mem_forbid hwidth).1 hl
    refine ⟨i, ?_⟩
    rw [hfree, testBit_word hwidth hi]
    have hvalue : a vars[i] = !c.value.toNat.testBit i := beq_iff_eq.1 hholds
    rw [hvalue]
    simp
  · rintro ⟨i, hi⟩
    rw [not_or, Bool.not_eq_true] at hi
    obtain ⟨hfree, hvalue⟩ := hi
    have hlt : i < vars.length := by
      by_contra hge
      apply hvalue
      rw [testBit_word_ge hwidth (by omega)]
      cases hset : c.value.toNat.testBit i with
      | false => rfl
      | true => exact absurd (hc.set_lt hset) hge
    refine ⟨_, (mem_forbid hwidth).2 ⟨i, hlt, hfree, rfl⟩, beq_iff_eq.2 ?_⟩
    rw [testBit_word hwidth hlt] at hvalue
    exact Bool.eq_not.2 (Ne.symm hvalue)

end

section

variable {p : Polynomial}

theorem eval_valueIn_bitsOf (a : Var → Bool) : p.eval (valueIn p.vars.toList (bitsOf p.vars.toList a)) = p.eval a :=
  Polynomial.eval_congr fun _ hv => valueIn_bitsOf hv a

theorem mem_violations {bits : Nat} : bits ∈ violations p ↔
    bits < 2 ^ p.vars.size ∧ p.eval (valueIn p.vars.toList bits) = true := by
  rw [violations, List.mem_filter, List.mem_range, Nat.one_shiftLeft]

theorem testBit_ofBits {width bits i : Nat} (hwidth : width < 32) (hbits : bits < 2 ^ width) :
    (Cube.ofBits width (UInt32.ofNat bits)).value.toNat.testBit i = bits.testBit i := by
  rw [Cube.testBit_value_ofBits hwidth, toNat_ofNat_of_lt hwidth hbits, ← Nat.testBit_mod_two_pow,
    Nat.mod_eq_of_lt hbits]

/-- The on-set of the table of a polynomial: one row for each violation, without wildcards. -/
def rows (p : Polynomial) : List Cube :=
  (violations p).map fun bits => Cube.ofBits p.vars.size (UInt32.ofNat bits)

/-- The on-set of the minimized table. -/
def implicants (p : Polynomial) : List Cube :=
  cover (primeImplicants p.vars.size (rows p)) ((rows p).map Cube.value)

/-- The rows are single assignments on which the polynomial is one. -/
theorem sound_rows (hwidth : p.vars.size < 32) :
    Sound p.vars.size (fun w => w.toNat ∈ violations p) (rows p) where
  within {c} hc := by
    obtain ⟨bits, -, rfl⟩ := List.mem_map.1 hc
    exact Cube.within_ofBits hwidth _
  inside {c} hc w hw := by
    obtain ⟨bits, hbits, rfl⟩ := List.mem_map.1 hc
    obtain ⟨hlt, -⟩ := mem_violations.1 hbits
    have heq : w.toNat = bits := by
      apply Nat.eq_of_testBit_eq
      intro i
      rw [Cube.contains_ofBits.1 hw, testBit_ofBits hwidth hlt]
    rwa [heq]

theorem within_of_mem_implicants (hwidth : p.vars.size < 32) {c : Cube} (hc : c ∈ implicants p) :
    c.Within p.vars.size :=
  ((sound_rows hwidth).primeImplicants hwidth.le).within (mem_primes_of_mem_cover hc)

/-- The implicants contain just the assignments on which the polynomial is one: they lie inside the violations, and
cover them. -/
theorem exists_mem_implicants (hwidth : p.vars.size < 32) {a : Var → Bool} :
    (∃ c ∈ implicants p, c.Contains (word p.vars.toList a)) ↔ p.eval a = true := by
  have hlt : bitsOf p.vars.toList a < 2 ^ p.vars.size := bitsOf_lt _ _
  have hword : (word p.vars.toList a).toNat = bitsOf p.vars.toList a := toNat_ofNat_of_lt hwidth hlt
  have hprimes := (sound_rows hwidth).primeImplicants hwidth.le
  constructor
  · rintro ⟨c, hc, hcontains⟩
    have hviolation := hprimes.inside (mem_primes_of_mem_cover hc) hcontains
    rw [hword, mem_violations, eval_valueIn_bitsOf] at hviolation
    exact hviolation.2
  · intro heval
    have hrow : Cube.ofBits p.vars.size (word p.vars.toList a) ∈ rows p := by
      refine List.mem_map.2 ⟨bitsOf p.vars.toList a, mem_violations.2 ⟨hlt, ?_⟩, rfl⟩
      rwa [eval_valueIn_bitsOf]
    have hvalue : (Cube.ofBits p.vars.size (word p.vars.toList a)).value = word p.vars.toList a := by
      apply word_ext
      intro i
      rw [word, testBit_ofBits hwidth hlt, toNat_ofNat_of_lt hwidth hlt]
    have hcontains : (Cube.ofBits p.vars.size (word p.vars.toList a)).Contains (word p.vars.toList a) :=
      fun _ => .inr (by rw [hvalue])
    obtain ⟨prime, hprime, hcontains⟩ := exists_mem_primeImplicants hwidth.le hrow hcontains
    have hmem := (Cube.mem_minterms (hprimes.within hprime)).2 hcontains
    obtain ⟨c, hc, hmem⟩ := exists_mem_cover hprime hmem (List.mem_map.2 ⟨_, hrow, hvalue⟩)
    exact ⟨c, hc, (Cube.mem_minterms (within_of_mem_implicants hwidth hc)).1 hmem⟩

/-- The clauses of a polynomial: those that forbid its implicants. -/
def clauses (p : Polynomial) : List Clause := (implicants p).map (forbid p.vars.toList)

/-- The converted clauses hold just where the polynomial is zero. The bound on the width is the one under which
assignments fit a word. -/
theorem holds_clauses (hwidth : p.vars.size < 32) {a : Var → Bool} :
    Cnf.holds a (clauses p) = true ↔ p.eval a = false := by
  rw [← Bool.not_eq_true, ← exists_mem_implicants hwidth, Cnf.holds, List.all_eq_true]
  constructor
  · rintro hholds ⟨c, hc, hcontains⟩
    exact (holds_forbid hwidth (within_of_mem_implicants hwidth hc)).1
      (hholds _ (List.mem_map.2 ⟨c, hc, rfl⟩)) hcontains
  · intro hnone clause hclause
    obtain ⟨c, hc, rfl⟩ := List.mem_map.1 hclause
    exact (holds_forbid hwidth (within_of_mem_implicants hwidth hc)).2 fun hcontains => hnone ⟨c, hc, hcontains⟩

theorem mem_vars_of_mem_clauses (hwidth : p.vars.size < 32) {c : Clause} (hc : c ∈ clauses p) {l : Literal}
    (hl : l ∈ c) : l.var ∈ p.vars := by
  obtain ⟨cube, -, rfl⟩ := List.mem_map.1 hc
  obtain ⟨i, hi, -, rfl⟩ := (mem_forbid hwidth).1 hl
  exact List.getElem_mem hi

end

section

variable {t : Table} {p : Polynomial}

theorem size_lt_of_fits (h : t.fits p = true) : p.vars.size < 32 := by
  have hcapacity : p.vars.size ≤ t.capacity := of_decide_eq_true h
  have hmax : maxCapacity = 24 := rfl
  have hle := t.capacity_le
  omega

theorem foldl_push (t : Table) (settings : List Nat) :
    settings.foldl (fun table bits => table.push (UInt32.ofNat bits) true) t =
      { t with on := t.on ++ settings.map fun bits => Cube.ofBits t.width (UInt32.ofNat bits) } := by
  induction settings generalizing t with
  | nil => rw [List.foldl_nil, List.map_nil, List.append_nil]
  | cons bits settings ih =>
    rw [List.foldl_cons, ih, List.map_cons, Table.push, if_pos rfl, List.append_assoc]
    rfl

/-- The result depends on the polynomial alone, whatever the table held before: the rows are cleared when a polynomial
is entered. -/
theorem convert_of_fits (h : t.fits p = true) :
    ∃ table : Table, t.convert p = .ok (clauses p, table) ∧ table.capacity = t.capacity := by
  have hcapacity : p.vars.size ≤ t.capacity := of_decide_eq_true h
  refine ⟨{ t with width := p.vars.size, on := implicants p, off := [], dontCare := [], width_le := hcapacity },
    ?_, rfl⟩
  rw [Table.convert, Table.tabulate, if_pos h, Table.reset, dif_pos hcapacity]
  simp only [bind, Except.bind, pure, Except.pure, foldl_push, Table.minimize, List.append_nil]
  rfl

theorem convert_of_not_fits (h : t.fits p = false) :
    t.convert p = .error (.capacityExceeded p p.vars.size t.capacity) := by
  rw [Table.convert, Table.tabulate, if_neg (by simp [h])]
  rfl

/-- What a conversion leaves of its table is the capacity. -/
theorem clauses_of_convert {result : List Clause} {table : Table} (h : t.convert p = .ok (result, table)) :
    p.vars.size < 32 ∧ result = clauses p ∧ table.capacity = t.capacity := by
  cases hfits : t.fits p with
  | false =>
    rw [convert_of_not_fits hfits] at h
    cases h
  | true =>
    obtain ⟨table', hconvert, hcapacity⟩ := convert_of_fits hfits
    rw [hconvert] at h
    cases h
    exact ⟨size_lt_of_fits hfits, rfl, hcapacity⟩

end

end BoolPoly.Karnaugh

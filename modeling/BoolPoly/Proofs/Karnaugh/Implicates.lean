import BoolPoly.Proofs.Karnaugh.Conversion
import BoolPoly.Proofs.Karnaugh.Primality

namespace BoolPoly.Karnaugh

section Primes

variable {width : Nat} {S : UInt32 → Prop} {c d : Cube}

theorem Cube.value_of_contains_flip {i j : Nat} {w : UInt32} (hi : i < 32) (hw : (c.flip i).Contains w)
    (hij : i ≠ j) (hfree : c.free.toNat.testBit j = false) :
    c.value.toNat.testBit j = w.toNat.testBit j := by
  obtain hwj | hwj := hw j
  · rw [Cube.flip, hfree] at hwj
    cases hwj
  · rwa [testBit_flip hi, decide_eq_false hij, Bool.xor_false] at hwj

/-- A prime that fixes no more than another prime, and to the same values, is that prime: at a variable that only the
other one fixes, the neighbour outside the set would lie in this one. -/
theorem Cube.IsPrime.eq_of_fixed (hc : c.IsPrime width S) (hd : d.IsPrime width S) (hwidth : width ≤ 32)
    (hfixed : ∀ i < width, c.free.toNat.testBit i = false →
      d.free.toNat.testBit i = false ∧ c.value.toNat.testBit i = d.value.toNat.testBit i) : c = d := by
  have hfree : ∀ i < width, c.free.toNat.testBit i = d.free.toNat.testBit i := by
    intro i hi
    cases hdi : d.free.toNat.testBit i with
    | true =>
      rw [← Bool.not_eq_false]
      intro hci
      rw [(hfixed i hi hci).1] at hdi
      cases hdi
    | false =>
      rw [← Bool.not_eq_true]
      intro hci
      obtain ⟨w, hw, hout⟩ := hd.maximal hi hdi
      have hlt := (hd.within.flip hi hwidth hdi).toNat_lt hw
      refine hout (hc.inside (hc.within.contains_of_fixed hlt ?_))
      intro j hj hcj
      have hij : i ≠ j := by
        rintro rfl
        exact Bool.false_ne_true (hcj.symm.trans hci)
      obtain ⟨hdj, hvalue⟩ := hfixed j hj hcj
      rw [hvalue, value_of_contains_flip (by omega) hw hij hdj]
  refine hc.within.ext hd.within hfree ?_
  intro i hi
  cases hci : c.free.toNat.testBit i with
  | true => rw [hc.within.disjoint hci, hd.within.disjoint ((hfree i hi).symm.trans hci)]
  | false => exact (hfixed i hi hci).2

end Primes

section Forbid

variable {vars : List Var} {c d : Cube}

theorem var_of_forbidden {v : Var} {cell : Cell} {l : Literal} (h : (match cell with
    | .zero => some (Literal.mk v true)
    | .one => some ⟨v, false⟩
    | .dontCare => none) = some l) : l.var = v := by
  cases cell with
  | zero => exact (congrArg Literal.var (Option.some.inj h)).symm
  | one => exact (congrArg Literal.var (Option.some.inj h)).symm
  | dontCare => cases h

/-- The literals of a forbidding clause stand in the order of the variables. -/
theorem ascending_forbid (hvars : vars.Pairwise (· < ·)) (c : Cube) :
    (forbid vars c).Pairwise fun l m => l.var < m.var := by
  rw [forbid, List.pairwise_filterMap, List.pairwise_iff_getElem]
  intro i j hi hj hij l hl m hm
  rw [List.getElem_zip] at hl hm
  rw [var_of_forbidden hl, var_of_forbidden hm]
  exact List.pairwise_iff_getElem.1 hvars i j _ _ hij

theorem getElem_mem_forbid (hwidth : vars.length < 32) (hvars : vars.Nodup) {i : Nat} (hi : i < vars.length)
    {b : Bool} : ⟨vars[i], b⟩ ∈ forbid vars c ↔ c.free.toNat.testBit i = false ∧ b = !c.value.toNat.testBit i := by
  rw [mem_forbid hwidth]
  constructor
  · rintro ⟨j, hj, hfree, hliteral⟩
    obtain ⟨hvar, hb⟩ := Literal.mk.inj hliteral
    obtain rfl := (hvars.getElem_inj_iff).1 hvar
    exact ⟨hfree, hb⟩
  · rintro ⟨hfree, rfl⟩
    exact ⟨i, hi, hfree, rfl⟩

/-- A prime whose clause is part of the clause of another prime is that prime: the shorter clause forbids a greater
cube, which primality rules out. -/
theorem Cube.IsPrime.eq_of_forbid_subset {S : UInt32 → Prop} (hwidth : vars.length < 32) (hvars : vars.Nodup)
    (hc : c.IsPrime vars.length S) (hd : d.IsPrime vars.length S) (hsubset : forbid vars c ⊆ forbid vars d) :
    c = d := by
  refine hc.eq_of_fixed hd hwidth.le fun i hi hfree => ?_
  have hmem := hsubset ((getElem_mem_forbid hwidth hvars hi).2 ⟨hfree, rfl⟩)
  obtain ⟨hdfree, hvalue⟩ := (getElem_mem_forbid hwidth hvars hi).1 hmem
  exact ⟨hdfree, Bool.not_inj hvalue⟩

/-- Without its literal of a variable, the clause of a cube fails at the cube's neighbour there. For a prime cube the
neighbour has a zero of the polynomial in it. -/
theorem not_holds_erase_forbid (hwidth : vars.length < 32) (hvars : vars.Nodup) (hnodup : (forbid vars c).Nodup)
    {i : Nat} (hi : i < vars.length) {w : UInt32} (hw : (c.flip i).Contains w) :
    Clause.holds (valueIn vars w.toNat) ((forbid vars c).erase ⟨vars[i], !c.value.toNat.testBit i⟩) = false := by
  rw [Clause.holds, List.any_eq_false]
  intro l hl hholds
  obtain ⟨hne, hl⟩ := hnodup.mem_erase_iff.1 hl
  obtain ⟨j, hj, hfree, rfl⟩ := (mem_forbid hwidth).1 hl
  have hij : i ≠ j := by
    rintro rfl
    exact hne rfl
  have hvalue : valueIn vars w.toNat vars[j] = !c.value.toNat.testBit j := beq_iff_eq.1 hholds
  rw [valueIn, hvars.idxOf_getElem, ← Cube.value_of_contains_flip (by omega) hw hij hfree] at hvalue
  exact Bool.not_ne_self _ hvalue.symm

end Forbid

section Implicants

variable {p : Polynomial}

/-- The rows are exactly the cubes of a single violation, so that merging starts from a complete level. -/
theorem mem_rows_iff_inside (hwidth : p.vars.size < 32) {c : Cube} :
    c ∈ rows p ↔ c.Inside p.vars.size (fun w => w.toNat ∈ violations p) 0 := by
  rw [Cube.inside_zero_iff hwidth]
  constructor
  · intro hc
    obtain ⟨bits, -, rfl⟩ := List.mem_map.1 hc
    exact ⟨(Cube.ofBits_value_ofBits hwidth _).symm, (sound_rows hwidth).inside hc (Cube.contains_ofBits.2 rfl)⟩
  · rintro ⟨hrow, hviolation⟩
    rw [hrow, ← UInt32.ofNat_toNat (x := c.value)]
    exact List.mem_map.2 ⟨c.value.toNat, hviolation, rfl⟩

theorem isPrime_of_mem_implicants (hwidth : p.vars.size < 32) {c : Cube} (hc : c ∈ implicants p) :
    c.IsPrime p.vars.size (fun w => w.toNat ∈ violations p) :=
  (mem_primeImplicants_iff hwidth.le (mem_rows_iff_inside hwidth)).1 (mem_primes_of_mem_cover hc)

theorem nodup_implicants (hwidth : p.vars.size < 32) : (implicants p).Nodup :=
  nodup_cover (nodup_primeImplicants hwidth.le (mem_rows_iff_inside hwidth))

/-- What a set of clauses for `p = 0` has to satisfy: it holds just at the zeros of `p`, and every clause is about
variables of `p`, lists them in ascending order, is falsified by a zero of `p` as soon as one of its literals is
removed, and is not part of another clause. -/
structure PrimeImplicates (p : Polynomial) (clauses : List Clause) : Prop where
  vars_mem : ∀ c ∈ clauses, ∀ l ∈ c, l.var ∈ p.vars
  holds_iff : ∀ a, Cnf.holds a clauses = true ↔ p.eval a = false
  ascending : ∀ c ∈ clauses, c.Pairwise fun l m => l.var < m.var
  prime : ∀ c ∈ clauses, ∀ l ∈ c, ∃ a, p.eval a = false ∧ Clause.holds a (c.erase l) = false
  incomparable : clauses.Pairwise fun c d => ¬c ⊆ d ∧ ¬d ⊆ c

theorem ascending_of_mem_clauses {c : Clause} (hc : c ∈ clauses p) : c.Pairwise fun l m => l.var < m.var := by
  obtain ⟨cube, -, rfl⟩ := List.mem_map.1 hc
  exact ascending_forbid p.vars.pairwise_lt cube

/-- A clause without one of its literals fails at some zero, so that no literal of it can be spared. -/
theorem exists_zero_of_mem_clauses (hwidth : p.vars.size < 32) {c : Clause} (hc : c ∈ clauses p) {l : Literal}
    (hl : l ∈ c) : ∃ a, p.eval a = false ∧ Clause.holds a (c.erase l) = false := by
  have hnodup : c.Nodup := by
    refine (ascending_of_mem_clauses hc).imp ?_
    rintro l _ hlt rfl
    exact Nat.lt_irrefl _ hlt
  obtain ⟨cube, hcube, rfl⟩ := List.mem_map.1 hc
  obtain ⟨i, hi, hfree, rfl⟩ := (mem_forbid hwidth).1 hl
  have hprime := isPrime_of_mem_implicants hwidth hcube
  obtain ⟨w, hw, hout⟩ := hprime.maximal hi hfree
  have hlt := (hprime.within.flip hi hwidth.le hfree).toNat_lt hw
  refine ⟨valueIn p.vars.toList w.toNat, ?_, ?_⟩
  · rw [mem_violations, not_and, Bool.not_eq_true] at hout
    exact hout hlt
  · exact not_holds_erase_forbid hwidth (OrderedSet.nodup_toList p.vars) hnodup hi hw

theorem incomparable_clauses (hwidth : p.vars.size < 32) :
    (clauses p).Pairwise fun c d => ¬c ⊆ d ∧ ¬d ⊆ c := by
  rw [clauses, List.pairwise_map]
  refine List.Pairwise.imp_of_mem ?_ (nodup_implicants hwidth)
  intro c d hc hd hne
  have hvars := OrderedSet.nodup_toList p.vars
  have hc := isPrime_of_mem_implicants hwidth hc
  have hd := isPrime_of_mem_implicants hwidth hd
  exact ⟨fun hsubset => hne (hc.eq_of_forbid_subset hwidth hvars hd hsubset),
    fun hsubset => hne (hd.eq_of_forbid_subset hwidth hvars hc hsubset).symm⟩

theorem primeImplicates_clauses (hwidth : p.vars.size < 32) : PrimeImplicates p (clauses p) where
  vars_mem _ hc _ hl := mem_vars_of_mem_clauses hwidth hc hl
  holds_iff _ := holds_clauses hwidth
  ascending _ hc := ascending_of_mem_clauses hc
  prime _ hc _ hl := exists_zero_of_mem_clauses hwidth hc hl
  incomparable := incomparable_clauses hwidth

end Implicants

section History

variable {t t' : Table} {p : Polynomial}

/-- The table after a conversion; a failed conversion leaves it as it was. This is what a converter carries from one
polynomial to the next. -/
def Table.attempt (t : Table) (p : Polynomial) : Table :=
  match t.convert p with
  | .ok (_, table) => table
  | .error _ => t

/-- The table after several conversions, successful or not. -/
def Table.afterwards (t : Table) (ps : List Polynomial) : Table := ps.foldl Table.attempt t

theorem capacity_attempt (t : Table) (p : Polynomial) : (t.attempt p).capacity = t.capacity := by
  rw [Table.attempt]
  cases hfits : t.fits p with
  | false => rw [convert_of_not_fits hfits]
  | true =>
    obtain ⟨table, hconvert, hcapacity⟩ := convert_of_fits hfits
    rw [hconvert]
    exact hcapacity

theorem capacity_afterwards (t : Table) (ps : List Polynomial) : (t.afterwards ps).capacity = t.capacity := by
  rw [Table.afterwards]
  induction ps generalizing t with
  | nil => rfl
  | cons p ps ih => rw [List.foldl_cons, ih, capacity_attempt]

/-- A conversion sees nothing of a table but its capacity, so that a table may be used again. -/
theorem convert_congr (h : t.capacity = t'.capacity) (p : Polynomial) : t.convert p = t'.convert p := by
  obtain ⟨capacity, width, on, off, dontCare, hmax, hwidth⟩ := t
  obtain ⟨_, width', on', off', dontCare', hmax', hwidth'⟩ := t'
  cases h
  rfl

/-- After any earlier conversions, a conversion succeeds just for the polynomials that fit, with the result of a fresh
table, and its clauses are prime implicates that hold just at the zeros. -/
theorem convert_afterwards {capacity : Nat} (hcapacity : capacity ≤ maxCapacity) :
    ∃ fresh, Table.new capacity = .ok fresh ∧ ∀ (earlier : List Polynomial) (p : Polynomial),
      let t := fresh.afterwards earlier
      ((∃ result, t.convert p = .ok result) ↔ t.fits p = true) ∧
      (t.fits p = true ↔ p.vars.size ≤ capacity) ∧
      t.convert p = fresh.convert p ∧
      ∀ clauses table, t.convert p = .ok (clauses, table) → PrimeImplicates p clauses := by
  rw [Table.new, dif_pos hcapacity]
  refine ⟨_, rfl, ?_⟩
  intro earlier p t
  have hsame : t.capacity = capacity := capacity_afterwards _ earlier
  refine ⟨⟨?_, ?_⟩, ?_, convert_congr hsame p, ?_⟩
  · rintro ⟨result, hresult⟩
    cases hfits : t.fits p with
    | true => rfl
    | false =>
      rw [convert_of_not_fits hfits] at hresult
      cases hresult
  · intro hfits
    obtain ⟨table, hconvert, -⟩ := convert_of_fits hfits
    exact ⟨_, hconvert⟩
  · rw [Table.fits, decide_eq_true_iff, hsame]
  · intro result table hconvert
    obtain ⟨hwidth, rfl, -⟩ := clauses_of_convert hconvert
    exact primeImplicates_clauses hwidth

/-- A table of two variables that has failed on `x1*x2 + x3` and converted `x1*x2` converts `x1*x2 + x1`. -/
theorem convert_afterwards_two :
    let wide : Polynomial := .sum [.ofVars [1, 2], .ofVar 3]
    let narrow : Polynomial := .sum [.ofVars [1, 2]]
    let p : Polynomial := .sum [.ofVars [1, 2], .ofVar 1]
    2 ≤ maxCapacity ∧ ∃ fresh, Table.new 2 = .ok fresh ∧ (fresh.afterwards [wide]).fits wide = false ∧
      ∃ clauses table, (fresh.afterwards [wide, narrow]).convert p = .ok (clauses, table) ∧
        fresh.convert p = .ok (clauses, table) ∧ PrimeImplicates p clauses := by
  intro wide narrow p
  have hcapacity : 2 ≤ maxCapacity := by decide
  obtain ⟨fresh, hfresh, hconvert⟩ := convert_afterwards hcapacity
  refine ⟨hcapacity, fresh, hfresh, ?_, ?_⟩
  · obtain ⟨-, hfits, -, -⟩ := hconvert [wide] wide
    rw [← Bool.not_eq_true, hfits]
    decide
  · obtain ⟨hsuccess, hfits, hsame, hprime⟩ := hconvert [wide, narrow] p
    obtain ⟨⟨clauses, table⟩, hresult⟩ := hsuccess.2 (hfits.2 (by decide))
    exact ⟨clauses, table, hresult, hsame ▸ hresult, hprime clauses table hresult⟩

end History

end BoolPoly.Karnaugh

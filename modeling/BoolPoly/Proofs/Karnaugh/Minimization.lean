import BoolPoly.Proofs.Karnaugh.Implicates
import Mathlib.Data.List.Forall2

namespace BoolPoly.Karnaugh

/-- Whether a position admits a bit. A wildcard admits both. -/
def Cell.Admits : Cell → Bool → Prop
  | .zero, b => b = false
  | .one, b => b = true
  | .dontCare, _ => True

/-- Whether an assignment lies in a row: it has the bits of the fixed positions, and any bit at a wildcard. -/
def Admits (row : List Cell) (bits : List Bool) : Prop := List.Forall₂ Cell.Admits row bits

/-- Whether all assignments in a row are allowed, while each fixed position keeps out one that is not: with a wildcard
there the row would admit it. -/
structure IsPrimeRow (width : Nat) (allowed : List Bool → Prop) (row : List Cell) : Prop where
  length_eq : row.length = width
  inside : ∀ bits, Admits row bits → allowed bits
  maximal : ∀ i < width, row[i]? ≠ some .dontCare → ∃ bits, Admits (row.set i .dontCare) bits ∧ ¬allowed bits

/-- Whether an assignment is in the on-set or does not matter. A prime row may consist of both kinds of
assignments. -/
def Allowed (on dontCare : List (List Bool)) (bits : List Bool) : Prop := bits ∈ on ∨ bits ∈ dontCare

/-- Whether the rows are distinct prime rows that cover the on-set, each of them some of it; a prime row that alone
covers some assignment of the on-set is among them, and there are no more rows than assignments to be covered. -/
structure IsPrimeCover (width : Nat) (on dontCare : List (List Bool)) (rows : List (List Cell)) : Prop where
  covers : ∀ bits ∈ on, ∃ row ∈ rows, Admits row bits
  prime : ∀ row ∈ rows, IsPrimeRow width (Allowed on dontCare) row
  essential : ∀ row, IsPrimeRow width (Allowed on dontCare) row → ∀ bits ∈ on, Admits row bits →
    (∀ other, IsPrimeRow width (Allowed on dontCare) other → Admits other bits → other = row) → row ∈ rows
  useful : ∀ row ∈ rows, ∃ bits ∈ on, Admits row bits
  nodup : rows.Nodup
  length_le : rows.length ≤ on.length

/-- The assignment that a word holds: bit `i` is the value of table variable `i`. Higher bits do not count. -/
def lowBits (width : Nat) (w : UInt32) : List Bool := (List.range width).map w.toNat.testBit

section Rows

variable {width i : Nat} {c d : Cube} {w : UInt32} {bits : List Bool} {row : List Cell}

theorem getElem?_cells (hwidth : width < 32) (hi : i < width) : (c.cells width)[i]? =
    some (if c.free.toNat.testBit i then .dontCare else if c.value.toNat.testBit i then .one else .zero) := by
  rw [Cube.cells, List.getElem?_map, List.getElem?_range hi, Option.map_some,
    Cube.isFree_eq_testBit (hi.trans hwidth), Cube.isSet_eq_testBit (hi.trans hwidth)]

theorem length_cells (width : Nat) (c : Cube) : (c.cells width).length = width := by
  rw [Cube.cells, List.length_map, List.length_range]

theorem getElem?_cells_eq_dontCare (hwidth : width < 32) (hi : i < width) :
    (c.cells width)[i]? = some .dontCare ↔ c.free.toNat.testBit i = true := by
  rw [getElem?_cells hwidth hi]
  cases c.free.toNat.testBit i <;> cases c.value.toNat.testBit i <;> simp

/-- A wildcard in a fixed position is that variable freed, so that the primality of rows and that of cubes come to the
same. -/
theorem cells_release (hwidth : width < 32) (hi : i < width) :
    (c.release i).cells width = (c.cells width).set i .dontCare := by
  apply List.ext_getElem?
  intro j
  by_cases hj : j < width
  · rw [getElem?_cells hwidth hj, Cube.testBit_release (hi.trans hwidth), List.getElem?_set, getElem?_cells hwidth hj]
    by_cases hij : i = j
    · rw [decide_eq_true hij, Bool.or_true, if_pos rfl, if_pos hij, if_pos (by rwa [length_cells])]
    · rw [if_neg hij, decide_eq_false hij, Bool.or_false]
      rfl
  · rw [List.getElem?_eq_none (by rw [length_cells]; omega),
      List.getElem?_eq_none (by rw [List.length_set, length_cells]; omega)]

/-- Different cubes have different rows. -/
theorem Cube.Within.eq_of_cells_eq (hc : c.Within width) (hd : d.Within width) (hwidth : width < 32)
    (h : c.cells width = d.cells width) : c = d := by
  have hfree : ∀ i < width, c.free.toNat.testBit i = d.free.toNat.testBit i := by
    intro i hi
    rw [Bool.eq_iff_iff, ← getElem?_cells_eq_dontCare hwidth hi, h, getElem?_cells_eq_dontCare hwidth hi]
  refine hc.ext hd hfree fun i hi => ?_
  cases hci : c.free.toNat.testBit i with
  | true => rw [hc.disjoint hci, hd.disjoint ((hfree i hi).symm.trans hci)]
  | false =>
    have hcell : (c.cells width)[i]? = (d.cells width)[i]? := by rw [h]
    rw [getElem?_cells hwidth hi, getElem?_cells hwidth hi, ← hfree i hi, hci] at hcell
    revert hcell
    cases c.value.toNat.testBit i <;> cases d.value.toNat.testBit i <;> simp

theorem admits_cells_iff (hwidth : width < 32) : Admits (c.cells width) (lowBits width w) ↔
    ∀ i < width, c.free.toNat.testBit i = true ∨ c.value.toNat.testBit i = w.toNat.testBit i := by
  rw [Admits, Cube.cells, lowBits, List.forall₂_map_left_iff, List.forall₂_map_right_iff, List.forall₂_same]
  simp only [List.mem_range]
  refine forall₂_congr fun i hi => ?_
  rw [Cube.isFree_eq_testBit (hi.trans hwidth), Cube.isSet_eq_testBit (hi.trans hwidth)]
  cases c.free.toNat.testBit i <;> cases c.value.toNat.testBit i <;> cases w.toNat.testBit i <;> simp [Cell.Admits]

theorem Cube.Contains.admits (hw : c.Contains w) (hwidth : width < 32) : Admits (c.cells width) (lowBits width w) :=
  (admits_cells_iff hwidth).2 fun i _ => hw i

theorem contains_of_admits (hwidth : width < 32) (hset : ∀ i, width ≤ i → c.value.toNat.testBit i = false)
    (hw : w.toNat < 2 ^ width) (h : Admits (c.cells width) (lowBits width w)) : c.Contains w := by
  intro i
  by_cases hi : i < width
  · exact (admits_cells_iff hwidth).1 h i hi
  · right
    rw [hset i (by omega), Nat.testBit_lt_two_pow (hw.trans_le (Nat.pow_le_pow_right (by decide) (by omega)))]

theorem testBit_word_range (hwidth : width < 32) (a : Nat → Bool) (i : Nat) :
    (word (List.range width) a).toNat.testBit i = (decide (i < width) && a i) := by
  have hlength : (List.range width).length < 32 := by rwa [List.length_range]
  by_cases hi : i < width
  · rw [testBit_word hlength (by rwa [List.length_range]), List.getElem_range, decide_eq_true hi, Bool.true_and]
  · rw [testBit_word_ge hlength (by rw [List.length_range]; omega), decide_eq_false hi, Bool.false_and]

theorem exists_lowBits_eq (hwidth : width < 32) (hbits : bits.length = width) :
    ∃ w : UInt32, w.toNat < 2 ^ width ∧ lowBits width w = bits := by
  refine ⟨word (List.range width) fun i => bits.getD i false, Nat.lt_pow_two_of_testBit _ fun i hi => ?_, ?_⟩
  · rw [testBit_word_range hwidth, decide_eq_false (by omega), Bool.false_and]
  · refine List.ext_getElem (by rw [lowBits, List.length_map, List.length_range, hbits]) fun i hi hi' => ?_
    simp only [lowBits, List.getElem_map, List.getElem_range]
    rw [testBit_word_range hwidth, decide_eq_true (hbits ▸ hi'), Bool.true_and, List.getD_eq_getElem _ _ hi']

/-- Every row is that of a cube, and by `Cube.Within.eq_of_cells_eq` of one only: rows correspond to packed cubes one
to one. -/
theorem exists_cells_eq (hwidth : width < 32) (hrow : row.length = width) :
    ∃ c : Cube, c.Within width ∧ c.cells width = row := by
  let c : Cube := ⟨word (List.range width) fun i => row[i]? == some .one,
    word (List.range width) fun i => row[i]? == some .dontCare⟩
  have hvalue : ∀ i, c.value.toNat.testBit i = (decide (i < width) && row[i]? == some .one) :=
    testBit_word_range hwidth _
  have hfree : ∀ i, c.free.toNat.testBit i = (decide (i < width) && row[i]? == some .dontCare) :=
    testBit_word_range hwidth _
  refine ⟨c, ⟨fun {i} hi => ?_, fun {i} hi => ?_, fun {i} hi => ?_⟩, List.ext_getElem? fun i => ?_⟩
  · rw [hfree, Bool.and_eq_true, decide_eq_true_iff] at hi
    exact hi.1
  · rw [hvalue, Bool.and_eq_true, decide_eq_true_iff] at hi
    exact hi.1
  · rw [hfree, Bool.and_eq_true, beq_iff_eq] at hi
    rw [hvalue, hi.2]
    exact Bool.and_false _
  · by_cases hi : i < width
    · have hcell : ∃ cell, row[i]? = some cell := ⟨_, List.getElem?_eq_getElem (hrow.symm ▸ hi)⟩
      obtain ⟨cell, hget⟩ := hcell
      rw [getElem?_cells hwidth hi, hfree, hvalue, hget, decide_eq_true hi]
      cases cell <;> rfl
    · rw [List.getElem?_eq_none (by rw [length_cells]; omega), List.getElem?_eq_none (by omega)]

/-- Prime cubes have prime rows, and only they do. What is known about merging packed cubes carries over to rows in
this way. -/
theorem isPrimeRow_cells_iff (hwidth : width < 32) (hc : c.Within width) {allowed : List Bool → Prop} :
    IsPrimeRow width allowed (c.cells width) ↔ c.IsPrime width fun w => allowed (lowBits width w) := by
  have hset : ∀ i, width ≤ i → c.value.toNat.testBit i = false := fun i => hc.testBit_value_ge
  have hword : ∀ {d : Cube} {bits : List Bool}, Admits (d.cells width) bits →
      ∃ w : UInt32, w.toNat < 2 ^ width ∧ lowBits width w = bits := by
    intro d bits h
    exact exists_lowBits_eq hwidth (h.length_eq.symm.trans (length_cells width d))
  constructor
  · intro h
    refine ⟨hc, fun hw => h.inside _ (hw.admits hwidth), fun {i} hi hfree => ?_⟩
    obtain ⟨bits, hadmits, hout⟩ := h.maximal i hi
      (by rw [Ne, getElem?_cells_eq_dontCare hwidth hi, hfree]; exact Bool.false_ne_true)
    rw [← cells_release hwidth hi] at hadmits
    obtain ⟨w, hlt, rfl⟩ := hword hadmits
    -- the wildcard adds only the neighbour across `i`, and the cube itself stays inside
    have hrelease : (c.release i).Contains w := contains_of_admits hwidth hset hlt hadmits
    obtain hw | hw := (Cube.contains_release (hi.trans hwidth)).1 hrelease
    · exact absurd (h.inside _ (hw.admits hwidth)) hout
    · exact ⟨w, hw, hout⟩
  · intro h
    refine ⟨length_cells width c, fun bits hadmits => ?_, fun i hi hcell => ?_⟩
    · obtain ⟨w, hlt, rfl⟩ := hword hadmits
      exact h.inside (contains_of_admits hwidth hset hlt hadmits)
    · rw [Ne, getElem?_cells_eq_dontCare hwidth hi, Bool.not_eq_true] at hcell
      obtain ⟨w, hw, hout⟩ := h.maximal hi hcell
      have hrelease := (Cube.contains_release (hi.trans hwidth)).2 (.inr hw)
      exact ⟨lowBits width w, cells_release hwidth hi ▸ hrelease.admits hwidth, hout⟩

end Rows

/-- A row to be entered: an assignment and its output, or none if the output does not matter. Bits beyond the width of
the table are cut off. -/
structure Entry where
  bits : UInt32
  output : Option Bool

/-- The table with one more row, in the group of rows that its output names. -/
def Table.enter (t : Table) (e : Entry) : Table :=
  match e.output with
  | some output => t.push e.bits output
  | none => t.pushDontCare e.bits

/-- The table with several rows entered in order. -/
def Table.enterAll (t : Table) (entries : List Entry) : Table := entries.foldl Table.enter t

/-- The assignments that are entered with an output. -/
def assigned (width : Nat) (entries : List Entry) (output : Option Bool) : List (List Bool) :=
  (entries.filter (·.output == output)).map fun e => lowBits width e.bits

/-- The rows that are entered with an output. -/
def entered (width : Nat) (entries : List Entry) (output : Option Bool) : List Cube :=
  (entries.filter (·.output == output)).map fun e => Cube.ofBits width e.bits

theorem Table.enterAll_eq (t : Table) (entries : List Entry) : t.enterAll entries =
    { t with
      on := t.on ++ entered t.width entries (some true)
      off := t.off ++ entered t.width entries (some false)
      dontCare := t.dontCare ++ entered t.width entries none } := by
  induction entries generalizing t with
  | nil => simp [Table.enterAll, entered]
  | cons e entries ih =>
    rw [Table.enterAll, List.foldl_cons, ← Table.enterAll, ih]
    obtain ⟨bits, _ | _ | _⟩ := e <;> simp [Table.enter, Table.push, Table.pushDontCare, entered]

section Entries

variable {width : Nat} {entries : List Entry} {output : Option Bool} {c : Cube} {v w : UInt32}

theorem lowBits_value_ofBits (hwidth : width < 32) (w : UInt32) :
    lowBits width (Cube.ofBits width w).value = lowBits width w := by
  refine List.map_congr_left fun i hi => ?_
  rw [Cube.testBit_value_ofBits hwidth, decide_eq_true (List.mem_range.1 hi), Bool.true_and]

theorem ofBits_congr (hwidth : width < 32) (h : lowBits width v = lowBits width w) :
    Cube.ofBits width v = Cube.ofBits width w := by
  refine (Cube.within_ofBits hwidth v).ext (Cube.within_ofBits hwidth w) (fun i _ => ?_) fun i hi => ?_
  · rw [Cube.testBit_free_ofBits, Cube.testBit_free_ofBits]
  · rw [Cube.testBit_value_ofBits hwidth, Cube.testBit_value_ofBits hwidth,
      List.map_inj_left.1 h i (List.mem_range.2 hi)]

theorem mem_entered (hwidth : width < 32) : c ∈ entered width entries output ↔
    c = Cube.ofBits width c.value ∧ lowBits width c.value ∈ assigned width entries output := by
  constructor
  · intro hc
    obtain ⟨e, he, rfl⟩ := List.mem_map.1 hc
    refine ⟨(Cube.ofBits_value_ofBits hwidth e.bits).symm, ?_⟩
    rw [lowBits_value_ofBits hwidth]
    exact List.mem_map.2 ⟨e, he, rfl⟩
  · rintro ⟨hrow, hassigned⟩
    obtain ⟨e, he, hbits⟩ := List.mem_map.1 hassigned
    rw [hrow, ← ofBits_congr hwidth hbits]
    exact List.mem_map.2 ⟨e, he, rfl⟩

/-- The words of the on-set, as minimizing looks them up. -/
def onValues (width : Nat) (entries : List Entry) : List UInt32 :=
  (entered width entries (some true)).map Cube.value

theorem mem_onValues (hwidth : width < 32) : v ∈ onValues width entries ↔
    (Cube.ofBits width v).value = v ∧ lowBits width v ∈ assigned width entries (some true) := by
  constructor
  · intro hv
    obtain ⟨c, hc, rfl⟩ := List.mem_map.1 hv
    obtain ⟨hrow, hassigned⟩ := (mem_entered hwidth).1 hc
    exact ⟨congrArg Cube.value hrow.symm, hassigned⟩
  · rintro ⟨hvalue, hassigned⟩
    refine List.mem_map.2 ⟨Cube.ofBits width v, (mem_entered hwidth).2 ?_, hvalue⟩
    rw [hvalue]
    exact ⟨rfl, hassigned⟩

theorem exists_mem_onValues (hwidth : width < 32) {bits : List Bool}
    (hbits : bits ∈ assigned width entries (some true)) : ∃ v ∈ onValues width entries, lowBits width v = bits := by
  obtain ⟨e, he, rfl⟩ := List.mem_map.1 hbits
  refine ⟨(Cube.ofBits width e.bits).value, (mem_onValues hwidth).2 ⟨?_, ?_⟩, lowBits_value_ofBits hwidth e.bits⟩
  · rw [Cube.ofBits_value_ofBits hwidth]
  · rw [lowBits_value_ofBits hwidth]
    exact List.mem_map.2 ⟨e, he, rfl⟩

/-- The prime cubes of the on-set together with the rows that do not matter: the latter take part in the merging. -/
def primesOf (width : Nat) (entries : List Entry) : List Cube :=
  primeImplicants width (entered width entries (some true) ++ entered width entries none)

/-- The on-set of the minimized table. Rows that do not matter take no part in the covering, so that a prime that
consists of them alone is not selected. -/
def coverOf (width : Nat) (entries : List Entry) : List Cube := cover (primesOf width entries) (onValues width entries)

/-- Whether a word holds an assignment of the on-set or one that does not matter. -/
def AllowedWord (width : Nat) (entries : List Entry) (w : UInt32) : Prop :=
  Allowed (assigned width entries (some true)) (assigned width entries none) (lowBits width w)

theorem mem_entered_iff_inside (hwidth : width < 32) :
    c ∈ entered width entries (some true) ++ entered width entries none ↔
      c.Inside width (AllowedWord width entries) 0 := by
  rw [List.mem_append, mem_entered hwidth, mem_entered hwidth, ← and_or_left, Cube.inside_zero_iff hwidth]
  rfl

theorem mem_primesOf (hwidth : width < 32) : c ∈ primesOf width entries ↔ c.IsPrime width (AllowedWord width entries) :=
  mem_primeImplicants_iff hwidth.le (mem_entered_iff_inside hwidth)

theorem nodup_primesOf (hwidth : width < 32) : (primesOf width entries).Nodup :=
  nodup_primeImplicants hwidth.le (mem_entered_iff_inside hwidth)

theorem nodup_minterms_of_mem_primesOf (hwidth : width < 32) : ∀ p ∈ primesOf width entries, p.minterms.Nodup :=
  fun _ hp => Cube.nodup_minterms ((mem_primesOf hwidth).1 hp).within

theorem admits_cells_iff_mem_minterms (hwidth : width < 32) (hc : c ∈ primesOf width entries)
    (hv : v ∈ onValues width entries) : Admits (c.cells width) (lowBits width v) ↔ v ∈ c.minterms := by
  have hwithin := ((mem_primesOf hwidth).1 hc).within
  have hlt : v.toNat < 2 ^ width :=
    (Cube.within_ofBits hwidth v).toNat_lt (Cube.contains_ofBits.2 ((mem_onValues hwidth).1 hv).1.symm)
  rw [Cube.mem_minterms hwithin]
  exact ⟨contains_of_admits hwidth (fun i => hwithin.testBit_value_ge) hlt, fun h => h.admits hwidth⟩

theorem isPrimeRow_iff (hwidth : width < 32) {row : List Cell} :
    IsPrimeRow width (Allowed (assigned width entries (some true)) (assigned width entries none)) row ↔
      ∃ c ∈ primesOf width entries, c.cells width = row := by
  constructor
  · intro h
    obtain ⟨c, hc, rfl⟩ := exists_cells_eq hwidth h.length_eq
    exact ⟨c, (mem_primesOf hwidth).2 ((isPrimeRow_cells_iff hwidth hc).1 h), rfl⟩
  · rintro ⟨c, hc, rfl⟩
    have hprime := (mem_primesOf hwidth).1 hc
    exact (isPrimeRow_cells_iff hwidth hprime.within).2 hprime

theorem exists_mem_coverOf (hwidth : width < 32) (hv : v ∈ onValues width entries) :
    ∃ c ∈ coverOf width entries, v ∈ c.minterms := by
  obtain ⟨c, hc, rfl⟩ := List.mem_map.1 hv
  obtain ⟨p, hp, hcontains⟩ := exists_mem_primeImplicants (w := c.value) hwidth.le
    (List.mem_append_left (entered width entries none) hc) fun _ => .inr rfl
  exact exists_mem_cover hp ((Cube.mem_minterms ((mem_primesOf hwidth).1 hp).within).2 hcontains) hv

/-- A prime row that alone covers some assignment of the on-set is selected, whatever else the other rows cover. -/
theorem mem_coverOf_of_alone (hwidth : width < 32) (hc : c ∈ primesOf width entries) (hv : v ∈ onValues width entries)
    (hadmits : Admits (c.cells width) (lowBits width v))
    (halone : ∀ d ∈ primesOf width entries, Admits (d.cells width) (lowBits width v) → d.cells width = c.cells width) :
    c ∈ coverOf width entries := by
  refine mem_cover_of_alone (nodup_primesOf hwidth) (nodup_minterms_of_mem_primesOf hwidth) hc
    ((admits_cells_iff_mem_minterms hwidth hc hv).1 hadmits) hv fun d hd hmem => ?_
  have hcells := halone d hd ((admits_cells_iff_mem_minterms hwidth hd hv).2 hmem)
  exact ((mem_primesOf hwidth).1 hd).within.eq_of_cells_eq ((mem_primesOf hwidth).1 hc).within hwidth hcells

theorem isPrimeCover_coverOf (hwidth : width < 32) :
    IsPrimeCover width (assigned width entries (some true)) (assigned width entries none)
      ((coverOf width entries).map (Cube.cells width)) where
  covers bits hbits := by
    obtain ⟨v, hv, rfl⟩ := exists_mem_onValues hwidth hbits
    obtain ⟨c, hc, hmem⟩ := exists_mem_coverOf hwidth hv
    refine ⟨c.cells width, List.mem_map.2 ⟨c, hc, rfl⟩, ?_⟩
    exact (admits_cells_iff_mem_minterms hwidth (mem_primes_of_mem_cover hc) hv).2 hmem
  prime row hrow := by
    obtain ⟨c, hc, rfl⟩ := List.mem_map.1 hrow
    exact (isPrimeRow_iff hwidth).2 ⟨c, mem_primes_of_mem_cover hc, rfl⟩
  essential row hrow bits hbits hadmits halone := by
    obtain ⟨c, hc, rfl⟩ := (isPrimeRow_iff hwidth).1 hrow
    obtain ⟨v, hv, rfl⟩ := exists_mem_onValues hwidth hbits
    refine List.mem_map.2 ⟨c, mem_coverOf_of_alone hwidth hc hv hadmits fun d hd => ?_, rfl⟩
    exact halone (d.cells width) ((isPrimeRow_iff hwidth).2 ⟨d, hd, rfl⟩)
  useful row hrow := by
    obtain ⟨c, hc, rfl⟩ := List.mem_map.1 hrow
    obtain ⟨v, hv, hmem⟩ := exists_mem_on_of_mem_cover hc
    exact ⟨lowBits width v, ((mem_onValues hwidth).1 hv).2,
      (admits_cells_iff_mem_minterms hwidth (mem_primes_of_mem_cover hc) hv).2 hmem⟩
  nodup := by
    have hwithin : ∀ c ∈ coverOf width entries, c.Within width := fun c hc =>
      ((mem_primesOf hwidth).1 (mem_primes_of_mem_cover hc)).within
    refine (nodup_cover (nodup_primesOf hwidth)).map_on fun c hc d hd heq => ?_
    exact (hwithin c hc).eq_of_cells_eq (hwithin d hd) hwidth heq
  length_le := by
    calc ((coverOf width entries).map (Cube.cells width)).length
        = (coverOf width entries).length := List.length_map _
      _ ≤ (onValues width entries).length :=
        length_cover_le (nodup_primesOf hwidth) (nodup_minterms_of_mem_primesOf hwidth)
      _ = (assigned width entries (some true)).length := by
        rw [onValues, entered, assigned, List.length_map, List.length_map, List.length_map]

end Entries

/-- Minimizing a table of any width that it holds replaces the on-set by a cover of prime rows. It does not matter how
the assignments are divided among the rows: some may be left out, and one that has the output one may be entered as
one that does not matter as well. The new rows ascend, and the other rows stay as they are. -/
theorem Table.minimize_isPrimeCover {t : Table} {width : Nat} (hwidth : width ≤ t.capacity) (entries : List Entry) :
    ∃ cleared, t.reset width = .ok cleared ∧
      let filled := cleared.enterAll entries
      IsPrimeCover width (assigned width entries (some true)) (assigned width entries none)
        (filled.minimize.on.map (Cube.cells width)) ∧
      filled.minimize.on.Pairwise (fun c d => compare c d = .lt) ∧
      filled.minimize.off = filled.off ∧ filled.minimize.dontCare = filled.dontCare := by
  have hlt : width < 32 := by
    have hmax : maxCapacity = 24 := rfl
    have hle := t.capacity_le
    omega
  rw [Table.reset, dif_pos hwidth]
  refine ⟨_, rfl, ?_⟩
  dsimp only
  rw [Table.enterAll_eq]
  refine ⟨?_, ?_, rfl, rfl⟩
  · exact isPrimeCover_coverOf hlt
  · exact pairwise_cover (nodup_primesOf hlt)

/-- Three variables, where the first one decides: `111` is in the on-set and does not matter as well, and the two
assignments with `01` in the last positions, both of which do not matter, make up a prime of no use. -/
theorem Table.minimize_isPrimeCover_overlapping :
    let entries : List Entry := [⟨1, some true⟩, ⟨3, some true⟩, ⟨0, some false⟩, ⟨7, some true⟩, ⟨7, none⟩, ⟨5, none⟩,
      ⟨4, none⟩]
    ∃ t, Table.new 4 = .ok t ∧ 3 ≤ t.capacity ∧ ∃ cleared, t.reset 3 = .ok cleared ∧
      IsPrimeCover 3 [[true, false, false], [true, true, false], [true, true, true]]
        [[true, true, true], [true, false, true], [false, false, true]]
        ((cleared.enterAll entries).minimize.on.map (Cube.cells 3)) ∧
      (cleared.enterAll entries).minimize.off = (cleared.enterAll entries).off := by
  intro entries
  have hnew : ∃ t, Table.new 4 = .ok t ∧ 3 ≤ t.capacity := by
    rw [Table.new, dif_pos (by decide)]
    exact ⟨_, rfl, by decide⟩
  obtain ⟨t, ht, hwidth⟩ := hnew
  obtain ⟨cleared, hreset, hcover, -, hoff, -⟩ := Table.minimize_isPrimeCover hwidth entries
  have hon : assigned 3 entries (some true) =
    [[true, false, false], [true, true, false], [true, true, true]] := by decide
  have hdontCare : assigned 3 entries none =
    [[true, true, true], [true, false, true], [false, false, true]] := by decide
  rw [hon, hdontCare] at hcover
  exact ⟨t, ht, hwidth, cleared, hreset, hcover, hoff⟩

end BoolPoly.Karnaugh

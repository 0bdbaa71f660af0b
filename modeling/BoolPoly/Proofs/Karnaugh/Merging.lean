import BoolPoly.Proofs.Karnaugh.Primality

open Std

namespace BoolPoly.Karnaugh

namespace Cube

variable {width i : Nat} {S : UInt32 → Prop} {c d : Cube} {w : UInt32}

/-- Whether the cube is about the first `width` variables and lies inside `S`. Nothing is said about greater cubes. -/
structure IsImplicant (width : Nat) (S : UInt32 → Prop) (c : Cube) : Prop where
  within : c.Within width
  inside : ∀ {w}, c.Contains w → S w

/-- A cube without free variables that has bits for the first variables only is the cube of an assignment. -/
theorem eq_ofBits_value (hwidth : width < 32) (hfree : c.free = 0) (hvalue : c.value.toNat < 2 ^ width) :
    c = ofBits width c.value := by
  have hfixed : ∀ {i}, ¬c.free.toNat.testBit i = true := by
    intro i
    rw [hfree, UInt32.toNat_zero, Nat.zero_testBit]
    exact Bool.false_ne_true
  have hwithin : c.Within width := ⟨fun h => absurd h hfixed, lt_of_testBit hvalue, fun h => absurd h hfixed⟩
  refine hwithin.ext (within_ofBits hwidth _) (fun i _ => ?_) fun i hi => ?_
  · rw [testBit_free_ofBits]
    exact Bool.eq_false_iff.2 hfixed
  · rw [testBit_value_ofBits hwidth, decide_eq_true hi, Bool.true_and]

theorem contains_value (c : Cube) : c.Contains c.value := fun _ => .inr rfl

theorem contains_flip (hi : i < 32) : (c.flip i).Contains w ↔ c.Contains (w ^^^ bit i) := by
  refine forall_congr' fun j => or_congr_right ?_
  rw [testBit_flip hi, UInt32.toNat_xor, Nat.testBit_xor, testBit_bit hi]
  cases c.value.toNat.testBit j <;> cases w.toNat.testBit j <;> cases decide (i = j) <;> simp

/-- The value of a free variable is open: turning it over leads to another assignment in the cube. -/
theorem Contains.xor_bit (hw : c.Contains w) (hi : i < 32) (hfree : c.free.toNat.testBit i = true) :
    c.Contains (w ^^^ bit i) := by
  intro j
  by_cases hij : i = j
  · exact .inl (hij ▸ hfree)
  · rw [UInt32.toNat_xor, Nat.testBit_xor, testBit_bit hi, decide_eq_false hij, Bool.xor_false]
    exact hw j

/-- A variable that is fixed in the greater cube is fixed to the same value in the smaller one. -/
theorem fixed_of_subset (hsubset : ∀ w, c.Contains w → d.Contains w) (hi : i < 32)
    (hfixed : d.free.toNat.testBit i = false) :
    c.free.toNat.testBit i = false ∧ d.value.toNat.testBit i = c.value.toNat.testBit i := by
  have hvalue : ∀ w, c.Contains w → d.value.toNat.testBit i = w.toNat.testBit i := fun w hw =>
    (hsubset w hw i).resolve_left (Bool.eq_false_iff.1 hfixed)
  refine ⟨?_, hvalue c.value c.contains_value⟩
  by_contra hfree
  have hother := hvalue _ (c.contains_value.xor_bit hi (Bool.not_eq_false _ ▸ hfree))
  rw [UInt32.toNat_xor, Nat.testBit_xor, testBit_bit hi, decide_eq_true rfl, hvalue c.value c.contains_value] at hother
  simp at hother

/-- A greater cube inside the set frees no variable of a prime cube, because the neighbour across this variable would
lie inside the set. -/
theorem IsPrime.free_eq (hc : c.IsPrime width S) (hd : d.IsImplicant width S)
    (hsubset : ∀ w, c.Contains w → d.Contains w) (hi : i < width) (hwidth : width ≤ 32) :
    d.free.toNat.testBit i = c.free.toNat.testBit i := by
  have hi' : i < 32 := by omega
  cases hfixed : c.free.toNat.testBit i with
  | true =>
    by_contra hnot
    have hboth := (fixed_of_subset hsubset hi' (Bool.not_eq_true _ ▸ hnot)).1
    rw [hfixed] at hboth
    cases hboth
  | false =>
    by_contra hnot
    obtain ⟨w, hw, hout⟩ := hc.maximal hi hfixed
    have hflip := (hsubset _ ((contains_flip hi').1 hw)).xor_bit hi' (Bool.not_eq_false _ ▸ hnot)
    rw [UInt32.xor_assoc, UInt32.xor_self, UInt32.xor_zero] at hflip
    exact hout (hd.inside hflip)

/-- Two neighbours inside the set have their union inside it, and the union frees the variable in which they
differ. -/
theorem IsImplicant.exists_union (hc : c.IsImplicant width S) (hneighbour : ∀ {w}, (c.flip i).Contains w → S w)
    (hi : i < width) (hwidth : width ≤ 32) (hfixed : c.free.toNat.testBit i = false) :
    ∃ d : Cube, d.IsImplicant width S ∧ (∀ w, c.Contains w → d.Contains w) ∧ d.free.toNat.testBit i = true := by
  have hi' : i < 32 := by omega
  have hunion : ∀ {w}, c.Contains w ∨ (c.flip i).Contains w → S w := by
    rintro w (hw | hw)
    · exact hc.inside hw
    · exact hneighbour hw
  have hopen : ∀ e : Cube, (e.release i).free.toNat.testBit i = true := by
    intro e
    rw [testBit_release hi', decide_eq_true rfl, Bool.or_true]
  cases hset : c.value.toNat.testBit i with
  | false =>
    refine ⟨c.release i, ⟨hc.within.release hi hwidth hset, fun hw => ?_⟩, fun w hw => ?_, hopen c⟩
    · exact hunion ((contains_release hi').1 hw)
    · exact (contains_release hi').2 (.inl hw)
  | true =>
    have hzero : (c.flip i).value.toNat.testBit i = false := by
      rw [testBit_flip hi', hset, decide_eq_true rfl, Bool.xor_self]
    have hflip : ∀ {w}, ((c.flip i).release i).Contains w ↔ (c.flip i).Contains w ∨ c.Contains w := by
      intro w
      rw [contains_release hi', flip_flip]
    refine ⟨(c.flip i).release i, ⟨(hc.within.flip hi hwidth hfixed).release hi hwidth hzero, fun hw => ?_⟩,
      fun w hw => hflip.2 (.inr hw), hopen (c.flip i)⟩
    exact hunion (hflip.1 hw).symm

/-- A cube is prime if and only if no greater one lies inside the set. So primality, which is about neighbours, comes
to the same as being a greatest cube. -/
theorem isPrime_iff_greatest (hwidth : width ≤ 32) : c.IsPrime width S ↔
    c.IsImplicant width S ∧ ∀ d, d.IsImplicant width S → (∀ w, c.Contains w → d.Contains w) → d = c := by
  constructor
  · intro hc
    refine ⟨⟨hc.within, hc.inside⟩, fun d hd hsubset => ?_⟩
    have hfree : ∀ i < width, d.free.toNat.testBit i = c.free.toNat.testBit i := fun i hi =>
      hc.free_eq hd hsubset hi hwidth
    refine hd.within.ext hc.within hfree fun i hi => ?_
    cases hfixed : d.free.toNat.testBit i with
    | true => rw [hd.within.disjoint hfixed, hc.within.disjoint (hfree i hi ▸ hfixed)]
    | false => exact (fixed_of_subset hsubset (by omega) hfixed).2
  · rintro ⟨hc, hgreatest⟩
    refine ⟨hc.within, hc.inside, fun {i} hi hfixed => ?_⟩
    by_contra hnone
    have hneighbour : ∀ {w}, (c.flip i).Contains w → S w := by
      intro w hw
      by_contra hout
      exact hnone ⟨w, hw, hout⟩
    obtain ⟨d, hd, hsubset, hopen⟩ := hc.exists_union hneighbour hi hwidth hfixed
    rw [hgreatest d hd hsubset, hfixed] at hopen
    cases hopen

end Cube

namespace Level

variable {width k : Nat} {S : UInt32 → Prop} {level : Level} {c : Cube}

/-- The cubes that take part in a merge: for every cube with a neighbour that has a one in place of a zero, the cube
and this neighbour. -/
def marked (width : Nat) (level : Level) : Level :=
  .ofList (level.toList.flatMap fun c => (List.range width).flatMap fun i =>
    if !c.isFree i && !c.isSet i && level.contains (c.flip i) then [c, c.flip i] else [])

/-- The cubes of the level that take part in no merge. These are taken out as primes. -/
def unmarked (width : Nat) (level : Level) : List Cube :=
  level.toList.filter fun c => !(level.marked width).contains c

/-- Whether merging gives the listed cubes when it is repeated until a level is empty and the unmarked cubes of each
level are taken out. The number of rounds is not limited. -/
inductive MergesTo (width : Nat) : Level → List Cube → Prop
  | done {level : Level} (h : level.isEmpty = true) : MergesTo width level []
  | next {level : Level} {cubes : List Cube} (h : level.isEmpty = false)
      (hrest : MergesTo width (level.merged width) cubes) : MergesTo width level (level.unmarked width ++ cubes)

theorem mem_marked : c ∈ level.marked width ↔ ∃ d ∈ level, ∃ i < width,
    d.isFree i = false ∧ d.isSet i = false ∧ d.flip i ∈ level ∧ (c = d ∨ c = d.flip i) := by
  rw [marked, TreeSet.mem_ofList, List.contains_iff_mem, List.mem_flatMap]
  simp only [List.mem_flatMap, List.mem_range, TreeSet.mem_toList]
  refine exists_congr fun d => and_congr_right fun _ => exists_congr fun i => and_congr_right fun _ => ?_
  cases d.isFree i <;> cases d.isSet i <;> cases hflip : level.contains (d.flip i) <;>
    simp [← TreeSet.contains_iff_mem, hflip]

/-- Looking for the neighbour with a one and marking both cubes leaves the same cubes unmarked as looking for either
neighbour would. So it does not matter from which of its two cubes a merge is found. -/
theorem unmarked_eq_primes (hwidth : width ≤ 32) (level : Level) : level.unmarked width = level.primes width := by
  refine List.filter_congr fun c hc => ?_
  have hc := TreeSet.mem_toList.1 hc
  rw [Bool.eq_iff_iff, Bool.not_eq_true', ← Bool.not_eq_true, TreeSet.contains_iff_mem, mem_marked]
  simp only [List.all_eq_true, List.mem_range, Bool.or_eq_true, Bool.not_eq_true', ← Bool.not_eq_true,
    TreeSet.contains_iff_mem]
  constructor
  · intro hnot i hi
    by_contra hneighbour
    obtain ⟨hfree, hflip⟩ := not_or.1 hneighbour
    have hflip := not_not.1 hflip
    cases hset : c.isSet i with
    | false => exact hnot ⟨c, hc, i, hi, hfree, by simp [hset], hflip, .inl rfl⟩
    | true =>
      refine hnot ⟨c.flip i, hflip, i, hi, hfree, ?_, ?_, .inr (Cube.flip_flip c i).symm⟩
      · rw [Cube.isSet_flip (by omega), hset]
        exact Bool.false_ne_true
      · rwa [Cube.flip_flip]
  · rintro hnone ⟨d, hd, i, hi, hfree, -, hflip, rfl | rfl⟩
    · exact (hnone i hi).elim hfree fun hnot => hnot hflip
    · refine (hnone i hi).elim hfree fun hnot => hnot ?_
      rwa [Cube.flip_flip]

theorem isEmpty_merged (h : level.isEmpty = true) : (level.merged width).isEmpty = true := by
  refine TreeSet.isEmpty_iff_forall_not_mem.2 fun c hc => ?_
  obtain ⟨d, hd, -⟩ := mem_merged.1 hc
  exact TreeSet.isEmpty_iff_forall_not_mem.1 h d hd

/-- Nothing comes from an empty level, however many steps are left. -/
theorem primesFrom_of_isEmpty (steps : Nat) (h : level.isEmpty = true) : primesFrom width steps level = [] := by
  have hprimes : ∀ {level : Level}, level.isEmpty = true → level.primes width = [] := by
    intro level h
    rw [List.eq_nil_iff_forall_not_mem]
    intro c hc
    exact TreeSet.isEmpty_iff_forall_not_mem.1 h c (TreeSet.mem_toList.1 (List.mem_filter.1 hc).1)
  induction steps generalizing level with
  | zero => exact hprimes h
  | succ steps ih => rw [primesFrom, hprimes h, ih (isEmpty_merged h), List.append_nil]

/-- No cube has more free variables than there are variables, so that a level is empty after at most one round more
than there are variables. -/
theorem isEmpty_of_lt (hlevel : ∀ {c}, c ∈ level ↔ c.Inside width S k) (hk : width < k) : level.isEmpty = true := by
  refine TreeSet.isEmpty_iff_forall_not_mem.2 fun c hc => ?_
  have hcard := (hlevel.1 hc).card_fixed
  omega

/-- From a complete level on, the steps that are left suffice to come to an empty one. -/
theorem mergesTo_primesFrom (hwidth : width ≤ 32) {steps : Nat} (hlevel : ∀ {c}, c ∈ level ↔ c.Inside width S k)
    (hsteps : width ≤ k + steps) : level.MergesTo width (primesFrom width steps level) := by
  induction steps generalizing level k with
  | zero =>
    cases hempty : level.isEmpty with
    | true =>
      rw [primesFrom_of_isEmpty 0 hempty]
      exact .done hempty
    | false =>
      have hmerged := isEmpty_of_lt (mem_merged_iff_inside hwidth hlevel) (by omega)
      rw [primesFrom, ← unmarked_eq_primes hwidth, ← List.append_nil (level.unmarked width)]
      exact .next hempty (.done hmerged)
  | succ steps ih =>
    cases hempty : level.isEmpty with
    | true =>
      rw [primesFrom_of_isEmpty (steps + 1) hempty]
      exact .done hempty
    | false =>
      rw [primesFrom, ← unmarked_eq_primes hwidth]
      exact .next hempty (ih (mem_merged_iff_inside hwidth hlevel) (by omega))

end Level

section PrimeImplicants

variable {width : Nat} {rows : List Cube}

/-- The cubes of single assignments are the complete level without free variables, from which merging starts. -/
theorem mem_assignments_iff_inside (hwidth : width < 32)
    (hrows : ∀ c ∈ rows, c.free = 0 ∧ c.value.toNat < 2 ^ width) {c : Cube} :
    c ∈ rows ↔ c.Inside width (⟨·, 0⟩ ∈ rows) 0 := by
  have hself : ∀ {c : Cube}, c.free = 0 → (⟨c.value, 0⟩ : Cube) = c := by
    rintro ⟨value, free⟩ rfl
    rfl
  rw [Cube.inside_zero_iff hwidth]
  constructor
  · intro hc
    obtain ⟨hfree, hvalue⟩ := hrows c hc
    exact ⟨Cube.eq_ofBits_value hwidth hfree hvalue, (hself hfree).symm ▸ hc⟩
  · rintro ⟨hrow, hmem⟩
    have hfree : c.free = 0 := by rw [hrow, Cube.ofBits]
    rwa [hself hfree] at hmem

/-- Merging the single assignments of a set until a level is empty comes to an end and gives the prime implicants: the
cubes inside the set that lie in no other cube inside the set, each once. -/
theorem primeImplicants_greatest (hwidth : width < 32)
    (hrows : ∀ c ∈ rows, c.free = 0 ∧ c.value.toNat < 2 ^ width) :
    Level.MergesTo width (.ofList rows) (primeImplicants width rows) ∧ (primeImplicants width rows).Nodup ∧
    ∀ c, c ∈ primeImplicants width rows ↔ c.IsImplicant width (⟨·, 0⟩ ∈ rows) ∧
      ∀ d, d.IsImplicant width (⟨·, 0⟩ ∈ rows) → (∀ w, c.Contains w → d.Contains w) → d = c := by
  have hcubes := fun {c} => mem_assignments_iff_inside (c := c) hwidth hrows
  have hwidth' : width ≤ 32 := Nat.le_of_lt hwidth
  refine ⟨?_, nodup_primeImplicants hwidth' hcubes, fun c => ?_⟩
  · exact Level.mergesTo_primesFrom hwidth' (mem_ofList_iff_inside hcubes) (Nat.le_add_left _ _)
  · rw [mem_primeImplicants_iff hwidth' hcubes, Cube.isPrime_iff_greatest hwidth']

/-- Four assignments merge to a square in two rounds. The pair of the last two is left over after the first one. -/
theorem primeImplicants_greatest_square :
    let rows : List Cube := [⟨0, 0⟩, ⟨1, 0⟩, ⟨2, 0⟩, ⟨3, 0⟩, ⟨7, 0⟩]
    (∀ c ∈ rows, c.free = 0 ∧ c.value.toNat < 2 ^ 3) ∧ Level.MergesTo 3 (.ofList rows) [⟨3, 4⟩, ⟨0, 3⟩] ∧
    ∀ d : Cube, d.IsImplicant 3 (⟨·, 0⟩ ∈ rows) → (∀ w, (⟨3, 4⟩ : Cube).Contains w → d.Contains w) → d = ⟨3, 4⟩ := by
  intro rows
  have hrows : ∀ c ∈ rows, c.free = 0 ∧ c.value.toNat < 2 ^ 3 := by decide
  have hprimes : primeImplicants 3 rows = [⟨3, 4⟩, ⟨0, 3⟩] := by decide
  obtain ⟨hmerges, -, hgreatest⟩ := primeImplicants_greatest (by decide) hrows
  rw [hprimes] at hmerges hgreatest
  exact ⟨hrows, hmerges, ((hgreatest ⟨3, 4⟩).1 List.mem_cons_self).2⟩

end PrimeImplicants

end BoolPoly.Karnaugh

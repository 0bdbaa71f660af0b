import BoolPoly.Proofs.Karnaugh.PrimeImplicant

open Std

namespace BoolPoly.Karnaugh

namespace Cube

variable {width i : Nat} {S : UInt32 → Prop} {c : Cube}

/-- The cube with a free variable fixed to zero. The half with a one is its neighbour across this variable. -/
def fix (c : Cube) (i : Nat) : Cube := { c with free := c.free ^^^ bit i }

theorem testBit_fix {j : Nat} (hi : i < 32) :
    (c.fix i).free.toNat.testBit j = (c.free.toNat.testBit j ^^ decide (i = j)) := by
  rw [fix, UInt32.toNat_xor, Nat.testBit_xor, testBit_bit hi]

theorem testBit_fix_self (hi : i < 32) (hfree : c.free.toNat.testBit i = true) :
    (c.fix i).free.toNat.testBit i = false := by
  rw [testBit_fix hi, hfree, decide_eq_true rfl, Bool.xor_self]

theorem release_fix (hi : i < 32) (hfree : c.free.toNat.testBit i = true) : (c.fix i).release i = c := by
  have hword : ((c.fix i).release i).free = c.free := by
    apply word_ext
    intro j
    rw [testBit_release hi, testBit_fix hi]
    by_cases hij : i = j
    · rw [← hij, hfree, decide_eq_true rfl, Bool.or_true]
    · rw [decide_eq_false hij, Bool.or_false, Bool.xor_false]
  calc (c.fix i).release i = ⟨c.value, ((c.fix i).release i).free⟩ := rfl
    _ = c := by rw [hword]

theorem Within.fix (hc : c.Within width) (hi : i < 32) (hfree : c.free.toNat.testBit i = true) :
    (c.fix i).Within width := by
  have hstill : ∀ {j}, (c.fix i).free.toNat.testBit j = true → c.free.toNat.testBit j = true := by
    intro j hj
    rw [testBit_fix hi] at hj
    by_cases hij : i = j
    · rwa [hij] at hfree
    · rwa [decide_eq_false hij, Bool.xor_false] at hj
  exact ⟨fun hj => hc.free_lt (hstill hj), hc.set_lt, fun hj => hc.disjoint (hstill hj)⟩

theorem Within.flip (hc : c.Within width) (hi : i < width) (hwidth : width ≤ 32)
    (hfixed : c.free.toNat.testBit i = false) : (c.flip i).Within width where
  free_lt := hc.free_lt
  set_lt {j} hj := by
    by_cases hij : i = j
    · omega
    · rw [testBit_flip (by omega), decide_eq_false hij, Bool.xor_false] at hj
      exact hc.set_lt hj
  disjoint {j} hj := by
    have hij : i ≠ j := by
      rintro rfl
      exact Bool.false_ne_true (hfixed.symm.trans hj)
    rw [testBit_flip (by omega), decide_eq_false hij, Bool.xor_false]
    exact hc.disjoint hj

/-- Whether `k` of the first `width` variables are free, no others are, and every assignment in the cube lies in `S`.
A level of the merging is complete if it holds just these cubes. -/
structure Inside (width : Nat) (S : UInt32 → Prop) (k : Nat) (c : Cube) : Prop where
  within : c.Within width
  card_fixed : (c.fixed width).card + k = width
  inside : ∀ {w}, c.Contains w → S w

/-- Whether the cube lies in `S` and with each fixed variable there is an assignment outside `S` that differs from the
cube in this variable alone. So no fixed variable can be freed without leaving the set. -/
structure IsPrime (width : Nat) (S : UInt32 → Prop) (c : Cube) : Prop where
  within : c.Within width
  inside : ∀ {w}, c.Contains w → S w
  maximal : ∀ {i}, i < width → c.free.toNat.testBit i = false → ∃ w, (c.flip i).Contains w ∧ ¬S w

/-- The cubes without free variables are the single assignments in the set, as words that have no bits beyond the
first variables. -/
theorem inside_zero_iff (hwidth : width < 32) : c.Inside width S 0 ↔ c = ofBits width c.value ∧ S c.value := by
  constructor
  · intro hc
    have hall : c.fixed width = Finset.range width := by
      refine Finset.eq_of_subset_of_card_le (Finset.filter_subset _ _) ?_
      have hcard := hc.card_fixed
      rw [Finset.card_range]
      omega
    refine ⟨hc.within.ext (within_ofBits hwidth c.value) (fun i hi => ?_) fun i hi => ?_, hc.inside fun _ => .inr rfl⟩
    · rw [testBit_free_ofBits]
      exact (mem_fixed.1 (hall ▸ Finset.mem_range.2 hi)).2
    · rw [testBit_value_ofBits hwidth, decide_eq_true hi, Bool.true_and]
  · rintro ⟨hrow, hS⟩
    rw [hrow] at hS ⊢
    refine ⟨within_ofBits hwidth _, ?_, fun hw => contains_ofBits.1 hw ▸ hS⟩
    rw [fixed, Finset.filter_true_of_mem fun i _ => testBit_free_ofBits _ _ i, Finset.card_range]
    rfl

theorem Inside.release {k : Nat} (hc : c.Inside width S k) (hflip : (c.flip i).Inside width S k)
    (hi : i < width) (hwidth : width ≤ 32) (hfree : c.free.toNat.testBit i = false)
    (hset : c.value.toNat.testBit i = false) : (c.release i).Inside width S (k + 1) where
  within := hc.within.release hi hwidth hset
  card_fixed := by
    have hmem : i ∈ c.fixed width := mem_fixed.2 ⟨hi, hfree⟩
    have hpos := Finset.card_pos.2 ⟨i, hmem⟩
    have hcard := hc.card_fixed
    rw [fixed_release hi hwidth, Finset.card_erase_of_mem hmem]
    omega
  inside {w} hw := by
    obtain hw | hw := (contains_release (by omega)).1 hw
    · exact hc.inside hw
    · exact hflip.inside hw

/-- A cube with a free variable is the union of two halves, which fix it to zero and to one. -/
theorem Inside.halves {k : Nat} (hc : c.Inside width S (k + 1)) (hi : i < width) (hwidth : width ≤ 32)
    (hfree : c.free.toNat.testBit i = true) :
    (c.fix i).Inside width S k ∧ ((c.fix i).flip i).Inside width S k := by
  have hi' : i < 32 := by omega
  have hfixed := testBit_fix_self hi' hfree
  have hwithin := hc.within.fix hi' hfree
  have hcard : ((c.fix i).fixed width).card + k = width := by
    have hmem : i ∈ (c.fix i).fixed width := mem_fixed.2 ⟨hi, hfixed⟩
    have hpos := Finset.card_pos.2 ⟨i, hmem⟩
    have herase := fixed_release (c := c.fix i) hi hwidth
    rw [release_fix hi' hfree] at herase
    have hcard := hc.card_fixed
    rw [herase, Finset.card_erase_of_mem hmem] at hcard
    omega
  have hunion : ∀ w, (c.fix i).Contains w ∨ ((c.fix i).flip i).Contains w → S w := by
    intro w hw
    rw [← contains_release hi', release_fix hi' hfree] at hw
    exact hc.inside hw
  exact ⟨⟨hwithin, hcard, fun hw => hunion _ (.inl hw)⟩,
    ⟨hwithin.flip hi hwidth hfixed, hcard, fun hw => hunion _ (.inr hw)⟩⟩

end Cube

section Levels

variable {width k : Nat} {S : UInt32 → Prop} {level : Level} {c : Cube}

/-- The next level of a complete level is complete: a cube with one more free variable is the union of two halves,
which lie inside the set as well and therefore in this level. -/
theorem mem_merged_iff_inside (hwidth : width ≤ 32) (hlevel : ∀ {c}, c ∈ level ↔ c.Inside width S k) :
    c ∈ level.merged width ↔ c.Inside width S (k + 1) := by
  rw [mem_merged]
  constructor
  · rintro ⟨d, hd, i, hi, hfree, hset, hflip, rfl⟩
    rw [Cube.isFree_eq_testBit (by omega)] at hfree
    rw [Cube.isSet_eq_testBit (by omega)] at hset
    exact (hlevel.1 hd).release (hlevel.1 hflip) hi hwidth hfree hset
  · intro hc
    have hless : (c.fixed width).card < (Finset.range width).card := by
      have hcard := hc.card_fixed
      rw [Finset.card_range]
      omega
    obtain ⟨i, hi, hnot⟩ := Finset.exists_mem_notMem_of_card_lt_card hless
    have hi := Finset.mem_range.1 hi
    have hi' : i < 32 := by omega
    have hfree : c.free.toNat.testBit i = true := by
      rw [Cube.mem_fixed, not_and, Bool.not_eq_false] at hnot
      exact hnot hi
    obtain ⟨hzero, hone⟩ := hc.halves hi hwidth hfree
    refine ⟨c.fix i, hlevel.2 hzero, i, hi, ?_, ?_, hlevel.2 hone, Cube.release_fix hi' hfree⟩
    · rw [Cube.isFree_eq_testBit hi', Cube.testBit_fix_self hi' hfree]
    · rw [Cube.isSet_eq_testBit hi']
      exact hc.within.disjoint hfree

/-- The primes of a complete level are the prime cubes of its size: a cube has no neighbour in a complete level just
when no fixed variable can be freed. -/
theorem mem_primes_iff_isPrime (hwidth : width ≤ 32) (hlevel : ∀ {c}, c ∈ level ↔ c.Inside width S k) :
    c ∈ level.primes width ↔ c.IsPrime width S ∧ (c.fixed width).card + k = width := by
  simp only [Level.primes, List.mem_filter, TreeSet.mem_toList, List.all_eq_true, List.mem_range, Bool.or_eq_true,
    Bool.not_eq_true', ← Bool.not_eq_true, TreeSet.contains_iff_mem]
  constructor
  · rintro ⟨hc, hprime⟩
    have hc := hlevel.1 hc
    refine ⟨⟨hc.within, hc.inside, ?_⟩, hc.card_fixed⟩
    intro i hi hfixed
    obtain hfree | hflip := hprime i hi
    · rw [Cube.isFree_eq_testBit (by omega), hfixed] at hfree
      cases hfree
    · by_contra hnone
      refine hflip (hlevel.2 ⟨hc.within.flip hi hwidth hfixed, hc.card_fixed, fun {w} hw => ?_⟩)
      by_contra hout
      exact hnone ⟨w, hw, hout⟩
  · rintro ⟨hc, hcard⟩
    refine ⟨hlevel.2 ⟨hc.within, hcard, hc.inside⟩, ?_⟩
    intro i hi
    cases hfree : c.isFree i with
    | true => exact .inl rfl
    | false =>
      rw [Cube.isFree_eq_testBit (by omega)] at hfree
      obtain ⟨w, hw, hout⟩ := hc.maximal hi hfree
      exact .inr fun hflip => hout ((hlevel.1 hflip).inside hw)

theorem mem_primesFrom_iff_isPrime (hwidth : width ≤ 32) {steps : Nat}
    (hlevel : ∀ {c}, c ∈ level ↔ c.Inside width S k) : c ∈ primesFrom width steps level ↔
      c.IsPrime width S ∧ (c.fixed width).card + k ≤ width ∧ width ≤ (c.fixed width).card + k + steps := by
  induction steps generalizing level k with
  | zero =>
    rw [primesFrom, mem_primes_iff_isPrime hwidth hlevel]
    exact and_congr_right fun _ => by omega
  | succ steps ih =>
    rw [primesFrom, List.mem_append, mem_primes_iff_isPrime hwidth hlevel,
      ih (mem_merged_iff_inside hwidth hlevel), ← and_or_left]
    exact and_congr_right fun _ => by omega

theorem nodup_primes : (level.primes width).Nodup := by
  apply List.Nodup.filter
  refine (TreeSet.distinct_toList (t := level)).imp ?_
  rintro c _ hne rfl
  exact hne compare_self

/-- No prime is found twice: the cubes of different levels have different numbers of free variables. -/
theorem nodup_primesFrom (hwidth : width ≤ 32) {steps : Nat} (hlevel : ∀ {c}, c ∈ level ↔ c.Inside width S k) :
    (primesFrom width steps level).Nodup := by
  induction steps generalizing level k with
  | zero => exact nodup_primes
  | succ steps ih =>
    have hmerged := fun {c} => mem_merged_iff_inside (c := c) hwidth hlevel
    rw [primesFrom, List.nodup_append']
    refine ⟨nodup_primes, ih hmerged, ?_⟩
    intro c hlower hupper
    have hcard := ((mem_primes_iff_isPrime hwidth hlevel).1 hlower).2
    have hle := ((mem_primesFrom_iff_isPrime hwidth hmerged).1 hupper).2.1
    omega

end Levels

section PrimeImplicants

variable {width : Nat} {S : UInt32 → Prop} {cubes : List Cube}

theorem mem_ofList_iff_inside (hcubes : ∀ {c}, c ∈ cubes ↔ c.Inside width S 0) {c : Cube} :
    c ∈ (TreeSet.ofList cubes : Level) ↔ c.Inside width S 0 := by
  rw [TreeSet.mem_ofList, List.contains_iff_mem, hcubes]

/-- The prime implicants of a set of assignments are its prime cubes, with any number of free variables. -/
theorem mem_primeImplicants_iff (hwidth : width ≤ 32) (hcubes : ∀ {c}, c ∈ cubes ↔ c.Inside width S 0)
    {c : Cube} : c ∈ primeImplicants width cubes ↔ c.IsPrime width S := by
  rw [primeImplicants, mem_primesFrom_iff_isPrime hwidth (mem_ofList_iff_inside hcubes)]
  refine and_iff_left ⟨?_, ?_⟩
  · exact Cube.card_fixed_le width c
  · omega

theorem nodup_primeImplicants (hwidth : width ≤ 32) (hcubes : ∀ {c}, c ∈ cubes ↔ c.Inside width S 0) :
    (primeImplicants width cubes).Nodup :=
  nodup_primesFrom hwidth (mem_ofList_iff_inside hcubes)

end PrimeImplicants

end BoolPoly.Karnaugh

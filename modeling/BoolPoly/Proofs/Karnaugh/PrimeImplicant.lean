import BoolPoly.Karnaugh.PrimeImplicant
import BoolPoly.Proofs.Karnaugh.Word
import Mathlib.Data.Finset.Card
import Mathlib.Data.Finset.Range

open Std

namespace BoolPoly.Karnaugh

theorem testBit_bit {i j : Nat} (hi : i < 32) : (bit i).toNat.testBit j = decide (i = j) := by
  rw [toNat_bit hi, Nat.testBit_two_pow]

namespace Cube

theorem testBit_release {c : Cube} {i j : Nat} (hi : i < 32) :
    (c.release i).free.toNat.testBit j = (c.free.toNat.testBit j || decide (i = j)) := by
  rw [release, UInt32.toNat_or, Nat.testBit_or, testBit_bit hi]

theorem testBit_flip {c : Cube} {i j : Nat} (hi : i < 32) :
    (c.flip i).value.toNat.testBit j = (c.value.toNat.testBit j ^^ decide (i = j)) := by
  rw [flip, UInt32.toNat_xor, Nat.testBit_xor, testBit_bit hi]

theorem isSet_flip {c : Cube} {i : Nat} (hi : i < 32) : (c.flip i).isSet i = !c.isSet i := by
  rw [isSet_eq_testBit hi, isSet_eq_testBit hi, testBit_flip hi, decide_eq_true rfl, Bool.xor_true]

theorem flip_flip (c : Cube) (i : Nat) : (c.flip i).flip i = c := by
  rw [flip, flip, UInt32.xor_assoc, UInt32.xor_self, UInt32.xor_zero]

/-- Freeing a fixed variable adds the assignments of the neighbour across this variable, and no others. -/
theorem contains_release {c : Cube} {i : Nat} (hi : i < 32) {w : UInt32} :
    (c.release i).Contains w ↔ c.Contains w ∨ (c.flip i).Contains w := by
  constructor
  · intro hw
    have hother : ∀ j, i ≠ j → c.free.toNat.testBit j = true ∨ c.value.toNat.testBit j = w.toNat.testBit j := by
      intro j hij
      have hj := hw j
      rwa [testBit_release hi, decide_eq_false hij, Bool.or_false] at hj
    by_cases hvalue : c.value.toNat.testBit i = w.toNat.testBit i
    · left
      intro j
      by_cases hij : i = j
      · exact .inr (hij ▸ hvalue)
      · exact hother j hij
    · right
      intro j
      rw [testBit_flip hi]
      by_cases hij : i = j
      · subst hij
        right
        rw [decide_eq_true rfl, Bool.xor_true]
        exact Bool.not_eq.2 hvalue
      · rw [decide_eq_false hij, Bool.xor_false]
        exact hother j hij
  · rintro (hw | hw) j
    · rw [testBit_release hi]
      rcases hw j with hj | hj
      · exact .inl (by rw [hj, Bool.true_or])
      · exact .inr hj
    · rw [testBit_release hi]
      by_cases hij : i = j
      · exact .inl (by rw [decide_eq_true hij, Bool.or_true])
      · rcases hw j with hj | hj
        · exact .inl (by rw [show c.free.toNat.testBit j = true from hj, Bool.true_or])
        · rw [testBit_flip hi, decide_eq_false hij, Bool.xor_false] at hj
          exact .inr hj

theorem Within.release {width : Nat} {c : Cube} (hc : c.Within width) {i : Nat} (hi : i < width)
    (hwidth : width ≤ 32) (hset : c.value.toNat.testBit i = false) : (c.release i).Within width where
  free_lt {j} hj := by
    rw [testBit_release (by omega), Bool.or_eq_true, decide_eq_true_iff] at hj
    rcases hj with hj | rfl
    · exact hc.free_lt hj
    · exact hi
  set_lt hj := hc.set_lt hj
  disjoint {j} hj := by
    rw [testBit_release (by omega), Bool.or_eq_true, decide_eq_true_iff] at hj
    rcases hj with hj | rfl
    · exact hc.disjoint hj
    · exact hset

/-- The fixed variables among the first `width`. Their number decides the level of a cube. -/
def fixed (width : Nat) (c : Cube) : Finset Nat :=
  (Finset.range width).filter fun i => c.free.toNat.testBit i = false

theorem mem_fixed {width i : Nat} {c : Cube} :
    i ∈ c.fixed width ↔ i < width ∧ c.free.toNat.testBit i = false := by
  rw [fixed, Finset.mem_filter, Finset.mem_range]

theorem card_fixed_le (width : Nat) (c : Cube) : (c.fixed width).card ≤ width :=
  (Finset.card_filter_le _ _).trans (Finset.card_range width).le

/-- Freeing a variable takes it from the fixed ones, so that merging goes on for at most `width` rounds. -/
theorem fixed_release {width i : Nat} {c : Cube} (hi : i < width) (hwidth : width ≤ 32) :
    (c.release i).fixed width = (c.fixed width).erase i := by
  ext j
  rw [Finset.mem_erase, mem_fixed, mem_fixed, testBit_release (by omega), Bool.or_eq_false_iff,
    decide_eq_false_iff_not, ne_comm]
  tauto

theorem card_fixed_release {width i : Nat} {c : Cube} (hi : i < width) (hwidth : width ≤ 32)
    (hfree : c.free.toNat.testBit i = false) : ((c.release i).fixed width).card < (c.fixed width).card := by
  rw [fixed_release hi hwidth]
  exact Finset.card_erase_lt_of_mem (mem_fixed.2 ⟨hi, hfree⟩)

end Cube

section Levels

variable {width : Nat} {S : UInt32 → Prop} {level : Level}

/-- Whether every cube is a cube of the first `width` variables whose assignments lie in `S`. Merging two neighbours
unites their assignments, so it keeps a level sound. -/
structure Sound (width : Nat) (S : UInt32 → Prop) (cubes : List Cube) : Prop where
  within : ∀ {c}, c ∈ cubes → c.Within width
  inside : ∀ {c}, c ∈ cubes → ∀ {w}, c.Contains w → S w

theorem mem_merged {c : Cube} : c ∈ level.merged width ↔
    ∃ d ∈ level, ∃ i < width, d.isFree i = false ∧ d.isSet i = false ∧ d.flip i ∈ level ∧ d.release i = c := by
  rw [Level.merged, TreeSet.mem_ofList, List.contains_iff_mem, List.mem_flatMap]
  constructor
  · rintro ⟨d, hd, hc⟩
    obtain ⟨i, hi, hrelease⟩ := List.mem_filterMap.1 hc
    rw [Option.ite_none_right_eq_some] at hrelease
    obtain ⟨hcond, hrelease⟩ := hrelease
    simp only [Bool.and_eq_true, Bool.not_eq_true'] at hcond
    exact ⟨d, TreeSet.mem_toList.1 hd, i, List.mem_range.1 hi, hcond.1.1, hcond.1.2,
      TreeSet.contains_iff_mem.1 hcond.2, Option.some.inj hrelease⟩
  · rintro ⟨d, hd, i, hi, hfree, hset, hflip, rfl⟩
    refine ⟨d, TreeSet.mem_toList.2 hd, List.mem_filterMap.2 ⟨i, List.mem_range.2 hi, ?_⟩⟩
    rw [hfree, hset, TreeSet.contains_iff_mem.2 hflip]
    rfl

theorem Sound.merged (hwidth : width ≤ 32) (hlevel : Sound width S level.toList) :
    Sound width S (level.merged width).toList where
  within {c} hc := by
    obtain ⟨d, hd, i, hi, -, hset, -, rfl⟩ := mem_merged.1 (TreeSet.mem_toList.1 hc)
    rw [Cube.isSet_eq_testBit (by omega)] at hset
    exact (hlevel.within (TreeSet.mem_toList.2 hd)).release hi hwidth hset
  inside {c} hc w hw := by
    obtain ⟨d, hd, i, hi, -, -, hflip, rfl⟩ := mem_merged.1 (TreeSet.mem_toList.1 hc)
    rcases (Cube.contains_release (by omega)).1 hw with hw | hw
    · exact hlevel.inside (TreeSet.mem_toList.2 hd) hw
    · exact hlevel.inside (TreeSet.mem_toList.2 hflip) hw

theorem Sound.primesFrom (hwidth : width ≤ 32) (steps : Nat) (hlevel : Sound width S level.toList) :
    Sound width S (primesFrom width steps level) := by
  induction steps generalizing level with
  | zero =>
    exact ⟨fun hc => hlevel.within (List.mem_filter.1 hc).1, fun hc => hlevel.inside (List.mem_filter.1 hc).1⟩
  | succ steps ih =>
    have hmerged := ih (hlevel.merged hwidth)
    constructor
    · intro c hc
      rcases List.mem_append.1 hc with hc | hc
      · exact hlevel.within (List.mem_filter.1 hc).1
      · exact hmerged.within hc
    · intro c hc
      rcases List.mem_append.1 hc with hc | hc
      · exact hlevel.inside (List.mem_filter.1 hc).1
      · exact hmerged.inside hc

/-- A cube of a level is prime or lies inside a cube of the next one, which fixes fewer variables. So every cube has
reached a prime when no level is left. -/
theorem mem_primes_or_merged (hwidth : width ≤ 32) {c : Cube} (hc : c ∈ level) :
    c ∈ level.primes width ∨ ∃ d ∈ level.merged width, (d.fixed width).card < (c.fixed width).card ∧
      ∀ w, c.Contains w → d.Contains w := by
  by_cases hprime : c ∈ level.primes width
  · exact .inl hprime
  · right
    rw [Level.primes, List.mem_filter, not_and] at hprime
    have hneighbour := hprime (TreeSet.mem_toList.2 hc)
    simp only [List.all_eq_true, List.mem_range, Bool.or_eq_true, Bool.not_eq_true', not_forall, not_or,
      Bool.not_eq_true, Bool.not_eq_false] at hneighbour
    obtain ⟨i, hi, hfree, hflip⟩ := hneighbour
    have hi' : i < 32 := by omega
    have hflip := TreeSet.contains_iff_mem.1 hflip
    have hfree' : c.free.toNat.testBit i = false := by rwa [← Cube.isFree_eq_testBit hi']
    have hcontains : ∀ w, c.Contains w → ((c.flip i).release i).Contains w := by
      intro w hw
      have hunion := Cube.contains_release (c := c.flip i) hi' (w := w)
      rw [Cube.flip_flip] at hunion
      exact hunion.2 (.inr hw)
    cases hset : c.isSet i with
    | false =>
      exact ⟨c.release i, mem_merged.2 ⟨c, hc, i, hi, hfree, hset, hflip, rfl⟩,
        Cube.card_fixed_release hi hwidth hfree',
        fun w hw => (Cube.contains_release hi').2 (.inl hw)⟩
    | true =>
      have hset' : (c.flip i).isSet i = false := by rw [Cube.isSet_flip hi', hset, Bool.not_true]
      refine ⟨(c.flip i).release i, mem_merged.2 ⟨c.flip i, hflip, i, hi, hfree, hset', ?_, rfl⟩,
        Cube.card_fixed_release (c := c.flip i) hi hwidth hfree', hcontains⟩
      rwa [Cube.flip_flip]

theorem exists_mem_primesFrom (hwidth : width ≤ 32) {steps : Nat} {c : Cube} (hc : c ∈ level)
    (hsteps : (c.fixed width).card ≤ steps) {w : UInt32} (hw : c.Contains w) :
    ∃ d ∈ primesFrom width steps level, d.Contains w := by
  induction steps generalizing level c with
  | zero =>
    rcases mem_primes_or_merged hwidth hc with hprime | ⟨d, -, hfixed, -⟩
    · exact ⟨c, hprime, hw⟩
    · omega
  | succ steps ih =>
    rcases mem_primes_or_merged hwidth hc with hprime | ⟨d, hd, hfixed, hcontains⟩
    · exact ⟨c, List.mem_append_left _ hprime, hw⟩
    · obtain ⟨e, he, hcontains⟩ := ih hd (by omega) (hcontains w hw)
      exact ⟨e, List.mem_append_right _ he, hcontains⟩

end Levels

section PrimeImplicants

variable {width : Nat} {S : UInt32 → Prop} {cubes : List Cube}

theorem Sound.primeImplicants (hwidth : width ≤ 32) (h : Sound width S cubes) :
    Sound width S (primeImplicants width cubes) := by
  have hmem : ∀ {c}, c ∈ TreeSet.toList (.ofList cubes : Level) → c ∈ cubes := by
    intro c hc
    rwa [TreeSet.mem_toList, TreeSet.mem_ofList, List.contains_iff_mem] at hc
  exact Sound.primesFrom hwidth width ⟨fun hc => h.within (hmem hc), fun hc => h.inside (hmem hc)⟩

/-- An assignment in one of the cubes lies in a prime implicant: merging takes a cube out only when it goes on to a
greater one. -/
theorem exists_mem_primeImplicants (hwidth : width ≤ 32) {c : Cube} (hc : c ∈ cubes) {w : UInt32}
    (hw : c.Contains w) : ∃ d ∈ primeImplicants width cubes, d.Contains w := by
  refine exists_mem_primesFrom hwidth ?_ (Cube.card_fixed_le width c) hw
  rwa [TreeSet.mem_ofList, List.contains_iff_mem]

end PrimeImplicants

end BoolPoly.Karnaugh

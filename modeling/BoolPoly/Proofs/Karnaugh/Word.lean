import BoolPoly.Karnaugh.Cube
import Mathlib.Data.List.Nodup
import Mathlib.Data.Nat.Bitwise

open Std

namespace BoolPoly.Karnaugh

theorem word_ext {x y : UInt32} (h : ∀ i, x.toNat.testBit i = y.toNat.testBit i) : x = y :=
  UInt32.toNat_inj.1 (Nat.eq_of_testBit_eq h)

theorem lt_of_testBit {n width i : Nat} (hn : n < 2 ^ width) (h : n.testBit i = true) : i < width := by
  by_contra hge
  rw [Nat.testBit_lt_two_pow (hn.trans_le (Nat.pow_le_pow_right (by decide) (Nat.not_lt.1 hge)))] at h
  cases h

theorem toNat_bit {i : Nat} (hi : i < 32) : (bit i).toNat = 2 ^ i := by
  rw [bit, UInt32.toNat_shiftLeft, UInt32.toNat_ofNat', UInt32.toNat_one, Nat.mod_eq_of_lt (a := i) (by omega),
    Nat.mod_eq_of_lt hi, Nat.one_shiftLeft]
  exact Nat.mod_eq_of_lt (Nat.pow_lt_pow_right (by decide) hi)

theorem and_bit_ne_zero {x : UInt32} {i : Nat} (hi : i < 32) :
    (x &&& bit i != 0) = x.toNat.testBit i := by
  have hand : (x &&& bit i).toNat = x.toNat &&& 2 ^ i := by rw [UInt32.toNat_and, toNat_bit hi]
  rw [Bool.eq_iff_iff, bne_iff_ne, Ne, ← UInt32.toNat_inj, hand, Nat.and_two_pow]
  cases x.toNat.testBit i with
  | false => simp
  | true => simp

namespace Cube

theorem isFree_eq_testBit {c : Cube} {i : Nat} (hi : i < 32) : c.isFree i = c.free.toNat.testBit i :=
  and_bit_ne_zero hi

theorem isSet_eq_testBit {c : Cube} {i : Nat} (hi : i < 32) : c.isSet i = c.value.toNat.testBit i :=
  and_bit_ne_zero hi

/-- Whether the assignment lies in the cube: it has the values of the fixed variables, and any values of the free
ones. -/
def Contains (c : Cube) (w : UInt32) : Prop :=
  ∀ i, c.free.toNat.testBit i = true ∨ c.value.toNat.testBit i = w.toNat.testBit i

/-- Whether only the first `width` variables are free or set, and none is both. Cubes that come from a table of this
width satisfy it. -/
structure Within (width : Nat) (c : Cube) : Prop where
  free_lt : ∀ {i : Nat}, c.free.toNat.testBit i = true → i < width
  set_lt : ∀ {i : Nat}, c.value.toNat.testBit i = true → i < width
  disjoint : ∀ {i : Nat}, c.free.toNat.testBit i = true → c.value.toNat.testBit i = false

section Within

variable {width i : Nat} {c d : Cube} {w : UInt32}

/-- In a whole word it is enough that no free variable is set: no bit lies beyond the 32 of a word. -/
theorem within_of_and_eq_zero (h : c.value &&& c.free = 0) : c.Within 32 := by
  refine ⟨lt_of_testBit c.free.toNat_lt, lt_of_testBit c.value.toNat_lt, fun {i} hfree => ?_⟩
  have hbit : (c.value &&& c.free).toNat.testBit i = false := by rw [h, UInt32.toNat_zero, Nat.zero_testBit]
  rwa [UInt32.toNat_and, Nat.testBit_and, hfree, Bool.and_true] at hbit

theorem Within.testBit_free_ge (hc : c.Within width) (hi : width ≤ i) : c.free.toNat.testBit i = false := by
  rw [← Bool.not_eq_true]
  exact fun hfree => Nat.not_lt.2 hi (hc.free_lt hfree)

theorem Within.testBit_value_ge (hc : c.Within width) (hi : width ≤ i) : c.value.toNat.testBit i = false := by
  rw [← Bool.not_eq_true]
  exact fun hset => Nat.not_lt.2 hi (hc.set_lt hset)

/-- Cubes that agree on the first variables are equal, as they have no other bits. -/
theorem Within.ext (hc : c.Within width) (hd : d.Within width)
    (hfree : ∀ i < width, c.free.toNat.testBit i = d.free.toNat.testBit i)
    (hvalue : ∀ i < width, c.value.toNat.testBit i = d.value.toNat.testBit i) : c = d := by
  have hfree' : c.free = d.free := by
    apply word_ext
    intro i
    by_cases hi : i < width
    · exact hfree i hi
    · rw [hc.testBit_free_ge (by omega), hd.testBit_free_ge (by omega)]
  have hvalue' : c.value = d.value := by
    apply word_ext
    intro i
    by_cases hi : i < width
    · exact hvalue i hi
    · rw [hc.testBit_value_ge (by omega), hd.testBit_value_ge (by omega)]
  obtain ⟨value, free⟩ := c
  exact congrArg₂ Cube.mk hvalue' hfree'

theorem Within.toNat_lt (hc : c.Within width) (hw : c.Contains w) : w.toNat < 2 ^ width := by
  apply Nat.lt_pow_two_of_testBit
  intro i hi
  obtain hfree | hvalue := hw i
  · rw [hc.testBit_free_ge hi] at hfree
    cases hfree
  · rw [← hvalue, hc.testBit_value_ge hi]

/-- A cube contains the assignments to the first variables that have its fixed values. -/
theorem Within.contains_of_fixed (hc : c.Within width) (hw : w.toNat < 2 ^ width)
    (h : ∀ i < width, c.free.toNat.testBit i = false → c.value.toNat.testBit i = w.toNat.testBit i) :
    c.Contains w := by
  intro i
  cases hfree : c.free.toNat.testBit i with
  | true => exact .inl rfl
  | false =>
    right
    by_cases hi : i < width
    · exact h i hi hfree
    · rw [hc.testBit_value_ge (by omega),
        Nat.testBit_lt_two_pow (hw.trans_le (Nat.pow_le_pow_right (by decide) (by omega)))]

end Within

section OfBits

variable {width : Nat}

theorem testBit_free_ofBits (width : Nat) (bits : UInt32) (i : Nat) :
    (ofBits width bits).free.toNat.testBit i = false := by
  rw [Cube.ofBits, UInt32.toNat_zero, Nat.zero_testBit]

theorem testBit_value_ofBits (hwidth : width < 32) (bits : UInt32) (i : Nat) :
    (ofBits width bits).value.toNat.testBit i = (decide (i < width) && bits.toNat.testBit i) := by
  have hmask : (bit width - 1).toNat = 2 ^ width - 1 := by
    have hone : (1 : UInt32) ≤ bit width := by
      rw [UInt32.le_iff_toNat_le, toNat_bit hwidth]
      exact Nat.one_le_two_pow
    rw [UInt32.toNat_sub_of_le _ _ hone, toNat_bit hwidth]
    rfl
  rw [Cube.ofBits, UInt32.toNat_and, hmask, Nat.and_two_pow_sub_one_eq_mod, Nat.testBit_mod_two_pow]

theorem within_ofBits (hwidth : width < 32) (bits : UInt32) : (ofBits width bits).Within width where
  free_lt {i} hfree := by
    rw [testBit_free_ofBits] at hfree
    cases hfree
  set_lt {i} hset := by
    rw [testBit_value_ofBits hwidth, Bool.and_eq_true, decide_eq_true_iff] at hset
    exact hset.1
  disjoint {i} hfree := by
    rw [testBit_free_ofBits] at hfree
    cases hfree

/-- Only the bits of the first variables are kept, so that cutting them off once more changes nothing. -/
theorem ofBits_value_ofBits (hwidth : width < 32) (bits : UInt32) :
    ofBits width (ofBits width bits).value = ofBits width bits := by
  refine (within_ofBits hwidth _).ext (within_ofBits hwidth _) (fun i _ => ?_) fun i hi => ?_
  · rw [testBit_free_ofBits, testBit_free_ofBits]
  · rw [testBit_value_ofBits hwidth, decide_eq_true hi, Bool.true_and]

theorem contains_ofBits {bits w : UInt32} : (ofBits width bits).Contains w ↔ w = (ofBits width bits).value := by
  constructor
  · intro hw
    apply word_ext
    intro i
    obtain hfree | hvalue := hw i
    · rw [testBit_free_ofBits] at hfree
      cases hfree
    · exact hvalue.symm
  · rintro rfl i
    exact .inr rfl

end OfBits

end Cube

/-- The predecessor of a submask leads to it, at every width: beside the bits outside the mask, which are filled with
ones, adding one undoes subtracting one. -/
private theorem sub_and_pred {w : Nat} {x m : BitVec w} (hsub : x &&& m = x) :
    (((x - 1#w) &&& m) - m) &&& m = x := by
  have hout : x &&& ~~~m = 0#w := by
    rw [← hsub, BitVec.and_assoc]
    simp
  have hpred : ((x - 1#w) &&& m) &&& ~~~m = 0#w := by
    rw [BitVec.and_assoc]
    simp
  have hfill : ((x - 1#w) &&& m) + ~~~m = (x - 1#w) + (~~~m &&& ~~~(x - 1#w)) := by
    have hdisjoint : (x - 1#w) &&& (~~~m &&& ~~~(x - 1#w)) = 0#w := by
      ext i hi
      simp only [BitVec.getElem_and, BitVec.getElem_not, BitVec.getElem_zero]
      cases (x - 1#w)[i] <;> simp
    rw [BitVec.add_eq_or_of_and_eq_zero _ _ hpred, BitVec.add_eq_or_of_and_eq_zero _ _ hdisjoint]
    ext i hi
    simp only [BitVec.getElem_and, BitVec.getElem_or, BitVec.getElem_not]
    cases (x - 1#w)[i] <;> simp
  have hcarry : ((x - 1#w) &&& m) - m = x + (~~~m &&& ~~~(x - 1#w)) := by
    calc ((x - 1#w) &&& m) - m
        = (((x - 1#w) &&& m) + ~~~m) + 1#w := by
          rw [BitVec.sub_eq_add_neg, BitVec.neg_eq_not_add, ← BitVec.add_assoc]
      _ = ((x - 1#w) + (~~~m &&& ~~~(x - 1#w))) + 1#w := by rw [hfill]
      _ = ((x - 1#w) + 1#w) + (~~~m &&& ~~~(x - 1#w)) := by
          rw [BitVec.add_assoc, BitVec.add_comm (~~~m &&& _), ← BitVec.add_assoc]
      _ = x + (~~~m &&& ~~~(x - 1#w)) := by rw [BitVec.sub_add_cancel]
  have hdisjoint : x &&& (~~~m &&& ~~~(x - 1#w)) = 0#w := by
    rw [← BitVec.and_assoc, hout, BitVec.zero_and]
  rw [hcarry, BitVec.add_eq_or_of_and_eq_zero _ _ hdisjoint]
  ext i hi
  have hi' : (x &&& m)[i] = x[i] := by rw [hsub]
  simp only [BitVec.getElem_and, BitVec.getElem_or, BitVec.getElem_not] at hi' ⊢
  revert hi'
  cases x[i] <;> cases m[i] <;> simp

theorem nextSubmask_pred {mask x : UInt32} (hsub : x &&& mask = x) :
    nextSubmask mask ((x - 1) &&& mask) = x := by
  apply UInt32.toBitVec_inj.1
  rw [nextSubmask, UInt32.toBitVec_and, UInt32.toBitVec_sub, UInt32.toBitVec_and, UInt32.toBitVec_sub]
  apply sub_and_pred
  rw [← UInt32.toBitVec_and, hsub]

theorem testBit_submask {mask sub : UInt32} (hsub : sub &&& mask = sub) (i : Nat) :
    (sub.toNat.testBit i && mask.toNat.testBit i) = sub.toNat.testBit i := by
  rw [← Nat.testBit_and, ← UInt32.toNat_and, hsub]

theorem mem_submasksFrom_self {mask sub : UInt32} (hsub : sub &&& mask = sub) :
    sub ∈ submasksFrom mask sub hsub := by
  rw [submasksFrom]
  split
  · exact List.mem_singleton_self sub
  · exact List.mem_cons_self

theorem nextSubmask_mem_submasksFrom {mask sub x : UInt32} (hsub : sub &&& mask = sub)
    (hx : x ∈ submasksFrom mask sub hsub) (hne : x ≠ mask) : nextSubmask mask x ∈ submasksFrom mask sub hsub := by
  fun_induction submasksFrom mask sub hsub with
  | case1 hsub => exact absurd (List.mem_singleton.1 hx) hne
  | case2 sub hsub hnot _ ih =>
    rcases List.mem_cons.1 hx with rfl | hx
    · exact List.mem_cons_of_mem _ (mem_submasksFrom_self _)
    · exact List.mem_cons_of_mem _ (ih hx)

theorem submask_of_mem_submasksFrom {mask sub x : UInt32} (hsub : sub &&& mask = sub)
    (hx : x ∈ submasksFrom mask sub hsub) : x &&& mask = x := by
  fun_induction submasksFrom mask sub hsub with
  | case1 hsub => rw [List.mem_singleton.1 hx, UInt32.and_self]
  | case2 sub hsub hnot _ ih =>
    rcases List.mem_cons.1 hx with rfl | hx
    · exact hsub
    · exact ih hx

/-- Every submask is enumerated: zero is the first, and each other one follows its predecessor. The induction goes
down from the submask to zero. -/
theorem mem_submasks {mask x : UInt32} : x ∈ submasks mask ↔ x &&& mask = x := by
  refine ⟨submask_of_mem_submasksFrom _, ?_⟩
  intro hsub
  induction hn : x.toNat using Nat.strongRecOn generalizing x with
  | ind n ih =>
    by_cases hzero : x = 0
    · rw [hzero]
      exact mem_submasksFrom_self _
    · have hpos : x.toNat ≠ 0 := fun h => hzero (UInt32.toNat_inj.1 h)
      have hone : (1 : UInt32) ≤ x := UInt32.le_iff_toNat_le.2 (Nat.one_le_iff_ne_zero.2 hpos)
      have hpred : ((x - 1) &&& mask).toNat < n := by
        rw [UInt32.toNat_and, UInt32.toNat_sub_of_le _ _ hone, ← hn]
        have hle := Nat.and_le_left (n := x.toNat - (1 : UInt32).toNat) (m := mask.toNat)
        have hval : (1 : UInt32).toNat = 1 := rfl
        omega
      have hmem : (x - 1) &&& mask ∈ submasks mask :=
        ih _ hpred (by rw [UInt32.and_assoc, UInt32.and_self]) rfl
      have hne : (x - 1) &&& mask ≠ mask := by
        intro heq
        have hle := toNat_le_of_submask hsub
        rw [heq] at hpred
        omega
      rw [← nextSubmask_pred hsub]
      exact nextSubmask_mem_submasksFrom _ hmem hne

theorem le_of_mem_submasksFrom {mask sub x : UInt32} (hsub : sub &&& mask = sub)
    (hx : x ∈ submasksFrom mask sub hsub) : sub ≤ x := by
  fun_induction submasksFrom mask sub hsub with
  | case1 hsub => exact (List.mem_singleton.1 hx).symm ▸ UInt32.le_refl _
  | case2 sub hsub hnot _ ih =>
    rcases List.mem_cons.1 hx with rfl | hx
    · exact UInt32.le_refl _
    · exact UInt32.le_trans (UInt32.le_of_lt (lt_nextSubmask hsub hnot)) (ih hx)

/-- The submasks are enumerated in ascending order. -/
theorem pairwise_submasksFrom {mask sub : UInt32} (hsub : sub &&& mask = sub) :
    (submasksFrom mask sub hsub).Pairwise (· < ·) := by
  fun_induction submasksFrom mask sub hsub with
  | case1 hsub => exact List.pairwise_singleton _ _
  | case2 sub hsub hnot _ ih =>
    refine List.pairwise_cons.2 ⟨fun x hx => ?_, ih⟩
    exact UInt32.lt_of_lt_of_le (lt_nextSubmask hsub hnot) (le_of_mem_submasksFrom _ hx)

/-- A cube enumerates just the assignments in it, each of them as its fixed values with a submask of the free
variables. -/
theorem Cube.mem_minterms {width : Nat} {c : Cube} (hc : c.Within width) {w : UInt32} :
    w ∈ c.minterms ↔ c.Contains w := by
  rw [minterms, List.mem_map]
  constructor
  · rintro ⟨sub, hsub, rfl⟩ i
    have hbit := testBit_submask (mem_submasks.1 hsub) i
    rw [UInt32.toNat_or, Nat.testBit_or]
    cases hfree : c.free.toNat.testBit i with
    | true => exact .inl rfl
    | false =>
      rw [hfree, Bool.and_false] at hbit
      rw [← hbit, Bool.or_false]
      exact .inr rfl
  · intro hw
    refine ⟨w &&& c.free, ?_, ?_⟩
    · rw [mem_submasks, UInt32.and_assoc, UInt32.and_self]
    · apply word_ext
      intro i
      rw [UInt32.toNat_or, Nat.testBit_or, UInt32.toNat_and, Nat.testBit_and]
      rcases hw i with hfree | hvalue
      · rw [hfree, hc.disjoint hfree, Bool.and_true, Bool.false_or]
      · rw [hvalue]
        cases w.toNat.testBit i <;> simp

/-- No assignment is enumerated twice: the values of the free variables are those of the submask. -/
theorem Cube.nodup_minterms {width : Nat} {c : Cube} (hc : c.Within width) : c.minterms.Nodup := by
  have hread : ∀ sub ∈ submasks c.free, (c.value ||| sub) &&& c.free = sub := by
    intro sub hsub
    apply word_ext
    intro i
    have hbit := testBit_submask (mem_submasks.1 hsub) i
    rw [UInt32.toNat_and, Nat.testBit_and, UInt32.toNat_or, Nat.testBit_or]
    cases hfree : c.free.toNat.testBit i with
    | true => rw [hc.disjoint hfree, Bool.false_or, Bool.and_true]
    | false =>
      rw [hfree, Bool.and_false] at hbit
      rw [Bool.and_false, hbit]
  have hsubmasks : (submasks c.free).Nodup := (pairwise_submasksFrom _).imp UInt32.ne_of_lt
  exact hsubmasks.map_on fun x hx y hy h => by rw [← hread x hx, ← hread y hy, h]

end BoolPoly.Karnaugh

namespace BoolPoly.Karnaugh

/-- A word is the sum of its bits inside and outside a mask. -/
private theorem toNat_and_add_and_not {w : Nat} (y m : BitVec w) :
    (y &&& m).toNat + (y &&& ~~~m).toNat = y.toNat := by
  have hdisjoint : (y &&& m) &&& (y &&& ~~~m) = 0#w := by
    ext i hi
    simp
    grind
  rw [← BitVec.toNat_add_of_and_eq_zero hdisjoint, BitVec.add_eq_or_of_and_eq_zero _ _ hdisjoint,
    ← BitVec.and_or_distrib_left]
  simp

/-- The successor of a proper submask is greater, at every width. -/
private theorem lt_sub_and {w : Nat} {x m : BitVec w} (hsub : x &&& m = x) (hne : x ≠ m) :
    x < (x - m) &&& m := by
  have hdisjoint : x &&& ~~~m = 0#w := by
    rw [← hsub, BitVec.and_assoc]
    simp
  have hcarry : x - m = (x + ~~~m) + 1#w := by
    rw [BitVec.sub_eq_add_neg, BitVec.neg_eq_not_add, ← BitVec.add_assoc]
  have hfilled : (x + ~~~m).toNat = x.toNat + (~~~m).toNat := BitVec.toNat_add_of_and_eq_zero hdisjoint
  have hnot : (~~~m).toNat = 2 ^ w - 1 - m.toNat := BitVec.toNat_not
  have hle : x.toNat ≤ m.toNat := by
    rw [← hsub, BitVec.toNat_and]
    exact Nat.and_le_right
  have hlt : x.toNat < m.toNat := Nat.lt_of_le_of_ne hle fun h => hne (BitVec.eq_of_toNat_eq h)
  have hmax := m.isLt
  have hsucc : (x - m).toNat = x.toNat + (~~~m).toNat + 1 := by
    rw [hcarry, BitVec.toNat_add, hfilled, BitVec.toNat_ofNat]
    have hone : 1 % 2 ^ w = 1 := Nat.mod_eq_of_lt (by omega)
    rw [hone, Nat.mod_eq_of_lt]
    omega
  have hsplit := toNat_and_add_and_not (x - m) m
  have houtside : ((x - m) &&& ~~~m).toNat ≤ (~~~m).toNat := by
    rw [BitVec.toNat_and]
    exact Nat.and_le_right
  rw [BitVec.lt_def]
  omega

/-- The submask of `mask` after `sub`; zero after `mask` itself. Subtracting `mask` adds one to `sub` with every bit
outside `mask` set, so that the carry runs through the gaps of `mask`. -/
def nextSubmask (mask sub : UInt32) : UInt32 := (sub - mask) &&& mask

theorem nextSubmask_and (mask sub : UInt32) : nextSubmask mask sub &&& mask = nextSubmask mask sub := by
  rw [nextSubmask, UInt32.and_assoc, UInt32.and_self]

theorem lt_nextSubmask {mask sub : UInt32} (hsub : sub &&& mask = sub) (hne : sub ≠ mask) :
    sub < nextSubmask mask sub := by
  rw [UInt32.lt_iff_toBitVec_lt, nextSubmask, UInt32.toBitVec_and, UInt32.toBitVec_sub]
  refine lt_sub_and ?_ fun h => hne (UInt32.toBitVec_inj.1 h)
  rw [← UInt32.toBitVec_and, hsub]

theorem toNat_le_of_submask {mask sub : UInt32} (hsub : sub &&& mask = sub) : sub.toNat ≤ mask.toNat := by
  rw [← hsub, UInt32.toNat_and]
  exact Nat.and_le_right

/-- The successor of a proper submask is nearer to the whole mask, so that going on from it comes to an end. -/
theorem nextSubmask_nearer {mask sub : UInt32} (hsub : sub &&& mask = sub) (hne : sub ≠ mask) :
    mask.toNat - (nextSubmask mask sub).toNat < mask.toNat - sub.toNat := by
  have hlt := UInt32.lt_iff_toNat_lt.1 (lt_nextSubmask hsub hne)
  have hle := toNat_le_of_submask (nextSubmask_and mask sub)
  omega

/-- The submasks of `mask` from `sub` on, ascending up to `mask` itself. Every step comes nearer to the mask, which
ends the recursion. -/
def submasksFrom (mask sub : UInt32) (hsub : sub &&& mask = sub) : List UInt32 :=
  if hne : sub = mask then [sub]
  else
    have := nextSubmask_nearer hsub hne
    sub :: submasksFrom mask (nextSubmask mask sub) (nextSubmask_and mask sub)
termination_by mask.toNat - sub.toNat

/-- All submasks of `mask`, from zero to `mask` itself. A mask without bits has just one. -/
def submasks (mask : UInt32) : List UInt32 := submasksFrom mask 0 UInt32.zero_and

end BoolPoly.Karnaugh

import BoolPoly.Proofs.Karnaugh.Word

namespace BoolPoly.Karnaugh

section Submasks

variable {mask sub x : UInt32}

theorem submasksFrom_of_ne (hsub : sub &&& mask = sub) (hne : sub ≠ mask) :
    submasksFrom mask sub hsub = sub :: submasksFrom mask (nextSubmask mask sub) (nextSubmask_and mask sub) := by
  rw [submasksFrom, dif_neg hne]

/-- The submasks from one of them on end the list of all: the enumeration from `sub` is what is left of any
enumeration that comes by `sub`. -/
theorem exists_append_submasksFrom {start : UInt32} (hstart : start &&& mask = start) (hsub : sub &&& mask = sub)
    (hmem : sub ∈ submasksFrom mask start hstart) :
    ∃ smaller, submasksFrom mask start hstart = smaller ++ submasksFrom mask sub hsub := by
  fun_induction submasksFrom mask start hstart with
  | case1 hstart =>
    obtain rfl := List.mem_singleton.1 hmem
    exact ⟨[], by rw [submasksFrom, dif_pos rfl, List.nil_append]⟩
  | case2 start hstart hne _ ih =>
    rcases List.mem_cons.1 hmem with rfl | hmem
    · exact ⟨[], by rw [submasksFrom_of_ne hsub hne, List.nil_append]⟩
    · obtain ⟨smaller, hsplit⟩ := ih hmem
      exact ⟨start :: smaller, by rw [hsplit, List.cons_append]⟩

/-- The submasks from `sub` on are those that are not less. The enumeration from zero meets every submask, and up to
`sub` it has met only smaller ones. -/
theorem mem_submasksFrom (hsub : sub &&& mask = sub) :
    x ∈ submasksFrom mask sub hsub ↔ x &&& mask = x ∧ sub ≤ x := by
  constructor
  · exact fun hx => ⟨submask_of_mem_submasksFrom hsub hx, le_of_mem_submasksFrom hsub hx⟩
  · rintro ⟨hx, hle⟩
    have hmem : x ∈ submasks mask := mem_submasks.2 hx
    obtain ⟨smaller, hsplit⟩ := exists_append_submasksFrom UInt32.zero_and hsub (mem_submasks.2 hsub)
    have hordered : (submasks mask).Pairwise (· < ·) := pairwise_submasksFrom UInt32.zero_and
    rw [submasks, hsplit] at hmem hordered
    rcases List.mem_append.1 hmem with hsmaller | hmem
    · have hlt : x < sub := (List.pairwise_append.1 hordered).2.2 x hsmaller sub (mem_submasksFrom_self hsub)
      exact absurd hle (UInt32.not_le.2 hlt)
    · exact hmem

/-- No submask lies between another one and its successor: the successor is the least of the greater ones. Together
with `lt_nextSubmask` this says that a step neither skips nor repeats a submask. -/
theorem nextSubmask_le (hsub : sub &&& mask = sub) (hx : x &&& mask = x) (hlt : sub < x) :
    nextSubmask mask sub ≤ x := by
  have hne : sub ≠ mask := by
    rintro rfl
    have hle := toNat_le_of_submask hx
    exact absurd (UInt32.lt_iff_toNat_lt.1 hlt) (Nat.not_lt.2 hle)
  have hmem : x ∈ submasksFrom mask sub hsub := (mem_submasksFrom hsub).2 ⟨hx, UInt32.le_of_lt hlt⟩
  rw [submasksFrom_of_ne hsub hne] at hmem
  have hrest := (List.mem_cons.1 hmem).resolve_left (UInt32.ne_of_lt hlt).symm
  exact le_of_mem_submasksFrom (nextSubmask_and mask sub) hrest

end Submasks

namespace Cube

variable {c : Cube}

/-- One step of the iteration over the assignments in a cube: the next assignment, and the state that follows. The
state is the submask that comes next, or none at the end. -/
def next? (c : Cube) : Option UInt32 → Option (UInt32 × Option UInt32)
  | none => none
  | some sub => some (c.value ||| sub, if sub = c.free then none else some (nextSubmask c.free sub))

/-- Whether the steps from a state on yield the listed assignments and then end. Each list is finite, so this says
that the iteration comes to an end. -/
inductive Yields (c : Cube) : Option UInt32 → List UInt32 → Prop
  | done {state : Option UInt32} (h : c.next? state = none) : Yields c state []
  | step {state rest : Option UInt32} {w : UInt32} {ws : List UInt32} (h : c.next? state = some (w, rest))
      (hrest : Yields c rest ws) : Yields c state (w :: ws)

/-- The iteration from a submask on yields the assignments that have the fixed values of the cube, and at the free
variables this submask and then the greater ones. -/
theorem yields_submasksFrom {sub : UInt32} (hsub : sub &&& c.free = sub) :
    c.Yields (some sub) ((submasksFrom c.free sub hsub).map (c.value ||| ·)) := by
  fun_induction submasksFrom c.free sub hsub with
  | case1 hsub => exact .step (by rw [next?, if_pos rfl]) (.done rfl)
  | case2 sub hsub hne _ ih => exact .step (by rw [next?, if_neg hne]) ih

/-- With no value at a free variable, a submask is added to the values of the fixed ones. So the order of the submasks
is that of the assignments. -/
theorem toNat_value_or (h : c.value &&& c.free = 0) {sub : UInt32} (hsub : sub &&& c.free = sub) :
    (c.value ||| sub).toNat = c.value.toNat + sub.toNat := by
  have hdisjoint : c.value.toBitVec &&& sub.toBitVec = 0#32 := by
    rw [← UInt32.toBitVec_and, ← hsub, UInt32.and_comm sub, ← UInt32.and_assoc, h, UInt32.zero_and]
    rfl
  have hsum := BitVec.toNat_add_of_and_eq_zero hdisjoint
  rwa [BitVec.add_eq_or_of_and_eq_zero _ _ hdisjoint, ← UInt32.toBitVec_or] at hsum

/-- A cube whose values are zero at the free variables yields, by steps that come to an end, just the assignments that
agree with it at the fixed variables, in ascending order and therefore each once. No step skips or repeats a
submask. -/
theorem yields_minterms (h : c.value &&& c.free = 0) :
    c.Yields (some 0) c.minterms ∧ c.minterms.Pairwise (· < ·) ∧
    (∀ w, w ∈ c.minterms ↔
      ∀ i < 32, c.free.toNat.testBit i = false → w.toNat.testBit i = c.value.toNat.testBit i) ∧
    ∀ sub, sub &&& c.free = sub → sub ≠ c.free →
      nextSubmask c.free sub &&& c.free = nextSubmask c.free sub ∧ sub < nextSubmask c.free sub ∧
      ∀ x, x &&& c.free = x → sub < x → nextSubmask c.free sub ≤ x := by
  refine ⟨yields_submasksFrom UInt32.zero_and, ?_, fun w => ?_, fun sub hsub hne => ?_⟩
  · rw [minterms, List.pairwise_map]
    refine (pairwise_submasksFrom UInt32.zero_and).imp_of_mem fun {x y} hx hy hlt => ?_
    rw [UInt32.lt_iff_toNat_lt, toNat_value_or h (mem_submasks.1 hx), toNat_value_or h (mem_submasks.1 hy)]
    exact Nat.add_lt_add_left (UInt32.lt_iff_toNat_lt.1 hlt) _
  · have hwithin := within_of_and_eq_zero h
    rw [mem_minterms hwithin]
    constructor
    · intro hw i _ hfixed
      exact ((hw i).resolve_left (Bool.eq_false_iff.1 hfixed)).symm
    · exact fun hw => hwithin.contains_of_fixed w.toNat_lt fun i hi hfixed => (hw i hi hfixed).symm
  · exact ⟨nextSubmask_and c.free sub, lt_nextSubmask hsub hne, fun x hx => nextSubmask_le hsub hx⟩

/-- A cube with gaps between its free variables, the last one of which is in the highest bit: eight assignments, none
of which is skipped. -/
theorem yields_minterms_gaps :
    let c : Cube := ⟨0x40000002, 0x80000014⟩
    c.value &&& c.free = 0 ∧
    c.Yields (some 0) c.minterms ∧ c.minterms.Pairwise (· < ·) ∧
    (∀ w, w ∈ c.minterms ↔
      ∀ i < 32, c.free.toNat.testBit i = false → w.toNat.testBit i = c.value.toNat.testBit i) ∧
    nextSubmask c.free 0x14 = 0x80000000 ∧ ∀ x, x &&& c.free = x → 0x14 < x → 0x80000000 ≤ x := by
  intro c
  have h : c.value &&& c.free = 0 := by decide
  obtain ⟨hyields, hordered, hmem, hnext⟩ := yields_minterms h
  have hsucc : nextSubmask c.free 0x14 = 0x80000000 := by decide
  obtain ⟨-, -, hleast⟩ := hnext 0x14 (by decide) (by decide)
  rw [hsucc] at hleast
  exact ⟨h, hyields, hordered, hmem, hsucc, hleast⟩

end Cube

end BoolPoly.Karnaugh

import BoolPoly.Proofs.EquationSystem.Check

open Std

namespace BoolPoly

open Probing (valueAt)

namespace EquationSystem

/-- The value of a variable in a partial solution, false if it is left open or lies beyond the end of the list. -/
def givenValue (given : Array (Option Bool)) (v : Var) : Bool := given[v]?.join.getD false

/-- Writes a value into the slot of a variable, provided that there is one. A missing slot ends the completion without
a result. -/
def write? (slots : Array Bool) (v : Var) (b : Bool) : Option (Array Bool) :=
  if v < slots.size then some (slots.setIfInBounds v b) else none

/-- Writes the value of a replaced variable, provided that the root has a slot to read it from. -/
def writeReplaced? (slots : Array Bool) (v : Var) (r : Replacement) : Option (Array Bool) :=
  slots[r.root]?.bind fun b => write? slots v (b ^^ r.inverted)

/-- Completes a partial solution in place. Every slot first gets the value that the partial solution gives its
variable. Then there are two passes, in which the known values and the values of the replaced variables are written
over these, in the order in which the facts are listed. -/
def overwrite? (s : EquationSystem) (given : Array (Option Bool)) (values : List (Var × Bool))
    (replacements : List (Var × Replacement)) : Option Solution :=
  let slots := Array.ofFn fun v : Fin s.numVars => givenValue given v
  (values.foldlM (fun slots entry => write? slots entry.1 entry.2) slots).bind fun slots =>
    replacements.foldlM (fun slots entry => writeReplaced? slots entry.1 entry.2) slots

section Passes

variable {n : Nat} {target : Var → Bool} {pending : List Var} {slots next : Array Bool} {v : Var}

/-- Whether the slots of all variables have their final values, but for those of `pending`. Each write makes one
variable final, and the slots left alone from the start are those of the free variables. -/
structure FinalBut (n : Nat) (target : Var → Bool) (pending : List Var) (slots : Array Bool) : Prop where
  size_eq : slots.size = n
  final : ∀ v, v < n → v ∉ pending → slots[v]? = some (target v)

theorem FinalBut.eq (h : FinalBut n target [] slots) (hnext : FinalBut n target [] next) : slots = next := by
  apply Array.ext_getElem?
  intro v
  by_cases hv : v < n
  · rw [h.final v hv List.not_mem_nil, hnext.final v hv List.not_mem_nil]
  · rw [Array.getElem?_eq_none (h.size_eq ▸ Nat.not_lt.1 hv), Array.getElem?_eq_none (hnext.size_eq ▸ Nat.not_lt.1 hv)]

theorem FinalBut.write (h : FinalBut n target (v :: pending) slots) (hv : v < n) :
    ∃ next, write? slots v (target v) = some next ∧ FinalBut n target pending next := by
  have hslot : v < slots.size := h.size_eq.symm ▸ hv
  refine ⟨_, if_pos hslot, (Array.size_setIfInBounds ..).trans h.size_eq, ?_⟩
  intro u hu hpending
  by_cases huv : v = u
  · subst huv
    exact Array.getElem?_setIfInBounds_self_of_lt hslot
  · rw [Array.getElem?_setIfInBounds_ne huv]
    exact h.final u hu fun hmem => (List.mem_cons.1 hmem).elim (fun heq => huv heq.symm) hpending

theorem FinalBut.writeValues {values : List (Var × Bool)}
    (h : FinalBut n target (values.map Prod.fst ++ pending) slots)
    (hvalues : ∀ entry ∈ values, entry.1 < n ∧ target entry.1 = entry.2) :
    ∃ next, values.foldlM (fun slots entry => write? slots entry.1 entry.2) slots = some next ∧
      FinalBut n target pending next := by
  induction values generalizing slots with
  | nil => exact ⟨slots, rfl, h⟩
  | cons entry values ih =>
    obtain ⟨⟨hv, hb⟩, hvalues⟩ := List.forall_mem_cons.1 hvalues
    obtain ⟨written, hwrite, hwritten⟩ := FinalBut.write h hv
    obtain ⟨next, hrest, hnext⟩ := ih hwritten hvalues
    refine ⟨next, ?_, hnext⟩
    rw [List.foldlM_cons, ← hb, hwrite]
    exact hrest

/-- The slots that are read are not written in the same pass: a root is neither replaced nor does it have a value, so
its slot is final when it is read. -/
theorem FinalBut.writeReplacements {replacements : List (Var × Replacement)}
    (h : FinalBut n target (replacements.map Prod.fst) slots)
    (hroots : ∀ entry ∈ replacements, entry.1 < n ∧ entry.2.root < n ∧
      target entry.1 = (target entry.2.root ^^ entry.2.inverted) ∧ entry.2.root ∉ replacements.map Prod.fst) :
    ∃ next, replacements.foldlM (fun slots entry => writeReplaced? slots entry.1 entry.2) slots = some next ∧
      FinalBut n target [] next := by
  induction replacements generalizing slots with
  | nil => exact ⟨slots, rfl, h⟩
  | cons entry replacements ih =>
    obtain ⟨⟨hv, hroot, hfollows, hfinal⟩, hrest⟩ := List.forall_mem_cons.1 hroots
    obtain ⟨written, hwrite, hwritten⟩ := FinalBut.write h hv
    obtain ⟨next, hfold, hnext⟩ := ih hwritten fun other hother =>
      have ⟨hu, hr, hfollows, hfinal⟩ := hrest other hother
      ⟨hu, hr, hfollows, fun hmem => hfinal (List.mem_cons_of_mem _ hmem)⟩
    refine ⟨next, ?_, hnext⟩
    have hread : writeReplaced? slots entry.1 entry.2 = some written := by
      rw [writeReplaced?, h.final _ hroot hfinal, Option.bind_some, ← hfollows, hwrite]
    rw [List.foldlM_cons, hread]
    exact hfold

end Passes

variable {s : EquationSystem} {given : Array (Option Bool)} {v : Var}

/-- A completed solution has for every variable the value that follows from the given ones: a known value, the value
of the root, or the given value itself. -/
theorem finalBut_extend (hs : s.Valid) (given : Array (Option Bool)) :
    FinalBut s.numVars (s.follow (givenValue given)) [] (s.extend given) where
  size_eq := Array.size_ofFn
  final _ hv _ := getElem?_extend hs (obeys_follow hs.facts (givenValue given))
    (fun _ _ hfree => (follow_of_free hfree (givenValue given)).symm) hv

/-- Completing in place gives the completed solution, in whatever order the facts are listed. Every slot that is
written or read exists, because the facts are about the variables of the system. -/
theorem overwrite?_eq_some (hs : s.Valid) (given : Array (Option Bool)) {values : List (Var × Bool)}
    {replacements : List (Var × Replacement)} (hvalues : values.Perm s.values.toList)
    (hreplacements : replacements.Perm s.replacements.toList) :
    s.overwrite? given values replacements = some (s.extend given) := by
  have hobeys := obeys_follow hs.facts (givenValue given)
  have hvalue : ∀ {v b}, (v, b) ∈ values ↔ s.value? v = some b :=
    hvalues.mem_iff.trans ExtTreeMap.mem_toList_iff_getElem?_eq_some
  have hreplacement : ∀ {v r}, (v, r) ∈ replacements ↔ s.replacement? v = some r :=
    hreplacements.mem_iff.trans ExtTreeMap.mem_toList_iff_getElem?_eq_some
  have hstart : FinalBut s.numVars (s.follow (givenValue given))
      (values.map Prod.fst ++ replacements.map Prod.fst) (Array.ofFn fun v : Fin s.numVars => givenValue given v) := by
    refine ⟨Array.size_ofFn, fun v hv hpending => ?_⟩
    rw [List.mem_append, not_or] at hpending
    have hfree : s.Free v := by
      refine ⟨Option.eq_none_iff_forall_ne_some.2 fun b hb => ?_, Option.eq_none_iff_forall_ne_some.2 fun r hr => ?_⟩
      · exact hpending.1 (List.mem_map.2 ⟨(v, b), hvalue.2 hb, rfl⟩)
      · exact hpending.2 (List.mem_map.2 ⟨(v, r), hreplacement.2 hr, rfl⟩)
    rw [Array.getElem?_ofFn, dif_pos hv, follow_of_free hfree]
  obtain ⟨slots, hfirst, hslots⟩ := hstart.writeValues fun entry hentry =>
    have hb := hvalue.1 hentry
    ⟨lt_of_value? hs.bounded hb, hobeys.value hb⟩
  have hroots : ∀ entry ∈ replacements, entry.1 < s.numVars ∧ entry.2.root < s.numVars ∧
      s.follow (givenValue given) entry.1 = (s.follow (givenValue given) entry.2.root ^^ entry.2.inverted) ∧
      entry.2.root ∉ replacements.map Prod.fst := by
    intro entry hentry
    have hr := hreplacement.1 hentry
    have hv := lt_of_replacement? hs.bounded hr
    refine ⟨hv, Nat.lt_trans (hs.facts.root_lt hr) hv, hobeys.replacement hr, fun hmem => ?_⟩
    obtain ⟨⟨root, q⟩, hq, heq⟩ := List.mem_map.1 hmem
    cases ((hs.facts.root_free hr).2.symm.trans (heq ▸ hreplacement.1 hq) : none = some q)
  obtain ⟨out, hsecond, hout⟩ := hslots.writeReplacements hroots
  rw [overwrite?, hfirst, Option.bind_some, hsecond, hout.eq (finalBut_extend hs given)]

/-- The equations are about free variables, where following the facts changes nothing. So the given values decide
whether the completed solution satisfies them. -/
theorem solves_follow_iff (hs : s.Valid) (a : Var → Bool) :
    Solves (s.follow a) s ↔ ∀ p ∈ s.equations, p.eval a = false := by
  rw [solves_iff]
  refine (and_iff_left (obeys_follow hs.facts a)).trans (forall₂_congr fun p hp => ?_)
  rw [Polynomial.eval_congr fun v hv => follow_of_free (hs.settled.free hp v hv) a]

theorem check_extend_iff (hs : s.Valid) (given : Array (Option Bool)) :
    s.check (s.extend given) = .ok () ↔ ∀ p ∈ s.equations, p.eval (givenValue given) = false := by
  have hfinal := finalBut_extend hs given
  rw [check_iff_solves hs hfinal.size_eq.ge, ← solves_follow_iff hs, Solves, Solves]
  refine forall₂_congr fun p hp => ?_
  rw [Polynomial.eval_congr fun v hv => ?_]
  rw [valueAt, hfinal.final v (lt_of_mem_polynomials hs hp hv) List.not_mem_nil, Option.getD_some]

theorem extend_of_check (hs : s.Valid) {solution : Solution} (hsize : solution.size = s.numVars)
    (hcheck : s.check solution = .ok ()) : s.extend (solution.map some) = solution := by
  have hobeys := (solves_iff.1 ((check_iff_solves hs hsize.ge).1 hcheck)).2
  have hsolution : FinalBut s.numVars (valueAt solution) [] solution :=
    ⟨hsize, fun v hv _ => getElem?_eq_valueAt (hsize.symm ▸ hv)⟩
  refine FinalBut.eq ⟨Array.size_ofFn, fun v hv _ => getElem?_extend hs hobeys (fun u hu _ => ?_) hv⟩ hsolution
  rw [Array.getElem?_map, hsolution.final u hu List.not_mem_nil]
  rfl

/-- Completing respects all facts and nothing else. In whatever order the facts are written, the slots end up as the
completed solution. It has a value for every variable: known values are kept, replaced variables follow their roots,
and a free variable has its given value, or is false if it has none. It passes the check exactly if every equation is
zero at the given values, and a vector that passes is completed to itself. -/
theorem Reachable.extend_completes (hs : s.Reachable) (given : Array (Option Bool)) :
    (∀ values replacements, values.Perm s.values.toList → replacements.Perm s.replacements.toList →
      s.overwrite? given values replacements = some (s.extend given)) ∧
    (s.extend given).size = s.numVars ∧
    (∀ v b, s.value? v = some b → (s.extend given)[v]? = some b) ∧
    (∀ v r, s.replacement? v = some r →
      ∃ b, (s.extend given)[r.root]? = some b ∧ (s.extend given)[v]? = some (b ^^ r.inverted)) ∧
    (∀ v b, v < s.numVars → s.Free v → given[v]? = some (some b) → (s.extend given)[v]? = some b) ∧
    (∀ v, v < s.numVars → s.Free v → (∀ b, given[v]? ≠ some (some b)) → (s.extend given)[v]? = some false) ∧
    (s.check (s.extend given) = .ok () ↔ ∀ p ∈ s.equations, p.eval (givenValue given) = false) ∧
    ∀ solution : Solution, solution.size = s.numVars → s.check solution = .ok () →
      s.extend (solution.map some) = solution := by
  have hs := hs.valid
  have hobeys := obeys_follow hs.facts (givenValue given)
  have hvalue : ∀ v, v < s.numVars → (s.extend given)[v]? = some (s.follow (givenValue given) v) :=
    fun v hv => (finalBut_extend hs given).final v hv List.not_mem_nil
  have hfree : ∀ v, v < s.numVars → s.Free v → (s.extend given)[v]? = some (givenValue given v) :=
    fun v hv hfree => follow_of_free hfree (givenValue given) ▸ hvalue v hv
  refine ⟨fun _ _ => overwrite?_eq_some hs given, (finalBut_extend hs given).size_eq, ?_, ?_, ?_, ?_,
    check_extend_iff hs given, fun _ => extend_of_check hs⟩
  · intro v b hb
    rw [hvalue v (lt_of_value? hs.bounded hb), hobeys.value hb]
  · intro v r hr
    have hv := lt_of_replacement? hs.bounded hr
    refine ⟨_, hvalue r.root (Nat.lt_trans (hs.facts.root_lt hr) hv), ?_⟩
    rw [hvalue v hv, hobeys.replacement hr]
  · intro v b hv hvfree hbound
    rw [hfree v hv hvfree, givenValue, hbound]
    rfl
  · intro v hv hvfree hopen
    rw [hfree v hv hvfree, givenValue]
    cases hget : given[v]? with
    | none => rfl
    | some slot =>
      cases slot with
      | none => rfl
      | some b => exact absurd hget (hopen b)

/-- A partial solution that contradicts a known value, leaves a replaced variable open and goes beyond the last
variable. -/
theorem Reachable.extend_completes_contradicting :
    let s := ofPolynomials [.sum [.ofVar 0, .one], .sum [.ofVar 1, .ofVar 2, .one], .sum [.ofVars [1, 3], .ofVar 4]]
    let given : Array (Option Bool) := #[some false, some true, none, some true, some true, some false]
    s.Reachable ∧ s.overwrite? given s.values.toList.reverse s.replacements.toList = some (s.extend given) ∧
    s.value? 0 = some true ∧ (s.extend given)[0]? = some true ∧
    1 < s.numVars ∧ s.Free 1 ∧ (s.extend given)[1]? = some true ∧
    s.replacement? 2 = some ⟨1, true⟩ ∧ (s.extend given)[2]? = some false ∧
    (s.extend given).size = s.numVars ∧ s.check (s.extend given) = .ok () ∧
    s.extend ((s.extend given).map some) = s.extend given := by
  intro s given
  have hs : s.Reachable := reachable_ofPolynomials (by decide)
  obtain ⟨hslots, hsize, hvalues, hreplacements, hgiven, -, hcheck, hfixed⟩ := hs.extend_completes given
  have hequations : s.equations = [.sum [.ofVars [1, 3], .ofVar 4]] := by
    unfold s
    decide +kernel
  have hnumVars : s.numVars = 5 := by
    unfold s
    decide +kernel
  have hvalue : s.value? 0 = some true := by
    unfold s
    decide +kernel
  have hreplacement : s.replacement? 2 = some ⟨1, true⟩ := by
    unfold s
    decide +kernel
  have hlt : 1 < s.numVars := by omega
  have hfree : s.Free 1 := hs.valid.facts.root_free hreplacement
  have hone : (s.extend given)[1]? = some true := hgiven 1 true hlt hfree rfl
  obtain ⟨b, hroot, htwo⟩ := hreplacements 2 _ hreplacement
  obtain rfl : b = true := Option.some.inj (hroot.symm.trans hone)
  have hpasses : s.check (s.extend given) = .ok () := by
    rw [hcheck, hequations]
    decide
  exact ⟨hs, hslots _ _ (List.reverse_perm _) (.refl _), hvalue, hvalues 0 true hvalue, hlt, hfree, hone, hreplacement,
    htwo, hsize, hpasses, hfixed _ hsize hpasses⟩

end EquationSystem

end BoolPoly

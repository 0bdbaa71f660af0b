open Std

namespace BoolPoly

/-- A finite set over a linearly ordered type, given by the strictly ascending list of its members. As this is the
only list of that kind with these members, two sets are equal as values as soon as they have the same members
(`ext_mem`). Every operation is described by its effect on membership, by `mem_insert`, `mem_toggle`, `mem_union`,
`mem_symmDiff` and `mem_filter`. -/
structure OrderedSet (α : Type) [Ord α] where
  toList : List α
  ascending : toList.Pairwise fun a b => compare a b = .lt

namespace OrderedSet

variable {α : Type} [Ord α]

theorem ext_toList {s t : OrderedSet α} (h : s.toList = t.toList) : s = t := by
  cases s
  cases t
  cases h
  rfl

instance [DecidableEq α] : DecidableEq (OrderedSet α) := fun s t =>
  decidable_of_iff (s.toList = t.toList) ⟨ext_toList, fun h => h ▸ rfl⟩

instance : Membership α (OrderedSet α) := ⟨fun s a => a ∈ s.toList⟩

instance [DecidableEq α] (a : α) (s : OrderedSet α) : Decidable (a ∈ s) :=
  inferInstanceAs (Decidable (a ∈ s.toList))

theorem mem_toList {a : α} {s : OrderedSet α} : a ∈ s.toList ↔ a ∈ s := Iff.rfl

/-- The set without members. -/
def empty : OrderedSet α := ⟨[], List.Pairwise.nil⟩

instance : EmptyCollection (OrderedSet α) := ⟨empty⟩

instance : Inhabited (OrderedSet α) := ⟨empty⟩

/-- The set with the one member `a`. -/
def singleton (a : α) : OrderedSet α := ⟨[a], List.pairwise_singleton _ a⟩

/-- The number of members. -/
def size (s : OrderedSet α) : Nat := s.toList.length

def isEmpty (s : OrderedSet α) : Bool := s.toList.isEmpty

@[simp] theorem not_mem_empty (a : α) : a ∉ (empty : OrderedSet α) := List.not_mem_nil

@[simp] theorem mem_singleton {a b : α} : a ∈ singleton b ↔ a = b := List.mem_singleton

/-- The members that satisfy `keep`. -/
def filter (keep : α → Bool) (s : OrderedSet α) : OrderedSet α :=
  ⟨s.toList.filter keep, s.ascending.filter keep⟩

@[simp] theorem mem_filter {keep : α → Bool} {s : OrderedSet α} {a : α} :
    a ∈ s.filter keep ↔ a ∈ s ∧ keep a = true := List.mem_filter

variable [LawfulEqOrd α]

/-- Puts `a` at its place in an ascending list; a member is not repeated. -/
def insertList (a : α) : List α → List α
  | [] => [a]
  | b :: rest =>
    match compare a b with
    | .lt => a :: b :: rest
    | .eq => b :: rest
    | .gt => b :: insertList a rest

/-- Adds `a` to an ascending list that lacks it and takes it out of one that has it. -/
def toggleList (a : α) : List α → List α
  | [] => [a]
  | b :: rest =>
    match compare a b with
    | .lt => a :: b :: rest
    | .eq => rest
    | .gt => b :: toggleList a rest

theorem mem_insertList {a x : α} {l : List α} : x ∈ insertList a l ↔ x = a ∨ x ∈ l := by
  induction l with
  | nil => simp [insertList]
  | cons b rest ih =>
    simp only [insertList]
    split
    · simp
    · next heq =>
      have hab : a = b := LawfulEqOrd.eq_of_compare heq
      simp [hab]
    · simp only [List.mem_cons, ih]
      exact or_left_comm

variable [TransOrd α]

theorem pairwise_insertList {a : α} {l : List α}
    (hl : l.Pairwise fun a b => compare a b = .lt) :
    (insertList a l).Pairwise fun a b => compare a b = .lt := by
  induction l with
  | nil => exact List.pairwise_singleton _ a
  | cons b rest ih =>
    obtain ⟨hhead, htail⟩ := List.pairwise_cons.1 hl
    simp only [insertList]
    split
    · next hlt =>
      refine List.pairwise_cons.2 ⟨fun x hx => ?_, hl⟩
      rcases List.mem_cons.1 hx with rfl | hx
      · exact hlt
      · exact TransCmp.lt_trans hlt (hhead x hx)
    · exact hl
    · next hgt =>
      refine List.pairwise_cons.2 ⟨fun x hx => ?_, ih htail⟩
      rcases mem_insertList.1 hx with rfl | hx
      · exact OrientedCmp.lt_of_gt hgt
      · exact hhead x hx

/-- Only for an ascending list: the toggled element is compared with members greater than the first one just to place
it. -/
theorem mem_toggleList {a x : α} {l : List α}
    (hl : l.Pairwise fun a b => compare a b = .lt) :
    x ∈ toggleList a l ↔ (x = a ∧ x ∉ l) ∨ (x ≠ a ∧ x ∈ l) := by
  induction l with
  | nil => simp [toggleList]
  | cons b rest ih =>
    obtain ⟨hhead, htail⟩ := List.pairwise_cons.1 hl
    have hirrefl : ∀ y : α, compare y y ≠ .lt := fun y => by
      rw [ReflOrd.compare_self]; exact nofun
    simp only [toggleList]
    split
    · next hlt =>
      have ha : a ∉ b :: rest := fun hmem => by
        rcases List.mem_cons.1 hmem with rfl | hmem
        · exact hirrefl _ hlt
        · exact hirrefl _ (TransCmp.lt_trans hlt (hhead a hmem))
      rw [List.mem_cons]
      constructor
      · rintro (rfl | hx)
        · exact .inl ⟨rfl, ha⟩
        · exact .inr ⟨fun h => ha (h ▸ hx), hx⟩
      · rintro (⟨rfl, -⟩ | ⟨-, hx⟩)
        · exact .inl rfl
        · exact .inr hx
    · next heq =>
      have hab : a = b := LawfulEqOrd.eq_of_compare heq
      subst hab
      have ha : a ∉ rest := fun hmem => hirrefl _ (hhead a hmem)
      constructor
      · intro hx
        exact .inr ⟨fun h => ha (h ▸ hx), List.mem_cons_of_mem a hx⟩
      · rintro (⟨rfl, hx⟩ | ⟨hne, hx⟩)
        · exact absurd List.mem_cons_self hx
        · exact (List.mem_cons.1 hx).resolve_left hne
    · next hgt =>
      have hne : b ≠ a := fun h => by
        subst h
        rw [ReflOrd.compare_self] at hgt
        cases hgt
      simp only [List.mem_cons, ih htail, not_or]
      constructor
      · rintro (rfl | ⟨rfl, hx⟩ | ⟨hxa, hx⟩)
        · exact .inr ⟨hne, .inl rfl⟩
        · exact .inl ⟨rfl, fun h => hne h.symm, hx⟩
        · exact .inr ⟨hxa, .inr hx⟩
      · rintro (⟨rfl, -, hx⟩ | ⟨hxa, rfl | hx⟩)
        · exact .inr (.inl ⟨rfl, hx⟩)
        · exact .inl rfl
        · exact .inr (.inr ⟨hxa, hx⟩)

theorem pairwise_toggleList {a : α} {l : List α}
    (hl : l.Pairwise fun a b => compare a b = .lt) :
    (toggleList a l).Pairwise fun a b => compare a b = .lt := by
  induction l with
  | nil => exact List.pairwise_singleton _ a
  | cons b rest ih =>
    obtain ⟨hhead, htail⟩ := List.pairwise_cons.1 hl
    simp only [toggleList]
    split
    · next hlt =>
      refine List.pairwise_cons.2 ⟨fun x hx => ?_, hl⟩
      rcases List.mem_cons.1 hx with rfl | hx
      · exact hlt
      · exact TransCmp.lt_trans hlt (hhead x hx)
    · exact htail
    · next hgt =>
      refine List.pairwise_cons.2 ⟨fun x hx => ?_, ih htail⟩
      rcases (mem_toggleList htail).1 hx with ⟨rfl, -⟩ | ⟨-, hx⟩
      · exact OrientedCmp.lt_of_gt hgt
      · exact hhead x hx

/-- The set with `a` added. -/
def insert (a : α) (s : OrderedSet α) : OrderedSet α :=
  ⟨insertList a s.toList, pairwise_insertList s.ascending⟩

/-- The set with the membership of `a` reversed, so that toggling it twice changes nothing. -/
def toggle (a : α) (s : OrderedSet α) : OrderedSet α :=
  ⟨toggleList a s.toList, pairwise_toggleList s.ascending⟩

/-- The set of the members of a list, in any order and with repetitions. -/
def ofList (l : List α) : OrderedSet α := l.foldr insert empty

/-- The members of either set. -/
def union (s t : OrderedSet α) : OrderedSet α := s.toList.foldr insert t

/-- The set reached from `s` by toggling every entry of `l`: an entry counts as often as it occurs. -/
def toggleAll (l : List α) (s : OrderedSet α) : OrderedSet α := l.foldr toggle s

/-- The members of exactly one of the two sets. Adding polynomials is this operation on their monomials. -/
def symmDiff (s t : OrderedSet α) : OrderedSet α := toggleAll s.toList t

@[simp] theorem mem_insert {a x : α} {s : OrderedSet α} : x ∈ s.insert a ↔ x = a ∨ x ∈ s :=
  mem_insertList

@[simp] theorem mem_toggle {a x : α} {s : OrderedSet α} :
    x ∈ s.toggle a ↔ (x = a ∧ x ∉ s) ∨ (x ≠ a ∧ x ∈ s) := mem_toggleList s.ascending

theorem mem_foldr_insert {l : List α} {s : OrderedSet α} {x : α} :
    x ∈ l.foldr insert s ↔ x ∈ l ∨ x ∈ s := by
  induction l with
  | nil => simp
  | cons a l ih => simp [ih, or_assoc]

@[simp] theorem mem_ofList {l : List α} {x : α} : x ∈ ofList l ↔ x ∈ l := by
  simp [ofList, mem_foldr_insert]

@[simp] theorem mem_union {s t : OrderedSet α} {x : α} : x ∈ s.union t ↔ x ∈ s ∨ x ∈ t :=
  mem_foldr_insert

/-- Toggling a list of distinct entries reverses the membership of exactly these entries. -/
theorem mem_toggleAll {l : List α} (hl : l.Nodup) {s : OrderedSet α} {x : α} :
    x ∈ toggleAll l s ↔ (x ∈ l ∧ x ∉ s) ∨ (x ∉ l ∧ x ∈ s) := by
  induction l with
  | nil => simp [toggleAll]
  | cons a l ih =>
    obtain ⟨ha, hl⟩ := List.nodup_cons.1 hl
    have ih := ih hl
    simp only [toggleAll] at ih
    simp only [toggleAll, List.foldr_cons, mem_toggle, ih, List.mem_cons]
    by_cases hx : x = a
    · subst hx
      simp [ha]
    · simp [hx]

omit [LawfulEqOrd α] in
theorem nodup_toList (s : OrderedSet α) : s.toList.Nodup :=
  s.ascending.imp fun {a b} hlt hab => by
    subst hab
    rw [ReflOrd.compare_self] at hlt
    cases hlt

@[simp] theorem mem_symmDiff {s t : OrderedSet α} {x : α} :
    x ∈ s.symmDiff t ↔ (x ∈ s ∧ x ∉ t) ∨ (x ∉ s ∧ x ∈ t) := mem_toggleAll s.nodup_toList

omit [LawfulEqOrd α] in
/-- The members determine the set: it has only one ascending list. So sets with the same members are equal as
values. -/
theorem ext_mem {s t : OrderedSet α} (h : ∀ a, a ∈ s ↔ a ∈ t) : s = t := by
  apply ext_toList
  obtain ⟨l, hl⟩ := s
  obtain ⟨r, hr⟩ := t
  change ∀ a, a ∈ l ↔ a ∈ r at h
  change l = r
  have hirrefl : ∀ y : α, compare y y ≠ .lt := fun y => by
    rw [ReflOrd.compare_self]; exact nofun
  induction l generalizing r with
  | nil =>
    cases r with
    | nil => rfl
    | cons b r => exact absurd ((h b).2 List.mem_cons_self) List.not_mem_nil
  | cons a l ih =>
    cases r with
    | nil => exact absurd ((h a).1 List.mem_cons_self) List.not_mem_nil
    | cons b r =>
      obtain ⟨hhead, htail⟩ := List.pairwise_cons.1 hl
      obtain ⟨hhead', htail'⟩ := List.pairwise_cons.1 hr
      have hab : a = b := by
        rcases List.mem_cons.1 ((h a).1 List.mem_cons_self) with hab | har
        · exact hab
        · rcases List.mem_cons.1 ((h b).2 List.mem_cons_self) with hba | hbl
          · exact hba.symm
          · exact absurd (TransCmp.lt_trans (hhead b hbl) (hhead' a har)) (hirrefl a)
      subst hab
      congr 1
      refine ih htail r htail' fun x => ?_
      constructor
      · intro hx
        rcases List.mem_cons.1 ((h x).1 (List.mem_cons_of_mem a hx)) with rfl | hxr
        · exact absurd (hhead _ hx) (hirrefl _)
        · exact hxr
      · intro hx
        rcases List.mem_cons.1 ((h x).2 (List.mem_cons_of_mem a hx)) with rfl | hxl
        · exact absurd (hhead' _ hx) (hirrefl _)
        · exact hxl

theorem pairwise_lt (s : OrderedSet Nat) : s.toList.Pairwise (· < ·) := s.ascending.imp Nat.compare_eq_lt.1

end OrderedSet

section Sorting

variable {α : Type} [Ord α] [TransOrd α]

/-- Sorting by `compare` puts a list in ascending order. -/
theorem pairwise_isLE_mergeSort (l : List α) :
    (l.mergeSort fun a b => (compare a b).isLE).Pairwise fun a b => (compare a b).isLE = true := by
  refine List.pairwise_mergeSort (fun _ _ _ => TransCmp.isLE_trans) (fun a b => ?_) l
  rw [OrientedOrd.eq_swap (a := a)]
  cases compare b a <;> rfl

/-- A list without repetitions is strictly ascending when it has been sorted. -/
theorem pairwise_lt_mergeSort [LawfulEqOrd α] {l : List α} (hl : l.Nodup) :
    (l.mergeSort fun a b => (compare a b).isLE).Pairwise fun a b => compare a b = .lt := by
  have hnodup := (List.mergeSort_perm l fun a b => (compare a b).isLE).nodup_iff.2 hl
  refine ((pairwise_isLE_mergeSort l).and hnodup).imp fun {a b} h => ?_
  obtain ⟨hle, hne⟩ := h
  cases hcompare : compare a b with
  | lt => rfl
  | eq => exact absurd (LawfulEqOrd.eq_of_compare hcompare) hne
  | gt =>
    rw [hcompare] at hle
    cases hle

end Sorting

end BoolPoly

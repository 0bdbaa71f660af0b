import BoolPoly.PriorityQueue
import Mathlib.Data.List.Induction

open Std

namespace BoolPoly.PriorityQueue

variable {α : Type}

/-- The entries, in the order of the tree. The operations keep them up to their order, which is all that is said about
them. -/
def toList : PriorityQueue α → List α
  | empty => []
  | node a l r => a :: (l.toList ++ r.toList)

variable [Ord α]

theorem toList_merge (p q : PriorityQueue α) : (merge p q).toList.Perm (p.toList ++ q.toList) := by
  fun_induction merge p q with
  | case1 q => exact .refl _
  | case2 p _ => rw [toList, List.append_nil]
  | case3 a l r b l' r' _ ih =>
    rw [toList, toList, List.cons_append, List.append_assoc]
    exact (List.perm_append_comm.trans (ih.append_left _)).cons a
  | case4 a l r b l' r' _ ih =>
    refine .trans ?_ List.perm_middle.symm
    rw [toList]
    refine .cons b ((ih.append_right _).trans ?_)
    rw [List.append_assoc]
    exact List.perm_append_comm.append_left _

theorem mem_insert {a x : α} {q : PriorityQueue α} : x ∈ (q.insert a).toList ↔ x = a ∨ x ∈ q.toList := by
  rw [insert, (toList_merge _ _).mem_iff]
  exact List.mem_cons

theorem ofList_append_singleton (l : List α) (a : α) : ofList (l ++ [a]) = (ofList l).insert a := by
  rw [ofList, List.foldl_append]
  rfl

theorem mem_ofList {l : List α} {x : α} : x ∈ (ofList l).toList ↔ x ∈ l := by
  induction l using List.reverseRecOn with
  | nil => exact Iff.rfl
  | append_singleton l a ih =>
    rw [ofList_append_singleton, mem_insert, ih, List.mem_append, List.mem_singleton, or_comm]

theorem eq_nil_of_pop? {q : PriorityQueue α} (h : q.pop? = none) : q.toList = [] := by
  cases q with
  | empty => rfl
  | node a l r => cases h

theorem mem_of_pop? {q rest : PriorityQueue α} {first x : α} (h : q.pop? = some (first, rest)) :
    x ∈ q.toList ↔ x = first ∨ x ∈ rest.toList := by
  cases q with
  | empty => cases h
  | node a l r =>
    obtain ⟨rfl, rfl⟩ := Prod.mk.inj (Option.some.inj h)
    rw [toList, List.mem_cons, (toList_merge _ _).mem_iff]

/-- No entry comes before its parent, nor before any other entry above it. Entries that are compared as equal may
stand either way. -/
def Ordered : PriorityQueue α → Prop
  | empty => True
  | node a l r => (∀ x ∈ l.toList ++ r.toList, (compare a x).isLE) ∧ l.Ordered ∧ r.Ordered

variable [TransOrd α]

/-- No entry comes before the root, however far below it stands, by transitivity along the tree. -/
theorem Ordered.root_isLE {a x : α} {l r : PriorityQueue α} (h : (node a l r).Ordered)
    (hx : x ∈ (node a l r).toList) : (compare a x).isLE := by
  rw [toList, List.mem_cons] at hx
  obtain rfl | hx := hx
  · exact ReflCmp.isLE_rfl
  · exact h.1 x hx

/-- Merging keeps the heap order: the greater root goes below the smaller one. -/
theorem Ordered.merge {p q : PriorityQueue α} (hp : p.Ordered) (hq : q.Ordered) : (merge p q).Ordered := by
  fun_induction PriorityQueue.merge p q with
  | case1 q => exact hq
  | case2 p _ => exact hp
  | case3 a l r b l' r' hab ih =>
    obtain ⟨ha, hl, hr⟩ := hp
    refine ⟨fun x hx => ?_, ih hr hq, hl⟩
    rw [List.mem_append, (toList_merge _ _).mem_iff, List.mem_append] at hx
    obtain (hx | hx) | hx := hx
    · exact ha x (List.mem_append_right _ hx)
    · exact TransCmp.isLE_trans hab (hq.root_isLE hx)
    · exact ha x (List.mem_append_left _ hx)
  | case4 a l r b l' r' hab ih =>
    have hba : (compare b a).isLE := Ordering.isLE_of_eq_lt (OrientedCmp.lt_of_not_isLE hab)
    obtain ⟨hb, hl', hr'⟩ := hq
    refine ⟨fun x hx => ?_, ih hp hr', hl'⟩
    rw [List.mem_append, (toList_merge _ _).mem_iff, List.mem_append] at hx
    obtain (hx | hx) | hx := hx
    · exact TransCmp.isLE_trans hba (hp.root_isLE hx)
    · exact hb x (List.mem_append_right _ hx)
    · exact hb x (List.mem_append_left _ hx)

theorem Ordered.insert {q : PriorityQueue α} (hq : q.Ordered) (a : α) : (q.insert a).Ordered :=
  Ordered.merge ⟨nofun, trivial, trivial⟩ hq

theorem ordered_ofList (l : List α) : (ofList l).Ordered := by
  induction l using List.reverseRecOn with
  | nil => exact trivial
  | append_singleton l a ih =>
    rw [ofList_append_singleton]
    exact ih.insert a

/-- The removed entry is a first one, and the others stay in heap order. -/
theorem Ordered.of_pop? {q rest : PriorityQueue α} {first : α} (hq : q.Ordered)
    (h : q.pop? = some (first, rest)) : rest.Ordered ∧ ∀ x ∈ rest.toList, (compare first x).isLE := by
  cases q with
  | empty => cases h
  | node a l r =>
    obtain ⟨rfl, rfl⟩ := Prod.mk.inj (Option.some.inj h)
    obtain ⟨ha, hl, hr⟩ := hq
    exact ⟨hl.merge hr, fun x hx => ha x ((toList_merge l r).mem_iff.1 hx)⟩

end BoolPoly.PriorityQueue

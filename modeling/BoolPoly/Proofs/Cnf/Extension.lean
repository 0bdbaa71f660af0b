import BoolPoly.Cnf
import Mathlib.Order.Nat

namespace BoolPoly

theorem Literal.holds_mk {a : Var → Bool} {v : Var} {b : Bool} : Literal.holds a ⟨v, b⟩ = true ↔ a v = b :=
  beq_iff_eq

theorem Literal.holds_congr {a b : Var → Bool} {l : Literal} (h : a l.var = b l.var) : l.holds a = l.holds b := by
  rw [holds, holds, h]

/-- Whether two assignments are equal on the variables below `n`. Formulas about these variables have the same value
under both. -/
def AgreeBelow (n : Nat) (a b : Var → Bool) : Prop := ∀ v, v < n → a v = b v

namespace AgreeBelow

variable {n m : Nat} {a b c : Var → Bool}

theorem refl (n : Nat) (a : Var → Bool) : AgreeBelow n a a := fun _ _ => rfl

theorem symm (h : AgreeBelow n a b) : AgreeBelow n b a := fun v hv => (h v hv).symm

theorem trans (h : AgreeBelow n a b) (h' : AgreeBelow n b c) : AgreeBelow n a c :=
  fun v hv => (h v hv).trans (h' v hv)

theorem mono (h : AgreeBelow m a b) (hle : n ≤ m) : AgreeBelow n a b := fun v hv => h v (hv.trans_le hle)

end AgreeBelow

namespace Cnf

/-- Whether only variables below `n` occur, in any literal of any clause. -/
def Below (n : Nat) (f : Cnf) : Prop := ∀ c ∈ f, ∀ l ∈ c, l.var < n

theorem Below.mono {n m : Nat} {f : Cnf} (h : f.Below n) (hle : n ≤ m) : f.Below m :=
  fun c hc l hl => (h c hc l hl).trans_le hle

theorem below_append {n : Nat} {f g : Cnf} : Cnf.Below n (f ++ g) ↔ f.Below n ∧ g.Below n :=
  List.forall_mem_append

theorem holds_iff {a : Var → Bool} {f : Cnf} : f.holds a = true ↔ ∀ c ∈ f, Clause.holds a c = true :=
  List.all_eq_true

theorem holds_append {a : Var → Bool} {f g : Cnf} :
    Cnf.holds a (f ++ g) = true ↔ f.holds a = true ∧ g.holds a = true := by
  rw [holds, List.all_append, Bool.and_eq_true]
  rfl

/-- The value of a formula depends on no variable but those that occur: assignments that are equal on these satisfy
the same clauses. -/
theorem holds_congr_of_mem {f : Cnf} {a b : Var → Bool} (hab : ∀ c ∈ f, ∀ l ∈ c, a l.var = b l.var) :
    f.holds a = f.holds b := by
  have hclause : ∀ c ∈ f, Clause.holds a c = Clause.holds b c := by
    intro c hc
    rw [Clause.holds, Clause.holds, Bool.eq_iff_iff, List.any_eq_true, List.any_eq_true]
    constructor
    · rintro ⟨l, hl, hholds⟩
      exact ⟨l, hl, by rwa [← Literal.holds_congr (hab c hc l hl)]⟩
    · rintro ⟨l, hl, hholds⟩
      exact ⟨l, hl, by rwa [Literal.holds_congr (hab c hc l hl)]⟩
  rw [Bool.eq_iff_iff, holds_iff, holds_iff]
  exact forall₂_congr fun c hc => by rw [hclause c hc]

theorem holds_congr {n : Nat} {f : Cnf} (hf : f.Below n) {a b : Var → Bool} (hab : AgreeBelow n a b) :
    f.holds a = f.holds b :=
  holds_congr_of_mem fun c hc l hl => hab l.var (hf c hc l hl)

end Cnf

/-- Whether the condition `F` on assignments below `N` determines the variables from `n` on, and can be met just where
`P` holds: every assignment below `n` that satisfies `P` extends to the new variables in exactly one way, and no other
assignment does. -/
structure Determines (n N : Nat) (F P : (Var → Bool) → Prop) : Prop where
  le : n ≤ N
  congr : ∀ {a b}, AgreeBelow N a b → F a → F b
  extend : ∀ {a}, P a → ∃ b, AgreeBelow n a b ∧ F b
  sound : ∀ {a}, F a → P a
  unique : ∀ {a b}, AgreeBelow n a b → F a → F b → AgreeBelow N a b

namespace Determines

variable {n N M : Nat} {F G P Q : (Var → Bool) → Prop}

/-- A condition on the old variables adds none. -/
theorem of_congr (h : ∀ {a b}, AgreeBelow n a b → F a → F b) : Determines n n F F :=
  ⟨Nat.le_refl n, h, fun ha => ⟨_, .refl _ _, ha⟩, id, fun hab _ _ => hab⟩

theorem of_iff (h : Determines n N F P) (hF : ∀ a, F a ↔ G a) (hP : ∀ a, P a ↔ Q a) : Determines n N G Q := by
  obtain rfl : F = G := funext fun a => propext (hF a)
  obtain rfl : P = Q := funext fun a => propext (hP a)
  exact h

/-- Two sets of clauses that determine new variables, one after the other, make one. The second condition speaks about
the variables of the first; where that holds, it amounts to a condition `R` on the variables below `n`. -/
theorem comp (h : Determines n N F P) (h' : Determines N M G Q) {R : (Var → Bool) → Prop}
    (hR : ∀ {a b}, AgreeBelow n a b → R a → R b) (hQR : ∀ {a}, F a → (Q a ↔ R a)) :
    Determines n M (fun a => F a ∧ G a) (fun a => P a ∧ R a) where
  le := h.le.trans h'.le
  congr hab hfg := ⟨h.congr (hab.mono h'.le) hfg.1, h'.congr hab hfg.2⟩
  extend {a} ha := by
    obtain ⟨b, hab, hb⟩ := h.extend ha.1
    obtain ⟨c, hbc, hc⟩ := h'.extend ((hQR hb).2 (hR hab ha.2))
    exact ⟨c, hab.trans (hbc.mono h.le), h.congr hbc hb, hc⟩
  sound ha := ⟨h.sound ha.1, (hQR ha.1).1 (h'.sound ha.2)⟩
  unique hab ha hb := h'.unique (h.unique hab ha.1 hb.1) ha.2 hb.2

/-- An assignment meets `P` just if it extends to one that meets `F`. Only the existence of the extension is used
here, and not that there is just one. -/
theorem iff_exists (h : Determines n N F P) (hP : ∀ {a b}, AgreeBelow n a b → P a → P b) {a : Var → Bool} :
    P a ↔ ∃ b, AgreeBelow n a b ∧ F b :=
  ⟨h.extend, fun ⟨_, hab, hb⟩ => hP hab.symm (h.sound hb)⟩

end Determines

end BoolPoly

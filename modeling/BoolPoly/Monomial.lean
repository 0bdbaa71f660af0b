import BoolPoly.OrderedSet

open Std

namespace BoolPoly

/-- A variable, given by its index. Texts only have indices that fit a 32-bit word. -/
abbrev Var := Nat

/-- A variable is written as `x` and its index. -/
def Var.text (v : Var) : String := "x" ++ Nat.repr v

/-- A product of distinct variables, given by the set of its factors; the product over no variable is the constant
one. Multiplying unites the factors, since `x * x = x` for Boolean values. -/
structure Monomial where
  vars : OrderedSet Var
deriving DecidableEq

namespace Monomial

/-- Monomials are ordered lexicographically by their ascending variables: the constant one comes first, and `x0*x5`
comes before `x1`. -/
instance : Ord Monomial := ⟨compareOn fun m => m.vars.toList⟩

instance : TransOrd Monomial := inferInstanceAs (TransCmp (compareOn fun m : Monomial => m.vars.toList))

instance : LawfulEqOrd Monomial where
  eq_of_compare {m n} h := by
    have hlist : m.vars.toList = n.vars.toList := LawfulEqOrd.eq_of_compare h
    obtain ⟨s⟩ := m
    obtain ⟨t⟩ := n
    exact congrArg Monomial.mk (OrderedSet.ext_toList hlist)

/-- The product over no variable. As a monomial of a polynomial it is the constant. -/
def one : Monomial := ⟨.empty⟩

instance : Inhabited Monomial := ⟨one⟩

def ofVar (v : Var) : Monomial := ⟨.singleton v⟩

/-- The product of the listed variables; a repeated factor counts once, because a bit is its own square. -/
def ofVars (vs : List Var) : Monomial := ⟨.ofList vs⟩

/-- The factors in ascending order. -/
def varList (m : Monomial) : List Var := m.vars.toList

def isOne (m : Monomial) : Bool := m.vars.isEmpty

/-- The number of factors. -/
def degree (m : Monomial) : Nat := m.vars.size

def contains (m : Monomial) (v : Var) : Bool := decide (v ∈ m.vars)

/-- The product without the factor `v`; the same monomial if `v` is no factor. -/
def without (m : Monomial) (v : Var) : Monomial := ⟨m.vars.filter (· != v)⟩

instance : Mul Monomial := ⟨fun m n => ⟨m.vars.union n.vars⟩⟩

/-- The value under a total assignment. -/
def eval (a : Var → Bool) (m : Monomial) : Bool := m.varList.all a

/-- The value under a partial assignment. Every factor has to be bound: a false factor does not excuse an unbound
one. -/
def eval? (a : Var → Option Bool) (m : Monomial) : Option Bool := (m.varList.mapM a).map (·.all id)

/-- The factors joined by `*`; the constant is written as `1`. -/
def text (m : Monomial) : String :=
  if m.isOne then "1" else "*".intercalate (m.varList.map Var.text)

instance : ToString Monomial := ⟨text⟩

theorem mem_vars_mul {m n : Monomial} {v : Var} : v ∈ (m * n).vars ↔ v ∈ m.vars ∨ v ∈ n.vars :=
  OrderedSet.mem_union

theorem mem_vars_without {m : Monomial} {v x : Var} : x ∈ (m.without v).vars ↔ x ∈ m.vars ∧ x ≠ v := by
  simp [without]

theorem eval_eq_true {a : Var → Bool} {m : Monomial} : m.eval a = true ↔ ∀ v ∈ m.vars, a v = true :=
  List.all_eq_true

/-- A product of monomials has the product of their values. -/
theorem eval_mul (a : Var → Bool) (m n : Monomial) : (m * n).eval a = (m.eval a && n.eval a) := by
  rw [Bool.eq_iff_iff, Bool.and_eq_true, eval_eq_true, eval_eq_true, eval_eq_true]
  simp only [mem_vars_mul]
  exact ⟨fun h => ⟨fun v hv => h v (.inl hv), fun v hv => h v (.inr hv)⟩,
    fun ⟨hm, hn⟩ v hv => hv.elim (hm v) (hn v)⟩

end Monomial

end BoolPoly

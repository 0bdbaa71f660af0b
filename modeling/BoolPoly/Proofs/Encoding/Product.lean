import BoolPoly.Encoding.Basic
import BoolPoly.Proofs.Cnf.Extension
import BoolPoly.Proofs.Polynomial.Evaluation
import Mathlib.Data.List.Forall2

namespace BoolPoly

/-- The monomial of a product. A partial sum has none, also if its chunk happens to be a single monomial. -/
def Role.monomial? : Role → Option Monomial
  | .product m => some m
  | .partialSum => none

namespace Encoding

/-- The first clauses of a product say that it implies its factors, one clause for each. -/
theorem holds_factorClauses {out : Var} {m : Monomial} {a : Var → Bool} :
    Cnf.holds a (m.varList.map fun x => [⟨out, false⟩, ⟨x, true⟩]) = true ↔ (a out = true → m.eval a = true) := by
  rw [Cnf.holds_iff, List.forall_mem_map, Monomial.eval_eq_true]
  have hclause : ∀ x, Clause.holds a [⟨out, false⟩, ⟨x, true⟩] = true ↔ (a out = true → a x = true) := by
    intro x
    simp only [Clause.holds, List.any_cons, List.any_nil, Bool.or_false, Bool.or_eq_true, Literal.holds_mk]
    cases a out <;> simp
  simp only [hclause]
  exact ⟨fun h hout v hv => h v hv hout, fun h v hv hout => h hout v hv⟩

/-- The last clause of a product says that its factors together imply it. -/
theorem holds_productClause {out : Var} {m : Monomial} {a : Var → Bool} :
    Clause.holds a (m.varList.map (fun x => ⟨x, false⟩) ++ [⟨out, true⟩]) = true ↔
      (m.eval a = true → a out = true) := by
  rw [Clause.holds, List.any_append, List.any_map, Bool.or_eq_true, List.any_eq_true]
  simp only [Function.comp, Literal.holds_mk, List.any_cons, List.any_nil, Bool.or_false]
  constructor
  · rintro (⟨v, hv, hfalse⟩ | hout) hm
    · rw [Monomial.eval_eq_true.1 hm v hv] at hfalse
      cases hfalse
    · exact hout
  · intro himp
    by_cases hout : a out = true
    · exact .inr hout
    · left
      have hm : ¬∀ v ∈ m.vars, a v = true := fun h => hout (himp (Monomial.eval_eq_true.2 h))
      obtain ⟨v, hv⟩ := not_forall.1 hm
      obtain ⟨hv, hfalse⟩ := Classical.not_imp.1 hv
      exact ⟨v, hv, Bool.eq_false_iff.2 hfalse⟩

/-- The clauses of a product hold just where its variable has the value of the monomial: the first ones say that the
product implies its factors, and the last one that all factors together imply the product. -/
theorem holds_productClauses {out : Var} {m : Monomial} {a : Var → Bool} :
    Cnf.holds a (productClauses out m) = true ↔ a out = m.eval a := by
  rw [productClauses, Cnf.holds_append, holds_factorClauses, Cnf.holds_iff, List.forall_mem_singleton,
    holds_productClause]
  exact iff_def.symm.trans Bool.eq_iff_iff.symm

/-- The clauses of a product are about it and its factors. -/
theorem var_of_mem_productClauses {out : Var} {m : Monomial} {c : Clause} (hc : c ∈ productClauses out m)
    {l : Literal} (hl : l ∈ c) : l.var = out ∨ l.var ∈ m.vars := by
  rcases List.mem_append.1 hc with hc | hc
  · obtain ⟨x, hx, rfl⟩ := List.mem_map.1 hc
    rcases List.mem_cons.1 hl with rfl | hl
    · exact .inl rfl
    · rw [List.mem_singleton.1 hl]
      exact .inr hx
  · rw [List.mem_singleton.1 hc] at hl
    rcases List.mem_append.1 hl with hl | hl
    · obtain ⟨x, hx, rfl⟩ := List.mem_map.1 hl
      exact .inr hx
    · rw [List.mem_singleton.1 hl]
      exact .inl rfl

theorem below_productClauses {n out : Nat} {m : Monomial} (hout : out < n) (hm : ∀ v ∈ m.vars, v < n) :
    Cnf.Below n (productClauses out m) := by
  intro c hc l hl
  rcases var_of_mem_productClauses hc hl with hvar | hvar
  · exact hvar ▸ hout
  · exact hm l.var hvar

/-- The clauses of a product define its variable: whatever the factors are, just one value of the variable satisfies
them. -/
theorem determines_product {next : Nat} {m : Monomial} (hm : ∀ v ∈ m.vars, v < next) :
    Determines next (next + 1) (fun a => Cnf.holds a (productClauses next m) = true) (fun _ => True) where
  le := Nat.le_succ next
  congr hab ha := by
    have hbelow := below_productClauses (Nat.lt_succ_self next) fun v hv => (hm v hv).trans (Nat.lt_succ_self next)
    rwa [← Cnf.holds_congr hbelow hab]
  extend {a} _ := by
    let b : Var → Bool := fun v => if v = next then m.eval a else a v
    have hab : AgreeBelow next a b := fun v hv => (if_neg hv.ne).symm
    refine ⟨b, hab, holds_productClauses.2 ?_⟩
    rw [← Monomial.eval_congr fun v hv => hab v (hm v hv)]
    exact if_pos rfl
  sound _ := trivial
  unique {a b} hab ha hb := by
    intro v hv
    rcases Nat.lt_succ_iff_lt_or_eq.1 hv with hv | rfl
    · exact hab v hv
    · rw [holds_productClauses.1 ha, holds_productClauses.1 hb]
      exact Monomial.eval_congr fun v hv => hab v (hm v hv)

/-- Whether the encoding stands for the common zeros of the polynomials: its clauses can be met just over these, in
one way over each, and then every variable of a product has the value of its monomial. -/
structure Faithful (e : Encoding) (ps : List Polynomial) : Prop where
  product_lt : ∀ {m}, .product m ∈ e.added → ∀ v ∈ m.vars, v < e.numSystemVars
  below : Cnf.Below e.numVars e.clauses
  defines : ∀ {a}, Cnf.holds a e.definitions = true → ∀ {i : Nat} {m}, e.added[i]? = some (.product m) →
    a (e.numSystemVars + i) = m.eval a
  determines : Determines e.numSystemVars e.numVars (fun a => Cnf.holds a e.clauses = true)
    (fun a => ∀ p ∈ ps, p.eval a = false)

/-- What adding clauses leaves as it was. Of the table this is the capacity: its rows are those of the equation that
was converted last. -/
structure Extends (e e' : Encoding) : Prop where
  capacity : e'.table.capacity = e.table.capacity
  tableCutoff : e'.tableCutoff = e.tableCutoff
  chunkLength : e'.chunkLength = e.chunkLength
  numSystemVars : e'.numSystemVars = e.numSystemVars
  assumptions : e'.assumptions = e.assumptions
  added : e.added <+: e'.added

theorem Extends.refl (e : Encoding) : e.Extends e := ⟨rfl, rfl, rfl, rfl, rfl, List.prefix_refl _⟩

theorem Extends.trans {e e' e'' : Encoding} (h : e.Extends e') (h' : e'.Extends e'') : e.Extends e'' where
  capacity := h'.capacity.trans h.capacity
  tableCutoff := h'.tableCutoff.trans h.tableCutoff
  chunkLength := h'.chunkLength.trans h.chunkLength
  numSystemVars := h'.numSystemVars.trans h.numSystemVars
  assumptions := h'.assumptions.trans h.assumptions
  added := h.added.trans h'.added

variable {e e' : Encoding} {m : Monomial} {v : Var} {ps : List Polynomial}

theorem holds_clauses {a : Var → Bool} : Cnf.holds a e.clauses = true ↔
    Cnf.holds a e.definitions = true ∧ Cnf.holds a e.equations.flatten = true :=
  Cnf.holds_append

theorem numVars_le (e : Encoding) : e.numSystemVars ≤ e.numVars := Nat.le_add_right _ _

theorem monomialOf?_of_lt (hv : v < e.numSystemVars) : e.monomialOf? v = some (.ofVar v) := if_pos hv

theorem monomialOf?_add (e : Encoding) (i : Nat) :
    e.monomialOf? (e.numSystemVars + i) = e.added[i]?.bind Role.monomial? := by
  rw [monomialOf?, if_neg (Nat.not_lt.2 (Nat.le_add_right _ _)), Nat.add_sub_cancel_left]
  cases e.added[i]? with
  | none => rfl
  | some role => cases role <;> rfl

theorem monomialOf?_of_getElem? {i : Nat} (h : e.added[i]? = some (.product m)) :
    e.monomialOf? (e.numSystemVars + i) = some m := by
  simp [monomialOf?_add, h, Role.monomial?]

/-- A variable that stands for a monomial is one of the system, which stands for itself, or that of a product that was
named. -/
theorem monomialOf?_cases (h : e.monomialOf? v = some m) : (v < e.numSystemVars ∧ m = .ofVar v) ∨
    ∃ i : Nat, v = e.numSystemVars + i ∧ e.added[i]? = some (.product m) := by
  rw [monomialOf?] at h
  split at h
  · next hlt => exact .inl ⟨hlt, (Option.some.inj h).symm⟩
  · next hge =>
    split at h
    · next hrole =>
      obtain rfl := Option.some.inj h
      exact .inr ⟨v - e.numSystemVars, (Nat.add_sub_cancel' (Nat.not_lt.1 hge)).symm, hrole⟩
    · cases h

theorem lt_numVars_of_monomialOf? (h : e.monomialOf? v = some m) : v < e.numVars := by
  rcases monomialOf?_cases h with ⟨hlt, -⟩ | ⟨i, rfl, hi⟩
  · exact hlt.trans_le e.numVars_le
  · obtain ⟨hi, -⟩ := List.getElem?_eq_some_iff.1 hi
    exact Nat.add_lt_add_left hi _

theorem Extends.numVars_le (h : e.Extends e') : e.numVars ≤ e'.numVars := by
  rw [numVars, numVars, h.numSystemVars]
  exact Nat.add_le_add_left h.added.length_le _

/-- What a variable stands for does not depend on what is added later, because new variables come behind those from
before. -/
theorem Extends.monomialOf?_eq (h : e.Extends e') (hv : v < e.numVars) : e'.monomialOf? v = e.monomialOf? v := by
  by_cases hlt : v < e.numSystemVars
  · rw [monomialOf?_of_lt hlt, monomialOf?_of_lt (h.numSystemVars ▸ hlt)]
  · obtain ⟨i, rfl⟩ := Nat.exists_eq_add_of_le (Nat.not_lt.1 hlt)
    have hi : i < e.added.length := Nat.lt_of_add_lt_add_left hv
    rw [monomialOf?_add, ← h.numSystemVars, monomialOf?_add, List.prefix_iff_getElem?.1 h.added i hi,
      List.getElem?_eq_getElem hi]

theorem Extends.monomialOf? (h : e.Extends e') (hm : e.monomialOf? v = some m) : e'.monomialOf? v = some m :=
  (h.monomialOf?_eq (lt_numVars_of_monomialOf? hm)).trans hm

/-- Where the definitions hold, a variable has the value of the monomial it stands for. For the variables of the
system this is immediate, and for products it is what their clauses say. -/
theorem Faithful.eval_eq (h : e.Faithful ps) {a : Var → Bool} (ha : Cnf.holds a e.definitions = true)
    (hm : e.monomialOf? v = some m) : a v = m.eval a := by
  rcases monomialOf?_cases hm with ⟨-, rfl⟩ | ⟨i, rfl, hi⟩
  · exact (Monomial.eval_ofVar a v).symm
  · exact h.defines ha hi

/-- The encoding with a new variable for a product, and the clauses that tie the variable to the factors. -/
def withProduct (e : Encoding) (m : Monomial) : Encoding :=
  { e with added := e.added ++ [.product m], definitions := e.definitions ++ productClauses e.numVars m }

theorem mem_added_withProduct {k : Monomial} :
    .product k ∈ (e.withProduct m).added ↔ .product k ∈ e.added ∨ k = m := by
  simp [Encoding.withProduct]

theorem getElem?_withProduct {i : Nat} {role : Role} (h : (e.withProduct m).added[i]? = some role) :
    e.added[i]? = some role ∨ (i = e.added.length ∧ role = .product m) := by
  change (e.added ++ [Role.product m])[i]? = _ at h
  rw [List.getElem?_append] at h
  split at h
  · exact .inl h
  · next hge =>
    rw [List.getElem?_singleton] at h
    split at h
    · next hzero =>
      have hi : i = e.added.length := Nat.le_antisymm (Nat.sub_eq_zero_iff_le.1 hzero) (Nat.not_lt.1 hge)
      exact .inr ⟨hi, (Option.some.inj h).symm⟩
    · cases h

/-- How a monomial gets its variable: a variable of the system has its own, a product that was named before keeps the
one it got, and any other one gets the next. -/
inductive Naming (e : Encoding) (m : Monomial) : Var → Encoding → Prop
  | linear {v : Var} : m = .ofVar v → v < e.numSystemVars → Naming e m v e
  | known {i : Nat} : e.added[i]? = some (.product m) → Naming e m (e.numSystemVars + i) e
  | fresh : Naming e m e.numVars (e.withProduct m)

theorem naming_of_monomialVar (h : e.monomialVar m = .ok (v, e')) : e.Naming m v e' := by
  rw [monomialVar] at h
  split at h
  · next x hx =>
    split at h
    · next hlt =>
      cases h
      exact .linear (Monomial.eq_ofVar hx) hlt
    · cases h
  · split at h
    · next i hi =>
      cases h
      obtain ⟨hlt, hget, -⟩ := List.idxOf?_eq_some_iff.1 hi
      exact .known (by rw [List.getElem?_eq_getElem hlt, hget])
    · cases h
      exact .fresh

theorem monomialVar_ofVar (e : Encoding) (u : Var) :
    e.monomialVar (.ofVar u) = if u < e.numSystemVars then .ok (u, e) else .error (.outside u) := rfl

theorem lt_of_monomialVar {u : Var} (h : e.monomialVar (.ofVar u) = .ok (v, e')) : u < e.numSystemVars := by
  rw [monomialVar_ofVar] at h
  split at h
  · assumption
  · cases h

/-- Naming a monomial adds nothing, or it adds the product of several variables, which has no variable yet. -/
theorem monomialVar_adds (h : e.monomialVar m = .ok (v, e')) :
    e' = e ∨ ((∀ u, m ≠ .ofVar u) ∧ .product m ∉ e.added ∧ e' = e.withProduct m) := by
  rw [monomialVar] at h
  split at h
  · split at h
    · cases h
      exact .inl rfl
    · cases h
  · next hnonlinear =>
    split at h
    · cases h
      exact .inl rfl
    · next hnone =>
      cases h
      refine .inr ⟨?_, List.idxOf?_eq_none_iff.1 hnone, rfl⟩
      rintro u rfl
      exact hnonlinear u rfl

/-- Only a linear monomial is checked against the variables of the system: a product gets its variable whatever its
factors are. -/
theorem monomialVar_error {err : EncodingError} (h : e.monomialVar m = .error err) :
    ∃ u, m = .ofVar u ∧ e.numSystemVars ≤ u ∧ err = .outside u := by
  rw [monomialVar] at h
  split at h
  · next u hu =>
    split at h
    · cases h
    · next hge =>
      cases h
      exact ⟨u, Monomial.eq_ofVar hu, Nat.not_lt.1 hge, rfl⟩
  · split at h
    · cases h
    · cases h

theorem numVars_withProduct (e : Encoding) (m : Monomial) : (e.withProduct m).numVars = e.numVars + 1 := by
  rw [numVars, withProduct, List.length_append]
  exact (Nat.add_assoc _ _ _).symm

theorem Naming.extends (h : e.Naming m v e') : e.Extends e' := by
  cases h with
  | linear _ _ => exact .refl e
  | known _ => exact .refl e
  | fresh => exact ⟨rfl, rfl, rfl, rfl, rfl, List.prefix_append _ _⟩

theorem Naming.monomialOf? (h : e.Naming m v e') : e'.monomialOf? v = some m := by
  cases h with
  | linear hm hlt => rw [hm, monomialOf?_of_lt hlt]
  | known hi => exact monomialOf?_of_getElem? hi
  | fresh => exact monomialOf?_of_getElem? (e := e.withProduct m) List.getElem?_concat_length

/-- The clauses of a new product hold in just one extension of an assignment that meets the others, so that the
encoding stays faithful to the same polynomials. -/
theorem Faithful.withProduct (h : e.Faithful ps) (hm : ∀ v ∈ m.vars, v < e.numSystemVars) :
    (e.withProduct m).Faithful ps := by
  have hnum := numVars_withProduct e m
  have hm' : ∀ v ∈ m.vars, v < e.numVars := fun v hv => (hm v hv).trans_le e.numVars_le
  have hclauses : ∀ a, Cnf.holds a (e.withProduct m).clauses = true ↔
      Cnf.holds a e.clauses = true ∧ Cnf.holds a (productClauses e.numVars m) = true := by
    intro a
    rw [holds_clauses, holds_clauses, Encoding.withProduct, Cnf.holds_append]
    exact and_right_comm
  constructor
  · intro k hk
    obtain hk | rfl := mem_added_withProduct.1 hk
    · exact h.product_lt hk
    · exact hm
  · rw [hnum]
    obtain ⟨hdefinitions, hequations⟩ := Cnf.below_append.1 h.below
    refine Cnf.below_append.2 ⟨Cnf.below_append.2 ⟨hdefinitions.mono (Nat.le_succ _), ?_⟩,
      hequations.mono (Nat.le_succ _)⟩
    exact below_productClauses (Nat.lt_succ_self _) fun v hv => (hm' v hv).trans (Nat.lt_succ_self _)
  · intro a ha i k hi
    rw [Encoding.withProduct, Cnf.holds_append, holds_productClauses] at ha
    obtain hi | ⟨rfl, hrole⟩ := getElem?_withProduct hi
    · exact h.defines ha.1 hi
    · obtain rfl := Role.product.inj hrole
      exact ha.2
  · rw [hnum]
    refine (h.determines.comp (determines_product hm') (R := fun _ => True) (fun _ _ => trivial)
      fun _ => Iff.rfl).of_iff (fun a => (hclauses a).symm) fun a => iff_of_eq (and_true _)

theorem Naming.faithful (hname : e.Naming m v e') (h : e.Faithful ps)
    (hm : ∀ v ∈ m.vars, v < e.numSystemVars) : e'.Faithful ps := by
  cases hname with
  | linear _ _ => exact h
  | known _ => exact h
  | fresh => exact h.withProduct hm

/-- Whether the variables stand for the monomials, in the same order. -/
def Names (e : Encoding) (ms : List Monomial) (vs : List Var) : Prop :=
  List.Forall₂ (fun m v => e.monomialOf? v = some m) ms vs

theorem Names.lt_numVars {ms : List Monomial} {vs : List Var} (h : e.Names ms vs) : ∀ v ∈ vs, v < e.numVars := by
  induction h with
  | nil => exact nofun
  | cons hm _ ih => exact List.forall_mem_cons.2 ⟨lt_numVars_of_monomialOf? hm, ih⟩

theorem Names.exists_of_mem {ms : List Monomial} {vs : List Var} (h : e.Names ms vs) {m : Monomial}
    (hm : m ∈ ms) : ∃ v ∈ vs, e.monomialOf? v = some m := by
  induction h with
  | nil => cases hm
  | @cons n v ns vs hv _ ih =>
    rcases List.mem_cons.1 hm with rfl | hm
    · exact ⟨v, List.mem_cons_self, hv⟩
    · obtain ⟨x, hx, hname⟩ := ih hm
      exact ⟨x, List.mem_cons_of_mem v hx, hname⟩

theorem Names.map_eq {ms : List Monomial} {vs : List Var} (hnames : e.Names ms vs) (h : e.Faithful ps)
    {a : Var → Bool} (ha : Cnf.holds a e.definitions = true) : vs.map a = ms.map (Monomial.eval a) := by
  induction hnames with
  | nil => rfl
  | cons hm _ ih => rw [List.map_cons, List.map_cons, ih, h.eval_eq ha hm]

/-- The first monomial is named before the others are. -/
theorem monomialVars_cons {ms : List Monomial} {vs : List Var} (hvars : e.monomialVars (m :: ms) = .ok (vs, e')) :
    ∃ v e₁ ws, e.Naming m v e₁ ∧ e.monomialVar m = .ok (v, e₁) ∧ e₁.monomialVars ms = .ok (ws, e') ∧ vs = v :: ws := by
  rw [monomialVars] at hvars
  split at hvars
  · cases hvars
  · next v e₁ hv =>
    split at hvars
    · cases hvars
    · next ws e₂ hws =>
      cases hvars
      exact ⟨v, e₁, ws, naming_of_monomialVar hv, hv, hws, rfl⟩

/-- What every new product keeps is kept by naming monomials, one after the other. Most of them add nothing, because
they are linear or were named before. -/
theorem monomialVars_induction {P : Encoding → Prop} {ms : List Monomial} {vs : List Var}
    (hvars : e.monomialVars ms = .ok (vs, e'))
    (hproduct : ∀ {e m}, m ∈ ms → (∀ u, m ≠ .ofVar u) → .product m ∉ e.added → P e → P (e.withProduct m))
    (h : P e) : P e' := by
  induction ms generalizing e vs with
  | nil =>
    cases hvars
    exact h
  | cons m ms ih =>
    obtain ⟨v, e₁, ws, -, hv, hws, rfl⟩ := monomialVars_cons hvars
    refine ih hws (fun hm => hproduct (List.mem_cons_of_mem m hm)) ?_
    obtain rfl | ⟨hnonlinear, hnew, rfl⟩ := monomialVar_adds hv
    · exact h
    · exact hproduct List.mem_cons_self hnonlinear hnew h

/-- Naming the monomials one after another keeps an encoding faithful, and the variables stand for the monomials in
the end. Products shared with earlier equations keep their variables. -/
theorem monomialVars_spec {ms : List Monomial} {vs : List Var} (hvars : e.monomialVars ms = .ok (vs, e')) :
    e.Extends e' ∧ e'.Names ms vs ∧
    ∀ ps, e.Faithful ps → (∀ m ∈ ms, ∀ v ∈ m.vars, v < e.numSystemVars) → e'.Faithful ps := by
  induction ms generalizing e vs with
  | nil =>
    cases hvars
    exact ⟨.refl _, .nil, fun _ h _ => h⟩
  | cons m ms ih =>
    obtain ⟨v, e₁, ws, hname, -, hws, rfl⟩ := monomialVars_cons hvars
    obtain ⟨hextends, hnames, hfaithful⟩ := ih hws
    refine ⟨hname.extends.trans hextends, .cons (hextends.monomialOf? hname.monomialOf?) hnames, ?_⟩
    intro ps h hms
    obtain ⟨hm, hms⟩ := List.forall_mem_cons.1 hms
    exact hfaithful ps (hname.faithful h hm) (by rwa [hname.extends.numSystemVars])

theorem lt_of_monomialVars {ms : List Monomial} {vs : List Var} (hvars : e.monomialVars ms = .ok (vs, e')) :
    ∀ u, .ofVar u ∈ ms → u < e.numSystemVars := by
  induction ms generalizing e vs with
  | nil => exact fun u hu => nomatch hu
  | cons m ms ih =>
    obtain ⟨v, e₁, ws, hname, hv, hws, rfl⟩ := monomialVars_cons hvars
    intro u hu
    rcases List.mem_cons.1 hu with rfl | hu
    · exact lt_of_monomialVar hv
    · rw [← hname.extends.numSystemVars]
      exact ih hws u hu

theorem monomialVars_error {ms : List Monomial} {err : EncodingError} (hvars : e.monomialVars ms = .error err) :
    ∃ u, .ofVar u ∈ ms ∧ e.numSystemVars ≤ u ∧ err = .outside u := by
  induction ms generalizing e with
  | nil => cases hvars
  | cons m ms ih =>
    rw [monomialVars] at hvars
    split at hvars
    · next hv =>
      cases hvars
      obtain ⟨u, rfl, hu⟩ := monomialVar_error hv
      exact ⟨u, List.mem_cons_self, hu⟩
    · next v e₁ hv =>
      split at hvars
      · next hvs =>
        cases hvars
        obtain ⟨u, hmem, hu⟩ := ih hvs
        rw [(naming_of_monomialVar hv).extends.numSystemVars] at hu
        exact ⟨u, List.mem_cons_of_mem m hmem, hu⟩
      · cases hvars

/-- Monomials are named just if the linear ones lie among the variables of the system. About the factors of a product
nothing is asked. -/
theorem monomialVars_isOk_iff {ms : List Monomial} :
    (∃ vs e', e.monomialVars ms = .ok (vs, e')) ↔ ∀ u, .ofVar u ∈ ms → u < e.numSystemVars := by
  constructor
  · rintro ⟨vs, e', hvars⟩
    exact lt_of_monomialVars hvars
  · intro hms
    cases hvars : e.monomialVars ms with
    | error err =>
      obtain ⟨u, hu, hge, -⟩ := monomialVars_error hvars
      exact absurd (hms u hu) (Nat.not_lt.2 hge)
    | ok result => exact ⟨result.1, result.2, rfl⟩

end Encoding

end BoolPoly

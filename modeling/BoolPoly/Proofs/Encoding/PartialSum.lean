import BoolPoly.Proofs.Encoding.Exactness
import Mathlib.Data.List.Perm.Subperm

namespace BoolPoly

section Sum

variable {α : Type} {f : (Var → Bool) → α → Bool}

/-- Where variables have the values of sums, their sum is the sum of all summands. Monomials that occur in several of
them are counted as often. -/
theorem parity_map_eq_flatten {vars : List Var} {groups : List (List α)} {a : Var → Bool}
    (h : List.Forall₂ (fun v group => a v = parity (group.map (f a))) vars groups) :
    parity (vars.map a) = parity (groups.flatten.map (f a)) := by
  induction h with
  | nil => rfl
  | cons hv _ ih => rw [List.map_cons, parity_cons, hv, ih, List.flatten_cons, List.map_append, parity_append]

/-- When the variables of a sum stand for sums, each new variable stands for a part of all summands. A chunk is
replaced by its partial sum, which stands for what the chunk stood for, so the summands stay the same up to their
order. -/
theorem exists_part_of_sumClauses (chunkLength next : Nat) (vars : List Var) (rhs : Bool) :
    ∀ (D : (Var → Bool) → Prop) (groups : List (List α)),
      List.Forall₂ (fun v group => ∀ a, D a → a v = parity (group.map (f a))) vars groups →
      ∀ i < (sumClauses chunkLength next vars rhs).2, ∃ part : List α, part.Subperm groups.flatten ∧ ∀ a, D a →
        Cnf.holds a (sumClauses chunkLength next vars rhs).1 = true → a (next + i) = parity (part.map (f a)) := by
  fun_induction sumClauses chunkLength next vars rhs with
  | case1 next vars hlong _ size clauses count heq ih =>
    intro D groups h i hi
    rw [heq] at ih
    have hsplit : groups.flatten = (groups.take size).flatten ++ (groups.drop size).flatten := by
      rw [← List.flatten_append, List.take_append_drop]
    have hsum : ∀ a, D a → Cnf.holds a (parityClauses (vars.take size ++ [next]) false) = true →
        a next = parity ((groups.take size).flatten.map (f a)) := by
      intro a ha hchunk
      rw [holds_parityClauses, List.map_append, parity_append, bne_eq_false_iff_eq] at hchunk
      rw [← parity_map_eq_flatten ((List.forall₂_take size h).imp fun v group hv => hv a ha), hchunk,
        List.map_cons, List.map_nil, parity_cons, parity_nil, Bool.xor_false]
    cases i with
    | zero =>
      refine ⟨(groups.take size).flatten, ?_, fun a ha hholds => hsum a ha (Cnf.holds_append.1 hholds).1⟩
      rw [hsplit]
      exact (List.sublist_append_left _ _).subperm
    | succ i =>
      have hrest : List.Forall₂ (fun v group => ∀ a,
          D a ∧ Cnf.holds a (parityClauses (vars.take size ++ [next]) false) = true →
            a v = parity (group.map (f a)))
          (vars.drop size ++ [next]) (groups.drop size ++ [(groups.take size).flatten]) := by
        refine List.rel_append ((List.forall₂_drop size h).imp fun v group hv a ha => hv a ha.1) ?_
        exact .cons (fun a ha => hsum a ha.1 ha.2) .nil
      obtain ⟨part, hpart, hvalue⟩ := ih _ _ hrest i (Nat.lt_of_succ_lt_succ hi)
      have hperm : (groups.drop size ++ [(groups.take size).flatten]).flatten.Perm groups.flatten := by
        rw [hsplit, List.flatten_append, List.flatten_singleton]
        exact List.perm_append_comm
      refine ⟨part, hpart.trans hperm.subperm, fun a ha hholds => ?_⟩
      obtain ⟨hchunk, hholds⟩ := Cnf.holds_append.1 hholds
      rw [← hvalue a ⟨ha, hchunk⟩ hholds, Nat.add_right_comm, Nat.add_assoc]
  | case2 next vars hshort => exact fun _ _ _ i hi => absurd hi (Nat.not_lt_zero i)

end Sum

namespace Encoding

variable {e e' : Encoding} {p : Polynomial} {ps : List Polynomial}

/-- Whether the variable has the value of the sum of the monomials wherever the clauses hold. A chunk may sum partial
sums in turn, and the monomials are those at the bottom. -/
def StandsFor (e : Encoding) (v : Var) (ms : List Monomial) : Prop :=
  ∀ a, Cnf.holds a e.clauses = true → a v = parity (ms.map (Monomial.eval a))

/-- Whether every variable that stands for no monomial stands for a part of the terms of a polynomial, so that its
value in a model can be told from a solution. -/
def Summed (e : Encoding) (ps : List Polynomial) : Prop :=
  ∀ v < e.numVars, e.monomialOf? v = none → ∃ p ∈ ps, ∃ ms : List Monomial, ms.Subperm p.terms ∧ e.StandsFor v ms

/-- A variable keeps what it stands for while clauses are added. -/
theorem Summed.extend (h : e.Summed ps) (hextends : e.Extends e')
    (hclauses : ∀ a, Cnf.holds a e'.clauses = true → Cnf.holds a e.clauses = true) {v : Var} (hv : v < e.numVars)
    (hnone : e'.monomialOf? v = none) :
    ∃ p ∈ ps, ∃ ms : List Monomial, ms.Subperm p.terms ∧ e'.StandsFor v ms := by
  obtain ⟨p, hp, ms, hms, hvalue⟩ := h v hv ((hextends.monomialOf?_eq hv).symm.trans hnone)
  exact ⟨p, hp, ms, hms, fun a ha => hvalue a (hclauses a ha)⟩

/-- A new product stands for its monomial, and leaves the other variables what they stand for. The clauses that are
added only take assignments away. -/
theorem Summed.withProduct (h : e.Summed ps) (m : Monomial) : (e.withProduct m).Summed ps := by
  intro v hv hnone
  rw [numVars_withProduct] at hv
  cases Nat.lt_succ_iff_lt_or_eq.1 hv with
  | inl hv =>
    refine h.extend Naming.fresh.extends (fun a ha => ?_) hv hnone
    rw [holds_clauses, Encoding.withProduct, Cnf.holds_append] at ha
    exact holds_clauses.2 ⟨ha.1.1, ha.2⟩
  | inr hv =>
    rw [hv, (Naming.fresh (e := e) (m := m)).monomialOf?] at hnone
    cases hnone

/-- The clauses of an equation leave all variables what they stand for; its own partial sums stand for parts of its
terms. -/
theorem Summed.withEquation (h : e.Summed ps) {table : Karnaugh.Table} (htable : table.capacity = e.table.capacity)
    {clauses : List Clause} {count : Nat} (hparts : ∀ i < count, ∃ ms : List Monomial, ms.Subperm p.terms ∧
      ∀ a, Cnf.holds a e.definitions = true → Cnf.holds a clauses = true →
        a (e.numVars + i) = parity (ms.map (Monomial.eval a))) :
    (e.withEquation table clauses count).Summed (ps ++ [p]) := by
  have hclauses : ∀ a, Cnf.holds a (e.withEquation table clauses count).clauses = true ↔
      Cnf.holds a e.clauses = true ∧ Cnf.holds a clauses = true := by
    intro a
    rw [holds_clauses, holds_clauses, Encoding.withEquation, List.flatten_concat, Cnf.holds_append, and_assoc]
  intro v hv hnone
  rw [numVars_withEquation] at hv
  by_cases hold : v < e.numVars
  · obtain ⟨q, hq, hms⟩ :=
      h.extend (extends_withEquation htable clauses count) (fun a ha => ((hclauses a).1 ha).1) hold hnone
    exact ⟨q, List.mem_append_left _ hq, hms⟩
  · obtain ⟨i, rfl⟩ := Nat.exists_eq_add_of_le (Nat.not_lt.1 hold)
    obtain ⟨ms, hms, hvalue⟩ := hparts i (by omega)
    refine ⟨p, List.mem_append_right _ (List.mem_singleton_self p), ms, hms, fun a ha => ?_⟩
    obtain ⟨hold, hnew⟩ := (hclauses a).1 ha
    exact hvalue a (holds_clauses.1 hold).1 hnew

theorem summed_of_addEquation (hadd : e.addEquation p = .ok e') (hfaithful : e.Faithful ps)
    (hp : ∀ v ∈ p.vars, v < e.numSystemVars) (h : e.Summed ps) : e'.Summed (ps ++ [p]) := by
  obtain ⟨-, -, table, htable, rfl⟩ | ⟨-, vars, e₁, hvars, rfl⟩ := addEquation_cases hadd
  · exact h.withEquation htable fun i hi => absurd hi (Nat.not_lt_zero i)
  · obtain ⟨-, hnames, hfaithful'⟩ := monomialVars_spec hvars
    have h₁ := hfaithful' ps hfaithful fun m hm v hv => hp v (Polynomial.mem_vars_of_mem_terms hm hv)
    have h₂ : e₁.Summed ps :=
      monomialVars_induction (P := (Summed · ps)) hvars (fun _ _ _ h => Summed.withProduct h _) h
    refine h₂.withEquation rfl fun i hi => ?_
    have hgroups : List.Forall₂ (fun v group => ∀ a, Cnf.holds a e₁.definitions = true →
        a v = parity (group.map (Monomial.eval a))) vars (p.terms.map ([·])) := by
      rw [List.forall₂_map_right_iff]
      refine hnames.flip.imp fun v m hm a ha => ?_
      rw [h₁.eval_eq ha hm, List.map_cons, List.map_nil, parity_cons, parity_nil, Bool.xor_false]
    obtain ⟨ms, hms, hvalue⟩ := exists_part_of_sumClauses e₁.chunkLength e₁.numVars vars p.constantTerm
      _ _ hgroups i hi
    rw [← List.flatMap_def, List.flatMap_singleton'] at hms
    exact ⟨ms, hms, hvalue⟩

theorem summed_of_addEquations {qs : List Polynomial} (hadd : e.addEquations qs = (e', none))
    (hfaithful : e.Faithful ps) (hqs : ∀ q ∈ qs, ∀ v ∈ q.vars, v < e.numSystemVars) (h : e.Summed ps) :
    e'.Summed (ps ++ qs) := by
  induction qs generalizing e ps with
  | nil =>
    cases hadd
    rwa [List.append_nil]
  | cons q qs ih =>
    obtain ⟨e₁, hadd₁, hadd⟩ := addEquations_cons hadd
    obtain ⟨hq, hqs⟩ := List.forall_mem_cons.1 hqs
    obtain ⟨hextends, hfaithful'⟩ := addEquation_spec hadd₁
    have h' := ih hadd (hfaithful' ps hfaithful hq) (by rwa [hextends.numSystemVars])
      (summed_of_addEquation hadd₁ hfaithful hq h)
    rwa [List.append_assoc] at h'

variable {s : EquationSystem} {config : Config}

/-- Every variable of the encoding of a system that stands for no monomial stands for a part of an equation: the
partial sums are sums of its terms, the constant apart. -/
theorem summed_of_ofSystem (h : Encoding.ofSystem s config = .ok e)
    (hs : ∀ p ∈ s.equations, ∀ v ∈ p.vars, v < s.numVars) : e.Summed s.equations := by
  obtain ⟨e₀, hnew, hadd⟩ := stages_of_ofSystem h
  obtain ⟨hnum, -, h₀⟩ := new_spec hnew
  have hadded : e₀.added = [] := by
    rw [Encoding.new] at hnew
    split at hnew
    · cases hnew
    · cases hnew
      rfl
  refine summed_of_addEquations hadd h₀ (by rwa [hnum]) fun v hv hnone => ?_
  rw [numVars, hadded, List.length_nil, Nat.add_zero] at hv
  rw [monomialOf?_of_lt hv] at hnone
  cases hnone

end Encoding

end BoolPoly

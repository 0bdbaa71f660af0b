import BoolPoly.Proofs.Encoding.Product
import BoolPoly.Proofs.Encoding.Sum
import BoolPoly.Proofs.Karnaugh.Conversion

namespace BoolPoly.Encoding

variable {e e' : Encoding} {p : Polynomial} {ps : List Polynomial}

/-- The encoding with the clauses of an equation, the variables of their partial sums, and the table that the equation
leaves behind. -/
def withEquation (e : Encoding) (table : Karnaugh.Table) (clauses : List Clause) (count : Nat) : Encoding :=
  { e with
    table
    added := e.added ++ List.replicate count .partialSum
    equations := e.equations ++ [clauses] }

theorem numVars_withEquation (e : Encoding) (table : Karnaugh.Table) (clauses : List Clause) (count : Nat) :
    (e.withEquation table clauses count).numVars = e.numVars + count := by
  rw [numVars, withEquation, List.length_append, List.length_replicate]
  exact (Nat.add_assoc _ _ _).symm

theorem extends_withEquation {table : Karnaugh.Table} (h : table.capacity = e.table.capacity)
    (clauses : List Clause) (count : Nat) : e.Extends (e.withEquation table clauses count) :=
  ⟨h, rfl, rfl, rfl, rfl, List.prefix_append _ _⟩

section

variable {table : Karnaugh.Table} {clauses : List Clause} {count : Nat}

theorem getElem?_withEquation {i : Nat} {role : Role}
    (h : (e.withEquation table clauses count).added[i]? = some role) :
    e.added[i]? = some role ∨ (e.added.length ≤ i ∧ role = .partialSum) := by
  change (e.added ++ List.replicate count Role.partialSum)[i]? = _ at h
  rw [List.getElem?_append] at h
  split at h
  · exact .inl h
  · next hge => exact .inr ⟨Nat.not_lt.1 hge, List.eq_of_mem_replicate (List.mem_of_getElem? h)⟩

/-- A partial sum stands for no monomial. -/
theorem mem_added_withEquation {m : Monomial} :
    .product m ∈ (e.withEquation table clauses count).added ↔ .product m ∈ e.added := by
  simp [Encoding.withEquation]

/-- A product of an encoding with one more equation was there before: all that an equation itself brings are partial
sums. -/
theorem getElem?_of_withEquation {i : Nat} {m : Monomial}
    (h : (e.withEquation table clauses count).added[i]? = some (.product m)) : e.added[i]? = some (.product m) :=
  (getElem?_withEquation h).resolve_right fun hnew => Role.noConfusion hnew.2

/-- Clauses that determine their partial sums, and hold where the polynomial is zero, keep an encoding faithful. It
does not matter whether they come from the table or from a sum. -/
theorem Faithful.withEquation (h : e.Faithful ps) (hp : ∀ v ∈ p.vars, v < e.numSystemVars)
    (table : Karnaugh.Table) {Q : (Var → Bool) → Prop} (hbelow : Cnf.Below (e.numVars + count) clauses)
    (hclauses : Determines e.numVars (e.numVars + count) (fun a => Cnf.holds a clauses = true) Q)
    (hQ : ∀ {a}, Cnf.holds a e.definitions = true → (Q a ↔ p.eval a = false)) :
    (e.withEquation table clauses count).Faithful (ps ++ [p]) where
  product_lt hm := h.product_lt (mem_added_withEquation.1 hm)
  below := by
    rw [numVars_withEquation]
    obtain ⟨hdefinitions, hequations⟩ := Cnf.below_append.1 (h.below.mono (Nat.le_add_right e.numVars count))
    refine Cnf.below_append.2 ⟨hdefinitions, ?_⟩
    rw [Encoding.withEquation, List.flatten_concat]
    exact Cnf.below_append.2 ⟨hequations, hbelow⟩
  defines ha _ _ hi := h.defines ha (getElem?_of_withEquation hi)
  determines := by
    rw [numVars_withEquation]
    refine (h.determines.comp hclauses (R := fun a => p.eval a = false) ?_ ?_).of_iff ?_ ?_
    · intro a b hab ha
      rwa [← Polynomial.eval_congr fun v hv => hab v (hp v hv)]
    · intro a ha
      exact hQ (holds_clauses.1 ha).1
    · intro a
      rw [holds_clauses, holds_clauses, Encoding.withEquation, List.flatten_concat, Cnf.holds_append, and_assoc]
    · intro a
      rw [List.forall_mem_append, List.forall_mem_singleton]

end

theorem length_of_monomialVars {ms : List Monomial} {vs : List Var} (hvars : e.monomialVars ms = .ok (vs, e')) :
    vs.length = ms.length := by
  obtain ⟨-, hnames, -⟩ := monomialVars_spec hvars
  exact hnames.length_eq.symm

/-- What accepting an equation adds: its clauses from the table, or those of the sum of the variables that its
monomials got. In the second case products are named first, and stay also for later equations. -/
theorem addEquation_cases (hadd : e.addEquation p = .ok e') :
    (e.usesTable p = true ∧ p.vars.size < 32 ∧ ∃ table : Karnaugh.Table, table.capacity = e.table.capacity ∧
      e' = e.withEquation table (Karnaugh.clauses p) 0) ∨
    (e.usesTable p = false ∧ ∃ vars e₁, e.monomialVars p.terms = .ok (vars, e₁) ∧
      e' = e₁.withEquation e₁.table (sumClauses e₁.chunkLength e₁.numVars vars p.constantTerm).1
        (sumClauses e₁.chunkLength e₁.numVars vars p.constantTerm).2) := by
  rw [addEquation] at hadd
  split at hadd
  · next huses =>
    split at hadd
    · cases hadd
    · next clauses table hconvert =>
      cases hadd
      obtain ⟨hwidth, rfl, hcapacity⟩ := Karnaugh.clauses_of_convert hconvert
      refine .inl ⟨huses, hwidth, table, hcapacity, ?_⟩
      rw [withEquation, List.replicate_zero, List.append_nil]
  · next huses =>
    split at hadd
    · cases hadd
    · next vars e₁ hvars =>
      rw [sumClauses?_eq] at hadd
      split at hadd
      · cases hadd
      · next clauses count hsum =>
        cases hadd
        obtain ⟨-, hsum⟩ := Option.ite_none_right_eq_some.1 hsum
        refine .inr ⟨Bool.eq_false_iff.2 huses, vars, e₁, hvars, ?_⟩
        rw [Option.some.inj hsum]
        rfl

/-- An encoding that is faithful to the polynomials so far is faithful to the new one as well, through the table or as
a sum. What the variables from before stand for stays the same. -/
theorem addEquation_spec (hadd : e.addEquation p = .ok e') : e.Extends e' ∧
    ∀ ps, e.Faithful ps → (∀ v ∈ p.vars, v < e.numSystemVars) → e'.Faithful (ps ++ [p]) := by
  obtain ⟨-, hwidth, table, hcapacity, rfl⟩ | ⟨-, vars, e₁, hvars, rfl⟩ := addEquation_cases hadd
  · refine ⟨extends_withEquation hcapacity _ 0, ?_⟩
    intro ps h hp
    have hbelow : Cnf.Below e.numVars (Karnaugh.clauses p) := fun c hc l hl =>
      (hp _ (Karnaugh.mem_vars_of_mem_clauses hwidth hc hl)).trans_le e.numVars_le
    refine h.withEquation hp table hbelow (.of_congr ?_) fun _ => Karnaugh.holds_clauses hwidth
    intro a b hab ha
    rwa [← Cnf.holds_congr hbelow hab]
  · obtain ⟨hextends, hnames, hfaithful⟩ := monomialVars_spec hvars
    refine ⟨hextends.trans (extends_withEquation rfl _ _), ?_⟩
    intro ps h hp
    have h₁ := hfaithful ps h fun m hm v hv => hp v (Polynomial.mem_vars_of_mem_terms hm hv)
    obtain ⟨hbelow, hdetermines⟩ :=
      determines_sumClauses e₁.chunkLength e₁.numVars vars p.constantTerm hnames.lt_numVars
    refine h₁.withEquation (hextends.numSystemVars ▸ hp) e₁.table hbelow hdetermines ?_
    intro a ha
    rw [hnames.map_eq h₁ ha, Polynomial.eval_eq_terms]
    cases parity (p.terms.map (Monomial.eval a)) <;> cases p.constantTerm <;> simp

/-- How long the chunks of a sum are is known before its monomials have variables: there are as many variables as
monomials, and only their number counts. -/
theorem sumClauses?_of_monomialVars {vars : List Var} (hvars : e.monomialVars p.terms = .ok (vars, e')) :
    sumClauses? e'.chunkLength e'.numVars vars p.constantTerm =
      if longestChunk e.chunkLength p.terms.length < wordBits then
        some (sumClauses e'.chunkLength e'.numVars vars p.constantTerm)
      else none := by
  obtain ⟨hextends, -, -⟩ := monomialVars_spec hvars
  rw [sumClauses?_eq, hextends.chunkLength, length_of_monomialVars hvars]

/-- An equation for the table is accepted if it is not too wide. Any other one is accepted if its linear monomials lie
among the variables of the system and the assignments to its longest chunk can be counted. -/
theorem addEquation_isOk_iff : (∃ e', e.addEquation p = .ok e') ↔
    if e.usesTable p then e.table.fits p = true
    else (∀ u, .ofVar u ∈ p.terms → u < e.numSystemVars) ∧ longestChunk e.chunkLength p.terms.length < wordBits := by
  rw [addEquation]
  split
  · cases hfits : e.table.fits p with
    | false => simp [Karnaugh.convert_of_not_fits hfits]
    | true =>
      obtain ⟨table, hconvert, -⟩ := Karnaugh.convert_of_fits hfits
      simp [hconvert]
  · rw [← monomialVars_isOk_iff]
    cases hvars : e.monomialVars p.terms with
    | error err => simp
    | ok result =>
      obtain ⟨vars, e₁⟩ := result
      dsimp only
      rw [sumClauses?_of_monomialVars hvars]
      by_cases hchunk : longestChunk e.chunkLength p.terms.length < wordBits
      · simp [hchunk]
      · simp [hchunk]

/-- An equation fails by being too wide for the table, by a linear monomial beyond the variables of the system, or by
a chunk whose assignments cannot be counted. -/
theorem addEquation_error {err : EncodingError} (hadd : e.addEquation p = .error err) :
    (e.usesTable p = true ∧ err = .table (.capacityExceeded p p.vars.size e.table.capacity)) ∨
    (e.usesTable p = false ∧ ∃ u, .ofVar u ∈ p.terms ∧ e.numSystemVars ≤ u ∧ err = .outside u) ∨
    (e.usesTable p = false ∧ wordBits ≤ longestChunk e.chunkLength p.terms.length ∧ err = .overflow) := by
  rw [addEquation] at hadd
  split at hadd
  · next huses =>
    refine .inl ⟨huses, ?_⟩
    cases hfits : e.table.fits p with
    | false =>
      rw [Karnaugh.convert_of_not_fits hfits] at hadd
      exact (Except.error.inj hadd).symm
    | true =>
      obtain ⟨table, hconvert, -⟩ := Karnaugh.convert_of_fits hfits
      rw [hconvert] at hadd
      cases hadd
  · next huses =>
    right
    split at hadd
    · next hvars =>
      cases hadd
      exact .inl ⟨Bool.eq_false_iff.2 huses, monomialVars_error hvars⟩
    · next vars e₁ hvars =>
      rw [sumClauses?_of_monomialVars hvars] at hadd
      split at hadd
      · next hnone =>
        cases hadd
        refine .inr ⟨Bool.eq_false_iff.2 huses, Nat.not_lt.1 fun hchunk => ?_, rfl⟩
        rw [if_pos hchunk] at hnone
        cases hnone
      · cases hadd

theorem lt_of_ofVar_mem_terms (hp : ∀ v ∈ p.vars, v < e.numSystemVars) {u : Var} (hu : .ofVar u ∈ p.terms) :
    u < e.numSystemVars :=
  hp u (Polynomial.mem_vars_of_mem_terms hu (Monomial.mem_vars_ofVar.2 rfl))

/-- The first equation is accepted before the others are, so that a list of equations is taken in from left to
right. -/
theorem addEquations_cons {q : Polynomial} {qs : List Polynomial} (hadd : e.addEquations (q :: qs) = (e', none)) :
    ∃ e₁, e.addEquation q = .ok e₁ ∧ e₁.addEquations qs = (e', none) := by
  rw [addEquations] at hadd
  split at hadd
  · next e₁ hadd₁ => exact ⟨e₁, hadd₁, hadd⟩
  · cases hadd

/-- What new products and the clauses of equations keep is kept by adding an equation. An invariant needs one case for
either addition then. -/
theorem addEquation_induction {P : Encoding → Prop} (hadd : e.addEquation p = .ok e')
    (hproduct : ∀ {e m}, m ∈ p.terms → (∀ u, m ≠ .ofVar u) → .product m ∉ e.added → P e → P (e.withProduct m))
    (hequation : ∀ {e} table clauses count, P e → P (e.withEquation table clauses count)) (h : P e) : P e' := by
  obtain ⟨-, -, table, -, rfl⟩ | ⟨-, vars, e₁, hvars, rfl⟩ := addEquation_cases hadd
  · exact hequation _ _ _ h
  · exact hequation _ _ _ (monomialVars_induction hvars hproduct h)

theorem addEquations_induction {P : Encoding → Prop} {qs : List Polynomial} (hadd : e.addEquations qs = (e', none))
    (hproduct : ∀ {e m q}, q ∈ qs → m ∈ q.terms → (∀ u, m ≠ .ofVar u) → .product m ∉ e.added → P e →
      P (e.withProduct m))
    (hequation : ∀ {e} table clauses count, P e → P (e.withEquation table clauses count)) (h : P e) : P e' := by
  induction qs generalizing e with
  | nil =>
    cases hadd
    exact h
  | cons q qs ih =>
    obtain ⟨e₁, hadd₁, hadd⟩ := addEquations_cons hadd
    refine ih hadd (fun hq => hproduct (List.mem_cons_of_mem q hq)) ?_
    exact addEquation_induction hadd₁ (hproduct List.mem_cons_self) hequation h

theorem addEquations_spec {qs : List Polynomial} (hadd : e.addEquations qs = (e', none)) : e.Extends e' ∧
    ∀ ps, e.Faithful ps → (∀ q ∈ qs, ∀ v ∈ q.vars, v < e.numSystemVars) → e'.Faithful (ps ++ qs) := by
  induction qs generalizing e with
  | nil =>
    cases hadd
    exact ⟨.refl _, fun ps h _ => by rwa [List.append_nil]⟩
  | cons q qs ih =>
    obtain ⟨e₁, hadd₁, hadd⟩ := addEquations_cons hadd
    obtain ⟨hextends, hfaithful⟩ := addEquation_spec hadd₁
    obtain ⟨hextends', hfaithful'⟩ := ih hadd
    refine ⟨hextends.trans hextends', ?_⟩
    intro ps h hqs
    obtain ⟨hq, hqs⟩ := List.forall_mem_cons.1 hqs
    have h' := hfaithful' _ (hfaithful ps h hq) (by rwa [hextends.numSystemVars])
    rwa [List.append_assoc] at h'

/-- Whether an equation is meant for the table by its degree and width: it has a product of variables, and no more
variables than the cutoff. -/
def ForTable (config : Config) (p : Polynomial) : Prop := 1 < p.degree ∧ p.vars.size ≤ config.tableCutoff

/-- Whether an equation is meant for the table by its degree and width, but has more variables than the table is
configured for. -/
def TooWide (config : Config) (p : Polynomial) : Prop :=
  1 < p.degree ∧ config.tableCapacity < p.vars.size ∧ p.vars.size ≤ config.tableCutoff

/-- Whether an equation goes through the table or is a sum of chunks with fewer than 64 variables, whose assignments a
word can count. -/
def ChunksFit (config : Config) (p : Polynomial) : Prop :=
  ForTable config p ∨ longestChunk config.chunkLength p.terms.length < 64

instance (config : Config) (p : Polynomial) : Decidable (ForTable config p) := inferInstanceAs (Decidable (_ ∧ _))

instance (config : Config) (p : Polynomial) : Decidable (TooWide config p) := inferInstanceAs (Decidable (_ ∧ _))

instance (config : Config) (p : Polynomial) : Decidable (ChunksFit config p) := inferInstanceAs (Decidable (_ ∨ _))

theorem TooWide.forTable {config : Config} (h : TooWide config p) : ForTable config p := ⟨h.1, h.2.2⟩

/-- Why an equation about the variables of the system is refused, if it is. An overflow comes up only for a sum, and
the width only for an equation that is meant for the table. -/
def refusal? (config : Config) (p : Polynomial) : Option EncodingError :=
  if TooWide config p then some (.table (.capacityExceeded p p.vars.size config.tableCapacity))
  else if ChunksFit config p then none
  else some .overflow

theorem refusal?_eq_none_iff {config : Config} :
    refusal? config p = none ↔ ¬TooWide config p ∧ ChunksFit config p := by
  unfold refusal?
  split
  · next hwide => simp [hwide]
  · next hwide =>
    split
    · next hchunks => simp [hwide, hchunks]
    · next hchunks => simp [hchunks]

/-- Whether the encoding works with the bounds of the configuration. Adding equations changes none of them, so that
the configuration decides about later equations as well. -/
structure Configured (e : Encoding) (config : Config) : Prop where
  capacity : e.table.capacity = config.tableCapacity
  cutoff : e.tableCutoff = config.tableCutoff
  chunkLength : e.chunkLength = config.chunkLength

section Configured

variable {config : Config}

theorem Configured.extend (h : e.Configured config) (hextends : e.Extends e') : e'.Configured config :=
  ⟨hextends.capacity.trans h.capacity, hextends.tableCutoff.trans h.cutoff, hextends.chunkLength.trans h.chunkLength⟩

theorem Configured.usesTable_iff (h : e.Configured config) : e.usesTable p = true ↔ ForTable config p := by
  rw [usesTable, Bool.and_eq_true, decide_eq_true_iff, decide_eq_true_iff, h.cutoff]
  rfl

theorem Configured.fits_iff (h : e.Configured config) : e.table.fits p = true ↔ p.vars.size ≤ config.tableCapacity := by
  rw [Karnaugh.Table.fits, decide_eq_true_iff, h.capacity]

/-- An equation about the variables of the system is accepted, or refused for the one reason there may be. The bounds
of the encoding stay those of the configuration. -/
theorem Configured.addEquation_cases (h : e.Configured config) (hp : ∀ v ∈ p.vars, v < e.numSystemVars) :
    (refusal? config p = none ∧ ∃ e', e.addEquation p = .ok e') ∨
    ∃ err, refusal? config p = some err ∧ e.addEquation p = .error err := by
  cases hadd : e.addEquation p with
  | ok e' =>
    refine .inl ⟨refusal?_eq_none_iff.2 ?_, e', rfl⟩
    have hok := addEquation_isOk_iff.1 ⟨e', hadd⟩
    by_cases htable : ForTable config p
    · rw [if_pos (h.usesTable_iff.2 htable), h.fits_iff] at hok
      exact ⟨fun hwide => absurd hok (Nat.not_le.2 hwide.2.1), .inl htable⟩
    · rw [if_neg (mt h.usesTable_iff.1 htable), h.chunkLength] at hok
      exact ⟨fun hwide => htable hwide.forTable, .inr hok.2⟩
  | error err =>
    refine .inr ⟨err, ?_, rfl⟩
    obtain ⟨huses, rfl⟩ | ⟨-, u, hu, hge, -⟩ | ⟨huses, hlong, rfl⟩ := addEquation_error hadd
    · have htable := h.usesTable_iff.1 huses
      have hwide : TooWide config p := by
        refine ⟨htable.1, Nat.not_le.1 fun hle => ?_, htable.2⟩
        have hok : ∃ e', e.addEquation p = .ok e' := by rwa [addEquation_isOk_iff, if_pos huses, h.fits_iff]
        simp [hadd] at hok
      rw [refusal?, if_pos hwide, h.capacity]
    · exact absurd (lt_of_ofVar_mem_terms hp hu) (Nat.not_lt.2 hge)
    · have htable : ¬ForTable config p := fun htable => by simp [h.usesTable_iff.2 htable] at huses
      have hchunks : ¬ChunksFit config p := by
        rw [ChunksFit, not_or, Nat.not_lt, ← h.chunkLength]
        exact ⟨htable, hlong⟩
      rw [refusal?, if_neg fun hwide => htable hwide.forTable, if_neg hchunks]

/-- Adding equations about the variables of the system stops at the first one that is refused, with the reason for
this one; the equations behind it do not count. -/
theorem Configured.addEquations_error (h : e.Configured config) {qs : List Polynomial}
    (hqs : ∀ q ∈ qs, ∀ v ∈ q.vars, v < e.numSystemVars) :
    (e.addEquations qs).2 = qs.findSome? (refusal? config) := by
  induction qs generalizing e with
  | nil => rfl
  | cons q qs ih =>
    obtain ⟨hq, hqs⟩ := List.forall_mem_cons.1 hqs
    rw [addEquations]
    obtain ⟨hnone, e₁, hadd⟩ | ⟨err, hsome, hadd⟩ := h.addEquation_cases hq
    · obtain ⟨hextends, -⟩ := addEquation_spec hadd
      rw [hadd, List.findSome?_cons, hnone]
      exact ih (h.extend hextends) (hextends.numSystemVars ▸ hqs)
    · rw [hadd, List.findSome?_cons, hsome]

theorem Configured.addEquations_isOk (h : e.Configured config) {qs : List Polynomial}
    (hqs : ∀ q ∈ qs, ∀ v ∈ q.vars, v < e.numSystemVars) (hnone : ∀ q ∈ qs, refusal? config q = none) :
    ∃ e', e.addEquations qs = (e', none) := by
  refine ⟨(e.addEquations qs).1, Prod.ext rfl ?_⟩
  rw [h.addEquations_error hqs, List.findSome?_eq_none_iff]
  exact hnone

end Configured

variable {s : EquationSystem} {config : Config}

theorem new_isOk (s : EquationSystem) (config : Config) (hcapacity : config.tableCapacity ≤ Karnaugh.maxCapacity) :
    ∃ e, Encoding.new s config = .ok e := by
  rw [Encoding.new, Karnaugh.Table.new, dif_pos hcapacity]
  exact ⟨_, rfl⟩

theorem configured_new (h : Encoding.new s config = .ok e) : e.Configured config := by
  rw [Encoding.new, Karnaugh.Table.new] at h
  split at h
  · cases h
  · next table htable =>
    split at htable
    · cases htable
      cases h
      exact ⟨rfl, rfl, rfl⟩
    · cases htable

theorem new_spec (h : Encoding.new s config = .ok e) : e.numSystemVars = s.numVars ∧
    e.assumptions = s.values.toList.map (fun (v, b) => ⟨v, b⟩) ∧ e.Faithful [] := by
  rw [Encoding.new] at h
  split at h
  · cases h
  · cases h
    refine ⟨rfl, rfl, ⟨nofun, nofun, nofun, ?_⟩⟩
    refine (Determines.of_congr (F := fun _ => True) fun _ _ => trivial).of_iff (fun _ => ?_) fun _ => ?_
    · exact ⟨fun _ => rfl, fun _ => trivial⟩
    · exact ⟨fun _ => nofun, fun _ => trivial⟩

/-- The clauses of equations accepted one after another hold in an extension of an assignment just if it is a common
zero. The extension is unique, and a variable that stands for a monomial has its value. -/
theorem addEquations_exact {e₀ : Encoding} {qs : List Polynomial} (hnew : Encoding.new s config = .ok e₀)
    (hqs : ∀ q ∈ qs, ∀ v ∈ q.vars, v < s.numVars) (hadd : e₀.addEquations qs = (e, none)) :
    e.numSystemVars = s.numVars ∧ Cnf.Below e.numVars e.clauses ∧
    (∀ a, (∀ q ∈ qs, q.eval a = false) ↔ ∃ b, AgreeBelow s.numVars a b ∧ Cnf.holds b e.clauses = true) ∧
    (∀ a b, AgreeBelow s.numVars a b → Cnf.holds a e.clauses = true → Cnf.holds b e.clauses = true →
      AgreeBelow e.numVars a b) ∧
    ∀ a, Cnf.holds a e.clauses = true → ∀ v m, e.monomialOf? v = some m → a v = m.eval a := by
  obtain ⟨hnum, -, h₀⟩ := new_spec hnew
  obtain ⟨hextends, h⟩ := addEquations_spec hadd
  have h := h [] h₀ (by rwa [hnum])
  have hnum' : e.numSystemVars = s.numVars := hextends.numSystemVars.trans hnum
  have hdetermines := h.determines
  rw [hnum', List.nil_append] at hdetermines
  refine ⟨hnum', h.below, fun a => hdetermines.iff_exists ?_, fun a b => hdetermines.unique, ?_⟩
  · intro a b hab ha q hq
    rw [← Polynomial.eval_congr fun v hv => hab v (hqs q hq v hv)]
    exact ha q hq
  · intro a ha v m hm
    exact h.eval_eq (holds_clauses.1 ha).1 hm

/-- Two equations of one product, one of them cut in two, beside one that goes through the table. -/
theorem addEquations_exact_mixed :
    let qs : List Polynomial := [.sum [.ofVars [0, 1], .ofVar 2],
      .sum [.ofVars [0, 1], .ofVars [1, 2], .ofVar 2, .ofVar 3, .ofVar 4], .sum [.ofVars [3, 4], .ofVar 3, .one]]
    ∃ e₀ e, Encoding.new { EquationSystem.empty with numVars := 5 } { tableCutoff := 2 } = .ok e₀ ∧
      e₀.addEquations qs = (e, none) ∧
      ∀ a, (∀ q ∈ qs, q.eval a = false) ↔ ∃ b, AgreeBelow 5 a b ∧ Cnf.holds b e.clauses = true := by
  intro qs
  obtain ⟨e₀, hnew⟩ := new_isOk { EquationSystem.empty with numVars := 5 } { tableCutoff := 2 } (by decide)
  have hqs : ∀ q ∈ qs, ∀ v ∈ q.vars, v < 5 := by
    have hlist : ∀ q ∈ qs, ∀ v ∈ q.vars.toList, v < 5 := by decide
    exact hlist
  have hnone : ∀ q ∈ qs, refusal? { tableCutoff := 2 } q = none := by decide
  obtain ⟨e, hadd⟩ := (configured_new hnew).addEquations_isOk (by rwa [(new_spec hnew).1]) hnone
  obtain ⟨-, -, hexact, -⟩ := addEquations_exact hnew hqs hadd
  exact ⟨e₀, e, hnew, hadd, hexact⟩

/-- Whether the configured bounds suffice for a system: no equation is too wide for the table that it would go
through, and the chunks of the other ones have fewer than 64 variables. -/
structure Admits (config : Config) (s : EquationSystem) : Prop where
  capacity_le : config.tableCapacity ≤ Karnaugh.maxCapacity
  fits : ∀ p ∈ s.equations, 1 < p.degree → p.vars.size ≤ config.tableCutoff → p.vars.size ≤ config.tableCapacity
  chunks : ∀ p ∈ s.equations, ChunksFit config p

/-- When every equation for the table has room in it, and all chunks are short, nothing is too wide. -/
theorem admits_of_cutoff_le (config : Config) (s : EquationSystem)
    (hcapacity : config.tableCapacity ≤ Karnaugh.maxCapacity)
    (hcutoff : config.tableCutoff ≤ config.tableCapacity) (hchunk : config.chunkLength < 64) : Admits config s :=
  ⟨hcapacity, fun _ _ _ hwidth => hwidth.trans hcutoff, fun _ _ =>
    .inr ((Nat.min_le_left _ _).trans_lt (Nat.max_lt.2 ⟨hchunk, by decide⟩))⟩

/-- An encoding of a system starts with no equation and takes in all of them, in the order in which the system stores
them. -/
theorem stages_of_ofSystem (h : Encoding.ofSystem s config = .ok e) :
    ∃ e₀, Encoding.new s config = .ok e₀ ∧ e₀.addEquations s.equations = (e, none) := by
  rw [ofSystem] at h
  split at h
  · cases h
  · next e₀ hnew =>
    split at h
    · next e₁ hadd =>
      cases h
      exact ⟨e₀, hnew, hadd⟩
    · cases h

/-- Encoding a system fails by the configured capacity, before any equation is looked at, or else at the first
equation that is refused. -/
theorem ofSystem_cases (config : Config) (hs : ∀ p ∈ s.equations, ∀ v ∈ p.vars, v < s.numVars) :
    (Karnaugh.maxCapacity < config.tableCapacity ∧
      Encoding.ofSystem s config = .error (.table (.unsupportedCapacity config.tableCapacity))) ∨
    (config.tableCapacity ≤ Karnaugh.maxCapacity ∧ ∃ err, s.equations.findSome? (refusal? config) = some err ∧
      Encoding.ofSystem s config = .error err) ∨
    (config.tableCapacity ≤ Karnaugh.maxCapacity ∧ s.equations.findSome? (refusal? config) = none ∧
      ∃ e, Encoding.ofSystem s config = .ok e) := by
  by_cases hcapacity : config.tableCapacity ≤ Karnaugh.maxCapacity
  · right
    obtain ⟨e₀, hnew⟩ := new_isOk s config hcapacity
    have herror := (configured_new hnew).addEquations_error (by rwa [(new_spec hnew).1])
    rw [ofSystem, hnew]
    dsimp only
    generalize e₀.addEquations s.equations = result at herror
    obtain ⟨e, error?⟩ := result
    subst herror
    cases s.equations.findSome? (refusal? config) with
    | none => exact .inr ⟨hcapacity, rfl, e, rfl⟩
    | some err => exact .inl ⟨hcapacity, err, rfl, rfl⟩
  · refine .inl ⟨Nat.not_le.1 hcapacity, ?_⟩
    rw [ofSystem, Encoding.new, Karnaugh.Table.new, dif_neg hcapacity]

theorem admits_iff : Admits config s ↔ config.tableCapacity ≤ Karnaugh.maxCapacity ∧
    (∀ p ∈ s.equations, ¬TooWide config p) ∧ ∀ p ∈ s.equations, ChunksFit config p := by
  constructor
  · intro hadmits
    refine ⟨hadmits.capacity_le, fun p hp hwide => ?_, hadmits.chunks⟩
    exact absurd (hadmits.fits p hp hwide.1 hwide.2.2) (Nat.not_le.2 hwide.2.1)
  · rintro ⟨hcapacity, hnone, hchunks⟩
    refine ⟨hcapacity, fun p hp hdegree hcutoff => Nat.not_lt.1 fun hwide => ?_, hchunks⟩
    exact hnone p hp ⟨hdegree, hwide, hcutoff⟩

/-- Encoding succeeds just if the configured bounds admit the system. What is asked for are the equations as they are
stored: facts play no role in it. -/
theorem ofSystem_isOk_iff (hs : ∀ p ∈ s.equations, ∀ v ∈ p.vars, v < s.numVars) :
    (∃ e, Encoding.ofSystem s config = .ok e) ↔ Admits config s := by
  have hnone : s.equations.findSome? (refusal? config) = none ↔
      (∀ p ∈ s.equations, ¬TooWide config p) ∧ ∀ p ∈ s.equations, ChunksFit config p := by
    rw [List.findSome?_eq_none_iff, ← forall₂_and]
    exact forall₂_congr fun p _ => refusal?_eq_none_iff
  rw [admits_iff, ← hnone]
  obtain ⟨hcapacity, herror⟩ | ⟨-, err, hfind, herror⟩ | ⟨hcapacity, hfind, hok⟩ := ofSystem_cases config hs
  · exact iff_of_false (by simp [herror]) fun hadmits => absurd hadmits.1 (Nat.not_le.2 hcapacity)
  · exact iff_of_false (by simp [herror]) (by simp [hfind])
  · exact iff_of_true hok ⟨hcapacity, hfind⟩

theorem ofSystem_spec (h : Encoding.ofSystem s config = .ok e)
    (hs : ∀ p ∈ s.equations, ∀ v ∈ p.vars, v < s.numVars) : e.numSystemVars = s.numVars ∧
    e.assumptions = s.values.toList.map (fun (v, b) => ⟨v, b⟩) ∧ e.Faithful s.equations := by
  obtain ⟨e₀, hnew, hadd⟩ := stages_of_ofSystem h
  obtain ⟨hnum, hassumptions, h₀⟩ := new_spec hnew
  obtain ⟨hextends, h'⟩ := addEquations_spec hadd
  exact ⟨hextends.numSystemVars.trans hnum, hextends.assumptions.trans hassumptions, h' [] h₀ (by rwa [hnum])⟩

end BoolPoly.Encoding

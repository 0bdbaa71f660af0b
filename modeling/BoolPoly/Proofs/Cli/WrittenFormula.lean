import BoolPoly.Cli.Session
import BoolPoly.Proofs.EquationSystem.Text
import BoolPoly.Proofs.Simplify.Decision
import Mathlib.Logic.Function.Basic

open Std

namespace BoolPoly.Cli

namespace Session

variable {α β : Type} {files : Files} {config : Config} {s : EquationSystem} {e : Encoding}

/-- Whether a session comes to a result, having neither written a file nor failed. What it has printed and logged by
then does not matter. -/
def Yields (x : Session α) (a : α) : Prop :=
  ∀ t : Transcript, ∃ t', x.run.run t = (.ok a, t') ∧ t'.written = t.written ∧ t'.failure = t.failure

theorem yields_pure (a : α) : Yields (pure a) a := fun t => ⟨t, rfl, rfl, rfl⟩

/-- A session that yields a result goes on with it. -/
theorem Yields.run_bind {x : Session α} {a : α} (hx : Yields x a) (f : α → Session β) (t : Transcript) :
    ∃ t', (x >>= f).run.run t = (f a).run.run t' ∧ t'.written = t.written ∧ t'.failure = t.failure := by
  obtain ⟨t', hrun, hframe⟩ := hx t
  refine ⟨t', ?_, hframe⟩
  rw [ExceptT.run_bind, StateT.run_bind, hrun]
  rfl

theorem Yields.bind {x : Session α} {f : α → Session β} {a : α} {b : β} (hx : Yields x a) (hf : Yields (f a) b) :
    Yields (x >>= f) b := by
  intro t
  obtain ⟨t', hrun, hwritten, hfailure⟩ := hx.run_bind f t
  obtain ⟨t'', hrun', hwritten', hfailure'⟩ := hf t'
  exact ⟨t'', hrun.trans hrun', hwritten'.trans hwritten, hfailure'.trans hfailure⟩

theorem yields_log (config : Config) (level : Nat) (line : String) : Yields (log config level line) () := by
  intro t
  unfold log
  split
  · exact ⟨{ t with log := t.log ++ [line] }, rfl, rfl, rfl⟩
  · exact ⟨t, rfl, rfl, rfl⟩

theorem yields_logFacts (config : Config) (s : EquationSystem) : Yields (logFacts config s) () := by
  unfold logFacts
  dsimp only
  split
  · exact yields_pure ()
  · exact yields_log config _ _

theorem yields_logTables (config : Config) (e : Encoding) (ps : List Polynomial) :
    Yields (logTables config e ps) () := by
  unfold logTables
  dsimp only
  split
  · exact yields_pure ()
  · exact yields_log config _ _

theorem yields_readSystem {input : String} {content : List UInt8} (hview : files.view input = .bytes content)
    (hread : EquationSystem.ofBytes content = .ok s) (config : Config) :
    Yields (readSystem files config input) s := by
  have hlines : EquationSystem.readLines (EquationSystem.decodeLines content) = (s, none) := by
    unfold EquationSystem.ofBytes EquationSystem.ofLines at hread
    split at hread
    · next t ht =>
      cases hread
      exact ht
    · cases hread
  unfold readSystem
  simp only [hview, hlines]
  exact (yields_logFacts config s).bind (yields_pure s)

theorem yields_encode (he : Encoding.ofSystem s config = .ok e) : Yields (encode config s) e := by
  obtain ⟨start, hstart, hadd⟩ := Encoding.stages_of_ofSystem he
  unfold encode
  simp only [hstart, hadd]
  exact (yields_logTables config e s.equations).bind (yields_pure e)

/-- A file whose system can be encoded gets the clauses of the encoding and its assumptions as unit clauses. The
replacements of the system are not among them. -/
theorem run_cnf {input output : String} {content : List UInt8} (hview : files.view input = .bytes content)
    (hread : EquationSystem.ofBytes content = .ok s) (he : Encoding.ofSystem s config = .ok e)
    (hcreate : files.create output = .ok ())
    (hwrite : files.write output ((assertedClauses e).dimacs e.numVars) = .ok ()) (t : Transcript) :
    ∃ t', (cnf files config input output).run.run t = (.ok (), t') ∧
      t'.written = some (output, (assertedClauses e).dimacs e.numVars) ∧ t'.failure = t.failure := by
  unfold cnf
  obtain ⟨t₁, hrun₁, -, hfailure₁⟩ := (yields_readSystem hview hread config).run_bind _ t
  obtain ⟨t₂, hrun₂, -, hfailure₂⟩ := (yields_encode he).run_bind _ t₁
  obtain ⟨t₃, hrun₃, -, hfailure₃⟩ := (yields_log config info _).run_bind _ t₂
  rw [hrun₁, hrun₂, hrun₃]
  simp only [hcreate, hwrite]
  exact ⟨{ t₃ with written := some (output, (assertedClauses e).dimacs e.numVars) }, rfl, rfl,
    hfailure₃.trans (hfailure₂.trans hfailure₁)⟩

end Session

end BoolPoly.Cli

namespace BoolPoly

open EquationSystem

/-- Whether the models of a formula, restricted to the variables below `n`, are just the common zeros of the
polynomials, so that the formula can stand for the text that they come from. -/
def Cnf.Captures (f : Cnf) (n : Nat) (ps : List Polynomial) : Prop :=
  ∀ a : Var → Bool, (∃ b, AgreeBelow n a b ∧ f.holds b = true) ↔ ∀ p ∈ ps, p.eval a = false

namespace EquationSystem

variable {s : EquationSystem} {config : Config} {e : Encoding} {a b : Var → Bool}

/-- The polynomials of a text given as bytes, in the order of its lines. Lines that are skipped have none. -/
def textPolynomials (content : List UInt8) : List Polynomial := (decodeLines content).filterMap linePolynomial?

theorem repair_congr (hs : s.Valid) (hab : AgreeBelow s.numVars a b) :
    AgreeBelow s.numVars (s.repair a) (s.repair b) := by
  intro v hv
  cases hr : s.replacement? v with
  | none => rw [repair_of_not_replaced hr, repair_of_not_replaced hr, hab v hv]
  | some r =>
    rw [repair_of_replacement? hr, repair_of_replacement? hr, hab r.root (Nat.lt_trans (hs.facts.root_lt hr) hv)]

/-- An assignment extends to a model of the query just if repairing it gives a solution: the clauses are about the
free variables alone, and nothing in them makes a replaced variable follow its root. -/
theorem exists_model_iff (hs : s.Valid) (he : Encoding.ofSystem s config = .ok e) :
    (∃ b, AgreeBelow s.numVars a b ∧ (queryOf e config).Holds b) ↔ Solves (s.repair a) s := by
  constructor
  · intro hmodel
    obtain ⟨b, hab, hb⟩ := hmodel
    exact (solves_congr hs (repair_congr hs hab)).2 (solves_repair hs he hb)
  · intro ha
    obtain ⟨hnum, -, h⟩ := hs.encoded he
    obtain ⟨hequations, hobeys⟩ := solves_iff.1 ha
    have hfree : ∀ p ∈ s.equations, p.eval a = false := by
      intro p hp
      rw [← hequations p hp]
      exact Polynomial.eval_congr fun v hv => (repair_of_not_replaced (hs.settled.free hp v hv).2).symm
    obtain ⟨b, hab, hb⟩ := h.determines.extend hfree
    rw [hnum] at hab
    refine ⟨b, hab, hb, fun l hl => ?_⟩
    have hvalue := (mem_assumptions hs he).1 hl
    have hnone : s.replacement? l.var = none := by
      cases hr : s.replacement? l.var with
      | none => rfl
      | some r =>
        rw [hs.facts.value_none hr] at hvalue
        cases hvalue
    rw [Literal.holds_mk, ← hab l.var (lt_of_value? hs.bounded hvalue), ← repair_of_not_replaced (a := a) hnone]
    exact hobeys.value hvalue

/-- A solution repairs every assignment that differs from it at one replaced variable only. -/
theorem repair_update (hs : s.Valid) (ha : Solves a s) {v : Var} {r : Replacement} (hr : s.replacement? v = some r)
    (b : Bool) : s.repair (Function.update a v b) = a := by
  funext x
  cases hx : s.replacement? x with
  | none =>
    have hne : x ≠ v := by
      intro heq
      rw [heq, hr] at hx
      cases hx
    rw [repair_of_not_replaced hx, Function.update_of_ne hne]
  | some q =>
    have hne : q.root ≠ v := by
      intro heq
      have hroot := (hs.facts.root_free hx).2
      rw [heq, hr] at hroot
      cases hroot
    rw [repair_of_replacement? hx, Function.update_of_ne hne, ← ha.obeys.replacement hx]

/-- Repairing makes no difference to the solutions just if nothing is replaced, or there is no solution. Otherwise a
solution with a replaced variable turned over is repaired to a solution without being one. -/
theorem solves_repair_iff (hs : s.Valid) : (∀ a, Solves (s.repair a) s ↔ Solves a s) ↔
    (∀ v, s.replacement? v = none) ∨ ∀ a, ¬Solves a s := by
  constructor
  · intro h
    by_cases hnone : ∀ v, s.replacement? v = none
    · exact .inl hnone
    · right
      intro a ha
      obtain ⟨v, hv⟩ := not_forall.1 hnone
      obtain ⟨r, hr⟩ := Option.ne_none_iff_exists'.1 hv
      have hrepair := repair_update hs ha hr (!a v)
      have hflipped := (h (Function.update a v (!a v))).1 (hrepair.symm ▸ ha)
      have hvalue := hflipped.obeys.replacement hr
      rw [Function.update_self, Function.update_of_ne (Nat.ne_of_lt (hs.facts.root_lt hr)),
        ← ha.obeys.replacement hr] at hvalue
      exact absurd hvalue (by simp)
  · intro h a
    cases h with
    | inl hnone =>
      have hsame : s.repair a = a := funext fun v => repair_of_not_replaced (hnone v)
      rw [hsame]
    | inr hunsat => exact iff_of_false (hunsat _) (hunsat a)

end EquationSystem

namespace Cli

open Session

variable {files : Files} {config : Config} {s : EquationSystem} {e : Encoding}

theorem holds_assertedClauses {a : Var → Bool} :
    (assertedClauses e).holds a = true ↔ (queryOf e config).Holds a := by
  unfold assertedClauses
  rw [Cnf.holds_append, and_comm, ← Cnf.holds_append, holds_map_singleton_append]
  rfl

/-- The formula that is written for a text asserts the equations and values of its system, and leaves out the
replacements: an assignment extends to a model just if it becomes a common zero of the text's polynomials once the
replaced variables follow their roots. So the formula is exact just if there are no replacements, or no common
zero. -/
theorem written_formula {args : List String} {input output : String} {content : List UInt8}
    (hargs : Options.ofArgs? args = some { config, command := .cnf input output })
    (hview : files.view input = .bytes content) (hread : ofBytes content = .ok s)
    (he : Encoding.ofSystem s config = .ok e) (hcreate : files.create output = .ok ())
    (hwrite : files.write output ((assertedClauses e).dimacs e.numVars) = .ok ()) :
    (run files args).written = some (output, (assertedClauses e).dimacs e.numVars) ∧
    (run files args).failure = none ∧
    (∀ a, (∃ b, AgreeBelow s.numVars a b ∧ (assertedClauses e).holds b = true) ↔
      ∀ p ∈ textPolynomials content, p.eval (s.repair a) = false) ∧
    ((assertedClauses e).Captures s.numVars (textPolynomials content) ↔
      (∀ v, s.replacement? v = none) ∨ ¬∃ a, ∀ p ∈ textPolynomials content, p.eval a = false) := by
  have hs : s.Valid := ofLines_ok hread ▸ valid_ofPolynomials _
  have hzeros : ∀ a, (∀ p ∈ textPolynomials content, p.eval a = false) ↔ Solves a s := fun a =>
    (solves_ofLines_iff hread).symm
  have hmodels : ∀ a, (∃ b, AgreeBelow s.numVars a b ∧ (assertedClauses e).holds b = true) ↔
      Solves (s.repair a) s := by
    intro a
    rw [← exists_model_iff hs he]
    exact exists_congr fun b => and_congr_right fun _ => holds_assertedClauses
  obtain ⟨t, hrun, hwritten, hfailure⟩ := run_cnf hview hread he hcreate hwrite {}
  have htranscript : run files args = t := by
    unfold run
    rw [hargs]
    dsimp only [execute]
    rw [hrun]
  refine ⟨htranscript ▸ hwritten, htranscript ▸ hfailure, fun a => (hmodels a).trans (hzeros _).symm, ?_⟩
  simp only [Cnf.Captures, hmodels, hzeros, solves_repair_iff hs, not_exists]

/-- The text that says that two variables are equal: the formula written for it has no clauses. -/
theorem written_formula_equal :
    let files : Files :=
      { view := fun _ => .bytes [120, 48, 32, 43, 32, 120, 49, 10], create := fun _ => .ok (),
        write := fun _ _ => .ok () }
    let args := ["cnf", "in.anf", "out.cnf"]
    textPolynomials [120, 48, 32, 43, 32, 120, 49, 10] = [.sum [.ofVar 0, .ofVar 1]] ∧
    (run files args).written = some ("out.cnf", "p cnf 2 0\n") ∧ (run files args).failure = none ∧
    ¬Cnf.Captures [] 2 (textPolynomials [120, 48, 32, 43, 32, 120, 49, 10]) := by
  intro files args
  have htext : textPolynomials [120, 48, 32, 43, 32, 120, 49, 10] = [.sum [.ofVar 0, .ofVar 1]] := by decide
  have hargs : Options.ofArgs? args = some { config := {}, command := .cnf "in.anf" "out.cnf" } := by
    decide +kernel
  let s := ((empty.reserve (.sum [.ofVar 0, .ofVar 1])).record (.equal 1 ⟨0, false⟩)).pass.system
  have hs : (empty.add (.sum [.ofVar 0, .ofVar 1])).2 = s := by
    have hrecorded : (empty.add (.sum [.ofVar 0, .ofVar 1])).2 =
        ((empty.reserve (.sum [.ofVar 0, .ofVar 1])).record (.equal 1 ⟨0, false⟩)).propagate := rfl
    rw [hrecorded, propagate_of_not_progress (by decide)]
  have hread : ofBytes [120, 48, 32, 43, 32, 120, 49, 10] = .ok s := by
    rw [← hs]
    rfl
  have hreplaced : s.replacement? 1 = some ⟨0, false⟩ := by decide
  obtain ⟨e, he, hclauses, hnum⟩ : ∃ e, Encoding.ofSystem s {} = .ok e ∧ assertedClauses e = [] ∧ e.numVars = 2 :=
    ⟨_, rfl, rfl, rfl⟩
  have hview : files.view "in.anf" = .bytes [120, 48, 32, 43, 32, 120, 49, 10] := rfl
  obtain ⟨hwritten, hfailure, -, hcaptures⟩ := written_formula hargs hview hread he rfl rfl
  have hdimacs : Cnf.dimacs [] 2 = "p cnf 2 0\n" := by decide +kernel
  rw [hclauses, hnum, hdimacs] at hwritten
  refine ⟨htext, hwritten, hfailure, fun h => ?_⟩
  rw [hclauses] at hcaptures
  cases hcaptures.1 h with
  | inl hnone =>
    rw [hnone 1] at hreplaced
    cases hreplaced
  | inr hunsat =>
    refine hunsat ⟨fun _ => false, ?_⟩
    rw [htext]
    decide

end Cli

end BoolPoly

import BoolPoly.Main
import BoolPoly.Proofs.Cli.WrittenFormula
import BoolPoly.Proofs.EquationSystem.Overwriting
import BoolPoly.Proofs.EquationSystem.Propagation
import BoolPoly.Proofs.EquationSystem.Retention
import BoolPoly.Proofs.EquationSystem.RoundTrip
import BoolPoly.Proofs.Karnaugh.Merging
import BoolPoly.Proofs.Karnaugh.Minimization
import BoolPoly.Proofs.Karnaugh.Submask
import BoolPoly.Proofs.Simplify.Completeness
import BoolPoly.Proofs.Simplify.Correspondence
import BoolPoly.Proofs.Simplify.Failure
import BoolPoly.Proofs.Simplify.Outcome
import BoolPoly.Proofs.Simplify.Progress
import BoolPoly.Proofs.Solver.Exactness
import BoolPoly.Proofs.Solver.Refinement
import BoolPoly.Proofs.Solver.Relations
import BoolPoly.Proofs.EquationSystem.Changes
import BoolPoly.Proofs.Encoding.Outside
import BoolPoly.Proofs.Encoding.VariableMap
import BoolPoly.Proofs.EquationSystem.LinearPairs
import BoolPoly.Proofs.Cnf.Dimacs
import BoolPoly.Proofs.Cnf.Evaluation
import BoolPoly.Proofs.Polynomial.Acceptance
import BoolPoly.Proofs.Karnaugh.GreedyCover

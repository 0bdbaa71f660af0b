import BoolPoly.Cnf
import BoolPoly.Parity

namespace BoolPoly

/-- All assignments to `n` variables, in the order of the binary numbers that they are, read with the lowest digit
first. -/
def assignments : Nat → List (List Bool)
  | 0 => [[]]
  | n + 1 => (assignments n).map (· ++ [false]) ++ (assignments n).map (· ++ [true])

theorem mem_assignments {n : Nat} {bits : List Bool} : bits ∈ assignments n ↔ bits.length = n := by
  induction n generalizing bits with
  | zero => simp [assignments]
  | succ n ih =>
    simp only [assignments, List.mem_append, List.mem_map, ih]
    constructor
    · rintro (⟨front, rfl, rfl⟩ | ⟨front, rfl, rfl⟩) <;> simp
    · intro hlength
      have hne : bits ≠ [] := List.ne_nil_of_length_eq_add_one hlength
      have hfront : bits.dropLast.length = n := by rw [List.length_dropLast, hlength, Nat.add_sub_cancel]
      have hsplit := List.dropLast_concat_getLast hne
      cases hlast : bits.getLast hne with
      | false => exact .inl ⟨bits.dropLast, hfront, hlast ▸ hsplit⟩
      | true => exact .inr ⟨bits.dropLast, hfront, hlast ▸ hsplit⟩

/-- The clause that forbids one assignment to the variables: at every variable it has the literal that fails there. -/
def forbidBits (vars : List Var) (bits : List Bool) : Clause :=
  vars.zipWith (fun v b => ⟨v, !b⟩) bits

/-- The clauses that forbid every assignment whose parity is not `rhs`. They are listed by counting through the
assignments, which is possible as long as a word can count them, see `parityClauses?`. -/
def parityClauses (vars : List Var) (rhs : Bool) : List Clause :=
  ((assignments vars.length).filter fun bits => parity bits != rhs).map (forbidBits vars)

/-- The number of bits of the word that counts the assignments to the variables of a sum. -/
def wordBits : Nat := 64

/-- The clauses of a sum, as far as a word can count the assignments to its variables. Arithmetic is checked: with as
many variables as the word has bits, the number of assignments overflows it and there is no result. -/
def parityClauses? (vars : List Var) (rhs : Bool) : Option (List Clause) :=
  if vars.length < wordBits then some (parityClauses vars rhs) else none

/-- The greatest number of variables in a chunk: shorter chunks than three would not shorten a sum. -/
def chunkBound (chunkLength : Nat) : Nat := max chunkLength 3

/-- Cutting a chunk off a long sum leaves a shorter one, the partial sum included. -/
theorem length_without_chunk_lt {chunkLength n : Nat} (hlong : chunkBound chunkLength < n) :
    n - (chunkBound chunkLength - 1) + 1 < n := by
  simp only [chunkBound] at hlong ⊢
  omega

/-- The clauses for `vars` having the sum `rhs`, with the number of new variables. A short sum is written as the
clauses that forbid every assignment of the wrong parity. A long sum is cut: the first variables get a new variable
for their partial sum, which takes their place at the end of the sum. The new variables are `next`, `next + 1` and so
on. Nothing is said about the length of the chunks here, see `sumClauses?`. -/
def sumClauses (chunkLength next : Nat) (vars : List Var) (rhs : Bool) : List Clause × Nat :=
  if hlong : chunkBound chunkLength < vars.length then
    have := length_without_chunk_lt hlong
    let size := chunkBound chunkLength - 1
    let (clauses, count) := sumClauses chunkLength (next + 1) (vars.drop size ++ [next]) rhs
    (parityClauses (vars.take size ++ [next]) false ++ clauses, count + 1)
  else (parityClauses vars rhs, 0)
termination_by vars.length

/-- The clauses for a sum, cut in the same way as by `sumClauses`; none if some chunk is too long for
`parityClauses?`. -/
def sumClauses? (chunkLength next : Nat) (vars : List Var) (rhs : Bool) : Option (List Clause × Nat) :=
  if hlong : chunkBound chunkLength < vars.length then
    have := length_without_chunk_lt hlong
    let size := chunkBound chunkLength - 1
    match parityClauses? (vars.take size ++ [next]) false with
    | none => none
    | some chunk =>
      match sumClauses? chunkLength (next + 1) (vars.drop size ++ [next]) rhs with
      | none => none
      | some (clauses, count) => some (chunk ++ clauses, count + 1)
  else
    match parityClauses? vars rhs with
    | none => none
    | some clauses => some (clauses, 0)
termination_by vars.length

end BoolPoly

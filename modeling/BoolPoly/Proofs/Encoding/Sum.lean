import BoolPoly.Encoding.Sum
import BoolPoly.Proofs.Cnf.Extension

namespace BoolPoly

/-- A clause that forbids an assignment fails only there: everywhere else some variable has the other value, and its
literal holds. -/
theorem holds_forbidBits {vars : List Var} {bits : List Bool} (hlength : bits.length = vars.length)
    (a : Var → Bool) : Clause.holds a (forbidBits vars bits) = true ↔ bits ≠ vars.map a := by
  induction vars generalizing bits with
  | nil =>
    obtain rfl := List.length_eq_zero_iff.1 hlength
    simp [forbidBits, Clause.holds]
  | cons v vars ih =>
    cases bits with
    | nil => cases hlength
    | cons b bits =>
      have ih := ih (Nat.succ.inj hlength)
      rw [Clause.holds, forbidBits] at ih
      rw [Clause.holds, forbidBits, List.zipWith_cons_cons, List.any_cons, Bool.or_eq_true, ih, List.map_cons,
        Literal.holds_mk, ← not_iff_not]
      simp only [ne_eq, List.cons.injEq, not_or, not_not, Bool.not_eq_not]
      rw [eq_comm]

theorem map_var_forbidBits {vars : List Var} {bits : List Bool} (hlength : bits.length = vars.length) :
    (forbidBits vars bits).map Literal.var = vars := by
  induction vars generalizing bits with
  | nil => rfl
  | cons v vars ih =>
    cases bits with
    | nil => cases hlength
    | cons b bits => exact congrArg (List.cons v) (ih (Nat.succ.inj hlength))

/-- A clause that fails is the one that forbids the assignment to its own variables, with its literals in the same
order. -/
theorem Clause.eq_forbidBits {a : Var → Bool} {c : Clause} (h : c.holds a = false) :
    forbidBits (c.map Literal.var) ((c.map Literal.var).map a) = c := by
  induction c with
  | nil => rfl
  | cons l c ih =>
    obtain ⟨hl, hc⟩ := Bool.or_eq_false_iff.1 h
    have hsign : (!a l.var) = l.positive := Bool.not_eq.2 (beq_eq_false_iff_ne.1 hl)
    have hhead : (⟨l.var, !a l.var⟩ : Literal) = l := congrArg (Literal.mk l.var) hsign
    exact congr (congrArg List.cons hhead) (ih hc)

/-- The clauses of a sum are those that forbid an assignment of the other parity, one for each of these
assignments. -/
theorem mem_parityClauses {vars : List Var} {rhs : Bool} {c : Clause} : c ∈ parityClauses vars rhs ↔
    ∃ bits : List Bool, bits.length = vars.length ∧ parity bits ≠ rhs ∧ forbidBits vars bits = c := by
  simp only [parityClauses, List.mem_map, List.mem_filter, mem_assignments, bne_iff_ne, and_assoc]

/-- All clauses of a sum hold just if the sum has its right-hand side: an assignment of the other parity is forbidden
by its own clause, and no clause forbids any other one. -/
theorem holds_parityClauses (vars : List Var) (rhs : Bool) (a : Var → Bool) :
    Cnf.holds a (parityClauses vars rhs) = true ↔ parity (vars.map a) = rhs := by
  rw [Cnf.holds_iff]
  constructor
  · intro hholds
    by_contra hne
    have hmem := mem_parityClauses.2 ⟨vars.map a, List.length_map a, hne, rfl⟩
    exact (holds_forbidBits (List.length_map a) a).1 (hholds _ hmem) rfl
  · intro hparity c hc
    obtain ⟨bits, hlength, hwrong, rfl⟩ := mem_parityClauses.1 hc
    rw [holds_forbidBits hlength]
    rintro rfl
    exact hwrong hparity

theorem mem_of_mem_parityClauses {vars : List Var} {rhs : Bool} {c : Clause} (hc : c ∈ parityClauses vars rhs)
    {l : Literal} (hl : l ∈ c) : l.var ∈ vars := by
  obtain ⟨bits, hlength, -, rfl⟩ := mem_parityClauses.1 hc
  have hvar := List.mem_map_of_mem (f := Literal.var) hl
  rwa [map_var_forbidBits hlength] at hvar

theorem below_parityClauses {n : Nat} {vars : List Var} (hvars : ∀ v ∈ vars, v < n) (rhs : Bool) :
    Cnf.Below n (parityClauses vars rhs) :=
  fun _ hc _ hl => hvars _ (mem_of_mem_parityClauses hc hl)

theorem length_of_mem_parityClauses {vars : List Var} {rhs : Bool} {c : Clause} (hc : c ∈ parityClauses vars rhs) :
    c.length = vars.length := by
  obtain ⟨bits, hlength, -, rfl⟩ := mem_parityClauses.1 hc
  rw [← List.length_map Literal.var, map_var_forbidBits hlength]

theorem lt_succ_of_mem_append {next : Nat} {vars : List Var} (hvars : ∀ v ∈ vars, v < next) :
    ∀ v ∈ vars ++ [next], v < next + 1 := by
  intro v hv
  rcases List.mem_append.1 hv with hv | hv
  · exact (hvars v hv).trans (Nat.lt_succ_self next)
  · rw [List.mem_singleton.1 hv]
    exact Nat.lt_succ_self next

theorem map_congr_of_agreeBelow {n : Nat} {vars : List Var} (hvars : ∀ v ∈ vars, v < n) {a b : Var → Bool}
    (hab : AgreeBelow n a b) : vars.map a = vars.map b :=
  List.map_congr_left fun v hv => hab v (hvars v hv)

/-- The clauses of a chunk define its partial sum: with the values of the chunk given, just one value of the new
variable makes the sum of all of them zero. -/
theorem determines_partialSum {next : Nat} {chunk : List Var} (hchunk : ∀ v ∈ chunk, v < next) :
    Determines next (next + 1) (fun a => Cnf.holds a (parityClauses (chunk ++ [next]) false) = true)
      (fun _ => True) where
  le := Nat.le_succ next
  congr {a b} hab ha := by
    rw [holds_parityClauses] at ha ⊢
    rwa [← map_congr_of_agreeBelow (lt_succ_of_mem_append hchunk) hab]
  extend {a} _ := by
    let b : Var → Bool := fun v => if v = next then parity (chunk.map a) else a v
    have hab : AgreeBelow next a b := fun v hv => (if_neg hv.ne).symm
    refine ⟨b, hab, ?_⟩
    rw [holds_parityClauses, List.map_append, parity_append, ← map_congr_of_agreeBelow hchunk hab]
    simp [b]
  sound _ := trivial
  unique {a b} hab ha hb := by
    rw [holds_parityClauses, List.map_append, parity_append] at ha hb
    rw [← map_congr_of_agreeBelow hchunk hab] at hb
    have hnext : a next = b next := by
      simp only [List.map_cons, List.map_nil, parity_cons, parity_nil, Bool.xor_false] at ha hb
      rw [← Bool.xor_right_inj, ha, hb]
    intro v hv
    rcases Nat.lt_succ_iff_lt_or_eq.1 hv with hv | rfl
    · exact hab v hv
    · exact hnext

/-- The clauses for a sum determine the variables of its partial sums, whatever the chunks. They can be met just where
the sum has its right-hand side, and over each such assignment in one way. -/
theorem determines_sumClauses (chunkLength next : Nat) (vars : List Var) (rhs : Bool)
    (hvars : ∀ v ∈ vars, v < next) :
    Cnf.Below (next + (sumClauses chunkLength next vars rhs).2) (sumClauses chunkLength next vars rhs).1 ∧
    Determines next (next + (sumClauses chunkLength next vars rhs).2)
      (fun a => Cnf.holds a (sumClauses chunkLength next vars rhs).1 = true)
      (fun a => parity (vars.map a) = rhs) := by
  fun_induction sumClauses chunkLength next vars rhs with
  | case1 next vars hlong _ size clauses count heq ih =>
    have htake : ∀ v ∈ vars.take size, v < next := fun v hv => hvars v (List.mem_of_mem_take hv)
    have hrest : ∀ v ∈ vars.drop size ++ [next], v < next + 1 :=
      lt_succ_of_mem_append fun v hv => hvars v (List.mem_of_mem_drop hv)
    rw [heq] at ih
    obtain ⟨hbelow, hdetermines⟩ := ih hrest
    have hcount : next + (count + 1) = next + 1 + count := by omega
    rw [hcount]
    refine ⟨Cnf.below_append.2 ⟨?_, hbelow⟩, ?_⟩
    · exact (below_parityClauses (lt_succ_of_mem_append htake) false).mono (Nat.le_add_right _ _)
    · refine ((determines_partialSum htake).comp hdetermines ?_ ?_).of_iff (fun a => Cnf.holds_append.symm)
        fun a => iff_of_eq (true_and _)
      · intro a b hab ha
        rwa [← map_congr_of_agreeBelow hvars hab]
      · intro a ha
        -- the new variable has the sum of the chunk, so that it may stand for it
        rw [holds_parityClauses, List.map_append, parity_append, bne_eq_false_iff_eq] at ha
        rw [List.map_append, parity_append, ← ha, ← parity_append, ← List.map_append,
          parity_perm (List.perm_append_comm.map a), List.take_append_drop]
  | case2 next vars hshort =>
    refine ⟨below_parityClauses hvars rhs, ?_⟩
    refine (Determines.of_congr ?_).of_iff (fun a => (holds_parityClauses vars rhs a).symm) fun a => Iff.rfl
    intro a b hab ha
    rwa [← map_congr_of_agreeBelow hvars hab]

/-- The clauses for a sum are no longer than a chunk, and mention only its variables and the new ones. At least three
variables are allowed in a chunk, whatever was asked for. -/
theorem bounded_sumClauses (chunkLength next : Nat) (vars : List Var) (rhs : Bool) :
    ∀ c ∈ (sumClauses chunkLength next vars rhs).1, c.length ≤ chunkBound chunkLength ∧
      ∀ l ∈ c, l.var ∈ vars ∨ next ≤ l.var ∧ l.var < next + (sumClauses chunkLength next vars rhs).2 := by
  fun_induction sumClauses chunkLength next vars rhs with
  | case1 next vars hlong _ size clauses count heq ih =>
    rw [heq] at ih
    have hbound : 3 ≤ chunkBound chunkLength := Nat.le_max_right _ _
    have hsize : size = chunkBound chunkLength - 1 := rfl
    have hcount : next + (count + 1) = next + 1 + count := by omega
    rw [hcount]
    intro c hc
    rcases List.mem_append.1 hc with hc | hc
    · have hlength := length_of_mem_parityClauses hc
      rw [List.length_append, List.length_take, List.length_singleton] at hlength
      refine ⟨by omega, fun l hl => ?_⟩
      rcases List.mem_append.1 (mem_of_mem_parityClauses hc hl) with hv | hv
      · exact .inl (List.mem_of_mem_take hv)
      · rw [List.mem_singleton.1 hv]
        exact .inr ⟨Nat.le_refl next, Nat.lt_add_right count (Nat.lt_succ_self next)⟩
    · obtain ⟨hlength, hmentions⟩ := ih c hc
      refine ⟨hlength, fun l hl => ?_⟩
      rcases hmentions l hl with hv | ⟨hle, hlt⟩
      · rcases List.mem_append.1 hv with hv | hv
        · exact .inl (List.mem_of_mem_drop hv)
        · rw [List.mem_singleton.1 hv]
          exact .inr ⟨Nat.le_refl next, Nat.lt_add_right count (Nat.lt_succ_self next)⟩
      · exact .inr ⟨Nat.le_of_succ_le hle, hlt⟩
  | case2 next vars hshort =>
    intro c hc
    refine ⟨?_, fun l hl => .inl (mem_of_mem_parityClauses hc hl)⟩
    rw [length_of_mem_parityClauses hc]
    exact Nat.not_lt.1 hshort

/-- Every partial sum shortens the sum by all but two variables of a chunk, until one chunk is left. So the number of
new variables is the least one after which what is left fits into one chunk. -/
theorem count_sumClauses_le_iff (chunkLength next : Nat) (vars : List Var) (rhs : Bool) (k : Nat) :
    (sumClauses chunkLength next vars rhs).2 ≤ k ↔
      vars.length ≤ chunkBound chunkLength + k * (chunkBound chunkLength - 2) := by
  fun_induction sumClauses chunkLength next vars rhs generalizing k with
  | case1 next vars hlong _ size clauses count heq ih =>
    cases k with
    | zero =>
      rw [Nat.zero_mul, Nat.add_zero]
      exact iff_of_false (Nat.not_succ_le_zero count) (Nat.not_le.2 hlong)
    | succ k =>
      rw [heq, List.length_append, List.length_drop, List.length_singleton] at ih
      have hbound : 3 ≤ chunkBound chunkLength := Nat.le_max_right _ _
      have hsize : size = chunkBound chunkLength - 1 := rfl
      rw [Nat.succ_le_succ_iff, ih, Nat.succ_mul]
      omega
  | case2 next vars hshort => exact iff_of_true (Nat.zero_le k) ((Nat.not_lt.1 hshort).trans (Nat.le_add_right _ _))

/-- The number of variables in the longest chunk when a sum of `n` variables is cut, the variable of its partial sum
included. -/
def longestChunk (chunkLength n : Nat) : Nat := min (chunkBound chunkLength) n

theorem longestChunk_of_lt {chunkLength n : Nat} (hlong : chunkBound chunkLength < n) :
    longestChunk chunkLength n = chunkBound chunkLength :=
  Nat.min_eq_left (Nat.le_of_lt hlong)

theorem longestChunk_of_le {chunkLength n : Nat} (hshort : n ≤ chunkBound chunkLength) :
    longestChunk chunkLength n = n :=
  Nat.min_eq_right hshort

/-- A sum can be written just if the assignments to its longest chunk can be counted. What is left of a long sum has
no longer chunks than the one that was cut off, so that the first one decides. -/
theorem sumClauses?_eq (chunkLength next : Nat) (vars : List Var) (rhs : Bool) :
    sumClauses? chunkLength next vars rhs =
      if longestChunk chunkLength vars.length < wordBits then some (sumClauses chunkLength next vars rhs)
      else none := by
  fun_induction sumClauses chunkLength next vars rhs with
  | case1 next vars hlong _ size clauses count heq ih =>
    have hbound : 3 ≤ chunkBound chunkLength := Nat.le_max_right _ _
    have hsize : size = chunkBound chunkLength - 1 := rfl
    have hchunk : (vars.take size ++ [next]).length = chunkBound chunkLength := by
      rw [List.length_append, List.length_take, List.length_singleton]
      omega
    have hcut : parityClauses? (vars.take size ++ [next]) false = if chunkBound chunkLength < wordBits then
        some (parityClauses (vars.take size ++ [next]) false) else none := by
      rw [parityClauses?, hchunk]
    have hrest : longestChunk chunkLength (vars.drop size ++ [next]).length ≤ chunkBound chunkLength :=
      Nat.min_le_left _ _
    rw [sumClauses?, dif_pos hlong, longestChunk_of_lt hlong]
    by_cases hfits : chunkBound chunkLength < wordBits
    · rw [if_pos (Nat.lt_of_le_of_lt hrest hfits), heq] at ih
      simp only [← hsize, hcut, if_pos hfits, ih]
    · simp only [← hsize, hcut, if_neg hfits]
  | case2 next vars hshort =>
    rw [sumClauses?, dif_neg hshort, longestChunk_of_le (Nat.not_lt.1 hshort), parityClauses?]
    by_cases hfits : vars.length < wordBits
    · simp only [if_pos hfits]
    · simp only [if_neg hfits]

theorem sumClauses_nil (chunkLength next : Nat) (rhs : Bool) :
    sumClauses chunkLength next [] rhs = (if rhs then [[]] else [], 0) := by
  rw [sumClauses, dif_neg (by simp)]
  cases rhs <;> rfl

/-- Values of the listed variables leave one choice for the new ones, since nothing else is mentioned. -/
theorem eq_of_holds_sumClauses {chunkLength next : Nat} {vars : List Var} {rhs : Bool} (hvars : ∀ v ∈ vars, v < next)
    {a b : Var → Bool} (hab : ∀ v ∈ vars, a v = b v)
    (ha : Cnf.holds a (sumClauses chunkLength next vars rhs).1 = true)
    (hb : Cnf.holds b (sumClauses chunkLength next vars rhs).1 = true) {v : Var} (hv : next ≤ v)
    (hlt : v < next + (sumClauses chunkLength next vars rhs).2) : a v = b v := by
  obtain ⟨-, hdetermines⟩ := determines_sumClauses chunkLength next vars rhs hvars
  let c : Var → Bool := fun u => if u < next then a u else b u
  have hac : AgreeBelow next a c := fun u hu => (if_pos hu).symm
  have hcb : ∀ u, next ≤ u → c u = b u := fun u hu => if_neg (Nat.not_lt.2 hu)
  have hc : Cnf.holds c (sumClauses chunkLength next vars rhs).1 = true := by
    rw [← hb]
    refine Cnf.holds_congr_of_mem fun d hd l hl => ?_
    rcases (bounded_sumClauses chunkLength next vars rhs d hd).2 l hl with hmem | hnew
    · rw [← hac l.var (hvars l.var hmem), hab l.var hmem]
    · exact hcb l.var hnew.1
  rw [hdetermines.unique hac ha hc v hlt, hcb v hv]

/-- Cutting a sum into chunks is exact, bounded and comes to an end. Values of its variables have the sum just if they
extend to the new variables so that all clauses hold, and then in one way. No clause is longer than a chunk or
mentions other variables. One variable is made for each chunk that is cut off; the cutting ends with the least number
of them after which what is left fits into one chunk, so that a short sum gets none. While the longest chunk has fewer
than 64 variables, these are the clauses and variables that writing the sum gives. -/
theorem sumClauses_exact (chunkLength next : Nat) (vars : List Var) (rhs : Bool) (hvars : ∀ v ∈ vars, v < next) :
    let clauses := (sumClauses chunkLength next vars rhs).1
    let count := (sumClauses chunkLength next vars rhs).2
    (∀ a, parity (vars.map a) = rhs ↔ ∃ b, (∀ v ∈ vars, b v = a v) ∧ Cnf.holds b clauses = true) ∧
    (∀ a b, (∀ v ∈ vars, a v = b v) → Cnf.holds a clauses = true → Cnf.holds b clauses = true →
      ∀ v, next ≤ v → v < next + count → a v = b v) ∧
    (∀ c ∈ clauses, c.length ≤ max chunkLength 3 ∧
      ∀ l ∈ c, l.var ∈ vars ∨ next ≤ l.var ∧ l.var < next + count) ∧
    (∀ k, count ≤ k ↔ vars.length ≤ max chunkLength 3 + k * (max chunkLength 3 - 2)) ∧
    (vars.length ≤ max chunkLength 3 → count = 0) ∧ (vars = [] → clauses = if rhs then [[]] else []) ∧
    (longestChunk chunkLength vars.length < 64 → sumClauses? chunkLength next vars rhs = some (clauses, count)) := by
  intro clauses count
  obtain ⟨-, hdetermines⟩ := determines_sumClauses chunkLength next vars rhs hvars
  have hcount := count_sumClauses_le_iff chunkLength next vars rhs
  refine ⟨fun a => ⟨fun hparity => ?_, ?_⟩, fun a b hab ha hb v => eq_of_holds_sumClauses hvars hab ha hb,
    bounded_sumClauses chunkLength next vars rhs, hcount, fun hshort => ?_, ?_, fun hchunk => ?_⟩
  · obtain ⟨b, hab, hb⟩ := hdetermines.extend hparity
    exact ⟨b, fun v hv => (hab v (hvars v hv)).symm, hb⟩
  · rintro ⟨b, hab, hb⟩
    rw [← hdetermines.sound hb]
    exact congrArg parity (List.map_congr_left fun v hv => (hab v hv).symm)
  · exact Nat.le_zero.1 ((hcount 0).2 (hshort.trans (Nat.le_add_right _ _)))
  · rintro rfl
    exact congrArg Prod.fst (sumClauses_nil chunkLength next rhs)
  · exact (sumClauses?_eq chunkLength next vars rhs).trans (if_pos hchunk)

/-- Seven variables in chunks of three, for which the smallest possible length is raised: four partial sums, the last
ones of which sum partial sums. -/
theorem sumClauses_exact_nested :
    let vars : List Var := [6, 0, 3, 1, 5, 2, 4]
    (∀ v ∈ vars, v < 7) ∧ (sumClauses 0 7 vars true).2 = 4 ∧
    (∀ c ∈ (sumClauses 0 7 vars true).1, c.length ≤ 3 ∧ ∀ l ∈ c, l.var < 11) ∧
    ∃ b, (∀ v ∈ vars, b v = true) ∧ Cnf.holds b (sumClauses 0 7 vars true).1 = true := by
  intro vars
  have hvars : ∀ v ∈ vars, v < 7 := by decide
  obtain ⟨hexact, -, hbounded, hcount, -⟩ := sumClauses_exact 0 7 vars true hvars
  have hfour : (sumClauses 0 7 vars true).2 = 4 :=
    Nat.le_antisymm ((hcount 4).2 (by decide)) (Nat.lt_of_not_le fun hle => absurd ((hcount 3).1 hle) (by decide))
  rw [hfour] at hbounded
  refine ⟨hvars, hfour, fun c hc => ⟨(hbounded c hc).1, fun l hl => ?_⟩, (hexact fun _ => true).1 rfl⟩
  rcases (hbounded c hc).2 l hl with hv | hnew
  · exact (hvars l.var hv).trans (by decide)
  · exact hnew.2

end BoolPoly

namespace BoolPoly

/-- The sum of a list of bits modulo two: whether an odd number of them is one. -/
def parity (bits : List Bool) : Bool := bits.foldr Bool.xor false

@[simp] theorem parity_nil : parity [] = false := rfl

@[simp] theorem parity_cons (b : Bool) (bits : List Bool) : parity (b :: bits) = (b ^^ parity bits) := rfl

theorem parity_append (bits more : List Bool) : parity (bits ++ more) = (parity bits ^^ parity more) := by
  induction bits with
  | nil => simp
  | cons b bits ih => simp [ih]

theorem parity_eq_false {bits : List Bool} (h : ∀ b ∈ bits, b = false) : parity bits = false := by
  induction bits with
  | nil => rfl
  | cons b bits ih =>
    obtain ⟨hb, hbits⟩ := List.forall_mem_cons.1 h
    rw [parity_cons, hb, ih hbits, Bool.false_xor]

/-- The order of the bits does not matter for their sum. -/
theorem parity_perm {bits more : List Bool} (h : bits.Perm more) : parity bits = parity more := by
  induction h with
  | nil => rfl
  | cons b _ ih => simp [ih]
  | swap a b l => simp [Bool.xor_left_comm]
  | trans _ _ ih₁ ih₂ => exact ih₁.trans ih₂

end BoolPoly

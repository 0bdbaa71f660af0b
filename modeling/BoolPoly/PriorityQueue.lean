namespace BoolPoly

/-- A priority queue as a skew heap: a tree in which no entry comes before its parent, if it is built by `insert` from
`empty`. Inserting an entry and removing the first one are both a merge of two trees. -/
inductive PriorityQueue (α : Type) where
  | empty
  | node (first : α) (left right : PriorityQueue α)

namespace PriorityQueue

variable {α : Type}

def size : PriorityQueue α → Nat
  | empty => 0
  | node _ l r => l.size + r.size + 1

/-- The sum of the weights of all entries. -/
def weight (w : α → Nat) : PriorityQueue α → Nat
  | empty => 0
  | node a l r => w a + l.weight w + r.weight w

variable [Ord α]

/-- The queue with the entries of both queues. The smaller first entry stays first; its left part becomes the right
one, and the other queue is merged into its right part. -/
def merge : PriorityQueue α → PriorityQueue α → PriorityQueue α
  | empty, q => q
  | p, empty => p
  | node a l r, node b l' r' =>
    if (compare a b).isLE then node a (merge r (node b l' r')) l
    else node b (merge (node a l r) r') l'
termination_by p q => p.size + q.size
decreasing_by all_goals simp only [size]; omega

def insert (a : α) (q : PriorityQueue α) : PriorityQueue α := merge (node a empty empty) q

def ofList (l : List α) : PriorityQueue α := l.foldl (fun q a => q.insert a) empty

/-- The first entry and the queue of the others; none if there is no entry. -/
def pop? : PriorityQueue α → Option (α × PriorityQueue α)
  | empty => none
  | node a l r => some (a, merge l r)

theorem weight_merge (w : α → Nat) (p q : PriorityQueue α) :
    (merge p q).weight w = p.weight w + q.weight w := by
  fun_induction merge p q with
  | case1 => simp [weight]
  | case2 => simp [weight]
  | case3 a l r b l' r' _ ih => simp only [weight, ih]; omega
  | case4 a l r b l' r' _ ih => simp only [weight, ih]; omega

theorem weight_insert (w : α → Nat) (a : α) (q : PriorityQueue α) :
    (q.insert a).weight w = w a + q.weight w := by
  simp [insert, weight_merge, weight]

/-- Removing the first entry takes just its weight away. -/
theorem weight_of_pop? {w : α → Nat} {p q : PriorityQueue α} {a : α} (h : p.pop? = some (a, q)) :
    p.weight w = w a + q.weight w := by
  cases p with
  | empty => cases h
  | node b l r =>
    obtain ⟨rfl, rfl⟩ := Prod.mk.inj (Option.some.inj h)
    rw [weight_merge, weight, Nat.add_assoc]

end PriorityQueue

end BoolPoly

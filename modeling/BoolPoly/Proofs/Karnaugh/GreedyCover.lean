import BoolPoly.Proofs.Karnaugh.Implicates

open Std

namespace BoolPoly.Karnaugh

namespace Cube

/-- Whether the assignment is that of the fixed variables, completed by its own values of the free ones. -/
def covers (p : Cube) (m : UInt32) : Bool := p.value ||| (m &&& p.free) == m

/-- How many of the assignments lie in the cube. It is counted anew whenever it is asked for. -/
def gain (ms : List UInt32) (p : Cube) : Nat := ms.countP p.covers

/-- Cubes that cover more of the assignments come first, and the smaller one among equals, so that no two different
cubes are ranked equal. -/
def byGain (ms : List UInt32) (p q : Cube) : Ordering :=
  (compare (q.gain ms) (p.gain ms)).then (compare p q)

/-- Whether some assignment lies in this prime and in no other one. Such a prime belongs to every cover by primes. -/
def isAlone (primes : List Cube) (on : List UInt32) (p : Cube) : Bool :=
  on.any fun m => p.covers m && primes.all fun q => !q.covers m || q == p

section Covers

variable {p q : Cube} {m : UInt32} {ms : List UInt32}

/-- A cube covers just the assignments in its enumeration. -/
theorem mem_minterms_iff : m ∈ p.minterms ↔ p.covers m = true := by
  rw [minterms, List.mem_map, covers, beq_iff_eq]
  constructor
  · rintro ⟨sub, hsub, rfl⟩
    apply word_ext
    intro i
    have hbit := testBit_submask (mem_submasks.1 hsub) i
    simp only [UInt32.toNat_or, UInt32.toNat_and, Nat.testBit_or, Nat.testBit_and] at hbit ⊢
    rw [Bool.and_or_distrib_right, hbit]
    cases p.value.toNat.testBit i <;> simp
  · intro hm
    refine ⟨m &&& p.free, mem_submasks.2 ?_, hm⟩
    rw [UInt32.and_assoc, UInt32.and_self]

theorem gain_filter_le {keep : UInt32 → Bool} : p.gain (ms.filter keep) ≤ p.gain ms :=
  List.filter_sublist.countP_le

/-- A cube that was taken covers nothing any more, so that removing it from the remaining ones changes no later
round. -/
theorem gain_filter_not_covers : p.gain (ms.filter fun m => !p.covers m) = 0 := by
  rw [gain, List.countP_eq_zero]
  intro m hm hcovers
  rw [List.mem_filter, hcovers] at hm
  exact absurd hm.2 Bool.noConfusion

theorem byGain_isLE_iff : (p.byGain ms q).isLE ↔
    q.gain ms < p.gain ms ∨ q.gain ms = p.gain ms ∧ (compare p q).isLE := by
  rw [byGain, Ordering.isLE_then_iff_or, Nat.compare_eq_lt, Nat.compare_eq_eq]

theorem eq_of_byGain (hpq : (p.byGain ms q).isLE) (hqp : (q.byGain ms p).isLE) : p = q := by
  rw [byGain_isLE_iff] at hpq hqp
  obtain hlt | ⟨heq, hpq⟩ := hpq
  · omega
  · obtain hlt | ⟨-, hqp⟩ := hqp
    · omega
    · exact LawfulEqOrd.eq_of_compare (OrientedCmp.isLE_antisymm hpq hqp)

end Covers

end Cube

/-- The first one of the cubes by their gains, found by looking at each of them. -/
def best? (ms : List UInt32) : List Cube → Option Cube
  | [] => none
  | p :: ps =>
    match best? ms ps with
    | none => some p
    | some q => if (p.byGain ms q).isLE then some p else some q

section Best

variable {ms : List UInt32} {p : Cube} {ps : List Cube}

theorem mem_of_best? (h : best? ms ps = some p) : p ∈ ps := by
  fun_induction best? ms ps with
  | case1 => cases h
  | case2 q ps _ _ =>
    cases h
    exact List.mem_cons_self
  | case3 q ps r _ _ _ =>
    cases h
    exact List.mem_cons_self
  | case4 q ps r hr _ ih =>
    cases h
    exact List.mem_cons_of_mem q (ih hr)

/-- A cube that comes before all cubes is the best one, wherever it stands: no two cubes are ranked equal. -/
theorem best?_eq_some (hp : p ∈ ps) (hfirst : ∀ q ∈ ps, (p.byGain ms q).isLE) : best? ms ps = some p := by
  induction ps with
  | nil => cases hp
  | cons q ps ih =>
    obtain ⟨hq, hrest⟩ := List.forall_mem_cons.1 hfirst
    obtain rfl | hp := List.mem_cons.1 hp
    · cases hbest : best? ms ps with
      | none => simp only [best?, hbest]
      | some r => simp only [best?, hbest, hrest r (mem_of_best? hbest), if_true]
    · simp only [best?, ih hp hrest]
      split
      · next hle => rw [Cube.eq_of_byGain hle hq]
      · rfl

theorem length_erase_lt (h : best? ms (ps.filter (0 < ·.gain ms)) = some p) : (ps.erase p).length < ps.length := by
  have hp := (List.mem_filter.1 (mem_of_best? h)).1
  have hpos := List.length_pos_of_mem hp
  rw [List.length_erase_of_mem hp]
  omega

end Best

/-- Goes through all remaining primes in every round and takes the best one, until none covers anything new. No queue
is kept, and no gain from an earlier round is used. -/
def rescan (primes : List Cube) (ms : List UInt32) : List Cube :=
  match hbest : best? ms (primes.filter (0 < ·.gain ms)) with
  | none => []
  | some p =>
    have := length_erase_lt hbest
    p :: rescan (primes.erase p) (ms.filter fun m => !p.covers m)
termination_by primes.length

section Rescan

variable {primes : List Cube} {ms : List UInt32} {p : Cube}

theorem rescan_eq_nil (h : ∀ p ∈ primes, p.gain ms = 0) : rescan primes ms = [] := by
  have hnone : primes.filter (0 < ·.gain ms) = [] := by
    rw [List.filter_eq_nil_iff]
    intro p hp
    simp [h p hp]
  rw [rescan]
  split
  · rfl
  · next p hbest =>
    rw [hnone] at hbest
    cases hbest

theorem rescan_eq_cons (hp : p ∈ primes) (hgain : 0 < p.gain ms)
    (hfirst : ∀ q ∈ primes, 0 < q.gain ms → (p.byGain ms q).isLE) :
    rescan primes ms = p :: rescan (primes.erase p) (ms.filter fun m => !p.covers m) := by
  have hbest : best? ms (primes.filter (0 < ·.gain ms)) = some p := by
    apply best?_eq_some
    · exact List.mem_filter.2 ⟨hp, decide_eq_true hgain⟩
    · intro q hq
      obtain ⟨hq, hpos⟩ := List.mem_filter.1 hq
      exact hfirst q hq (of_decide_eq_true hpos)
  rw [rescan]
  split
  · next hnone =>
    rw [hbest] at hnone
    cases hnone
  · next q hsome =>
    rw [hbest] at hsome
    cases hsome
    rfl

end Rescan

/-- The essential primes, completed by going through all other primes in every round, in ascending order. This is the
cover of the greedy algorithm that keeps no queue. -/
def greedyCover (primes : List Cube) (on : List UInt32) : List Cube :=
  let (essential, others) := primes.partition (·.isAlone primes on)
  let uncovered := on.filter fun m => !essential.any (·.covers m)
  (essential ++ rescan others uncovered).mergeSort fun c d => (compare c d).isLE

section Queue

/-- Entries are compared by their gains and then by their cubes. -/
instance : TransOrd Scored :=
  inferInstanceAs (TransCmp (compareLex (fun s t => compareOn Scored.gain t s) (compareOn (·.candidate.cube))))

theorem Scored.isLE_iff {s t : Scored} : (compare s t).isLE ↔
    t.gain < s.gain ∨ t.gain = s.gain ∧ (compare s.candidate.cube t.candidate.cube).isLE := by
  change ((compare t.gain s.gain).then (compare s.candidate.cube t.candidate.cube)).isLE ↔ _
  rw [Ordering.isLE_then_iff_or, Nat.compare_eq_lt, Nat.compare_eq_eq]

/-- Whether the candidate lists the assignments of `ms` that lie in its cube, and none of them twice. What it lists
besides, because it was covered meanwhile, does not count. -/
structure Candidate.Lists (c : Candidate) (ms : List UInt32) : Prop where
  nodup : c.covers.Nodup
  mem_iff : ∀ m ∈ ms, m ∈ c.covers ↔ c.cube.covers m = true

theorem Candidate.Lists.gain_eq {c : Candidate} {uncovered : HashSet UInt32} {ms : List UInt32} (hc : c.Lists ms)
    (hms : ms.Nodup) (huncovered : ∀ m, m ∈ uncovered ↔ m ∈ ms) : c.gain uncovered = c.cube.gain ms := by
  have hperm : (c.covers.filter uncovered.contains).Perm (ms.filter c.cube.covers) := by
    rw [List.perm_ext_iff_of_nodup (hc.nodup.filter _) (hms.filter _)]
    intro m
    rw [List.mem_filter, List.mem_filter, HashSet.contains_iff_mem, huncovered]
    constructor
    · rintro ⟨hcovers, hm⟩
      exact ⟨hm, (hc.mem_iff m hm).1 hcovers⟩
    · rintro ⟨hm, hcovers⟩
      exact ⟨(hc.mem_iff m hm).2 hcovers, hm⟩
  rw [Candidate.gain, Cube.gain, List.countP_eq_length_filter, List.countP_eq_length_filter, hperm.length_eq]

theorem gain_uncover_le {uncovered : HashSet UInt32} {c chosen : Candidate} :
    c.gain (uncover uncovered chosen) ≤ c.gain uncovered := by
  apply List.countP_mono_left
  intro m _ hm
  exact HashSet.contains_iff_mem.2 (mem_uncover.1 (HashSet.contains_iff_mem.1 hm)).1

/-- What is known about a queued entry while `primes` remain and `ms` is uncovered. Its gain may be out of date, but
it is not too small; and as long as it covers something its prime remains. -/
structure Scored.Fits (s : Scored) (uncovered : HashSet UInt32) (primes : List Cube) (ms : List UInt32) : Prop where
  lists : s.candidate.Lists ms
  gain_le : s.candidate.gain uncovered ≤ s.gain
  remaining : 0 < s.candidate.gain uncovered → s.candidate.cube ∈ primes

/-- The queue stands for the remaining primes: each of them that covers something of `ms` is queued. What else is
queued covers nothing and is dropped when it comes first. -/
structure Ready (queue : PriorityQueue Scored) (uncovered : HashSet UInt32) (primes : List Cube)
    (ms : List UInt32) : Prop where
  ordered : queue.Ordered
  nodup : ms.Nodup
  mem_uncovered : ∀ m, m ∈ uncovered ↔ m ∈ ms
  fits : ∀ s ∈ queue.toList, s.Fits uncovered primes ms
  queued : ∀ p ∈ primes, 0 < p.gain ms → ∃ s ∈ queue.toList, s.candidate.cube = p

variable {queue rest : PriorityQueue Scored} {best : Scored} {uncovered : HashSet UInt32} {primes : List Cube}
  {ms : List UInt32}

theorem Ready.gain_eq (h : Ready queue uncovered primes ms) {s : Scored} (hs : s ∈ queue.toList) :
    s.candidate.gain uncovered = s.candidate.cube.gain ms :=
  (h.fits s hs).lists.gain_eq h.nodup h.mem_uncovered

section Pop

variable (h : Ready queue uncovered primes ms) (hpop : queue.pop? = some (best, rest))
include h hpop

theorem Ready.fits_first : best.Fits uncovered primes ms :=
  h.fits best ((PriorityQueue.mem_of_pop? hpop).2 (.inl rfl))

theorem Ready.fits_rest {s : Scored} (hs : s ∈ rest.toList) : s.Fits uncovered primes ms :=
  h.fits s ((PriorityQueue.mem_of_pop? hpop).2 (.inr hs))

theorem Ready.gain_first : best.candidate.gain uncovered = best.candidate.cube.gain ms :=
  h.gain_eq ((PriorityQueue.mem_of_pop? hpop).2 (.inl rfl))

/-- A remaining prime that covers something comes first or is still queued. -/
theorem Ready.queued_or {p : Cube} (hp : p ∈ primes) (hpos : 0 < p.gain ms) :
    best.candidate.cube = p ∨ ∃ s ∈ rest.toList, s.candidate.cube = p := by
  obtain ⟨s, hs, hcube⟩ := h.queued p hp hpos
  obtain rfl | hs := (PriorityQueue.mem_of_pop? hpop).1 hs
  · exact .inl hcube
  · exact .inr ⟨s, hs, hcube⟩

/-- An entry that covers nothing any more is dropped. The remaining primes stay as they are, because its prime would
not be taken in any case. -/
theorem Ready.skip (hgain : best.candidate.gain uncovered = 0) : Ready rest uncovered primes ms where
  ordered := (h.ordered.of_pop? hpop).1
  nodup := h.nodup
  mem_uncovered := h.mem_uncovered
  fits _ hs := h.fits_rest hpop hs
  queued p hp hpos := by
    obtain rfl | hrest := h.queued_or hpop hp hpos
    · rw [h.gain_first hpop] at hgain
      exact absurd hgain hpos.ne'
    · exact hrest

/-- An entry is queued again under its present gain. The queue stands for the same primes then. -/
theorem Ready.requeue :
    Ready (rest.insert ⟨best.candidate.gain uncovered, best.candidate⟩) uncovered primes ms where
  ordered := (h.ordered.of_pop? hpop).1.insert _
  nodup := h.nodup
  mem_uncovered := h.mem_uncovered
  fits s hs := by
    obtain rfl | hs := PriorityQueue.mem_insert.1 hs
    · exact ⟨(h.fits_first hpop).lists, Nat.le_refl _, (h.fits_first hpop).remaining⟩
    · exact h.fits_rest hpop hs
  queued p hp hpos := by
    obtain hcube | ⟨s, hs, hcube⟩ := h.queued_or hpop hp hpos
    · exact ⟨_, PriorityQueue.mem_insert.2 (.inl rfl), hcube⟩
    · exact ⟨s, PriorityQueue.mem_insert.2 (.inr hs), hcube⟩

/-- A taken prime is no longer among the remaining ones: it covers nothing that is still uncovered. -/
theorem Ready.take : Ready rest (uncover uncovered best.candidate) (primes.erase best.candidate.cube)
    (ms.filter fun m => !best.candidate.cube.covers m) := by
  have hms := h.nodup.filter fun m => !best.candidate.cube.covers m
  have huncovered : ∀ m, m ∈ uncover uncovered best.candidate ↔
      m ∈ ms.filter fun m => !best.candidate.cube.covers m := by
    intro m
    rw [mem_uncover, h.mem_uncovered, List.mem_filter, Bool.not_eq_true', ← Bool.not_eq_true]
    exact and_congr_right fun hm => not_congr ((h.fits_first hpop).lists.mem_iff m hm)
  refine ⟨(h.ordered.of_pop? hpop).1, hms, huncovered, fun s hs => ?_, fun p hp hpos => ?_⟩
  · have hfits := h.fits_rest hpop hs
    have hlists : s.candidate.Lists (ms.filter fun m => !best.candidate.cube.covers m) :=
      ⟨hfits.lists.nodup, fun m hm => hfits.lists.mem_iff m (List.mem_filter.1 hm).1⟩
    refine ⟨hlists, gain_uncover_le.trans hfits.gain_le, fun hpos => ?_⟩
    refine (List.mem_erase_of_ne fun heq => ?_).2 (hfits.remaining (hpos.trans_le gain_uncover_le))
    rw [hlists.gain_eq hms huncovered, heq, Cube.gain_filter_not_covers] at hpos
    exact Nat.lt_irrefl 0 hpos
  · obtain rfl | hrest := h.queued_or hpop (List.mem_of_mem_erase hp) (hpos.trans_le Cube.gain_filter_le)
    · rw [Cube.gain_filter_not_covers] at hpos
      exact absurd hpos (Nat.lt_irrefl 0)
    · exact hrest

/-- A first entry whose gain is up to date comes before all remaining primes: the gains under which they are queued
are no greater, and their own gains even less so. -/
theorem Ready.byGain_isLE (hnot : ¬best.candidate.gain uncovered < best.gain) {p : Cube} (hp : p ∈ primes)
    (hpos : 0 < p.gain ms) : (best.candidate.cube.byGain ms p).isLE := by
  obtain rfl | ⟨s, hs, rfl⟩ := h.queued_or hpop hp hpos
  · exact Cube.byGain_isLE_iff.2 (.inr ⟨rfl, ReflCmp.isLE_rfl⟩)
  · have hfirst := h.gain_first hpop
    have hfirstLe := (h.fits_first hpop).gain_le
    have hother := h.gain_eq ((PriorityQueue.mem_of_pop? hpop).2 (.inr hs))
    have hotherLe := (h.fits_rest hpop hs).gain_le
    rw [Cube.byGain_isLE_iff]
    obtain hlt | ⟨heq, hcube⟩ := Scored.isLE_iff.1 ((h.ordered.of_pop? hpop).2 s hs)
    · left
      omega
    · obtain hlt | hge := Nat.lt_or_ge (s.candidate.cube.gain ms) (best.candidate.cube.gain ms)
      · exact .inl hlt
      · exact .inr ⟨by omega, hcube⟩

end Pop

/-- The queue takes the primes that going through all of them in every round takes, in the same order. The induction
follows the removals from the queue, of which only those that take a prime are rounds. -/
theorem takeBest_eq_rescan (queue : PriorityQueue Scored) (uncovered : HashSet UInt32) :
    ∀ (primes : List Cube) (ms : List UInt32), Ready queue uncovered primes ms →
      (takeBest queue uncovered).map Candidate.cube = rescan primes ms := by
  fun_induction takeBest queue uncovered with
  | case1 queue uncovered hpop =>
    intro primes ms h
    rw [rescan_eq_nil, List.map_nil]
    intro p hp
    by_contra hgain
    obtain ⟨s, hs, -⟩ := h.queued p hp (Nat.pos_of_ne_zero hgain)
    rw [PriorityQueue.eq_nil_of_pop? hpop] at hs
    cases hs
  | case2 queue uncovered best rest hpop _ gain hgain ih => exact fun _ _ h => ih _ _ (h.skip hpop hgain)
  | case3 queue uncovered best rest hpop _ gain _ _ _ ih => exact fun _ _ h => ih _ _ (h.requeue hpop)
  | case4 queue uncovered best rest hpop _ gain hgain hnot ih =>
    intro primes ms h
    have hpos : 0 < best.candidate.gain uncovered := Nat.pos_of_ne_zero hgain
    have hcube := (h.fits_first hpop).remaining hpos
    rw [h.gain_first hpop] at hpos
    rw [List.map_cons, ih _ _ (h.take hpop), rescan_eq_cons hcube hpos fun p hp => h.byGain_isLE hpop hnot hp]

/-- The rounds of the loop: from the queue and the uncovered assignments it runs empty after `n` removals from the
queue and takes `chosen`. A removed entry is dropped, queued again or taken. -/
inductive RunsEmpty : Nat → PriorityQueue Scored → HashSet UInt32 → List Candidate → Prop
  | stop {queue : PriorityQueue Scored} {uncovered : HashSet UInt32} (hpop : queue.pop? = none) :
      RunsEmpty 0 queue uncovered []
  | skip {n : Nat} {queue rest : PriorityQueue Scored} {uncovered : HashSet UInt32} {best : Scored}
      {chosen : List Candidate} (hpop : queue.pop? = some (best, rest))
      (hgain : best.candidate.gain uncovered = 0) (hrest : RunsEmpty n rest uncovered chosen) :
      RunsEmpty (n + 1) queue uncovered chosen
  | requeue {n : Nat} {queue rest : PriorityQueue Scored} {uncovered : HashSet UInt32} {best : Scored}
      {chosen : List Candidate} (hpop : queue.pop? = some (best, rest))
      (hgain : best.candidate.gain uncovered ≠ 0) (hless : best.candidate.gain uncovered < best.gain)
      (hrest : RunsEmpty n (rest.insert ⟨best.candidate.gain uncovered, best.candidate⟩) uncovered chosen) :
      RunsEmpty (n + 1) queue uncovered chosen
  | take {n : Nat} {queue rest : PriorityQueue Scored} {uncovered : HashSet UInt32} {best : Scored}
      {chosen : List Candidate} (hpop : queue.pop? = some (best, rest))
      (hgain : best.candidate.gain uncovered ≠ 0) (hnot : ¬best.candidate.gain uncovered < best.gain)
      (hrest : RunsEmpty n rest (uncover uncovered best.candidate) chosen) :
      RunsEmpty (n + 1) queue uncovered (best.candidate :: chosen)

/-- Every removal from the queue takes weight away, so there are no more of them than the weight at the start. An
entry that is queued again has a smaller gain than before. -/
theorem runsEmpty_takeBest (queue : PriorityQueue Scored) (uncovered : HashSet UInt32) :
    ∃ n ≤ queue.weight Scored.weight, RunsEmpty n queue uncovered (takeBest queue uncovered) := by
  fun_induction takeBest queue uncovered with
  | case1 queue uncovered hpop => exact ⟨0, Nat.zero_le _, .stop hpop⟩
  | case2 queue uncovered best rest hpop hlt gain hgain ih =>
    obtain ⟨n, hn, hrun⟩ := ih
    exact ⟨n + 1, Nat.lt_of_le_of_lt hn hlt, .skip hpop hgain hrun⟩
  | case3 queue uncovered best rest hpop _ gain hgain hless hlt ih =>
    obtain ⟨n, hn, hrun⟩ := ih
    exact ⟨n + 1, Nat.lt_of_le_of_lt hn hlt, .requeue hpop hgain hless hrun⟩
  | case4 queue uncovered best rest hpop hlt gain hgain hnot ih =>
    obtain ⟨n, hn, hrun⟩ := ih
    exact ⟨n + 1, Nat.lt_of_le_of_lt hn hlt, .take hpop hgain hnot hrun⟩

end Queue

section Cover

variable {primes : List Cube} {on : List UInt32}

theorem map_cube_candidates : (candidates primes on).map Candidate.cube = primes := by
  rw [candidates, List.map_map]
  exact List.map_id primes

theorem mem_covers_iff {c : Candidate} (hc : c ∈ candidates primes on) {m : UInt32} :
    m ∈ c.covers ↔ c.cube.covers m = true ∧ m ∈ on := by
  rw [(mem_covers_of_mem_candidates hc).2 m, Cube.mem_minterms_iff]

theorem mem_queued {s : Scored} : s ∈ queued primes on ↔ ∃ c ∈ candidates primes on,
    c.isEssential (coverCounts (candidates primes on)) = false ∧ 0 < c.gain (remaining primes on) ∧
      ⟨c.gain (remaining primes on), c⟩ = s := by
  rw [queued, List.mem_filter, List.mem_map]
  constructor
  · rintro ⟨⟨c, hc, rfl⟩, hpos⟩
    obtain ⟨hc, hother⟩ := List.mem_filter.1 hc
    rw [Bool.not_eq_true'] at hother
    exact ⟨c, hc, hother, of_decide_eq_true hpos, rfl⟩
  · rintro ⟨c, hc, hother, hpos, rfl⟩
    rw [← Bool.not_eq_true'] at hother
    exact ⟨⟨c, List.mem_filter.2 ⟨hc, hother⟩, rfl⟩, decide_eq_true hpos⟩

variable (hprimes : primes.Nodup) (hminterms : ∀ p ∈ primes, p.minterms.Nodup)

include hprimes hminterms

/-- The counts of the assignments tell which primes are needed for one of them. -/
theorem isEssential_eq_isAlone {c : Candidate} (hc : c ∈ candidates primes on) :
    c.isEssential (coverCounts (candidates primes on)) = c.cube.isAlone primes on := by
  have hcount : ∀ m ∈ c.covers, ((candidates primes on).flatMap Candidate.covers).count m = 1 ↔
      ∀ d ∈ candidates primes on, m ∈ d.covers → d = c := fun m hm =>
    count_covers_eq_one_iff (nodup_candidates hprimes) (nodup_covers_of_mem_candidates hminterms hc) hc hm
  rw [Bool.eq_iff_iff, isEssential_iff]
  simp only [Cube.isAlone, List.any_eq_true, List.all_eq_true, Bool.and_eq_true, Bool.or_eq_true, Bool.not_eq_true',
    beq_iff_eq, ← Bool.not_eq_true, ← imp_iff_not_or]
  constructor
  · rintro ⟨m, hm, hone⟩
    obtain ⟨hcovers, hon⟩ := (mem_covers_iff hc).1 hm
    refine ⟨m, hon, hcovers, fun q hq hqm => ?_⟩
    rw [← @map_cube_candidates primes on] at hq
    obtain ⟨d, hd, rfl⟩ := List.mem_map.1 hq
    rw [(hcount m hm).1 hone d hd ((mem_covers_iff hd).2 ⟨hqm, hon⟩)]
  · rintro ⟨m, hon, hcovers, halone⟩
    have hm := (mem_covers_iff hc).2 ⟨hcovers, hon⟩
    refine ⟨m, hm, (hcount m hm).2 fun d hd hdm => ?_⟩
    exact eq_of_mem_candidates hd hc
      (halone d.cube (mem_covers_of_mem_candidates hd).1 ((mem_covers_iff hd).1 hdm).1)

theorem map_cube_essentials : (essentials primes on).map Candidate.cube = primes.filter (·.isAlone primes on) :=
  calc (essentials primes on).map Candidate.cube
      = ((candidates primes on).filter fun c => c.cube.isAlone primes on).map Candidate.cube := by
        rw [essentials, List.filter_congr fun c hc => isEssential_eq_isAlone hprimes hminterms hc]
    _ = ((candidates primes on).map Candidate.cube).filter (·.isAlone primes on) := by
        rw [List.filter_map]
        rfl
    _ = primes.filter (·.isAlone primes on) := by rw [map_cube_candidates]

theorem mem_remaining {m : UInt32} : m ∈ remaining primes on ↔
    m ∈ on.filter fun m => !(primes.filter (·.isAlone primes on)).any (·.covers m) := by
  rw [remaining, mem_foldl_uncover, HashSet.mem_ofList, List.contains_iff_mem, List.mem_filter,
    ← map_cube_essentials hprimes hminterms, Bool.not_eq_true', List.any_eq_false, List.forall_mem_map]
  refine and_congr_right fun hon => forall₂_congr fun c hc => not_congr ?_
  rw [mem_covers_iff (List.mem_filter.1 hc).1, and_iff_left hon]

/-- At first all primes but the essential ones remain, and those that cover something are queued. Their gains are up
to date. -/
theorem ready_queued (hon : on.Nodup) : Ready (.ofList (queued primes on)) (remaining primes on)
    (primes.filter fun p => !p.isAlone primes on)
    (on.filter fun m => !(primes.filter (·.isAlone primes on)).any (·.covers m)) := by
  have hlists : ∀ c ∈ candidates primes on,
      c.Lists (on.filter fun m => !(primes.filter (·.isAlone primes on)).any (·.covers m)) := by
    intro c hc
    refine ⟨nodup_covers_of_mem_candidates hminterms hc, fun m hm => ?_⟩
    rw [mem_covers_iff hc, and_iff_left (List.mem_filter.1 hm).1]
  have hms := hon.filter fun m => !(primes.filter (·.isAlone primes on)).any (·.covers m)
  have huncovered : ∀ m, m ∈ remaining primes on ↔ _ := fun m => mem_remaining hprimes hminterms
  refine ⟨PriorityQueue.ordered_ofList _, hms, huncovered, fun s hs => ?_, fun p hp hpos => ?_⟩
  · obtain ⟨c, hc, hother, -, rfl⟩ := mem_queued.1 (PriorityQueue.mem_ofList.1 hs)
    refine ⟨hlists c hc, Nat.le_refl _, fun _ => ?_⟩
    refine List.mem_filter.2 ⟨(mem_covers_of_mem_candidates hc).1, ?_⟩
    rw [← isEssential_eq_isAlone hprimes hminterms hc, hother, Bool.not_false]
  · obtain ⟨hp, hother⟩ := List.mem_filter.1 hp
    rw [← @map_cube_candidates primes on] at hp
    obtain ⟨c, hc, rfl⟩ := List.mem_map.1 hp
    rw [Bool.not_eq_true', ← isEssential_eq_isAlone hprimes hminterms hc] at hother
    rw [← (hlists c hc).gain_eq hms huncovered] at hpos
    exact ⟨_, PriorityQueue.mem_ofList.2 (mem_queued.2 ⟨c, hc, hother, hpos, rfl⟩), rfl⟩

/-- The queue selects the greedy cover. -/
theorem cover_eq_greedy (hon : on.Nodup) : cover primes on = greedyCover primes on := by
  simp only [greedyCover, List.partition_eq_filter_filter]
  rw [cover_eq_selected, selected, List.map_append, map_cube_essentials hprimes hminterms,
    takeBest_eq_rescan _ _ _ _ (ready_queued hprimes hminterms hon)]
  rfl

end Cover

/-- The implicants of a polynomial are the greedy cover of its violations. Nothing is asked of the polynomial but that
its variables fit the table. -/
theorem implicants_eq_greedyCover {p : Polynomial} (hwidth : p.vars.size < 32) :
    implicants p = greedyCover (primeImplicants p.vars.size (rows p)) ((rows p).map Cube.value) := by
  have hvalue : ∀ bits ∈ violations p, (Cube.ofBits p.vars.size (UInt32.ofNat bits)).value.toNat = bits :=
    fun bits hbits => Nat.eq_of_testBit_eq fun _ => testBit_ofBits hwidth (mem_violations.1 hbits).1
  apply cover_eq_greedy
  · exact nodup_primeImplicants hwidth.le (mem_rows_iff_inside hwidth)
  · exact fun c hc => Cube.nodup_minterms (((sound_rows hwidth).primeImplicants hwidth.le).within hc)
  · rw [rows, List.map_map]
    refine (List.nodup_range.filter _).map_on fun x hx y hy hxy => ?_
    rw [← hvalue x hx, ← hvalue y hy]
    exact congrArg UInt32.toNat hxy

/-- For distinct primes, in which no variable is both free and set, and distinct assignments, the cover selected
through the queue is the cover of the greedy algorithm that goes through all primes in every round. The queue runs
empty, after no more removals than its weight at the start; then every assignment is covered that some prime
covers. -/
theorem cover_eq_greedyCover {primes : List Cube} {on : List UInt32} (hprimes : primes.Nodup)
    (hdisjoint : ∀ p ∈ primes, p.value &&& p.free = 0) (hon : on.Nodup) :
    cover primes on = greedyCover primes on ∧
    (∃ n ≤ (PriorityQueue.ofList (queued primes on)).weight Scored.weight, ∃ chosen,
      RunsEmpty n (.ofList (queued primes on)) (remaining primes on) chosen ∧
      cover primes on = ((essentials primes on ++ chosen).map Candidate.cube).mergeSort
        fun c d => (compare c d).isLE) ∧
    ∀ m ∈ on, (∃ p ∈ primes, p.covers m = true) → ∃ p ∈ cover primes on, p.covers m = true := by
  have hminterms : ∀ p ∈ primes, p.minterms.Nodup :=
    fun p hp => Cube.nodup_minterms (Cube.within_of_and_eq_zero (hdisjoint p hp))
  refine ⟨cover_eq_greedy hprimes hminterms hon, ?_, ?_⟩
  · obtain ⟨n, hn, hrun⟩ := runsEmpty_takeBest (.ofList (queued primes on)) (remaining primes on)
    exact ⟨n, hn, _, hrun, cover_eq_selected⟩
  · rintro m hm ⟨p, hp, hcovers⟩
    obtain ⟨c, hc, hmem⟩ := exists_mem_cover hp (Cube.mem_minterms_iff.2 hcovers) hm
    exact ⟨c, hc, Cube.mem_minterms_iff.1 hmem⟩

/-- Six primes that cover two of six assignments each; as every assignment lies in two of them, none is essential. In
the second round two primes come first that are queued with gain two, although their gain is one by then: they are
queued again. -/
theorem cover_eq_greedyCover_ring :
    let primes : List Cube := [⟨1, 2⟩, ⟨1, 4⟩, ⟨2, 1⟩, ⟨2, 4⟩, ⟨4, 1⟩, ⟨4, 2⟩]
    let on : List UInt32 := [1, 2, 3, 4, 5, 6]
    primes.Nodup ∧ (∀ p ∈ primes, p.value &&& p.free = 0) ∧ on.Nodup ∧
      (∀ m ∈ on, ∃ p ∈ primes, p.covers m = true) ∧
      cover primes on = [⟨1, 2⟩, ⟨2, 4⟩, ⟨4, 1⟩] ∧ ∀ m ∈ on, ∃ p ∈ cover primes on, p.covers m = true := by
  intro primes on
  have hcovered : ∀ m ∈ on, ∃ p ∈ primes, p.covers m = true := by
    have hall : (on.all fun m => primes.any (·.covers m)) = true := by decide
    exact fun m hm => List.any_eq_true.1 (List.all_eq_true.1 hall m hm)
  obtain ⟨hgreedy, -, hcovers⟩ := @cover_eq_greedyCover primes on (by decide) (by decide) (by decide)
  refine ⟨by decide, by decide, by decide, hcovered, ?_, fun m hm => hcovers m hm (hcovered m hm)⟩
  have hessential : primes.partition (·.isAlone primes on) = ([], primes) := by decide
  have hrounds : rescan primes on = [⟨1, 2⟩, ⟨2, 4⟩, ⟨4, 1⟩] := by cbv
  simp only [hgreedy, greedyCover, hessential, List.any_nil, Bool.not_false, List.filter_true, hrounds,
    List.nil_append]
  exact List.mergeSort_of_pairwise (by decide)

end BoolPoly.Karnaugh

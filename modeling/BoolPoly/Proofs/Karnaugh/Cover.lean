import BoolPoly.Karnaugh.Cover
import BoolPoly.OrderedSet
import BoolPoly.Proofs.PriorityQueue
import Mathlib.Data.List.Nodup
import Mathlib.Data.List.Perm.Subperm
import Mathlib.Tactic.Choose

open Std

namespace BoolPoly.Karnaugh

theorem mem_uncover {uncovered : HashSet UInt32} {chosen : Candidate} {m : UInt32} :
    m ∈ uncover uncovered chosen ↔ m ∈ uncovered ∧ m ∉ chosen.covers := by
  obtain ⟨cube, covers⟩ := chosen
  rw [uncover]
  induction covers generalizing uncovered with
  | nil => simp
  | cons k covers ih =>
    rw [List.foldl_cons, ih, HashSet.mem_erase, List.mem_cons, not_or]
    constructor
    · rintro ⟨⟨hk, hm⟩, hcovers⟩
      exact ⟨hm, fun h => beq_eq_false_iff_ne.1 hk h.symm, hcovers⟩
    · rintro ⟨hm, hk, hcovers⟩
      exact ⟨⟨beq_eq_false_iff_ne.2 fun h => hk h.symm, hm⟩, hcovers⟩

theorem mem_foldl_uncover {uncovered : HashSet UInt32} {chosen : List Candidate} {m : UInt32} :
    m ∈ chosen.foldl uncover uncovered ↔ m ∈ uncovered ∧ ∀ c ∈ chosen, m ∉ c.covers := by
  induction chosen generalizing uncovered with
  | nil => simp
  | cons c chosen ih => rw [List.foldl_cons, ih, mem_uncover, List.forall_mem_cons, and_assoc]

theorem gain_pos {uncovered : HashSet UInt32} {c : Candidate} {m : UInt32} (hm : m ∈ c.covers)
    (huncovered : m ∈ uncovered) : 0 < c.gain uncovered :=
  List.countP_pos_iff.2 ⟨m, hm, HashSet.contains_iff_mem.2 huncovered⟩

theorem mem_of_mem_takeBest {queue : PriorityQueue Scored} {uncovered : HashSet UInt32} {c : Candidate}
    (hc : c ∈ takeBest queue uncovered) : ∃ s ∈ queue.toList, s.candidate = c := by
  fun_induction takeBest queue uncovered with
  | case1 => cases hc
  | case2 queue uncovered best rest hpop _ _ _ ih =>
    obtain ⟨s, hs, hcandidate⟩ := ih hc
    exact ⟨s, (PriorityQueue.mem_of_pop? hpop).2 (.inr hs), hcandidate⟩
  | case3 queue uncovered best rest hpop _ gain _ _ _ ih =>
    obtain ⟨s, hs, hcandidate⟩ := ih hc
    rcases PriorityQueue.mem_insert.1 hs with rfl | hs
    · exact ⟨best, (PriorityQueue.mem_of_pop? hpop).2 (.inl rfl), hcandidate⟩
    · exact ⟨s, (PriorityQueue.mem_of_pop? hpop).2 (.inr hs), hcandidate⟩
  | case4 queue uncovered best rest hpop _ _ _ _ ih =>
    rcases List.mem_cons.1 hc with rfl | hc
    · exact ⟨best, (PriorityQueue.mem_of_pop? hpop).2 (.inl rfl), rfl⟩
    · obtain ⟨s, hs, hcandidate⟩ := ih hc
      exact ⟨s, (PriorityQueue.mem_of_pop? hpop).2 (.inr hs), hcandidate⟩

/-- An uncovered assignment in a queued candidate is covered when the queue has run empty: the candidate stays queued
until it is taken or its assignments are all covered. It is dropped only when it covers nothing that is still
uncovered. -/
theorem takeBest_covers {queue : PriorityQueue Scored} {uncovered : HashSet UInt32} {m : UInt32}
    (huncovered : m ∈ uncovered) : ∀ s ∈ queue.toList, m ∈ s.candidate.covers →
      ∃ c ∈ takeBest queue uncovered, m ∈ c.covers := by
  fun_induction takeBest queue uncovered with
  | case1 queue uncovered hpop =>
    intro s hs
    rw [PriorityQueue.eq_nil_of_pop? hpop] at hs
    cases hs
  | case2 queue uncovered best rest hpop _ gain hgain ih =>
    intro s hs hm
    rcases (PriorityQueue.mem_of_pop? hpop).1 hs with rfl | hs
    · have hpos := gain_pos hm huncovered
      omega
    · exact ih huncovered s hs hm
  | case3 queue uncovered best rest hpop _ gain _ _ _ ih =>
    intro s hs hm
    rcases (PriorityQueue.mem_of_pop? hpop).1 hs with rfl | hs
    · exact ih huncovered _ (PriorityQueue.mem_insert.2 (.inl rfl)) hm
    · exact ih huncovered s (PriorityQueue.mem_insert.2 (.inr hs)) hm
  | case4 queue uncovered best rest hpop _ gain _ _ ih =>
    intro s hs hm
    by_cases hbest : m ∈ best.candidate.covers
    · exact ⟨best.candidate, List.mem_cons_self, hbest⟩
    · rcases (PriorityQueue.mem_of_pop? hpop).1 hs with rfl | hs
      · exact absurd hm hbest
      · obtain ⟨c, hc, hcovers⟩ := ih (mem_uncover.2 ⟨huncovered, hbest⟩) s hs hm
        exact ⟨c, List.mem_cons_of_mem _ hc, hcovers⟩

/-- A taken candidate covers something that was uncovered before, so that no candidate is taken twice. -/
theorem exists_uncovered_of_mem_takeBest {queue : PriorityQueue Scored} {uncovered : HashSet UInt32}
    {c : Candidate} (hc : c ∈ takeBest queue uncovered) : ∃ m ∈ uncovered, m ∈ c.covers := by
  fun_induction takeBest queue uncovered with
  | case1 => cases hc
  | case2 queue uncovered best rest hpop _ _ _ ih => exact ih hc
  | case3 queue uncovered best rest hpop _ gain _ _ _ ih => exact ih hc
  | case4 queue uncovered best rest hpop _ gain hgain _ ih =>
    obtain rfl | hc := List.mem_cons.1 hc
    · obtain ⟨m, hm, huncovered⟩ := List.countP_pos_iff.1 (Nat.pos_of_ne_zero hgain)
      exact ⟨m, HashSet.contains_iff_mem.1 huncovered, hm⟩
    · obtain ⟨m, huncovered, hm⟩ := ih hc
      exact ⟨m, (mem_uncover.1 huncovered).1, hm⟩

theorem nodup_takeBest {queue : PriorityQueue Scored} {uncovered : HashSet UInt32} :
    (takeBest queue uncovered).Nodup := by
  fun_induction takeBest queue uncovered with
  | case1 => exact List.nodup_nil
  | case2 queue uncovered best rest hpop _ _ _ ih => exact ih
  | case3 queue uncovered best rest hpop _ gain _ _ _ ih => exact ih
  | case4 queue uncovered best rest hpop _ gain _ _ ih =>
    refine List.nodup_cons.2 ⟨fun hagain => ?_, ih⟩
    obtain ⟨m, huncovered, hm⟩ := exists_uncovered_of_mem_takeBest hagain
    exact (mem_uncover.1 huncovered).2 hm

/-- The taken candidates have representatives: distinct assignments, one for each, that were uncovered before. -/
theorem exists_representatives_takeBest {queue : PriorityQueue Scored} {uncovered : HashSet UInt32} :
    ∃ ms : List UInt32, ms.Nodup ∧ (∀ m ∈ ms, m ∈ uncovered) ∧ ms.length = (takeBest queue uncovered).length := by
  fun_induction takeBest queue uncovered with
  | case1 => exact ⟨[], List.nodup_nil, nofun, rfl⟩
  | case2 queue uncovered best rest hpop _ _ _ ih => exact ih
  | case3 queue uncovered best rest hpop _ gain _ _ _ ih => exact ih
  | case4 queue uncovered best rest hpop _ gain hgain _ ih =>
    obtain ⟨ms, hnodup, huncovered, hlength⟩ := ih
    obtain ⟨m, hm, hcontains⟩ := List.countP_pos_iff.1 (Nat.pos_of_ne_zero hgain)
    -- `m` is covered from now on, so that no later candidate has it as its representative
    refine ⟨m :: ms, List.nodup_cons.2 ⟨fun hagain => ?_, hnodup⟩, ?_, congrArg (· + 1) hlength⟩
    · exact (mem_uncover.1 (huncovered m hagain)).2 hm
    · refine List.forall_mem_cons.2 ⟨HashSet.contains_iff_mem.1 hcontains, fun k hk => ?_⟩
      exact (mem_uncover.1 (huncovered k hk)).1

section Counts

variable {cs : List Candidate} {c : Candidate} {m : UInt32}

theorem getD_foldl_alter (l : List UInt32) (counts : HashMap UInt32 Nat) (m : UInt32) :
    (l.foldl (fun counts m => counts.alter m fun n => some (n.getD 0 + 1)) counts)[m]?.getD 0 =
      counts[m]?.getD 0 + l.count m := by
  induction l generalizing counts with
  | nil => rfl
  | cons k l ih =>
    rw [List.foldl_cons, ih, HashMap.getElem?_alter, List.count_cons]
    split
    · next heq =>
      rw [eq_of_beq heq, Option.getD_some]
      omega
    · rfl

/-- A candidate is essential just if it covers an assignment that is covered once. The counts are those of all
candidates, in whatever order these stand. -/
theorem isEssential_iff : c.isEssential (coverCounts cs) = true ↔
    ∃ m ∈ c.covers, (cs.flatMap Candidate.covers).count m = 1 := by
  have hcount : ∀ m, (coverCounts cs)[m]? = some 1 ↔ (cs.flatMap Candidate.covers).count m = 1 := by
    intro m
    have hgetD := getD_foldl_alter (cs.flatMap Candidate.covers) ∅ m
    rw [HashMap.getElem?_empty, Option.getD_none, Nat.zero_add] at hgetD
    rw [← hgetD]
    change (coverCounts cs)[m]? = some 1 ↔ (coverCounts cs)[m]?.getD 0 = 1
    cases (coverCounts cs)[m]? with
    | none => simp
    | some n => simp
  simp only [Candidate.isEssential, List.any_eq_true, beq_iff_eq, hcount]

/-- An assignment is covered once just if a single candidate covers it, because no candidate lists an assignment
twice. -/
theorem count_covers_eq_one_iff (hcs : cs.Nodup) (hcovers : c.covers.Nodup) (hc : c ∈ cs) (hm : m ∈ c.covers) :
    (cs.flatMap Candidate.covers).count m = 1 ↔ ∀ d ∈ cs, m ∈ d.covers → d = c := by
  obtain ⟨front, rest, rfl⟩ := List.append_of_mem hc
  obtain ⟨hother, -⟩ := List.nodup_cons.1 (List.nodup_middle.1 hcs)
  have hcount : ((front ++ c :: rest).flatMap Candidate.covers).count m =
      1 + ((front ++ rest).flatMap Candidate.covers).count m := by
    rw [(List.perm_middle.flatMap_right _).count_eq, List.flatMap_cons, List.count_append,
      List.count_eq_one_of_mem hcovers hm]
  rw [hcount, Nat.add_eq_left, List.count_eq_zero, List.mem_flatMap]
  constructor
  · intro hnone d hd hmd
    rcases List.mem_cons.1 (List.perm_middle.mem_iff.1 hd) with rfl | hd
    · rfl
    · exact absurd ⟨d, hd, hmd⟩ hnone
  · rintro halone ⟨d, hd, hmd⟩
    have hdc := halone d (List.perm_middle.mem_iff.2 (List.mem_cons_of_mem c hd)) hmd
    exact hother (hdc ▸ hd)

end Counts

section Cover

variable {primes : List Cube} {on : List UInt32}

theorem mem_covers_of_mem_candidates {c : Candidate} (hc : c ∈ candidates primes on) :
    c.cube ∈ primes ∧ ∀ m, m ∈ c.covers ↔ m ∈ c.cube.minterms ∧ m ∈ on := by
  obtain ⟨p, hp, rfl⟩ := List.mem_map.1 hc
  refine ⟨hp, ?_⟩
  intro m
  rw [List.mem_filter, HashSet.contains_iff_mem, HashSet.mem_ofList, List.contains_iff_mem]

/-- The candidates that alone cover some assignment. -/
def essentials (primes : List Cube) (on : List UInt32) : List Candidate :=
  (candidates primes on).filter (·.isEssential (coverCounts (candidates primes on)))

/-- The assignments that no essential candidate covers, from which the queue starts. -/
def remaining (primes : List Cube) (on : List UInt32) : HashSet UInt32 :=
  (essentials primes on).foldl uncover (.ofList on)

/-- The other candidates that cover something, as they are first queued. -/
def queued (primes : List Cube) (on : List UInt32) : List Scored :=
  (((candidates primes on).filter fun c => !c.isEssential (coverCounts (candidates primes on))).map fun c =>
    Scored.mk (c.gain (remaining primes on)) c).filter (0 < ·.gain)

/-- The essential candidates and those that the queue takes. The cover consists of their primes, in ascending
order. -/
def selected (primes : List Cube) (on : List UInt32) : List Candidate :=
  essentials primes on ++ takeBest (.ofList (queued primes on)) (remaining primes on)

theorem cover_eq_selected : cover primes on =
    ((selected primes on).map Candidate.cube).mergeSort fun c d => (compare c d).isLE := by
  simp only [cover, List.partition_eq_filter_filter]
  rfl

theorem mem_candidates_of_mem_selected {c : Candidate} (hc : c ∈ selected primes on) :
    c ∈ candidates primes on := by
  rcases List.mem_append.1 hc with hc | hc
  · exact (List.mem_filter.1 hc).1
  · obtain ⟨s, hs, rfl⟩ := mem_of_mem_takeBest hc
    obtain ⟨hs, -⟩ := List.mem_filter.1 (PriorityQueue.mem_ofList.1 hs)
    obtain ⟨d, hd, rfl⟩ := List.mem_map.1 hs
    exact (List.mem_filter.1 hd).1

theorem nodup_candidates (hprimes : primes.Nodup) : (candidates primes on).Nodup := by
  apply List.Nodup.of_map Candidate.cube
  rw [candidates, List.map_map]
  exact hprimes.map_on fun _ _ _ _ h => h

theorem eq_of_mem_candidates {c d : Candidate} (hc : c ∈ candidates primes on) (hd : d ∈ candidates primes on)
    (hcube : c.cube = d.cube) : c = d := by
  obtain ⟨p, -, rfl⟩ := List.mem_map.1 hc
  obtain ⟨q, -, rfl⟩ := List.mem_map.1 hd
  cases hcube
  rfl

theorem nodup_selected (hprimes : primes.Nodup) : (selected primes on).Nodup := by
  rw [selected, List.nodup_append']
  refine ⟨(nodup_candidates hprimes).filter _, nodup_takeBest, ?_⟩
  intro c hessential htaken
  obtain ⟨m, hremaining, hm⟩ := exists_uncovered_of_mem_takeBest htaken
  exact (mem_foldl_uncover.1 hremaining).2 c hessential hm

/-- A cover contains no prime twice. -/
theorem nodup_cover (hprimes : primes.Nodup) : (cover primes on).Nodup := by
  rw [cover_eq_selected, List.nodup_mergeSort]
  apply (nodup_selected hprimes).map_on
  intro c hc d hd hcube
  exact eq_of_mem_candidates (mem_candidates_of_mem_selected hc) (mem_candidates_of_mem_selected hd) hcube

theorem mem_primes_of_mem_cover {c : Cube} (hc : c ∈ cover primes on) : c ∈ primes := by
  rw [cover_eq_selected, List.mem_mergeSort, List.mem_map] at hc
  obtain ⟨c, hc, rfl⟩ := hc
  exact (mem_covers_of_mem_candidates (mem_candidates_of_mem_selected hc)).1

theorem selected_covers {c : Candidate} (hc : c ∈ candidates primes on) {m : UInt32} (hm : m ∈ c.covers) :
    ∃ d ∈ selected primes on, m ∈ d.covers := by
  have hon : m ∈ on := (((mem_covers_of_mem_candidates hc).2 m).1 hm).2
  by_cases hremaining : m ∈ remaining primes on
  · have hother : c ∉ essentials primes on := fun hessential => (mem_foldl_uncover.1 hremaining).2 c hessential hm
    have hqueued : Scored.mk (c.gain (remaining primes on)) c ∈ queued primes on := by
      refine List.mem_filter.2 ⟨List.mem_map.2 ⟨c, List.mem_filter.2 ⟨hc, ?_⟩, rfl⟩, ?_⟩
      · rw [Bool.not_eq_true', ← Bool.not_eq_true]
        exact fun hessential => hother (List.mem_filter.2 ⟨hc, hessential⟩)
      · exact decide_eq_true (gain_pos hm hremaining)
    obtain ⟨d, hd, hcovers⟩ := takeBest_covers hremaining _ (PriorityQueue.mem_ofList.2 hqueued) hm
    exact ⟨d, List.mem_append_right _ hd, hcovers⟩
  · rw [remaining, mem_foldl_uncover, HashSet.mem_ofList, List.contains_iff_mem] at hremaining
    by_cases hessential : ∃ d ∈ essentials primes on, m ∈ d.covers
    · obtain ⟨d, hd, hcovers⟩ := hessential
      exact ⟨d, List.mem_append_left _ hd, hcovers⟩
    · exact absurd ⟨hon, fun d hd hcovers => hessential ⟨d, hd, hcovers⟩⟩ hremaining

theorem exists_mem_cover {p : Cube} (hp : p ∈ primes) {m : UInt32} (hm : m ∈ p.minterms) (hon : m ∈ on) :
    ∃ c ∈ cover primes on, m ∈ c.minterms := by
  have hcandidate : Candidate.mk p (p.minterms.filter (HashSet.ofList on).contains) ∈ candidates primes on :=
    List.mem_map.2 ⟨p, hp, rfl⟩
  have hcovers := ((mem_covers_of_mem_candidates hcandidate).2 m).2 ⟨hm, hon⟩
  obtain ⟨c, hc, hcovers⟩ := selected_covers hcandidate hcovers
  refine ⟨c.cube, ?_, (((mem_covers_of_mem_candidates (mem_candidates_of_mem_selected hc)).2 m).1 hcovers).1⟩
  rw [cover_eq_selected, List.mem_mergeSort]
  exact List.mem_map.2 ⟨c, hc, rfl⟩

theorem exists_mem_on_of_mem_cover {c : Cube} (hc : c ∈ cover primes on) : ∃ m ∈ on, m ∈ c.minterms := by
  rw [cover_eq_selected, List.mem_mergeSort, List.mem_map] at hc
  obtain ⟨d, hd, rfl⟩ := hc
  have hcovers : ∃ m, m ∈ d.covers := by
    rcases List.mem_append.1 hd with hd | hd
    · obtain ⟨m, hm, -⟩ := isEssential_iff.1 (List.mem_filter.1 hd).2
      exact ⟨m, hm⟩
    · obtain ⟨m, -, hm⟩ := exists_uncovered_of_mem_takeBest hd
      exact ⟨m, hm⟩
  obtain ⟨m, hm⟩ := hcovers
  obtain ⟨hminterm, hon⟩ := ((mem_covers_of_mem_candidates (mem_candidates_of_mem_selected hd)).2 m).1 hm
  exact ⟨m, hon, hminterm⟩

theorem pairwise_cover (hprimes : primes.Nodup) : (cover primes on).Pairwise fun c d => compare c d = .lt := by
  have hnodup : (cover primes on).Nodup := nodup_cover hprimes
  rw [cover_eq_selected, List.nodup_mergeSort] at hnodup
  rw [cover_eq_selected]
  exact pairwise_lt_mergeSort hnodup

variable (hprimes : primes.Nodup) (hminterms : ∀ p ∈ primes, p.minterms.Nodup)

include hminterms in
theorem nodup_covers_of_mem_candidates {c : Candidate} (hc : c ∈ candidates primes on) : c.covers.Nodup := by
  obtain ⟨p, hp, rfl⟩ := List.mem_map.1 hc
  exact (hminterms p hp).filter _

include hprimes hminterms

/-- A prime that alone covers some assignment belongs to the cover: it is essential, and these are selected before the
queue is made. -/
theorem mem_cover_of_alone {p : Cube} (hp : p ∈ primes) {m : UInt32} (hm : m ∈ p.minterms) (hon : m ∈ on)
    (halone : ∀ q ∈ primes, m ∈ q.minterms → q = p) : p ∈ cover primes on := by
  have hcandidate : Candidate.mk p (p.minterms.filter (HashSet.ofList on).contains) ∈ candidates primes on :=
    List.mem_map.2 ⟨p, hp, rfl⟩
  have hcovers := ((mem_covers_of_mem_candidates hcandidate).2 m).2 ⟨hm, hon⟩
  have hnodup := nodup_covers_of_mem_candidates hminterms hcandidate
  have hcount := (count_covers_eq_one_iff (nodup_candidates hprimes) hnodup hcandidate hcovers).2 fun d hd hmd => by
    obtain ⟨hcube, hd'⟩ := mem_covers_of_mem_candidates hd
    exact eq_of_mem_candidates hd hcandidate (halone d.cube hcube ((hd' m).1 hmd).1)
  rw [cover_eq_selected, List.mem_mergeSort]
  refine List.mem_map.2 ⟨_, List.mem_append_left _ (List.mem_filter.2 ⟨hcandidate, ?_⟩), rfl⟩
  exact isEssential_iff.2 ⟨m, hcovers, hcount⟩

theorem exists_representatives_essentials : ∃ ms : List UInt32, ms.Nodup ∧
    (∀ m ∈ ms, ∃ c ∈ essentials primes on, m ∈ c.covers) ∧ ms.length = (essentials primes on).length := by
  have hcandidate : ∀ c ∈ essentials primes on, c ∈ candidates primes on := fun c hc => (List.mem_filter.1 hc).1
  have halone : ∀ c ∈ essentials primes on, ∃ m ∈ c.covers, ∀ d ∈ candidates primes on, m ∈ d.covers → d = c := by
    intro c hc
    obtain ⟨m, hm, hcount⟩ := isEssential_iff.1 (List.mem_filter.1 hc).2
    have hnodup := nodup_covers_of_mem_candidates hminterms (hcandidate c hc)
    exact ⟨m, hm, (count_covers_eq_one_iff (nodup_candidates hprimes) hnodup (hcandidate c hc) hm).1 hcount⟩
  choose! f hf hunique using halone
  refine ⟨(essentials primes on).map f, ?_, ?_, List.length_map f⟩
  · refine ((nodup_candidates hprimes).filter _).map_on fun c hc d hd heq => ?_
    exact hunique d hd c (hcandidate c hc) (heq ▸ hf c hc)
  · exact List.forall_mem_map.2 fun c hc => ⟨c, hc, hf c hc⟩

/-- There are no more primes in the cover than assignments to be covered: an essential one has an assignment of its
own, and every other one newly covers something when it is taken. -/
theorem length_cover_le : (cover primes on).length ≤ on.length := by
  obtain ⟨ms, hms, hessential, hmslength⟩ := @exists_representatives_essentials primes on hprimes hminterms
  obtain ⟨ks, hks, hremaining, hkslength⟩ :=
    @exists_representatives_takeBest (.ofList (queued primes on)) (remaining primes on)
  have hnodup : (ms ++ ks).Nodup := by
    refine List.nodup_append'.2 ⟨hms, hks, fun m hm hk => ?_⟩
    obtain ⟨c, hc, hcovers⟩ := hessential m hm
    exact (mem_foldl_uncover.1 (hremaining m hk)).2 c hc hcovers
  have hsubset : ms ++ ks ⊆ on := by
    refine List.append_subset.2 ⟨fun m hm => ?_, fun m hm => ?_⟩
    · obtain ⟨c, hc, hcovers⟩ := hessential m hm
      exact (((mem_covers_of_mem_candidates (List.mem_filter.1 hc).1).2 m).1 hcovers).2
    · have hon := (mem_foldl_uncover.1 (hremaining m hm)).1
      rwa [HashSet.mem_ofList, List.contains_iff_mem] at hon
  calc (cover primes on).length
      = (ms ++ ks).length := by
        rw [cover_eq_selected, List.length_mergeSort, List.length_map, selected, List.length_append,
          List.length_append, hmslength, hkslength]
    _ ≤ on.length := (List.subperm_of_subset hnodup hsubset).length_le

end Cover

end BoolPoly.Karnaugh

import BoolPoly.Proofs.EquationSystem.Check
import BoolPoly.Proofs.EquationSystem.Rebuilding
import BoolPoly.Proofs.Polynomial.Grammar

namespace BoolPoly.EquationSystem

section Lines

variable {ps : List Polynomial}

/-- A text with one polynomial on each line has the texts of the polynomials as its lines, and an empty one at its
end, which is skipped when the text is read. -/
theorem splitOn_join_text (ps : List Polynomial) :
    (String.join (ps.map fun p => p.text ++ "\n")).toList.splitOn '\n' =
      (ps.map fun p => p.text.toList) ++ [[]] := by
  induction ps with
  | nil => rfl
  | cons p ps ih =>
    have hline : '\n' ∉ p.text.toList := by
      intro hmem
      rcases Polynomial.isPlain_of_mem_text hmem with h | h | h
      · exact absurd h (by decide)
      · exact absurd h (by decide)
      · exact absurd h (by decide)
    have hend : "\n".toList = ['\n'] := rfl
    rw [List.map_cons, String.join_cons, String.toList_append, String.toList_append, hend, List.append_assoc,
      List.singleton_append, List.splitOn_append_cons_self_of_not_mem hline, ih, List.map_cons, List.cons_append]

theorem isSkipped_trim_text (p : Polynomial) : isSkipped (Text.trim p.text.toList) = false := by
  obtain ⟨htight, c, cs, htext, hc⟩ := p.tight_text
  rw [htight.trim_eq, htext]
  simpa [isSkipped] using hc.ne (by decide)

theorem ofChars_trim_text {p : Polynomial} (hp : ∀ v ∈ p.vars, v < Polynomial.indexBound) :
    Polynomial.ofChars (Text.trim p.text.toList) = .ok p := by
  rw [p.tight_text.1.trim_eq, Polynomial.ofChars_text hp]

theorem lt_indexBound_of_countable {p : Polynomial} (hp : p.Countable) : ∀ v ∈ p.vars, v < Polynomial.indexBound :=
  fun v hv => Nat.lt_of_succ_lt (hp v hv)

/-- A text with one polynomial on each line is read as the system of these polynomials, added in the order of the
lines. Each line is read as its own polynomial. -/
theorem ofText_join (hps : ∀ p ∈ ps, p.Countable) :
    ofText (String.join (ps.map fun p => p.text ++ "\n")) = .ok (ofPolynomials ps) := by
  rw [ofText, splitOn_join_text]
  have hreadable : ∀ line ∈ (ps.map (fun p : Polynomial => p.text.toList) ++ [[]]).map some, Readable line := by
    intro line hline
    obtain ⟨cs, hcs, rfl⟩ := List.mem_map.1 hline
    rcases List.mem_append.1 hcs with hcs | hcs
    · obtain ⟨p, hp, rfl⟩ := List.mem_map.1 hcs
      exact ⟨_, rfl, .inr ⟨p, ofChars_trim_text (lt_indexBound_of_countable (hps p hp)), hps p hp⟩⟩
    · obtain rfl := List.mem_singleton.1 hcs
      exact ⟨[], rfl, .inl rfl⟩
  have hline : ∀ p ∈ ps, linePolynomial? (some p.text.toList) = some p := by
    intro p hp
    rw [linePolynomial?, Option.bind_eq_bind, Option.bind_some]
    simp only [isSkipped_trim_text, ofChars_trim_text (lt_indexBound_of_countable (hps p hp)), Except.toOption,
      Bool.false_eq_true, if_false]
  have hpolynomials :
      ((ps.map (fun p : Polynomial => p.text.toList) ++ [[]]).map some).filterMap linePolynomial? = ps := by
    have hlast : ([[]].map some).filterMap linePolynomial? = [] := rfl
    rw [List.map_append, List.filterMap_append, hlast, List.append_nil, List.map_map, List.filterMap_map]
    exact (List.filterMap_congr hline).trans List.filterMap_some
  obtain ⟨s, hs⟩ := ofLines_isOk_iff.2 hreadable
  rw [hs, ofLines_ok hs, hpolynomials]

end Lines

section Bytes

/-- The bytes of a character that is no line feed are none either: those of a longer character are all beyond the
range of line feeds. -/
theorem lineFeed_not_mem_utf8EncodeChar {c : Char} (hc : c ≠ '\n') : 0x0A ∉ String.utf8EncodeChar c := by
  have hvalue : c.val.toNat ≠ 10 := fun h => hc (Char.ext (UInt32.toNat_inj.1 h))
  have hne : ∀ n, n % 256 ≠ 10 → (0x0A : UInt8) ≠ UInt8.ofNat n := by
    intro n hn heq
    have htoNat := congrArg UInt8.toNat heq
    rw [UInt8.toNat_ofNat'] at htoNat
    exact hn htoNat.symm
  intro hmem
  unfold String.utf8EncodeChar at hmem
  dsimp only at hmem
  -- a byte of a longer character has its highest bit set
  split at hmem
  · exact hne _ (by omega) (List.mem_singleton.1 hmem)
  · split at hmem
    · simp only [List.mem_cons, List.not_mem_nil, or_false] at hmem
      rcases hmem with h | h
      all_goals exact hne _ (by omega) h
    · split at hmem
      · simp only [List.mem_cons, List.not_mem_nil, or_false] at hmem
        rcases hmem with h | h | h
        all_goals exact hne _ (by omega) h
      · simp only [List.mem_cons, List.not_mem_nil, or_false] at hmem
        rcases hmem with h | h | h | h
        all_goals exact hne _ (by omega) h

theorem splitOn_append_of_not_mem {separator : UInt8} {front rest : List UInt8} (h : separator ∉ front) :
    (front ++ rest).splitOn separator = (rest.splitOn separator).modifyHead (front ++ ·) := by
  obtain ⟨part, parts, hparts⟩ := List.exists_cons_of_ne_nil (List.splitOn_ne_nil separator rest)
  rw [hparts, List.modifyHead_cons]
  induction front with
  | nil => exact hparts
  | cons b front ih =>
    obtain ⟨hb, hfront⟩ := not_or.1 (mt List.mem_cons.2 h)
    have hne : ¬(b == separator) = true := fun heq => hb (beq_iff_eq.1 heq).symm
    rw [List.cons_append, List.splitOn_cons_eq_if_modifyHead, if_neg hne, ih hfront]
    rfl

/-- The lines of the bytes of a text are the bytes of its lines, so that a text may be cut into lines before it is
decoded. -/
theorem splitOn_flatMap_utf8EncodeChar (cs : List Char) :
    (cs.flatMap String.utf8EncodeChar).splitOn 0x0A = (cs.splitOn '\n').map (·.flatMap String.utf8EncodeChar) := by
  induction cs with
  | nil => rfl
  | cons c cs ih =>
    by_cases hc : c = '\n'
    · subst hc
      have hencode : String.utf8EncodeChar '\n' = [0x0A] := by decide
      rw [List.flatMap_cons, hencode, List.singleton_append, List.splitOn_cons_eq_if_modifyHead,
        if_pos (by decide), List.splitOn_cons_eq_if_modifyHead, if_pos (by decide), ih]
      rfl
    · obtain ⟨part, parts, hparts⟩ := List.exists_cons_of_ne_nil (List.splitOn_ne_nil '\n' cs)
      rw [List.flatMap_cons, splitOn_append_of_not_mem (lineFeed_not_mem_utf8EncodeChar hc), ih,
        List.splitOn_cons_eq_if_modifyHead, if_neg (by simpa using hc), hparts]
      rfl

theorem decodeLine_flatMap_utf8EncodeChar (cs : List Char) :
    decodeLine (cs.flatMap String.utf8EncodeChar) = some cs := by
  have hbytes : (⟨(cs.flatMap String.utf8EncodeChar).toArray⟩ : ByteArray) = (String.ofList cs).toByteArray := by
    rw [String.toByteArray_ofList, List.utf8Encode, ← List.data_toByteArray]
  have hvalid := (String.ofList cs).isValidUTF8
  have hdecode : String.fromUTF8? (String.ofList cs).toByteArray = some (String.ofList cs) := dif_pos hvalid
  rw [decodeLine, hbytes, hdecode, Option.map_some, String.toList_ofList]

/-- Reading a text as bytes is reading the text: no byte of a longer character looks like the end of a line. -/
theorem ofBytes_toUTF8 (s : String) : ofBytes s.toUTF8.data.toList = ofText s := by
  have hbytes : s.toUTF8.data.toList = s.toList.flatMap String.utf8EncodeChar := by
    rw [String.toUTF8, ← String.utf8Encode_toList, List.utf8Encode, List.toList_data_toByteArray]
  rw [ofBytes, decodeLines, hbytes, splitOn_flatMap_utf8EncodeChar, List.map_map, ofText]
  exact congrArg ofLines (List.map_congr_left fun cs _ => decodeLine_flatMap_utf8EncodeChar cs)

end Bytes

/-- Writing a reachable system and reading the text, as characters or as bytes, gives the system back: the same
equations in the same order, the same facts and the same flag, whether the system is contradictory or not. Only room
for variables that do not occur may be lost. The number of variables of a reachable system fits a 32-bit word, so that
every line that is written can also be read. -/
theorem Reachable.ofText_text {s : EquationSystem} (hs : s.Reachable) :
    ∃ t, ofText s.text = .ok t ∧ ofBytes s.text.toUTF8.data.toList = .ok t ∧ t.equations = s.equations ∧
      t.values = s.values ∧ t.replacements = s.replacements ∧ t.consistent = s.consistent ∧
      t.numVars ≤ s.numVars := by
  have hvars : ∀ p ∈ s.polynomials, ∀ v ∈ p.vars, v < s.numVars := fun p hp v hv =>
    lt_of_mem_polynomials hs.valid hp hv
  have hread : ofText s.text = .ok (ofPolynomials s.polynomials) :=
    ofText_join fun p hp => hs.countable (hvars p hp)
  obtain ⟨hequations, hvalues, hreplacements, hconsistent⟩ :=
    hs.valid.consistsOf.agree hs.valid.consistsOf_ofPolynomials
  exact ⟨_, hread, (ofBytes_toUTF8 _).trans hread, hequations, hvalues, hreplacements, hconsistent,
    numVars_ofPolynomials_le_iff.2 hvars⟩

/-- A contradictory system with an equation, a value, a replacement and room for variables that do not occur. -/
theorem Reachable.ofText_text_contradicted :
    let s := ((((ofPolynomials [.sum [.ofVars [0, 1], .ofVar 2], .one]).learn (.sum [.ofVars [7, 8]])).2.add
      (.sum [.ofVar 3, .one])).2.add (.sum [.ofVar 4, .ofVar 5, .one])).2
    s.Reachable ∧
    ∃ t, ofText s.text = .ok t ∧ ofBytes s.text.toUTF8.data.toList = .ok t ∧ t.equations = s.equations ∧
      t.values = s.values ∧ t.replacements = s.replacements ∧ t.consistent = s.consistent ∧
      t.numVars ≤ s.numVars := by
  intro s
  let before := ((ofPolynomials [.sum [.ofVars [0, 1], .ofVar 2], .one]).learn (.sum [.ofVars [7, 8]])).2
  have hbefore : before.Reachable := (reachable_ofPolynomials (by decide)).learn (by decide)
  have hs : s.Reachable := (hbefore.add (by decide)).add (by decide)
  exact ⟨hs, hs.ofText_text⟩

end BoolPoly.EquationSystem

import ViewLogic.Backend.SmtLib
import ViewLogic.Proofs.LocalErrors

/-!
# Answers stay with their obligations

Only the entries that could be built are answered, and the answers are then dealt out to all entries
in order. There is one answer for each built entry, in the order of the entries, whether the work is
done by one worker or by many. So no entry takes the answer of another one, and none is left without
an answer. Work that ends at a failure ends with the first one in the order of the entries.
-/

namespace ViewLogic

namespace Dispatch

/-- Work that ends at a failure ends with the first one. -/
theorem collect_eq_error {ε α : Type} {before after : List (Except ε α)} {e : ε}
    (h : ∀ r ∈ before, ∃ a, r = .ok a) : collect true (before ++ .error e :: after) = .error e := by
  induction before with
  | nil => rfl
  | cons r before ih =>
    obtain ⟨⟨a, rfl⟩, hbefore⟩ := List.forall_mem_cons.mp h
    rw [List.cons_append, collect, ih hbefore]
    rfl

end Dispatch

namespace Backend

variable {T α β : Type} {f : α → Except Error β}

/-- What could be built of two lists of entries is what could be built of each. -/
theorem built_append (entries entries' : List (String × Except Error α)) :
    built (entries ++ entries') = built entries ++ built entries' :=
  List.filterMap_append

/-- If a function fails on a built entry, then there is a first one on which it does. -/
theorem exists_first_failure {entries : List (String × Except Error α)}
    (h : ∃ o ∈ built entries, ∃ err, f o = .error err) :
    ∃ before name o after err, entries = before ++ (name, .ok o) :: after ∧
      (∀ o' ∈ built before, ∃ r, f o' = .ok r) ∧ f o = .error err := by
  induction entries with
  | nil =>
    obtain ⟨o, ho, -⟩ := h
    cases ho
  | cons entry entries ih =>
    obtain ⟨name, unbuilt | o⟩ := entry
    · obtain ⟨before, name', o, after, err, rfl, hbefore, herr⟩ := ih h
      exact ⟨(name, .error unbuilt) :: before, name', o, after, err, rfl, hbefore, herr⟩
    · cases hfirst : f o with
      | error err =>
        refine ⟨[], name, o, entries, err, rfl, fun o' ho' => ?_, hfirst⟩
        cases ho'
      | ok r =>
        have hlater : ∃ o ∈ built entries, ∃ err, f o = .error err := by
          obtain ⟨o', ho', err, herr⟩ := h
          rcases List.mem_cons.mp (show o' ∈ o :: built entries from ho') with rfl | hmem
          · rw [hfirst] at herr
            cases herr
          · exact ⟨o', hmem, err, herr⟩
        obtain ⟨before, name', o', after, err, rfl, hbefore, herr⟩ := ih hlater
        refine ⟨(name, .ok o) :: before, name', o', after, err, rfl, ?_, herr⟩
        exact List.forall_mem_cons.mpr ⟨⟨r, hfirst⟩, hbefore⟩

/-- Answers stay with their entries, however the work is spread. If no failure ends the work, or
nothing fails, then every entry keeps its name and its place, with the error for which it could not
be built or else the response to its own obligation; there are as many answers to deal out as built
entries. If a failure ends the work and some response fails, then the work ends with the error of
the first obligation in the order of the entries whose response fails. -/
theorem answers_stay_aligned {pool : Pool} (hpool : pool.InOrder) (b : Backend T) (mode : Mode)
    (dispatch : Dispatch) (entries : List (String × Except Error Obligation)) :
    (dispatch.failFast = false ∨ (∀ o ∈ built entries, ∃ r, b.respond mode o = .ok r) →
        b.solveOn pool mode dispatch entries =
            .ok (entries.map fun e => (e.1, e.2 >>= b.respond mode)) ∧
          ∃ answers, dispatch.runOn pool (b.respond mode) (built entries) = .ok answers ∧
            answers.length = (built entries).length) ∧
      (dispatch.failFast = true → (∃ o ∈ built entries, ∃ err, b.respond mode o = .error err) →
        ∃ before name o after err, entries = before ++ (name, .ok o) :: after ∧
          (∀ o' ∈ built before, ∃ r, b.respond mode o' = .ok r) ∧
          b.respond mode o = .error err ∧ b.solveOn pool mode dispatch entries = .error err) := by
  have hrun := Dispatch.runOn_eq_collect hpool dispatch (b.respond mode) (built entries)
  constructor
  · intro hgathered
    have hall : dispatch.runOn pool (b.respond mode) (built entries) =
        .ok ((built entries).map (b.respond mode)) := by
      rw [hrun]
      refine Dispatch.collect_eq_ok (hgathered.imp_right fun hok r hr => ?_)
      obtain ⟨o, ho, rfl⟩ := List.mem_map.mp hr
      exact hok o ho
    refine ⟨?_, _, hall, List.length_map _⟩
    rw [← align_map_built]
    exact bind_eq_ok.mpr ⟨_, hall, rfl⟩
  · intro hfast hfails
    obtain ⟨before, name, o, after, err, rfl, hbefore, herr⟩ := exists_first_failure hfails
    refine ⟨before, name, o, after, err, rfl, hbefore, herr, ?_⟩
    have hanswers : (built (before ++ (name, .ok o) :: after)).map (b.respond mode) =
        (built before).map (b.respond mode) ++
          .error err :: (built after).map (b.respond mode) := by
      rw [built_append, List.map_append, ← herr]
      rfl
    have hended : dispatch.runOn pool (b.respond mode) (built (before ++ (name, .ok o) :: after)) =
        .error err := by
      rw [hrun, hfast, hanswers]
      refine Dispatch.collect_eq_error fun r hr => ?_
      obtain ⟨o', ho', rfl⟩ := List.mem_map.mp hr
      exact hbefore o' ho'
    rw [solveOn, hended]
    rfl

/-- Two workers take one half of the obligations each. An entry that could not be built stands
between the built ones, of which the second has no translation: its failure stays in its place, or
it ends the work. -/
theorem answers_stay_aligned_halves :
    let pool : Pool := ⟨2, fun _ f items =>
      .ok ((items.take (items.length / 2)).map f ++ (items.drop (items.length / 2)).map f)⟩
    let good : Obligation := ⟨"m_C0", .lit true, .lit true, .lit true⟩
    let bad : Obligation := ⟨"m_C2", .sym "s" [], .lit true, .lit true⟩
    let unbuilt : Error := .unboundVar "x"
    let failure : Error := .untranslatable "symbolic term %\x7bs\x7d has no SMT-LIB translation"
    let formula : Response String := .combined "(and true true (not true))"
    let entries : List (String × Except Error Obligation) :=
      [("m_C0", .ok good), ("m_C1", .error unbuilt), ("m_C2", .ok bad), ("m_C3", .ok good)]
    smtLib.solveOn pool .combine ⟨none, false⟩ entries =
        .ok [("m_C0", .ok formula), ("m_C1", .error unbuilt), ("m_C2", .error failure),
          ("m_C3", .ok formula)] ∧
      smtLib.solveOn pool .combine ⟨none, true⟩ entries = .error failure := by
  intro pool good bad unbuilt failure formula entries
  have hpool : pool.InOrder := by
    intro α β workers f items _
    exact congrArg Except.ok (by rw [← List.map_append, List.take_append_drop])
  have hgood : smtLib.respond .combine good = .ok formula := rfl
  have hbad : smtLib.respond .combine bad = .error failure := rfl
  constructor
  · obtain ⟨hkept, -⟩ := answers_stay_aligned hpool smtLib .combine ⟨none, false⟩ entries
    rw [(hkept (.inl rfl)).1, ← hgood, ← hbad]
    rfl
  · obtain ⟨-, hended⟩ := answers_stay_aligned hpool smtLib .combine ⟨none, true⟩ entries
    obtain ⟨before, name, o, after, err, hsplit, -, herr, hsolve⟩ :=
      hended rfl ⟨bad, by simp [entries, built, Except.toOption], failure, hbad⟩
    have ho : o ∈ built entries := by simp [hsplit, built, Except.toOption]
    have hcases : o = good ∨ o = bad := by
      simpa [entries, built, Except.toOption, or_comm] using ho
    rcases hcases with rfl | rfl
    · rw [hgood] at herr
      cases herr
    · rw [hbad] at herr
      cases herr
      exact hsolve

end Backend

end ViewLogic

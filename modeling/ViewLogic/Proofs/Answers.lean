import ViewLogic.Proofs.Modelling
import ViewLogic.Verification

/-!
# What a report vouches for

Answers stay with their obligations: the answer of an entry is its error, or the response to its
obligation. So a report in which everything is proved has a response to every obligation of every
triple, and its verdict is that no state refutes the obligation.
-/

namespace ViewLogic

variable {T : Type}

/-- Workers can be started, and results are in the order of the items. -/
def Pool.InOrder (pool : Pool) : Prop :=
  ∀ {α β : Type} (workers : Nat) (f : α → β) (items : List α), 2 ≤ workers →
    pool.map workers f items = .ok (items.map f)

/-- A single worker keeps the order of the items. -/
theorem Pool.single_inOrder : Pool.single.InOrder := fun _ _ _ _ => rfl

namespace Dispatch

/-- What is gathered is every result in its place. -/
theorem eq_of_collect_eq_ok {ε α : Type} {failFast : Bool} {results gathered : List (Except ε α)}
    (h : collect failFast results = .ok gathered) : gathered = results := by
  induction results generalizing gathered with
  | nil =>
    cases h
    rfl
  | cons r rest ih =>
    cases r with
    | ok a =>
      obtain ⟨gathered', hrest, rfl⟩ := map_eq_ok.mp h
      rw [ih hrest]
    | error e =>
      rw [collect] at h
      split at h
      · cases h
      · obtain ⟨gathered', hrest, rfl⟩ := map_eq_ok.mp h
        rw [ih hrest]

/-- Whichever way work is spread, the results are gathered in the order of the items. -/
theorem runOn_eq_collect {α β : Type} {pool : Pool} (hpool : pool.InOrder) (d : Dispatch)
    (f : α → Except Error β) (items : List α) :
    d.runOn pool f items = collect d.failFast (items.map f) := by
  unfold runOn
  dsimp only
  split
  next hempty =>
    rw [List.isEmpty_iff.mp hempty]
    rfl
  next hnonempty =>
    split
    next => rfl
    next hspread =>
      have hlength : items.length ≠ 0 := by simpa using hnonempty
      rw [hpool _ f items (by omega)]

end Dispatch

namespace Backend

/-- The answers to the built entries go back to their own entries. -/
theorem align_map_built {α β : Type} (f : α → Except Error β)
    (entries : List (String × Except Error α)) :
    align entries ((built entries).map f) = entries.map fun e => (e.1, e.2 >>= f) := by
  induction entries with
  | nil => rfl
  | cons entry entries ih =>
    obtain ⟨name, built | o⟩ := entry
    · exact congrArg ((name, .error built) :: ·) ih
    · exact congrArg ((name, f o) :: ·) ih

/-- A successful run has one answer for each entry. -/
theorem solveOn_eq_ok {pool : Pool} (hpool : pool.InOrder) {b : Backend T} {mode : Mode}
    {dispatch : Dispatch} {entries : List (String × Except Error Obligation)}
    {answers : List (String × Except Error (Response T))}
    (h : b.solveOn pool mode dispatch entries = .ok answers) :
    answers = entries.map fun e => (e.1, e.2 >>= b.respond mode) := by
  obtain ⟨results, hrun, h⟩ := bind_eq_ok.mp h
  cases h
  rw [Dispatch.runOn_eq_collect hpool] at hrun
  rw [Dispatch.eq_of_collect_eq_ok hrun, align_map_built]

end Backend

/-- An answer counts as proved only with a verdict, and only if that verdict is unsatisfiable. -/
theorem Outcome.ofAnswer_eq_proved_iff {answer : Except Error (Response T)} :
    ofAnswer answer = proved ↔ ∃ r, answer = .ok r ∧ r.verdict? = some .unsat := by
  cases answer with
  | error e => simp [ofAnswer]
  | ok r =>
    simp only [ofAnswer, Except.ok.injEq, exists_eq_left']
    split <;> simp_all

/-- In a report everything is proved exactly if there is no diagnostic and every answer is that no
state refutes its obligation. -/
theorem Report.allProved_iff {r : Report T} :
    r.allProved = true ↔ r.diagnostics = [] ∧
      ∀ answer ∈ r.responses, ∃ response, answer.2 = .ok response ∧
        response.verdict? = some .unsat := by
  rw [allProved, decide_eq_true_iff]
  simp only [summary, countOutcome, List.length_eq_zero_iff, List.countP_eq_length,
    decide_eq_true_eq, Outcome.ofAnswer_eq_proved_iff]

namespace Script

/-- What the obligations of a script are built from, unless a variable is declared twice. -/
def context (s : Script) (semantics : Semantics) (options : Options) :
    Except Error Obligation.Context := do
  let globals ← Scope.ofDecls s.globals
  let locals ← Scope.ofDecls s.locals
  let scope ← globals.merge locals
  .ok ⟨globals, scope, s.definitions, semantics, options⟩

variable {s : Script} {semantics : Semantics} {options : Options}

/-- A model without diagnostics takes its context from the script. -/
theorem context_eq_ok {m : Model} {scope : Scope} (h : s.model options = .ok m)
    (hclean : m.diagnostics = []) (hscope : m.scope = .ok scope) :
    s.context semantics options = .ok ⟨m.globals, scope, m.definitions, semantics, options⟩ := by
  obtain ⟨hglobals, hlocals, hdefinitions, -⟩ := model_eq_ok h hclean
  rw [hdefinitions]
  refine bind_eq_ok.mpr ⟨m.globals, hglobals, ?_⟩
  refine bind_eq_ok.mpr ⟨m.locals, hlocals, ?_⟩
  exact bind_eq_ok.mpr ⟨scope, hscope, rfl⟩

/-- In a proved script, every triple of the model has its obligations, and each of them is answered
with the verdict that no state refutes it. -/
theorem answered_of_allProved {pool : Pool} (hpool : pool.InOrder) {b : Backend T} {r : Report T}
    (h : s.verifyOn pool semantics options b = .ok r) (hproved : r.allProved = true) :
    ∃ m ctx, s.model options = .ok m ∧ m.diagnostics = [] ∧
      s.context semantics options = .ok ctx ∧ ctx.definitions = m.definitions ∧
      ∀ t ∈ m.triples.values, ∃ os, ctx.obligations t = .ok os ∧
        ∀ o ∈ os, ∃ response, b.respond options.mode o = .ok response ∧
          response.verdict? = some .unsat := by
  obtain ⟨m, hm, h⟩ := bind_eq_ok.mp h
  obtain ⟨entries, hentries, h⟩ := bind_eq_ok.mp h
  obtain ⟨answers, hanswers, h⟩ := bind_eq_ok.mp h
  cases h
  obtain ⟨-, -, hm⟩ := bind_eq_ok.mp hm
  obtain ⟨scope, hscope, hentries⟩ := bind_eq_ok.mp hentries
  cases hentries
  obtain ⟨hclean, hall⟩ := Report.allProved_iff.mp hproved
  obtain rfl := Backend.solveOn_eq_ok hpool hanswers
  refine ⟨m, _, hm, hclean, context_eq_ok hm hclean hscope, rfl, fun t ht => ?_⟩
  generalize hos : Obligation.Context.obligations _ t = result
  have hentry (e : String × Except Error Obligation) (he : e ∈ t.named result) :
      ∃ response, e.2 >>= b.respond options.mode = .ok response ∧
        response.verdict? = some .unsat :=
    hall _ (List.mem_map.mpr ⟨e, List.mem_flatMap.mpr ⟨t, ht, hos ▸ he⟩, rfl⟩)
  cases result with
  | error e =>
    obtain ⟨_, herror, -⟩ := hentry (t.name, .error e) (List.mem_singleton_self _)
    cases herror
  | ok os =>
    exact ⟨os, rfl, fun o ho => hentry (o.name, .ok o) (List.mem_map.mpr ⟨o, ho, rfl⟩)⟩

end Script

end ViewLogic

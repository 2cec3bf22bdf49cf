import ViewLogic.Backend.Propagation
import ViewLogic.Proofs.Answers
import ViewLogic.Proofs.DeclaredNames

/-!
# Errors stay local

Only a variable that is declared twice stops the modelling of a script. What is wrong with a
prototype, a definition or a method becomes a diagnostic, and an obligation that cannot be built
keeps its error as its answer. Constant propagation answers every obligation, so it never gives a
run a failure to end at: a run ends early because no worker is left or a variable is declared twice,
and for no other reason.
-/

namespace ViewLogic

/-! ### Runs without failures -/

/-- Work in which nothing fails is gathered whole, and so is work in which no failure ends it. -/
theorem Dispatch.collect_eq_ok {ε α : Type} {failFast : Bool} {results : List (Except ε α)}
    (h : failFast = false ∨ ∀ r ∈ results, ∃ a, r = .ok a) :
    collect failFast results = .ok results := by
  induction results with
  | nil => rfl
  | cons r rest ih =>
    have hrest : collect failFast rest = .ok rest :=
      ih (h.imp_right fun hall r hr => hall r (List.mem_cons_of_mem _ hr))
    cases r with
    | ok a =>
      rw [collect, hrest]
      rfl
    | error e =>
      have hkept : failFast = false := by
        refine h.resolve_right fun hall => ?_
        obtain ⟨a, ha⟩ := hall _ List.mem_cons_self
        cases ha
      rw [collect, hrest, hkept]
      rfl

/-- Work in which nothing fails comes to its end, also where one failure would end it. -/
theorem Dispatch.runOn_of_forall_ok {α β : Type} {pool : Pool} (hpool : pool.InOrder)
    (d : Dispatch) {f : α → Except Error β} {items : List α} (h : ∀ a ∈ items, ∃ b, f a = .ok b) :
    d.runOn pool f items = .ok (items.map f) := by
  rw [runOn_eq_collect hpool]
  refine collect_eq_ok (.inr fun r hr => ?_)
  obtain ⟨a, ha, rfl⟩ := List.mem_map.mp hr
  exact h a ha

namespace Backend

/-- Constant propagation has a response to every obligation, in every mode. -/
theorem exists_respond_propagation (mode : Mode) (o : Obligation) :
    ∃ r, propagation.respond mode o = .ok r := by
  cases mode <;> exact ⟨_, rfl⟩

/-- Constant propagation never ends a run, however a pool that keeps the order spreads the work. -/
theorem exists_solveOn_propagation {pool : Pool} (hpool : pool.InOrder) (mode : Mode)
    (d : Dispatch) (entries : List (String × Except Error Obligation)) :
    ∃ answers, propagation.solveOn pool mode d entries = .ok answers :=
  have hrun := d.runOn_of_forall_ok hpool fun o (_ : o ∈ built entries) =>
    exists_respond_propagation mode o
  ⟨_, bind_eq_ok.mpr ⟨_, hrun, rfl⟩⟩

end Backend

/-! ### What is reported -/

/-- A check gives a diagnostic exactly if it fails, and then one with its error. -/
theorem Diagnostic.mem_ofCheck {context : String} {check : Except Error Unit} {d : Diagnostic} :
    d ∈ ofCheck context check ↔ ∃ e, check = .error e ∧ d = ⟨context, e⟩ := by
  cases check <;> simp [ofCheck]

namespace Script

variable {s : Script} {options : Options}

/-- A fault is a prototype of a repeated name or a view that does not fit the prototypes. -/
theorem faults_cases {ps : Prototypes} {d : Diagnostic} (h : d ∈ s.faults ps) :
    (∃ p, d = .ofRepeated p) ∨ d.error.IsMisfit := by
  simp only [faults, List.mem_append, List.mem_map, List.mem_flatMap, Diagnostic.mem_ofCheck] at h
  rcases h with (⟨p, -, rfl⟩ | ⟨definition, -, e, he, rfl⟩) | ⟨method, -, e, he, rfl⟩
  · exact .inl ⟨p, rfl⟩
  · exact .inr (ps.failsWith_checkPattern definition.pattern e he)
  · exact .inr (ps.failsWith_checkViews method e he)

/-- No fault of a script is of an edge without a node. -/
theorem ne_missingNode_of_mem_faults {ps : Prototypes} {d : Diagnostic} (h : d ∈ s.faults ps)
    (graph edge node : String) : d.error ≠ .missingNode graph edge node := by
  intro heq
  rcases faults_cases h with ⟨p, rfl⟩ | hmisfit
  · cases heq
  · rw [heq] at hmisfit
    exact hmisfit

/-! ### What stops a run -/

/-- A script has a model, and then no name is declared twice, or modelling it fails at such a
name. -/
theorem model_cases (s : Script) (options : Options) :
    ((∃ m, s.model options = .ok m) ∧ ∀ x, ¬s.Redeclares x) ∨
      ∃ x, s.model options = .error (.duplicateVar x) ∧ s.Redeclares x := by
  rcases s.scopes_cases with ⟨⟨globals, locals, hscopes⟩, hnames⟩ | ⟨x, hscopes, hx⟩
  · exact .inl ⟨⟨_, model_eq_ok_iff.mpr ⟨globals, locals, hscopes, rfl⟩⟩, hnames⟩
  · exact .inr ⟨x, by rw [model_eq, hscopes]; rfl, hx⟩

/-- Modelling a script fails exactly if a variable is declared twice. -/
theorem model_fails_iff (s : Script) (options : Options) :
    (∃ e, s.model options = .error e) ↔ ∃ x, s.Redeclares x := by
  rcases s.model_cases options with ⟨⟨m, hm⟩, hnames⟩ | ⟨x, hmodel, hx⟩
  · exact iff_of_false (by simp [hm]) (by simpa using hnames)
  · exact iff_of_true ⟨_, hmodel⟩ ⟨x, hx⟩

/-- The obligations of the model of a script can be listed, each with its error if it has one. -/
theorem exists_obligations {m : Model} (h : s.model options = .ok m) (semantics : Semantics) :
    ∃ entries, m.obligations semantics options = .ok entries := by
  obtain ⟨globals, locals, hscopes, rfl⟩ := model_eq_ok_iff.mp h
  obtain ⟨-, -, scope, hscope⟩ := scopes_eq_ok.mp hscopes
  exact ⟨_, bind_eq_ok.mpr ⟨scope, hscope, rfl⟩⟩

/-- A run with constant propagation fails exactly if no worker is left or a variable is declared
twice, on any pool that keeps the order. -/
theorem verifyOn_propagation_fails_iff {pool : Pool} (hpool : pool.InOrder) (s : Script)
    (semantics : Semantics) (options : Options) :
    (∃ e, s.verifyOn pool semantics options .propagation = .error e) ↔
      options.dispatch.workers = some 0 ∨ ∃ x, s.Redeclares x := by
  by_cases hworkers : options.dispatch.workers = some 0
  · have hinvalid : s.verifyOn pool semantics options .propagation =
        .error (.badConfig "parallel.max_parallelism must be at least 1") := by
      rw [verifyOn, validModel, Options.validate, if_pos hworkers]
      rfl
    exact iff_of_true ⟨_, hinvalid⟩ (.inl hworkers)
  · have hvalid : s.validModel options = s.model options := by
      rw [validModel, Options.validate, if_neg hworkers]
      rfl
    rw [or_iff_right hworkers, verifyOn, hvalid]
    rcases s.model_cases options with ⟨⟨m, hm⟩, hnames⟩ | ⟨x, hmodel, hx⟩
    · obtain ⟨entries, hentries⟩ := exists_obligations hm semantics
      obtain ⟨answers, hanswers⟩ :=
        Backend.exists_solveOn_propagation hpool options.mode options.dispatch entries
      refine iff_of_false ?_ (by simpa using hnames)
      simp [hm, hentries, hanswers, bind, Except.bind]
    · refine iff_of_true ⟨.duplicateVar x, ?_⟩ ⟨x, hx⟩
      rw [hmodel]
      rfl

/-- Modelling a script fails if and only if a variable is declared twice, and then with this error.
Otherwise the first prototype of each name and the definitions that fit are kept, in order, every
method that fits has its graph, and the diagnostics are exactly what is wrong with the other parts;
none of them is of an edge without a node. So a run with constant propagation fails if and only if
no worker is left or a variable is declared twice, whatever the semantics and the other options, and
however a pool that keeps the order spreads the work. -/
theorem errors_stay_local (s : Script) (options : Options) :
    ((∃ e, s.model options = .error e) ↔ ∃ x, s.Redeclares x) ∧
    (∀ e, s.model options = .error e → ∃ x, e = .duplicateVar x ∧ s.Redeclares x) ∧
    (∀ m, s.model options = .ok m →
      (∀ name, m.prototypes.get? name = s.prototypes.find? (·.name = name)) ∧
      m.definitions = s.definitions.filter (·.fits m.prototypes) ∧
      m.diagnostics = s.faults m.prototypes ∧
      (∀ d ∈ m.diagnostics, ∀ graph edge node, d.error ≠ .missingNode graph edge node) ∧
      ∀ name, m.graphs.contains name = true ↔
        ∃ method ∈ s.methods, method.fits m.prototypes = true ∧ method.name = name) ∧
    ∀ (pool : Pool), pool.InOrder → ∀ semantics,
      (∃ e, s.verifyOn pool semantics options .propagation = .error e) ↔
        options.dispatch.workers = some 0 ∨ ∃ x, s.Redeclares x := by
  refine ⟨s.model_fails_iff options, fun e he => ?_, fun m hm => ?_, fun pool hpool semantics =>
    verifyOn_propagation_fails_iff hpool s semantics options⟩
  · rcases s.model_cases options with ⟨⟨m, hm⟩, -⟩ | ⟨x, hmodel, hx⟩
    · rw [hm] at he
      cases he
    · rw [hmodel] at he
      cases he
      exact ⟨x, rfl, hx⟩
  · obtain ⟨globals, locals, -, rfl⟩ := model_eq_ok_iff.mp hm
    refine ⟨Prototypes.get?_firstOfEach _, rfl, rfl,
      fun d hd => ne_missingNode_of_mem_faults hd, fun name => ?_⟩
    have hempty : ¬(∅ : SortedMap String Graph).contains name = true := Bool.false_ne_true
    rw [modelIn, SortedMap.contains_foldl_insert, or_iff_left hempty]
    simp only [List.mem_filter, and_assoc]

/-- A prototype of a repeated name, a definition and a method that do not fit, and a definition that
reads an undeclared variable: all are kept to their parts, also in a run that one failure would end.
The same script with its variable declared once more has no model. -/
theorem errors_stay_local_mixed :
    let held : View Var := .atom ⟨"V", [.int (.var "x")]⟩
    let shape : Pattern := .atom ⟨"V", [⟨.int, "v"⟩]⟩
    let s : Script :=
      ⟨[⟨"V", [⟨.int, "v"⟩]⟩, ⟨"V", []⟩], [⟨.int, "x"⟩], [],
        [⟨.atom ⟨"W", []⟩, none⟩, ⟨shape, some (.eq (.int (.var "v")) (.int (.var "y")))⟩],
        [⟨"bad", .done (.atom ⟨"V", []⟩)⟩, ⟨"good", .next held (.prim []) (.done held)⟩]⟩
    let twice : Script := { s with locals := s.globals }
    let options : Options := { Options.standard with dispatch := ⟨some 4, true⟩, foldNops := false }
    (∃ m, s.model options = .ok m ∧ m.patterns = [shape] ∧ m.graphs.keys = ["good"] ∧
      m.diagnostics = s.faults m.prototypes ∧ m.diagnostics.map (·.error) =
        [.unsupported "V" "view declared twice", .unknownView "W", .viewArity "V" 1 0]) ∧
    (∀ (pool : Pool), pool.InOrder → ∀ semantics e,
      s.verifyOn pool semantics options .propagation ≠ .error e) ∧
    (∀ semantics e, s.verify semantics options .propagation ≠ .error e) ∧
    ∃ x, twice.model options = .error (.duplicateVar x) ∧ twice.Redeclares x := by
  intro held shape s twice options
  obtain ⟨hfails, -, hparts, hverify⟩ := errors_stay_local s options
  have hmodel : (s.model options).map
      (fun m => (m.patterns, m.graphs.keys, m.diagnostics.map (·.error))) = .ok ([shape], ["good"],
        [.unsupported "V" "view declared twice", .unknownView "W", .viewArity "V" 1 0]) := by
    decide +kernel
  have htwice : (twice.model options).map (fun _ => ()) = .error (.duplicateVar "x") := by
    decide +kernel
  obtain ⟨m, hm, heq⟩ := map_eq_ok.mp hmodel
  obtain ⟨hpatterns, hkeys, herrors⟩ := by simpa only [Prod.mk.injEq] using heq
  have hruns (pool : Pool) (hpool : pool.InOrder) (semantics : Semantics) (e : Error) :
      s.verifyOn pool semantics options .propagation ≠ .error e := by
    intro he
    rcases (hverify pool hpool semantics).mp ⟨e, he⟩ with hworkers | hnames
    · exact absurd hworkers (by decide)
    · obtain ⟨_, hfailed⟩ := hfails.mpr hnames
      rw [hm] at hfailed
      cases hfailed
  refine ⟨⟨m, hm, hpatterns, hkeys, (hparts m hm).2.2.1, herrors⟩, hruns,
    hruns .single Pool.single_inOrder, ?_⟩
  cases htwin : twice.model options with
  | ok m' =>
    rw [htwin] at htwice
    cases htwice
  | error e =>
    obtain ⟨x, rfl, hx⟩ := (errors_stay_local twice options).2.1 e htwin
    exact ⟨x, rfl, hx⟩

end Script

end ViewLogic

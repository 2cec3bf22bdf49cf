import Mathlib.Data.List.Induction
import ViewLogic.Proofs.MethodGraphs

/-!
# The parts of a model

Once the variables of a script are declared, nothing keeps it from being modelled. A prototype of a
repeated name, a definition whose pattern does not fit the prototypes and a method with a view that
does not fit them are reported, and all else is kept. So the model can be described at once: every
part of it depends on the prototypes and on the part of the script that it comes from, and not on
what is wrong elsewhere.
-/

namespace ViewLogic

/-! ### Checks of views -/

/-- A view has no prototype, or does not fit the one it has. -/
def Error.IsMisfit : Error → Prop
  | unknownView _ | viewArity _ _ _ | typeMismatch _ _ _ => True
  | _ => False

/-- A misfit concerns one part of a script and ends nothing. -/
theorem Error.IsMisfit.severity {e : Error} (h : e.IsMisfit) : e.severity = .contained := by
  cases e <;> first | rfl | cases h

namespace Prototypes

/-- A look-up of a prototype fails with a misfit only. -/
theorem failsWith_lookup (ps : Prototypes) (name : String) (arity : Nat) :
    FailsWith Error.IsMisfit (ps.lookup name arity) := by
  unfold lookup
  split
  next =>
    rintro _ ⟨⟩
    trivial
  next =>
    split
    next => exact failsWith_ok _
    next =>
      rintro _ ⟨⟩
      trivial

/-- The types of parameters can only be refused as mismatches. -/
theorem failsWith_compare {α : Type} (l : List α) (p : α → Prop) [DecidablePred p]
    (name expected got : α → String) :
    FailsWith Error.IsMisfit (l.forM fun a =>
      if p a then .ok () else .error (.typeMismatch (name a) (expected a) (got a))) := by
  refine FailsWith.forM fun a _ => ?_
  split
  · exact failsWith_ok ()
  · rintro _ ⟨⟩
    trivial

/-- The check of a pattern fails with a misfit only. -/
theorem failsWith_checkPattern (ps : Prototypes) (p : Pattern) :
    FailsWith Error.IsMisfit (ps.checkPattern p) :=
  .forM fun c _ => (ps.failsWith_lookup c.name _).bind fun _ => failsWith_compare _ _ _ _ _

/-- The check of a view fails with a misfit only. -/
theorem failsWith_checkView (ps : Prototypes) (v : View Var) :
    FailsWith Error.IsMisfit (ps.checkView v) :=
  .forM fun a _ => (ps.failsWith_lookup a.name _).bind fun _ => failsWith_compare _ _ _ _ _

/-- The check of the views of a method fails with a misfit only. -/
theorem failsWith_checkViews (ps : Prototypes) (m : Method) :
    FailsWith Error.IsMisfit (m.checkViews ps) :=
  .forM fun v _ => ps.failsWith_checkView v

/-! ### The table of prototypes -/

/-- Adds a prototype unless there is one of its name. -/
def addFirst (ps : Prototypes) (p : Prototype) : Prototypes :=
  if ps.contains p.name then ps else ps.insert p.name p

/-- The first prototype of each name. -/
def firstOfEach (l : List Prototype) : Prototypes := l.foldl addFirst ∅

/-- Under each name stands the first prototype of that name. -/
theorem get?_firstOfEach (l : List Prototype) (x : String) :
    (firstOfEach l).get? x = l.find? (·.name = x) := by
  have hfold (ps : Prototypes) :
      (l.foldl addFirst ps).get? x = (ps.get? x).or (l.find? (·.name = x)) := by
    induction l generalizing ps with
    | nil => simp
    | cons p l ih =>
      rw [List.foldl_cons, ih, List.find?_cons]
      by_cases hx : p.name = x
      · subst hx
        cases hget : ps.get? p.name <;>
          simp [addFirst, SortedMap.contains, hget, SortedMap.get?_insert_self]
      · have hkept : (ps.addFirst p).get? x = ps.get? x := by
          unfold addFirst
          split
          · rfl
          · exact SortedMap.get?_insert_of_ne _ (Ne.symm hx) _
        simp [hkept, hx]
  exact hfold ∅

/-- The prototypes of a name that an earlier one has. -/
def repeated (l : List Prototype) : List Prototype :=
  (l.zipIdx.filter fun e => (l.take e.2).any (·.name = e.1.name)).map (·.1)

/-- A last prototype counts as repeated exactly if an earlier one has its name. -/
theorem repeated_concat (l : List Prototype) (p : Prototype) :
    repeated (l ++ [p]) = repeated l ++ if l.any (·.name = p.name) then [p] else [] := by
  have hearlier : (l.zipIdx.filter fun e => ((l ++ [p]).take e.2).any (·.name = e.1.name)) =
      l.zipIdx.filter fun e => (l.take e.2).any (·.name = e.1.name) := by
    refine List.filter_congr fun e he => ?_
    have hlt : e.2 < l.length := by simpa using List.snd_lt_of_mem_zipIdx he
    rw [List.take_append_of_le_length (by omega)]
  rw [repeated, List.zipIdx_append, List.filter_append, hearlier, List.map_append, repeated]
  congr 1
  simp only [List.zipIdx_singleton, Nat.zero_add, List.filter_cons, List.take_left, List.filter_nil]
  split <;> rfl

end Prototypes

/-! ### Steps of the modelling -/

/-- The diagnostic of a prototype whose name an earlier one has. -/
def Diagnostic.ofRepeated (p : Prototype) : Diagnostic :=
  ⟨"view " ++ p.name, .unsupported p.name "view declared twice"⟩

/-- The diagnostic of a check that failed. -/
def Diagnostic.ofCheck (context : String) : Except Error Unit → List Diagnostic
  | .ok () => []
  | .error e => [⟨context, e⟩]

/-- A check leaves no diagnostic exactly if it succeeds. -/
theorem Diagnostic.ofCheck_eq_nil_iff {context : String} {check : Except Error Unit} :
    ofCheck context check = [] ↔ check = .ok () := by
  cases check <;> simp [ofCheck]

/-- An error of one part is kept as a diagnostic and ends nothing. -/
theorem report_of_contained {e : Error} (h : e.severity = .contained) (ds : List Diagnostic)
    (context : String) : report ds context e = .ok (ds ++ [⟨context, e⟩]) := by
  rw [report, h]

/-- Whether the pattern of a definition fits the prototypes. -/
def Definition.fits (d : Definition) (ps : Prototypes) : Bool := (ps.checkPattern d.pattern).isOk

/-- Whether all views of a method fit the prototypes. -/
def Method.fits (m : Method) (ps : Prototypes) : Bool := (m.checkViews ps).isOk

/-- A definition fits exactly if the check of its pattern succeeds. -/
theorem Definition.fits_iff {d : Definition} {ps : Prototypes} :
    d.fits ps = true ↔ ps.checkPattern d.pattern = .ok () :=
  isOk_iff

/-- A method fits exactly if the check of its views succeeds. -/
theorem Method.fits_iff {m : Method} {ps : Prototypes} :
    m.fits ps = true ↔ m.checkViews ps = .ok () :=
  isOk_iff

namespace Model

variable {m : Model} {options : Options}

/-- The triples of a model with more triples, each under its name. -/
def insertTriples (triples : SortedMap String Triple) (ts : List Triple) :
    SortedMap String Triple :=
  ts.foldl (fun triples t => triples.insert t.name t) triples

/-- Adding a prototype never fails: the first one of a name is kept and any other is reported. -/
theorem addPrototype_eq (m : Model) (p : Prototype) :
    m.addPrototype p = .ok { m with
      prototypes := m.prototypes.addFirst p
      diagnostics := m.diagnostics ++
        if m.prototypes.contains p.name then [Diagnostic.ofRepeated p] else [] } := by
  rw [addPrototype, Prototypes.addFirst]
  split
  next => exact bind_eq_ok.mpr ⟨_, report_of_contained rfl _ _, rfl⟩
  next => rw [List.append_nil]

/-- The first prototype of each name is kept, and every other one is reported. -/
theorem foldlM_addPrototype (globals locals : Scope) (l : List Prototype) :
    l.foldlM addPrototype (.ofScopes globals locals) = .ok { ofScopes globals locals with
      prototypes := .firstOfEach l
      diagnostics := (Prototypes.repeated l).map .ofRepeated } := by
  induction l using List.reverseRecOn with
  | nil => rfl
  | append_singleton l p ih =>
    have hadded : Prototypes.firstOfEach (l ++ [p]) = (Prototypes.firstOfEach l).addFirst p :=
      List.foldl_append
    have hcontains : (Prototypes.firstOfEach l).contains p.name = l.any (·.name = p.name) := by
      rw [SortedMap.contains, Prototypes.get?_firstOfEach, List.isSome_find?]
    rw [List.foldlM_append, ih, hadded, Prototypes.repeated_concat, ← hcontains, List.map_append]
    refine bind_eq_ok.mpr ⟨_, rfl, bind_eq_ok.mpr ⟨_, addPrototype_eq _ p, ?_⟩⟩
    split <;> rfl

/-- A definition that fits is kept. -/
theorem addDefinition_of_ok {d : Definition} (h : m.prototypes.checkPattern d.pattern = .ok ()) :
    m.addDefinition d = .ok { m with definitions := m.definitions ++ [d] } := by
  rw [addDefinition, h]

/-- A definition that does not fit is left out and reported. -/
theorem addDefinition_of_error {d : Definition} {e : Error}
    (h : m.prototypes.checkPattern d.pattern = .error e) :
    m.addDefinition d = .ok { m with
      diagnostics := m.diagnostics ++ [⟨"constraint " ++ d.pattern.render, e⟩] } := by
  have hsevere := (m.prototypes.failsWith_checkPattern d.pattern e h).severity
  rw [addDefinition, h]
  exact bind_eq_ok.mpr ⟨_, report_of_contained hsevere _ _, rfl⟩

/-- The definitions that fit are kept in order, and every other one is reported. -/
theorem foldlM_addDefinition (m : Model) (ds : List Definition) :
    ds.foldlM addDefinition m = .ok { m with
      definitions := m.definitions ++ ds.filter (·.fits m.prototypes)
      diagnostics := m.diagnostics ++ ds.flatMap fun d =>
        Diagnostic.ofCheck ("constraint " ++ d.pattern.render)
          (m.prototypes.checkPattern d.pattern) } := by
  induction ds generalizing m with
  | nil => simp [pure, Except.pure]
  | cons d ds ih =>
    rw [List.foldlM_cons]
    cases h : m.prototypes.checkPattern d.pattern with
    | ok =>
      rw [addDefinition_of_ok h]
      refine (ih _).trans ?_
      have hfits : d.fits m.prototypes = true := Definition.fits_iff.mpr h
      simp [hfits, h, Diagnostic.ofCheck]
    | error e =>
      rw [addDefinition_of_error h]
      refine (ih _).trans ?_
      have hfits : d.fits m.prototypes = false := by rw [Definition.fits, h]; rfl
      simp [hfits, h, Diagnostic.ofCheck]

/-- A method that fits adds its graph and its triples. -/
theorem addMethod_of_ok {method : Method}
    (h : method.checkViews m.prototypes = .ok ()) :
    m.addMethod options method = .ok { m with
      graphs := m.graphs.insert method.name (method.modelledGraph options)
      triples := insertTriples m.triples
        ((method.modelledGraph options).triples m.patterns) } := by
  rw [addMethod, Method.graph_eq, h]
  rfl

/-- A method that does not fit is left out and reported. -/
theorem addMethod_of_error {method : Method} {e : Error}
    (h : method.checkViews m.prototypes = .error e) :
    m.addMethod options method = .ok { m with
      diagnostics := m.diagnostics ++ [⟨"method " ++ method.name, e⟩] } := by
  have hsevere := (m.prototypes.failsWith_checkViews method e h).severity
  rw [addMethod, Method.graph_eq, h]
  exact bind_eq_ok.mpr ⟨_, report_of_contained hsevere _ _, rfl⟩

/-- The methods that fit have their graphs and triples, and every other one is reported. -/
theorem foldlM_addMethod (m : Model) (methods : List Method) :
    methods.foldlM (addMethod options) m = .ok { m with
      graphs := (methods.filter (·.fits m.prototypes)).foldl
        (fun graphs method => graphs.insert method.name (method.modelledGraph options)) m.graphs
      triples := insertTriples m.triples ((methods.filter (·.fits m.prototypes)).flatMap
        fun method => (method.modelledGraph options).triples m.patterns)
      diagnostics := m.diagnostics ++ methods.flatMap fun method =>
        Diagnostic.ofCheck ("method " ++ method.name) (method.checkViews m.prototypes) } := by
  induction methods generalizing m with
  | nil => simp [pure, Except.pure, insertTriples]
  | cons method methods ih =>
    rw [List.foldlM_cons]
    cases h : method.checkViews m.prototypes with
    | ok =>
      rw [addMethod_of_ok h]
      refine (ih _).trans ?_
      have hfits : method.fits m.prototypes = true := Method.fits_iff.mpr h
      simp [hfits, h, Diagnostic.ofCheck, insertTriples, patterns]
    | error e =>
      rw [addMethod_of_error h]
      refine (ih _).trans ?_
      have hfits : method.fits m.prototypes = false := by rw [Method.fits, h]; rfl
      simp [hfits, h, Diagnostic.ofCheck, patterns]

end Model

namespace Script

/-- What is wrong with the parts of a script, given its prototypes: prototypes of a repeated name,
then definitions, then methods. -/
def faults (s : Script) (ps : Prototypes) : List Diagnostic :=
  (Prototypes.repeated s.prototypes).map .ofRepeated ++
    s.definitions.flatMap (fun d =>
      Diagnostic.ofCheck ("constraint " ++ d.pattern.render) (ps.checkPattern d.pattern)) ++
    s.methods.flatMap fun method =>
      Diagnostic.ofCheck ("method " ++ method.name) (method.checkViews ps)

/-- The model of a script in given scopes. -/
def modelIn (s : Script) (options : Options) (globals locals : Scope) : Model :=
  let ps := Prototypes.firstOfEach s.prototypes
  let definitions := s.definitions.filter (·.fits ps)
  let methods := s.methods.filter (·.fits ps)
  { globals := globals
    locals := locals
    prototypes := ps
    definitions := definitions
    graphs := methods.foldl (fun graphs method =>
      graphs.insert method.name (method.modelledGraph options)) ∅
    triples := Model.insertTriples ∅ (methods.flatMap fun method =>
      (method.modelledGraph options).triples (definitions.map (·.pattern)))
    diagnostics := s.faults ps }

/-- The scopes of a script, unless a variable is declared twice. -/
def scopes (s : Script) : Except Error (Scope × Scope) := do
  let globals ← Scope.ofDecls s.globals
  let locals ← Scope.ofDecls s.locals
  let _ ← globals.merge locals
  .ok (globals, locals)

/-- A script has its scopes exactly if no variable is declared twice in a scope or in both. -/
theorem scopes_eq_ok {s : Script} {globals locals : Scope} :
    s.scopes = .ok (globals, locals) ↔ Scope.ofDecls s.globals = .ok globals ∧
      Scope.ofDecls s.locals = .ok locals ∧ ∃ scope, globals.merge locals = .ok scope := by
  constructor
  · intro h
    obtain ⟨_, hglobals, h⟩ := bind_eq_ok.mp h
    obtain ⟨_, hlocals, h⟩ := bind_eq_ok.mp h
    obtain ⟨scope, hscope, h⟩ := bind_eq_ok.mp h
    cases h
    exact ⟨hglobals, hlocals, scope, hscope⟩
  · rintro ⟨hglobals, hlocals, scope, hscope⟩
    exact bind_eq_ok.mpr ⟨globals, hglobals, bind_eq_ok.mpr ⟨locals, hlocals,
      bind_eq_ok.mpr ⟨scope, hscope, rfl⟩⟩⟩

/-- A script is modelled as soon as it has its scopes. -/
theorem model_eq (s : Script) (options : Options) :
    s.model options = s.scopes.map fun scopes => s.modelIn options scopes.1 scopes.2 := by
  have hparts (globals locals : Scope) :
      (s.prototypes.foldlM Model.addPrototype (.ofScopes globals locals) >>= fun m =>
        s.definitions.foldlM Model.addDefinition m >>= fun m =>
          s.methods.foldlM (Model.addMethod options) m) =
        .ok (s.modelIn options globals locals) := by
    rw [Model.foldlM_addPrototype]
    refine bind_eq_ok.mpr ⟨_, rfl, ?_⟩
    rw [Model.foldlM_addDefinition]
    exact bind_eq_ok.mpr ⟨_, rfl, Model.foldlM_addMethod _ _⟩
  simp only [model, scopes, hparts]
  cases Scope.ofDecls s.globals with
  | error e => rfl
  | ok globals =>
    cases Scope.ofDecls s.locals with
    | error e => rfl
    | ok locals =>
      dsimp only [bind, Except.bind]
      cases globals.merge locals <;> rfl

/-- A script has a model exactly if it has its scopes, and then the one in these scopes. -/
theorem model_eq_ok_iff {s : Script} {options : Options} {m : Model} :
    s.model options = .ok m ↔ ∃ globals locals, s.scopes = .ok (globals, locals) ∧
      s.modelIn options globals locals = m := by
  rw [model_eq, map_eq_ok, Prod.exists]

/-- What a model stores under a name is a triple of this name of a method that fits. -/
theorem exists_method_of_get?_triples {s : Script} {options : Options} {m : Model}
    (h : s.model options = .ok m) {name : String} {t : Triple}
    (ht : m.triples.get? name = some t) :
    t.name = name ∧ ∃ method ∈ s.methods, method.fits m.prototypes = true ∧
      t ∈ (method.modelledGraph options).triples m.patterns := by
  obtain ⟨globals, locals, -, rfl⟩ := model_eq_ok_iff.mp h
  rcases SortedMap.exists_of_get?_foldl_insert ht with ⟨t', ht', hname, rfl⟩ | hnone
  · obtain ⟨method, hmethod, ht'⟩ := List.mem_flatMap.mp ht'
    obtain ⟨hmethod, hfits⟩ := List.mem_filter.mp hmethod
    exact ⟨hname, method, hmethod, hfits, ht'⟩
  · cases hnone

end Script

end ViewLogic

import Mathlib.Data.List.Nodup
import ViewLogic.Obligation
import ViewLogic.Proofs.ModelParts

/-!
# Methods are modelled independently

The graphs and triples of a model are stored by names that give away the method they come from. So
if methods have different names, no graph and no triple is ever replaced by that of another method,
and a look-up finds exactly what the methods that fit bring in. This says nothing about the order of
the methods, and nothing about the methods that do not fit.
-/

namespace ViewLogic

/-- The obligations of a model depend on its scopes, definitions and triples only. -/
theorem Model.obligations_congr {m m' : Model} (hglobals : m'.globals = m.globals)
    (hlocals : m'.locals = m.locals) (hdefinitions : m'.definitions = m.definitions)
    (htriples : m'.triples = m.triples) (semantics : Semantics) (options : Options) :
    m'.obligations semantics options = m.obligations semantics options := by
  simp only [obligations, scope, hglobals, hlocals, hdefinitions, htriples]

namespace Script

variable {s : Script} {options : Options} {m : Model}

/-! ### What a model stores -/

section DifferentNames

variable (hnames : (s.methods.map (·.name)).Nodup) (h : s.model options = .ok m)

include hnames h

/-- A model stores under a name the graph of the method of this name, if that fits. -/
theorem get?_graphs_iff {name : String} {g : Graph} :
    m.graphs.get? name = some g ↔ ∃ method ∈ s.methods, method.fits m.prototypes = true ∧
      method.name = name ∧ method.modelledGraph options = g := by
  obtain ⟨globals, locals, -, rfl⟩ := model_eq_ok_iff.mp h
  have hkey : ∀ a ∈ s.methods.filter (·.fits (.firstOfEach s.prototypes)),
      ∀ b ∈ s.methods.filter (·.fits (.firstOfEach s.prototypes)), b.name = a.name → b = a :=
    fun a ha b hb => List.inj_on_of_nodup_map hnames (List.mem_filter.mp hb).1
      (List.mem_filter.mp ha).1
  rw [modelIn, SortedMap.get?_foldl_insert_iff hkey]
  simp only [List.mem_filter, and_assoc]

/-- A model stores under a name the triple of the edge of this name in a method that fits. -/
theorem get?_triples_iff {name : String} {t : Triple} :
    m.triples.get? name = some t ↔ ∃ method ∈ s.methods, method.fits m.prototypes = true ∧
      t ∈ (method.modelledGraph options).triples m.patterns ∧ t.name = name := by
  obtain ⟨globals, locals, -, rfl⟩ := model_eq_ok_iff.mp h
  simp only [modelIn, Model.patterns, Model.insertTriples]
  rw [SortedMap.get?_foldl_insert_iff]
  · simp only [List.mem_flatMap, List.mem_filter, exists_eq_right_right]
    constructor
    · rintro ⟨⟨method, ⟨hmethod, hfits⟩, ht⟩, hname⟩
      exact ⟨method, hmethod, hfits, ht, hname⟩
    · rintro ⟨method, hmethod, hfits, ht, hname⟩
      exact ⟨⟨method, ⟨hmethod, hfits⟩, ht⟩, hname⟩
  · intro t ht t' ht' hname
    simp only [List.mem_flatMap, List.mem_filter] at ht ht'
    obtain ⟨method, ⟨hmethod, -⟩, ht⟩ := ht
    obtain ⟨method', ⟨hmethod', -⟩, ht'⟩ := ht'
    obtain ⟨e, -, -, he, -⟩ := Graph.mem_triples.mp ht
    rw [← hname] at he
    obtain rfl : method' = method :=
      List.inj_on_of_nodup_map hnames hmethod' hmethod (Method.name_eq_of_edge ht' he)
    exact Graph.eq_of_mem_triples ht' ht hname

/-- What a model stores under the name of a method is the graph of this method. -/
theorem get?_graphs_name_iff {method : Method} (hmethod : method ∈ s.methods) {g : Graph} :
    m.graphs.get? method.name = some g ↔
      method.fits m.prototypes = true ∧ method.modelledGraph options = g := by
  rw [get?_graphs_iff hnames h]
  constructor
  · rintro ⟨method', hmethod', hfits, hname, hg⟩
    obtain rfl := List.inj_on_of_nodup_map hnames hmethod' hmethod hname
    exact ⟨hfits, hg⟩
  · rintro ⟨hfits, hg⟩
    exact ⟨method, hmethod, hfits, rfl, hg⟩

/-- What a model stores under the name of an edge of a method is a triple of this method. -/
theorem get?_triples_edge_iff {method : Method} (hmethod : method ∈ s.methods) {name : String}
    {t : Triple} :
    (∃ g e, m.graphs.get? method.name = some g ∧ g.flow.edges.get? name = some e) ∧
        m.triples.get? name = some t ↔
      method.fits m.prototypes = true ∧
        t ∈ (method.modelledGraph options).triples m.patterns ∧ t.name = name := by
  constructor
  · rintro ⟨⟨g, e, hg, he⟩, ht⟩
    obtain ⟨-, rfl⟩ := (get?_graphs_name_iff hnames h hmethod).mp hg
    obtain ⟨method', hmethod', hfits, hmem, rfl⟩ := (get?_triples_iff hnames h).mp ht
    obtain rfl := List.inj_on_of_nodup_map hnames hmethod' hmethod (Method.name_eq_of_edge hmem he)
    exact ⟨hfits, hmem, rfl⟩
  · rintro ⟨hfits, ht, rfl⟩
    obtain ⟨e, -, -, he, -⟩ := Graph.mem_triples.mp ht
    exact ⟨⟨_, e, (get?_graphs_name_iff hnames h hmethod).mpr ⟨hfits, rfl⟩, he⟩,
      (get?_triples_iff hnames h).mpr ⟨method, hmethod, hfits, ht, rfl⟩⟩

end DifferentNames

/-! ### Two runs -/

/-- Other methods lead to a model with the same scopes, prototypes and definitions. -/
theorem exists_model_of_methods (h : s.model options = .ok m) (methods : List Method) :
    ∃ m', Script.model { s with methods := methods } options = .ok m' ∧ m'.globals = m.globals ∧
      m'.locals = m.locals ∧ m'.prototypes = m.prototypes ∧ m'.definitions = m.definitions := by
  obtain ⟨globals, locals, hscopes, rfl⟩ := model_eq_ok_iff.mp h
  exact ⟨_, model_eq_ok_iff.mpr ⟨globals, locals, hscopes, rfl⟩, rfl, rfl, rfl, rfl⟩

/-- If methods have different names, then their order changes neither the graphs nor the triples of
the model, nor the obligations, nor their order. And what a model holds of a method is all that the
model of the script without its other methods holds: under the name of the method the same graph,
and under the names of the edges of this graph the same triples. -/
theorem methods_modelled_independently (hnames : (s.methods.map (·.name)).Nodup)
    (h : s.model options = .ok m) :
    (∀ methods, methods.Perm s.methods →
      ∃ m', Script.model { s with methods := methods } options = .ok m' ∧
        m'.graphs = m.graphs ∧ m'.triples = m.triples ∧ ∀ semantics options',
          m'.obligations semantics options' = m.obligations semantics options') ∧
    ∀ method ∈ s.methods,
      ∃ m', Script.model { s with methods := [method] } options = .ok m' ∧
        (∀ name g, m'.graphs.get? name = some g ↔
          name = method.name ∧ m.graphs.get? name = some g) ∧
        ∀ name t, m'.triples.get? name = some t ↔
          (∃ g e, m.graphs.get? method.name = some g ∧ g.flow.edges.get? name = some e) ∧
            m.triples.get? name = some t := by
  refine ⟨fun methods hperm => ?_, fun method hmethod => ?_⟩
  · obtain ⟨m', hm', hglobals, hlocals, hprototypes, hdefinitions⟩ :=
      exists_model_of_methods h methods
    have hnames' : (methods.map (·.name)).Nodup := (hperm.map _).nodup_iff.mpr hnames
    have hgraphs : m'.graphs = m.graphs := by
      refine SortedMap.ext_get? fun name => Option.ext fun g => ?_
      simp only [get?_graphs_iff hnames' hm', get?_graphs_iff hnames h, hperm.mem_iff, hprototypes]
    have htriples : m'.triples = m.triples := by
      refine SortedMap.ext_get? fun name => Option.ext fun t => ?_
      simp only [get?_triples_iff hnames' hm', get?_triples_iff hnames h, hperm.mem_iff,
        hprototypes, Model.patterns, hdefinitions]
    exact ⟨m', hm', hgraphs, htriples,
      Model.obligations_congr hglobals hlocals hdefinitions htriples⟩
  · obtain ⟨m', hm', -, -, hprototypes, hdefinitions⟩ := exists_model_of_methods h [method]
    have hname : (([method] : List Method).map (·.name)).Nodup := List.nodup_singleton _
    refine ⟨m', hm', fun name g => ?_, fun name t => ?_⟩
    · rw [get?_graphs_iff hname hm', hprototypes]
      simp only [List.mem_singleton, exists_eq_left]
      constructor
      · rintro ⟨hfits, rfl, hg⟩
        exact ⟨rfl, (get?_graphs_name_iff hnames h hmethod).mpr ⟨hfits, hg⟩⟩
      · rintro ⟨rfl, hg⟩
        obtain ⟨hfits, hg⟩ := (get?_graphs_name_iff hnames h hmethod).mp hg
        exact ⟨hfits, rfl, hg⟩
    · rw [get?_triples_edge_iff hnames h hmethod, get?_triples_iff hname hm', hprototypes]
      simp only [List.mem_singleton, exists_eq_left, Model.patterns, hdefinitions]

/-- One method has the name of an edge of another one, and the first method has no graph. The other
order of the methods leads to the same triples, and the second edge of the method `a` has its triple
also where `a` is the only method. -/
theorem methods_modelled_independently_nested :
    let held : View Var := .atom ⟨"V", []⟩
    let run (p : String) : Stmt := .prim [⟨p, []⟩]
    let bad : Method := ⟨"bad", .done (.atom ⟨"W", []⟩)⟩
    let a : Method := ⟨"a", .next held (run "P") (.next .unit (run "Q") (.done held))⟩
    let nested : Method := ⟨"a_C1", .next .unit (run "R") (.done held)⟩
    let s : Script := ⟨[⟨"V", []⟩], [], [], [⟨.atom ⟨"V", []⟩, none⟩], [bad, a, nested]⟩
    ∃ m m' only, s.model .standard = .ok m ∧ m.triples.keys = ["a_C0", "a_C1", "a_C1_C0"] ∧
      Script.model { s with methods := [nested, a, bad] } .standard = .ok m' ∧
      m'.triples = m.triples ∧ Script.model { s with methods := [a] } .standard = .ok only ∧
      only.graphs.get? "bad" = none ∧
      only.triples.get? "a_C1" =
        some ⟨"a_C1", ∅, [⟨"Q", []⟩], reify held.held [.atom ⟨"V", []⟩]⟩ := by
  intro held run bad a nested s
  have hmodel : (s.model .standard).map (fun m => (m.triples.keys,
      (m.graphs.get? "a").bind (·.flow.edges.get? "a_C1"), m.triples.get? "a_C1")) =
      .ok (["a_C0", "a_C1", "a_C1_C0"], some ⟨"a_V1", "a_V2", [⟨"Q", []⟩]⟩,
        some ⟨"a_C1", ∅, [⟨"Q", []⟩], reify held.held [.atom ⟨"V", []⟩]⟩) := by
    decide +kernel
  obtain ⟨m, hm, heq⟩ := map_eq_ok.mp hmodel
  simp only [Prod.mk.injEq, Option.bind_eq_some_iff] at heq
  obtain ⟨hkeys, ⟨g, hg, he⟩, ht⟩ := heq
  have hnames : (s.methods.map (·.name)).Nodup := by decide +kernel
  obtain ⟨hpermuted, honly⟩ := methods_modelled_independently hnames hm
  obtain ⟨m', hm', -, htriples, -⟩ :=
    hpermuted [nested, a, bad] (List.reverse_perm [bad, a, nested])
  obtain ⟨only, hmodelled, hgraphs, hstored⟩ := honly a (by simp [s])
  have hother : only.graphs.get? "bad" = none := by
    refine Option.eq_none_iff_forall_ne_some.mpr fun g' hg' => ?_
    exact absurd ((hgraphs "bad" g').mp hg').1 (by decide)
  have hsecond := (hstored "a_C1" _).mpr ⟨⟨g, _, hg, he⟩, ht⟩
  exact ⟨m, m', only, hm, hkeys, hm', htriples, hmodelled, hother, hsecond⟩

end Script

end ViewLogic

import Mathlib.Data.List.Nodup
import ViewLogic.Proofs.ModelParts

/-!
# Models without diagnostics

A model without a diagnostic has every definition and has inserted the triples of the graph of every
method. Edges of methods with different names have different names, so a triple is only replaced by
that of a later method of the same name.
-/

namespace ViewLogic

namespace Script

variable {s : Script} {options : Options} {m : Model}

/-- A model without diagnostics holds all parts of the script. -/
theorem model_eq_ok (h : s.model options = .ok m) (hclean : m.diagnostics = []) :
    Scope.ofDecls s.globals = .ok m.globals ∧ Scope.ofDecls s.locals = .ok m.locals ∧
      m.definitions = s.definitions ∧
      (∀ method ∈ s.methods, method.checkViews m.prototypes = .ok ()) ∧
      m.triples = Model.insertTriples ∅ (s.methods.flatMap fun method =>
        (method.modelledGraph options).triples m.patterns) := by
  obtain ⟨globals, locals, hscopes, rfl⟩ := model_eq_ok_iff.mp h
  obtain ⟨hglobals, hlocals, -⟩ := scopes_eq_ok.mp hscopes
  obtain ⟨hfaults, hmethods⟩ := List.append_eq_nil_iff.mp hclean
  have hdefinitions := (List.append_eq_nil_iff.mp hfaults).2
  simp only [List.flatMap_eq_nil_iff, Diagnostic.ofCheck_eq_nil_iff] at hdefinitions hmethods
  refine ⟨hglobals, hlocals, ?_, hmethods, ?_⟩
  · exact List.filter_eq_self.mpr fun d hd => Definition.fits_iff.mpr (hdefinitions d hd)
  · have hkept : s.methods.filter (·.fits (.firstOfEach s.prototypes)) = s.methods :=
      List.filter_eq_self.mpr fun method hmethod => Method.fits_iff.mpr (hmethods method hmethod)
    simp only [modelIn, hkept, Model.patterns]

/-- The methods of a model without diagnostics have graphs. -/
theorem exists_graph (h : s.model options = .ok m) (hclean : m.diagnostics = []) {method : Method}
    (hmethod : method ∈ s.methods) : ∃ g, method.graph m.prototypes options = .ok g := by
  obtain ⟨-, -, -, hviews, -⟩ := model_eq_ok h hclean
  exact ⟨_, Method.graph_eq_ok.mpr ⟨hviews method hmethod, rfl⟩⟩

/-- A model without diagnostics holds the triple of an edge, unless a later method of the same name
has an edge of the same name. -/
theorem get?_triples_of_last (h : s.model options = .ok m) (hclean : m.diagnostics = [])
    {earlier later : List Method} {method : Method}
    (hsplit : s.methods = earlier ++ method :: later) {t : Triple}
    (ht : (method.modelledFlow options).HasTriple m.patterns t)
    (hlast : ∀ method' ∈ later, method'.name = method.name →
      (method'.modelledFlow options).edges.get? t.name = none) :
    m.triples.get? t.name = some t := by
  obtain ⟨-, -, -, -, htriples⟩ := model_eq_ok h hclean
  have hmem : t ∈ (method.modelledGraph options).triples m.patterns := Graph.mem_triples.mpr ht
  rw [htriples, hsplit, Model.insertTriples, List.flatMap_append, List.flatMap_cons,
    List.foldl_append, List.foldl_append, SortedMap.get?_foldl_insert_of_ne]
  · exact SortedMap.get?_foldl_insert_of_mem hmem fun t' ht' hname =>
      Graph.eq_of_mem_triples ht' hmem hname
  · intro t' ht' hname
    obtain ⟨method', hmethod', ht'⟩ := List.mem_flatMap.mp ht'
    -- A shared name gives away the name of the method.
    have hsame : method'.name = method.name := by
      obtain ⟨e, -, -, he, -⟩ := ht
      rw [← hname] at he
      exact Method.name_eq_of_edge ht' he
    obtain ⟨e', -, -, he', -⟩ := Graph.mem_triples.mp ht'
    have hnone := hlast method' hmethod' hsame
    rw [← hname] at hnone
    cases hnone.symm.trans he'

/-- If methods have different names, then a model without diagnostics holds every triple of every
method. -/
theorem get?_triples (hnames : (s.methods.map (·.name)).Nodup) (h : s.model options = .ok m)
    (hclean : m.diagnostics = []) {method : Method} (hmethod : method ∈ s.methods) :
    ∃ g, method.graph m.prototypes options = .ok g ∧
      ∀ t ∈ g.triples m.patterns, m.triples.get? t.name = some t := by
  obtain ⟨earlier, later, hsplit⟩ := List.append_of_mem hmethod
  obtain ⟨g, hg⟩ := exists_graph h hclean hmethod
  refine ⟨g, hg, fun t ht => get?_triples_of_last h hclean hsplit ?_ ?_⟩
  · rwa [← Method.flow_of_graph hg, ← Graph.mem_triples]
  · intro method' hmethod' hname
    rw [hsplit, List.map_append, List.map_cons] at hnames
    have hnot := (List.nodup_cons.mp (List.nodup_append.mp hnames).2.1).1
    exact absurd (List.mem_map.mpr ⟨method', hmethod', hname⟩) hnot

end Script

end ViewLogic

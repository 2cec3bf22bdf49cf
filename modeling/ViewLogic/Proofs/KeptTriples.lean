import ViewLogic.Proofs.Modelling

/-!
# The triples that a model keeps

A model stores triples by the names of their edges. Such a name gives away the name of the method
and the number of the edge, so methods of different names never share one, whatever the names are.
Methods of one name do share them, and are not reported: the model keeps the triple of the last
method that has an edge of the name, and the triples of the earlier ones are lost.
-/

namespace ViewLogic

/-- If some member of a list has a property, then there is a last one. -/
theorem exists_last_of_mem {α : Type} {P : α → Prop} {l : List α} (h : ∃ a ∈ l, P a) :
    ∃ earlier a later, l = earlier ++ a :: later ∧ P a ∧ ∀ b ∈ later, ¬P b := by
  induction l with
  | nil => simp at h
  | cons a l ih =>
    by_cases hrest : ∃ b ∈ l, P b
    · obtain ⟨earlier, b, later, rfl, hb, hlast⟩ := ih hrest
      exact ⟨a :: earlier, b, later, rfl, hb, hlast⟩
    · have ha : P a := by
        obtain ⟨b, hb, hP⟩ := h
        rcases List.mem_cons.mp hb with rfl | hb
        · exact hP
        · exact absurd ⟨b, hb, hP⟩ hrest
      exact ⟨[], a, l, rfl, ha, fun b hb hP => hrest ⟨b, hb, hP⟩⟩

namespace Script

variable {s : Script} {options : Options} {m : Model}

/-- Every edge of a method in a model without diagnostics has a triple. -/
theorem exists_hasTriple (h : s.model options = .ok m) (hclean : m.diagnostics = [])
    {method : Method} (hmethod : method ∈ s.methods) {name : String} {e : Edge}
    (he : (method.modelledFlow options).edges.get? name = some e) :
    ∃ t, t.name = name ∧ (method.modelledFlow options).HasTriple m.patterns t := by
  obtain ⟨g, hg⟩ := exists_graph h hclean hmethod
  rw [← Method.flow_of_graph hg] at he ⊢
  obtain ⟨src, dest, hsrc, hdest⟩ := g.exists_ends he
  exact ⟨⟨name, reify src m.patterns, e.cmd, reify dest m.patterns⟩, rfl, e, src, dest, he, hsrc,
    hdest, rfl⟩

/-- What a model without diagnostics stores under a name is the triple of an edge of this name. -/
theorem exists_edge_of_get?_triples (h : s.model options = .ok m) (hclean : m.diagnostics = [])
    {name : String} {t : Triple} (ht : m.triples.get? name = some t) :
    t.name = name ∧ ∃ method ∈ s.methods, ∃ e,
      (method.modelledFlow options).edges.get? name = some e := by
  obtain ⟨-, -, -, -, htriples⟩ := model_eq_ok h hclean
  rw [htriples] at ht
  rcases SortedMap.exists_of_get?_foldl_insert ht with ⟨t', hmem, rfl, rfl⟩ | hnone
  · obtain ⟨method, hmethod, hmem⟩ := List.mem_flatMap.mp hmem
    obtain ⟨e, -, -, he, -⟩ := Graph.mem_triples.mp hmem
    exact ⟨rfl, method, hmethod, e, he⟩
  · cases hnone

/-- Every edge of every method has a triple, and a model without diagnostics keeps exactly those
that no later method of the same name replaces: a triple is stored under a name if and only if it is
that of the edge of this name in a method after which no method of the same name has such an
edge. -/
theorem get?_triples_eq_some_iff (h : s.model options = .ok m) (hclean : m.diagnostics = []) :
    (∀ method ∈ s.methods, ∀ name e, (method.modelledFlow options).edges.get? name = some e →
      ∃ t, t.name = name ∧ (method.modelledFlow options).HasTriple m.patterns t) ∧
    ∀ name t, m.triples.get? name = some t ↔
      t.name = name ∧ ∃ earlier method later, s.methods = earlier ++ method :: later ∧
        (method.modelledFlow options).HasTriple m.patterns t ∧
        ∀ method' ∈ later, method'.name = method.name →
          (method'.modelledFlow options).edges.get? name = none := by
  refine ⟨fun method hmethod name e => exists_hasTriple h hclean hmethod, fun name t => ?_⟩
  constructor
  · intro ht
    obtain ⟨hname, method, hmethod, e, he⟩ := exists_edge_of_get?_triples h hclean ht
    -- The triple of the last method with such an edge is stored, so it is this one.
    obtain ⟨earlier, last, later, hsplit, ⟨e', he'⟩, hnone⟩ := exists_last_of_mem
      (P := fun method : Method => ∃ e, (method.modelledFlow options).edges.get? name = some e)
      ⟨method, hmethod, e, he⟩
    have hlast : ∀ method' ∈ later, method'.name = last.name →
        (method'.modelledFlow options).edges.get? name = none := by
      intro method' hmethod' _
      simpa [Option.eq_none_iff_forall_ne_some] using hnone method' hmethod'
    obtain ⟨t', hname', ht'⟩ := exists_hasTriple h hclean (by simp [hsplit]) he'
    have hkept : m.triples.get? name = some t' := by
      rw [← hname'] at hlast ⊢
      exact get?_triples_of_last h hclean hsplit ht' hlast
    obtain rfl : t = t' := Option.some.inj (ht.symm.trans hkept)
    exact ⟨hname, earlier, last, later, hsplit, ht', hlast⟩
  · rintro ⟨rfl, earlier, method, later, hsplit, ht, hlast⟩
    exact get?_triples_of_last h hclean hsplit ht hlast

/-- The second of two methods of one name has fewer edges than the first, and between them stands a
method whose name is that of an edge. The first method keeps the triple of its second edge. -/
theorem get?_triples_eq_some_iff_longer :
    let held : View Var := .atom ⟨"V", []⟩
    let run (p : String) : Stmt := .prim [⟨p, []⟩]
    let long : Method := ⟨"a", .next held (run "P") (.next .unit (run "Q") (.done held))⟩
    let other : Method := ⟨"a_C0", .next .unit (run "R") (.done held)⟩
    let short : Method := ⟨"a", .next .unit (run "S") (.done held)⟩
    let s : Script :=
      ⟨[⟨"V", []⟩], [], [], [⟨.atom ⟨"V", []⟩, none⟩], [long, other, short]⟩
    let t : Triple := ⟨"a_C1", ∅, [⟨"Q", []⟩], reify held.held [.atom ⟨"V", []⟩]⟩
    ∃ m, s.model .standard = .ok m ∧ m.diagnostics = [] ∧ m.triples.get? "a_C1" = some t := by
  intro held run long other short s t
  have hmodel : (s.model .standard).map (fun m => (m.diagnostics, m.patterns)) =
      .ok ([], [.atom ⟨"V", []⟩]) := by
    decide +kernel
  obtain ⟨m, hm, heq⟩ := map_eq_ok.mp hmodel
  obtain ⟨hclean, hpatterns⟩ := Prod.mk.inj heq
  have ht : (long.modelledFlow .standard).HasTriple m.patterns t := by
    rw [hpatterns]
    exact ⟨⟨"a_V1", "a_V2", [⟨"Q", []⟩]⟩, ∅, held.held, by decide +kernel, by decide +kernel,
      by decide +kernel, by decide +kernel⟩
  have hlast : ∀ method' ∈ [other, short], method'.name = long.name →
      (method'.modelledFlow .standard).edges.get? "a_C1" = none := by
    decide +kernel
  have hiff := (get?_triples_eq_some_iff hm hclean).2 "a_C1" t
  exact ⟨m, hm, hclean, hiff.mpr ⟨rfl, [], long, [other, short], rfl, ht, hlast⟩⟩

/-- Two methods of one name: the triple of the only edge of the first one is not in the model, and
there is no diagnostic. -/
theorem triple_lost_to_later_method :
    let held : View Var := .atom ⟨"V", []⟩
    let first : Method := ⟨"m", .next .unit (.prim []) (.done held)⟩
    let second : Method := ⟨"m", .next held (.prim []) (.done .unit)⟩
    let s : Script := ⟨[⟨"V", []⟩], [], [], [⟨.atom ⟨"V", []⟩, some (.lit false)⟩], [first, second]⟩
    let t : Triple := ⟨"m_C0", ∅, [], reify held.held [.atom ⟨"V", []⟩]⟩
    ∃ m, s.model .standard = .ok m ∧ m.diagnostics = [] ∧
      (first.modelledFlow .standard).HasTriple m.patterns t ∧ m.triples.get? "m_C0" ≠ some t := by
  intro held first second s t
  have hmodel : (s.model .standard).map
      (fun m => (m.diagnostics, m.patterns, decide (m.triples.get? "m_C0" = some t))) =
      .ok ([], [.atom ⟨"V", []⟩], false) := by
    decide +kernel
  obtain ⟨m, hm, heq⟩ := map_eq_ok.mp hmodel
  simp only [Prod.mk.injEq, decide_eq_false_iff_not] at heq
  obtain ⟨hclean, hpatterns, hlost⟩ := heq
  refine ⟨m, hm, hclean, ?_, hlost⟩
  rw [hpatterns]
  exact ⟨⟨"m_V0", "m_V1", []⟩, ∅, held.held, by decide +kernel, by decide +kernel,
    by decide +kernel, by decide +kernel⟩

end Script

end ViewLogic

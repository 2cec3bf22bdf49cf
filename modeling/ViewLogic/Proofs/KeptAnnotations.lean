import Mathlib.Data.List.Nodup
import ViewLogic.Proofs.MethodGraphs

/-!
# Lowering keeps every annotation

The nodes and edges of a method are stored under numbered names, so they would be lost if a number
came twice. None does: the nodes hold the views of the text, each as often as it stands there, and
the number of edges is read off the statements.
-/

namespace ViewLogic

/-! ### Maps of numbered entries -/

namespace SortedMap

variable {κ β : Type} [Ord κ] [Std.LawfulEqOrd κ] [Std.TransOrd κ]

/-- A map of a list of entries with different keys has these entries. -/
theorem perm_entries_ofList {l : List (κ × β)} (h : (l.map (·.1)).Nodup) :
    (ofList l).entries.Perm l := by
  refine (List.perm_ext_iff_of_nodup (.of_map _ (nodup_keys _)) (.of_map _ h)).mpr fun e => ?_
  rw [← get?_eq_some_iff]
  constructor
  · exact mem_of_get?_ofList
  · intro he
    exact get?_ofList_of_mem he fun e' he' hkey => List.inj_on_of_nodup_map h he' he hkey

/-- A map of numbered entries with different names has these names and values. -/
theorem perm_ofList_mapIdx {α : Type} (key : Nat → κ) (hkey : ∀ {n n'}, key n = key n' → n = n')
    (f : α → β) (l : List α) :
    (ofList (l.mapIdx fun n a => (key n, f a))).keys.Perm ((List.range l.length).map key) ∧
      (ofList (l.mapIdx fun n a => (key n, f a))).values.Perm (l.map f) := by
  have hkeys : (l.mapIdx fun n a => (key n, f a)).map (·.1) = (List.range l.length).map key := by
    apply List.ext_getElem <;> simp
  have hvalues : (l.mapIdx fun n a => (key n, f a)).map (·.2) = l.map f := by
    apply List.ext_getElem <;> simp
  have hnodup : ((l.mapIdx fun n a => (key n, f a)).map (·.1)).Nodup := by
    rw [hkeys]
    exact List.nodup_range.map fun _ _ => hkey
  have hperm := perm_entries_ofList hnodup
  refine ⟨?_, ?_⟩
  · rw [← hkeys]
    exact hperm.map Prod.fst
  · rw [← hvalues]
    exact hperm.map Prod.snd

end SortedMap

/-! ### The number of edges -/

mutual

/-- The number of edges of a statement: one for a command, and for a condition those that enter and
leave each branch, or that pass the statement. -/
def Stmt.edgeCount : Stmt → Nat
  | .prim _ => 1
  | .ifThen _ body => 3 + body.edgeCount
  | .ifElse _ yes no => 4 + yes.edgeCount + no.edgeCount
  | .whileDo _ body => 3 + body.edgeCount
  | .doWhile body _ => 3 + body.edgeCount

/-- The number of edges of a block. -/
def Block.edgeCount : Block → Nat
  | .done _ => 0
  | .next _ stmt rest => stmt.edgeCount + rest.edgeCount

end

open Fragment in
mutual

/-- The number of arcs of a statement can be read off its text. -/
theorem Stmt.length_arcs_lower (src dest fresh : Nat) : (stmt : Stmt) →
    (stmt.lower src dest fresh).arcs.length = stmt.edgeCount
  | .prim _ => rfl
  | .ifThen _ body | .whileDo _ body | .doWhile body _ => by
    have hbody := body.length_arcs_lowerFrom fresh (fresh + 1)
    simp only [Stmt.lower, Stmt.edgeCount, arcs_append, arcs_ofView, arcs_ofArcs,
      List.length_append, List.length_cons, List.length_nil]
    omega
  | .ifElse _ yes no => by
    have hyes := yes.length_arcs_lowerFrom fresh (fresh + 1)
    have hno := no.length_arcs_lowerFrom
      (fresh + 1 + (yes.lowerFrom fresh (fresh + 1)).1.views.length)
      (fresh + 1 + (yes.lowerFrom fresh (fresh + 1)).1.views.length + 1)
    simp only [Stmt.lower, Stmt.edgeCount, arcs_append, arcs_ofView, arcs_ofArcs,
      List.length_append, List.length_cons, List.length_nil]
    omega

/-- The number of arcs of a block can be read off its text. -/
theorem Block.length_arcs_lowerFrom (cur fresh : Nat) : (b : Block) →
    (b.lowerFrom cur fresh).1.arcs.length = b.edgeCount
  | .done _ => rfl
  | .next _ stmt rest => by
    have hstmt := stmt.length_arcs_lower cur fresh (fresh + 1)
    have hrest := rest.length_arcs_lowerFrom fresh
      (fresh + 1 + (stmt.lower cur fresh (fresh + 1)).views.length)
    simp only [Block.lowerFrom, Block.edgeCount, arcs_append, arcs_ofView, List.length_append,
      List.length_nil]
    omega

end

/-- A whole block has as many edges as its statements. -/
theorem Block.length_arcs_lower (b : Block) : b.lower.arcs.length = b.edgeCount :=
  b.length_arcs_lowerFrom 0 1

/-! ### Nodes and edges of a method -/

namespace Method

/-- Every edge of a lowered method ends at nodes. The nodes hold the views of the text, each as
often as it stands there, and there are as many edges as the statements have. Nodes and edges are
numbered from zero without gaps, so no name is used twice. -/
theorem flow_keeps_annotations (m : Method) :
    (∀ e ∈ m.flow.edges.values, e.src ∈ m.flow.nodes.keys ∧ e.dest ∈ m.flow.nodes.keys) ∧
      m.flow.nodes.values.Perm (m.body.views.map View.held) ∧
      m.flow.edges.size = m.body.edgeCount ∧
      m.flow.nodes.keys.Perm ((List.range m.body.views.length).map (nodeName m.name)) ∧
      m.flow.edges.keys.Perm ((List.range m.body.edgeCount).map (edgeName m.name)) := by
  have hviews := m.body.views_lower_perm
  have harcs := m.body.length_arcs_lower
  obtain ⟨hnodeNames, hheld⟩ := SortedMap.perm_ofList_mapIdx (nodeName m.name)
    (fun h => (nodeName_inj.mp h).2) View.held m.body.lower.views
  obtain ⟨hedgeNames, hedges⟩ := SortedMap.perm_ofList_mapIdx (edgeName m.name)
    (fun h => (edgeName_inj.mp h).2)
    (fun arc => (⟨nodeName m.name arc.src, nodeName m.name arc.dest, arc.cmd⟩ : Edge))
    m.body.lower.arcs
  refine ⟨fun e he => ?_, hheld.trans (hviews.map View.held), ?_, ?_, ?_⟩
  · obtain ⟨⟨name, e⟩, hentry, rfl⟩ := List.mem_map.mp he
    obtain ⟨src, dest, hsrc, hdest⟩ := Flow.dangling_eq_none_iff.mp m.dangling_flow name e
      (SortedMap.get?_eq_some_iff.mpr hentry)
    exact ⟨SortedMap.mem_keys_iff.mpr ⟨src, hsrc⟩, SortedMap.mem_keys_iff.mpr ⟨dest, hdest⟩⟩
  · have hsize := hedges.length_eq
    rwa [List.length_map, harcs, SortedMap.values, List.length_map] at hsize
  · rwa [hviews.length_eq] at hnodeNames
  · rwa [harcs] at hedgeNames

/-- Loops and branches inside each other, in a method whose name looks like that of a node. Some
views stand in the text several times. The loop that tests its condition last comes second, and the
edge that leaves it is the last one. -/
theorem flow_keeps_annotations_nested :
    let hold (name : String) : View Var := .atom ⟨name, []⟩
    let c : BoolExpr Var := .var "c"
    let d : BoolExpr Var := .var "d"
    let inner : Block :=
      .next (hold "B") (.ifElse d (.done (hold "C")) (.done (hold "A"))) (.done (hold "B"))
    let inner' : Block := .next (hold "C") (.ifThen d (.done (hold "A"))) (.done (hold "C"))
    let m : Method :=
      ⟨"m_V1", .next (hold "A") (.whileDo c inner)
        (.next (hold "A") (.doWhile inner' c) (.done (hold "A")))⟩
    ∃ e ∈ m.flow.edges.values, e.src = "m_V1_V8" ∧ e.dest = "m_V1_V6" ∧
      e.src ∈ m.flow.nodes.keys ∧ e.dest ∈ m.flow.nodes.keys ∧
      m.flow.nodes.values.Perm (["A", "B", "C", "A", "B", "A", "C", "A", "C", "A"].map
        fun name => (hold name).held) ∧
      m.flow.edges.size = 13 ∧
      m.flow.edges.keys.Perm ((List.range 13).map fun n => "m_V1_C" ++ toString n) := by
  intro hold c d inner inner' m
  obtain ⟨hends, hviews, hsize, -, hnames⟩ := flow_keeps_annotations m
  have hlast : m.flow.edges.get? "m_V1_C12" = some ⟨"m_V1_V8", "m_V1_V6", assumeFalse c⟩ := by
    decide +kernel
  have he := SortedMap.mem_values_of_get? hlast
  obtain ⟨hsrc, hdest⟩ := hends _ he
  exact ⟨_, he, rfl, rfl, hsrc, hdest, hviews, hsize, hnames⟩

end Method

end ViewLogic

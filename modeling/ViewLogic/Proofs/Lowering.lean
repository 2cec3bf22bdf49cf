import ViewLogic.Flow.Lowering
import ViewLogic.Proofs.Entries

/-!
# The edges of a lowered method

Every edge of a method's flow carries a primitive command of the method, nothing, or the assumption
of a condition that is read before it. The name of an edge ends in its number, so it gives away the
name of the method: different methods share no edge.
-/

namespace ViewLogic

mutual

/-- The primitive commands inside a statement. -/
def Stmt.prims : Stmt → List Command
  | .prim cmd => [cmd]
  | .ifThen _ body => body.prims
  | .ifElse _ yes no => yes.prims ++ no.prims
  | .whileDo _ body => body.prims
  | .doWhile body _ => body.prims

/-- The primitive commands of a block, in the order of the text. -/
def Block.prims : Block → List Command
  | .done _ => []
  | .next _ stmt rest => stmt.prims ++ rest.prims

end

/-- The commands that edges carry, given the primitive commands of the text. -/
inductive Command.Lowered (prims : List Command) : Command → Prop where
  | prim {cmd : Command} (h : cmd ∈ prims) : Lowered prims cmd
  | nop : Lowered prims []
  | condition (cond : BoolExpr Var) : Lowered prims (.assume (cond.mark .before))

/-- Edges may carry more commands if the text has more primitive ones. -/
theorem Command.Lowered.mono {prims prims' : List Command} {cmd : Command}
    (h : Lowered prims cmd) (hsub : prims ⊆ prims') : Lowered prims' cmd := by
  cases h with
  | prim hmem => exact .prim (hsub hmem)
  | nop => exact .nop
  | condition cond => exact .condition cond

namespace Fragment

/-- An arc of two fragments is an arc of one of them. -/
@[simp] theorem mem_arcs_append {arc : Arc} {a b : Fragment} :
    arc ∈ (a ++ b).arcs ↔ arc ∈ a.arcs ∨ arc ∈ b.arcs :=
  List.mem_append

/-- No arc belongs to a node alone. -/
@[simp] theorem not_mem_arcs_ofView {arc : Arc} {v : View Var} : arc ∉ (ofView v).arcs :=
  List.not_mem_nil

/-- An arc of a fragment of arcs is the first one or one of the others. -/
@[simp] theorem mem_arcs_ofArcs_cons {arc a : Arc} {arcs : List Arc} :
    arc ∈ (ofArcs (a :: arcs)).arcs ↔ arc = a ∨ arc ∈ (ofArcs arcs).arcs :=
  List.mem_cons

/-- No arc belongs to an empty fragment. -/
@[simp] theorem not_mem_arcs_ofArcs_nil {arc : Arc} : arc ∉ (ofArcs []).arcs :=
  List.not_mem_nil

end Fragment

open Fragment in
mutual

/-- What the edges of a statement carry. -/
theorem Stmt.lowered_of_mem_lower {src dest fresh : Nat} {arc : Arc} : (stmt : Stmt) →
    arc ∈ (stmt.lower src dest fresh).arcs → arc.cmd.Lowered stmt.prims
  | .prim cmd, h => by
    obtain rfl := List.mem_singleton.mp h
    exact .prim (List.mem_singleton_self cmd)
  | .ifThen cond body, h => by
    simp only [Stmt.lower, mem_arcs_append, not_mem_arcs_ofView, mem_arcs_ofArcs_cons,
      not_mem_arcs_ofArcs_nil, false_or, or_false] at h
    rcases h with h | rfl | rfl | rfl
    · exact body.lowered_of_mem_lowerFrom h
    · exact .condition cond
    · exact .nop
    · exact .condition cond.negate
  | .ifElse cond yes no, h => by
    simp only [Stmt.lower, mem_arcs_append, not_mem_arcs_ofView, mem_arcs_ofArcs_cons,
      not_mem_arcs_ofArcs_nil, false_or, or_false, or_assoc] at h
    rcases h with h | rfl | rfl | h | rfl | rfl
    · exact (yes.lowered_of_mem_lowerFrom h).mono (by simp [Stmt.prims])
    · exact .condition cond
    · exact .nop
    · exact (no.lowered_of_mem_lowerFrom h).mono (by simp [Stmt.prims])
    · exact .condition cond.negate
    · exact .nop
  | .whileDo cond body, h => by
    simp only [Stmt.lower, mem_arcs_append, not_mem_arcs_ofView, mem_arcs_ofArcs_cons,
      not_mem_arcs_ofArcs_nil, false_or, or_false] at h
    rcases h with h | rfl | rfl | rfl
    · exact body.lowered_of_mem_lowerFrom h
    · exact .condition cond
    · exact .nop
    · exact .condition cond.negate
  | .doWhile body cond, h => by
    simp only [Stmt.lower, mem_arcs_append, not_mem_arcs_ofView, mem_arcs_ofArcs_cons,
      not_mem_arcs_ofArcs_nil, false_or, or_false] at h
    rcases h with h | rfl | rfl | rfl
    · exact body.lowered_of_mem_lowerFrom h
    · exact .nop
    · exact .condition cond
    · exact .condition cond.negate

/-- What the edges of a block carry. -/
theorem Block.lowered_of_mem_lowerFrom {cur fresh : Nat} {arc : Arc} : (b : Block) →
    arc ∈ (b.lowerFrom cur fresh).1.arcs → arc.cmd.Lowered b.prims
  | .done _, h => by
    cases h
  | .next _ stmt rest, h => by
    simp only [Block.lowerFrom, mem_arcs_append, not_mem_arcs_ofView, false_or] at h
    rcases h with h | h
    · exact (stmt.lowered_of_mem_lower h).mono (by simp [Block.prims])
    · exact (rest.lowered_of_mem_lowerFrom h).mono (by simp [Block.prims])

end

/-- The variables of a marked expression have its mark. -/
theorem BoolExpr.mark_of_mem_leaves_mark {cond : BoolExpr Var} {m : Mark} {leaf : Leaf MarkedVar}
    (h : leaf ∈ (cond.mark m).leaves) : leaf.var.mark = m := by
  rw [mark, rename, (Expr.leaves_subst _).2.1] at h
  obtain ⟨⟨ty, x⟩, -, himage⟩ := List.mem_flatMap.mp h
  cases ty <;>
    · obtain rfl := List.mem_singleton.mp himage
      rfl

/-! ### Numbered names -/

/-- A name that does not end in a digit and a number behind it can be told apart. -/
theorem append_toString_inj {a b : String} {n k : Nat}
    (ha : ∀ c, a.toList.getLast? = some c → c.isDigit = false)
    (hb : ∀ c, b.toList.getLast? = some c → c.isDigit = false)
    (h : a ++ toString n = b ++ toString k) : a = b ∧ n = k := by
  have hdigits (n : Nat) : ∀ c ∈ (toString n).toList.reverse, c.isDigit = true := by
    intro c hc
    exact isDigit_of_mem_toString (List.mem_reverse.mp hc)
  have hname {a : String} (ha : ∀ c, a.toList.getLast? = some c → c.isDigit = false) :
      a.toList.reverse.dropWhile Char.isDigit = a.toList.reverse := by
    cases hrev : a.toList.reverse with
    | nil => rfl
    | cons c cs =>
      rw [List.dropWhile_cons_of_neg]
      rw [ha c (by rw [← List.head?_reverse, hrev, List.head?_cons])]
      exact Bool.false_ne_true
  -- Read from the end, the number goes as far as there are digits.
  have hrev : (toString n).toList.reverse ++ a.toList.reverse =
      (toString k).toList.reverse ++ b.toList.reverse := by
    rw [← List.reverse_append, ← String.toList_append, h, String.toList_append,
      List.reverse_append]
  have hdrop := congrArg (List.dropWhile Char.isDigit) hrev
  rw [List.dropWhile_append_of_pos (hdigits n), List.dropWhile_append_of_pos (hdigits k), hname ha,
    hname hb] at hdrop
  obtain rfl : a = b := String.toList_inj.mp (List.reverse_inj.mp hdrop)
  have hnumber := congrArg (Nat.ofDigitChars 10 · 0)
    (List.reverse_inj.mp (List.append_cancel_right hrev))
  simpa [Nat.toString_eq_repr] using hnumber

/-- A method and a number can be told from a name, if what stands between them ends in no digit. -/
theorem append_tag_toString_inj {tag : String} (htag : tag.toList.getLast?.any (!·.isDigit))
    {method method' : String} {n k : Nat} :
    method ++ tag ++ toString n = method' ++ tag ++ toString k ↔ method = method' ∧ n = k := by
  obtain ⟨c, hc, hdigit⟩ := (Option.any_eq_true _ _).mp htag
  have hlast (method : String) :
      ∀ c, (method ++ tag).toList.getLast? = some c → c.isDigit = false := by
    intro c' hc'
    rw [String.toList_append, List.getLast?_append, hc, Option.some_or] at hc'
    cases hc'
    simpa using hdigit
  constructor
  · intro h
    obtain ⟨hmethod, hn⟩ := append_toString_inj (hlast method) (hlast method') h
    exact ⟨String.append_left_inj tag |>.mp hmethod, hn⟩
  · rintro ⟨rfl, rfl⟩
    rfl

/-- The name of an edge determines its method and its number. -/
theorem edgeName_inj {method method' : String} {n k : Nat} :
    edgeName method n = edgeName method' k ↔ method = method' ∧ n = k :=
  append_tag_toString_inj (by decide)

/-- The name of a node determines its method and its number. -/
theorem nodeName_inj {method method' : String} {n k : Nat} :
    nodeName method n = nodeName method' k ↔ method = method' ∧ n = k :=
  append_tag_toString_inj (by decide)

/-! ### The flow of a method -/

namespace Fragment

/-- The nodes of a fragment's flow. -/
theorem get?_nodes_toFlow {method name : String} {f : Fragment} {held : Bag (Held Var)} :
    (f.toFlow method).nodes.get? name = some held ↔
      ∃ n v, f.views[n]? = some v ∧ nodeName method n = name ∧ v.held = held :=
  SortedMap.get?_ofList_mapIdx (nodeName method) (fun h => (nodeName_inj.mp h).2) View.held f.views
    name held

/-- The edges of a fragment's flow. -/
theorem get?_edges_toFlow {method name : String} {f : Fragment} {e : Edge} :
    (f.toFlow method).edges.get? name = some e ↔
      ∃ n arc, f.arcs[n]? = some arc ∧ edgeName method n = name ∧
        (⟨nodeName method arc.src, nodeName method arc.dest, arc.cmd⟩ : Edge) = e := by
  simp only [toFlow,
    SortedMap.get?_ofList_mapIdx (edgeName method) fun h => (edgeName_inj.mp h).2]

end Fragment

/-- Every edge of a method's flow has a name of the method and a lowered command. -/
theorem Method.of_get?_edges_flow {m : Method} {name : String} {e : Edge}
    (h : m.flow.edges.get? name = some e) :
    (∃ n, name = edgeName m.name n) ∧ e.cmd.Lowered m.body.prims := by
  obtain ⟨n, arc, harc, rfl, rfl⟩ := Fragment.get?_edges_toFlow.mp h
  have hmem : arc ∈ (m.body.lowerFrom 0 1).1.arcs := List.mem_of_getElem? harc
  exact ⟨⟨n, rfl⟩, m.body.lowered_of_mem_lowerFrom hmem⟩

end ViewLogic

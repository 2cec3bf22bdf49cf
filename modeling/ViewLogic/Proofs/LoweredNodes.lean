import ViewLogic.Proofs.Lowering

/-!
# The nodes of a lowered method

The nodes of a part of a method are numbered without gaps, and its edges lead from its first node
and its own nodes to these and to its last node. So every edge of a whole method ends at nodes. The
nodes are the views of the text: each view becomes one node, though the node after a statement comes
before the nodes inside it.
-/

namespace ViewLogic

/-! ### Numbers of nodes -/

/-- A number is that of the first node of a part, or one of `size` numbers from `fresh`. -/
def Inside (first fresh size n : Nat) : Prop := n = first ∨ fresh ≤ n ∧ n < fresh + size

namespace Fragment

/-- The arcs of two fragments stand one after the other. -/
@[simp] theorem arcs_append (a b : Fragment) : (a ++ b).arcs = a.arcs ++ b.arcs := rfl

/-- A node alone has no arc. -/
@[simp] theorem arcs_ofView (v : View Var) : (ofView v).arcs = [] := rfl

/-- A fragment of arcs has these arcs. -/
@[simp] theorem arcs_ofArcs (arcs : List Arc) : (ofArcs arcs).arcs = arcs := rfl

/-- The nodes of two fragments stand one after the other. -/
@[simp] theorem views_append (a b : Fragment) : (a ++ b).views = a.views ++ b.views := rfl

/-- A node alone holds its view. -/
@[simp] theorem views_ofView (v : View Var) : (ofView v).views = [v] := rfl

/-- A fragment of arcs has no node of its own. -/
@[simp] theorem views_ofArcs (arcs : List Arc) : (ofArcs arcs).views = [] := rfl

/-- The numbers of nodes of two fragments add up. -/
@[simp] theorem length_views_append (a b : Fragment) :
    (a ++ b).views.length = a.views.length + b.views.length :=
  List.length_append

/-- A node alone is one node. -/
@[simp] theorem length_views_ofView (v : View Var) : (ofView v).views.length = 1 := rfl

/-- A fragment of arcs counts no node. -/
@[simp] theorem length_views_ofArcs (arcs : List Arc) : (ofArcs arcs).views.length = 0 := rfl

end Fragment

/-- The last node of a block is one of its nodes. -/
theorem Block.inside_exit (cur fresh : Nat) : (b : Block) →
    Inside cur fresh (b.lowerFrom cur fresh).1.views.length (b.lowerFrom cur fresh).2
  | .done _ => .inl rfl
  | .next _ stmt rest => by
    have hrest := rest.inside_exit fresh
      (fresh + 1 + (stmt.lower cur fresh (fresh + 1)).views.length)
    simp only [Inside, Block.lowerFrom, Fragment.length_views_append,
      Fragment.length_views_ofView] at hrest ⊢
    omega

open Fragment in
mutual

/-- The arcs of a statement start at its first node or inside it, and end there or at its last
node. -/
theorem Stmt.inside_lower (src dest fresh : Nat) : (stmt : Stmt) →
    ∀ arc ∈ (stmt.lower src dest fresh).arcs,
      Inside src fresh (stmt.lower src dest fresh).views.length arc.src ∧
        (arc.dest = dest ∨
          Inside src fresh (stmt.lower src dest fresh).views.length arc.dest)
  | .prim cmd, arc, h => by
    obtain rfl := List.mem_singleton.mp h
    exact ⟨.inl rfl, .inl rfl⟩
  | .ifThen cond body, arc, h | .whileDo cond body, arc, h | .doWhile body cond, arc, h => by
    have hexit := body.inside_exit fresh (fresh + 1)
    have hbody := body.inside_lowerFrom fresh (fresh + 1) (by omega) arc
    simp only [Stmt.lower, mem_arcs_append, not_mem_arcs_ofView, mem_arcs_ofArcs_cons,
      not_mem_arcs_ofArcs_nil, false_or, or_false, Inside, length_views_append,
      length_views_ofView, length_views_ofArcs] at h hexit hbody ⊢
    rcases h with h | rfl | rfl | rfl
    · have hinner := hbody h
      omega
    all_goals
      dsimp only
      omega
  | .ifElse cond yes no, arc, h => by
    have hexit (b : Block) (n : Nat) := b.inside_exit n (n + 1)
    have hyes := yes.inside_lowerFrom fresh (fresh + 1) (by omega) arc
    have hno (n : Nat) := no.inside_lowerFrom n (n + 1) (by omega) arc
    have hyesExit := hexit yes fresh
    have hnoExit := hexit no (fresh + 1 + (yes.lowerFrom fresh (fresh + 1)).1.views.length)
    simp only [Stmt.lower, mem_arcs_append, not_mem_arcs_ofView, mem_arcs_ofArcs_cons,
      not_mem_arcs_ofArcs_nil, false_or, or_false, or_assoc, Inside, length_views_append,
      length_views_ofView, length_views_ofArcs] at h hyes hno hyesExit hnoExit ⊢
    rcases h with h | rfl | rfl | h | rfl | rfl
    · have hinner := hyes h
      omega
    case inr.inr.inr.inl =>
      have hinner := hno _ h
      omega
    all_goals
      dsimp only
      omega

/-- The arcs of a block start and end at its nodes, and none starts at its last node. -/
theorem Block.inside_lowerFrom (cur fresh : Nat) (hcur : cur < fresh) : (b : Block) →
    ∀ arc ∈ (b.lowerFrom cur fresh).1.arcs,
      Inside cur fresh (b.lowerFrom cur fresh).1.views.length arc.src ∧
        arc.src ≠ (b.lowerFrom cur fresh).2 ∧
        Inside cur fresh (b.lowerFrom cur fresh).1.views.length arc.dest
  | .done _, arc, h => by
    cases h
  | .next _ stmt rest, arc, h => by
    have hstmt := stmt.inside_lower cur fresh (fresh + 1) arc
    have hrest := rest.inside_lowerFrom fresh
      (fresh + 1 + (stmt.lower cur fresh (fresh + 1)).views.length) (by omega) arc
    have hexit := rest.inside_exit fresh
      (fresh + 1 + (stmt.lower cur fresh (fresh + 1)).views.length)
    simp only [Block.lowerFrom, mem_arcs_append, not_mem_arcs_ofView, false_or, Inside,
      length_views_append, length_views_ofView] at h hstmt hrest hexit ⊢
    rcases h with h | h
    · have hinner := hstmt h
      omega
    · have hinner := hrest h
      omega

end

/-- Both ends of every edge of a whole block are numbers of its nodes. -/
theorem Block.ends_lt_of_mem_lower {b : Block} {arc : Arc} (h : arc ∈ b.lower.arcs) :
    arc.src < b.lower.views.length ∧ arc.dest < b.lower.views.length := by
  have harc : arc ∈ (b.lowerFrom 0 1).1.arcs := h
  have hinside := b.inside_lowerFrom 0 1 (by omega) arc harc
  simp only [Inside, Block.lower, Fragment.length_views_append,
    Fragment.length_views_ofView] at hinside ⊢
  omega

/-! ### Views of nodes -/

open Fragment in
mutual

/-- The nodes inside a statement hold the views inside it. -/
theorem Stmt.views_lower_perm (src dest fresh : Nat) : (stmt : Stmt) →
    (stmt.lower src dest fresh).views.Perm stmt.views
  | .prim _ => .refl _
  | .ifThen _ body | .whileDo _ body | .doWhile body _ => by
    simpa [Stmt.lower, Stmt.views] using body.views_lowerFrom_perm fresh (fresh + 1)
  | .ifElse _ yes no => by
    have hyes := yes.views_lowerFrom_perm fresh (fresh + 1)
    have hno := no.views_lowerFrom_perm
      (fresh + 1 + (yes.lowerFrom fresh (fresh + 1)).1.views.length)
      (fresh + 1 + (yes.lowerFrom fresh (fresh + 1)).1.views.length + 1)
    simpa [Stmt.lower, Stmt.views] using hyes.append hno

/-- The first node of a block and its other nodes hold the views of the block. -/
theorem Block.views_lowerFrom_perm (cur fresh : Nat) : (b : Block) →
    (b.entry :: (b.lowerFrom cur fresh).1.views).Perm b.views
  | .done _ => .refl _
  | .next held stmt rest => by
    have hstmt := stmt.views_lower_perm cur fresh (fresh + 1)
    have hrest := rest.views_lowerFrom_perm fresh
      (fresh + 1 + (stmt.lower cur fresh (fresh + 1)).views.length)
    simp only [Block.entry, Block.lowerFrom, Block.views, views_append, views_ofView,
      List.singleton_append]
    exact (List.perm_middle.symm.trans (hstmt.append hrest)).cons held

end

/-- The nodes of a whole block hold its views. -/
theorem Block.views_lower_perm (b : Block) : b.lower.views.Perm b.views :=
  b.views_lowerFrom_perm 0 1

end ViewLogic

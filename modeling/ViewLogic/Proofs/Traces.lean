import ViewLogic.Proofs.LoweredNodes
import ViewLogic.Proofs.Walks

/-!
# The traces of a method

A method may perform exactly the sequences of commands that its text describes. The traces of the
text are defined by its structure, and the walks through its flow are computed to be the same: the
nodes of a part of a method are numbered without gaps, so a part can only be entered through its
first node and left through its last one, and a loop gives rise to a linear equation that its
iteration solves.
-/

namespace ViewLogic

open Computability

/-- The command of a passed test: it assumes the condition of the state before it. -/
def Command.test (cond : BoolExpr Var) : Command := [⟨"Assume", [.bool (cond.mark .before)]⟩]

/-- The branch of a condition starts with its test. -/
theorem assumeTrue_eq_test (cond : BoolExpr Var) : assumeTrue cond = .test cond := rfl

/-- The other branch of a condition starts with the test of its negation. -/
theorem assumeFalse_eq_test (cond : BoolExpr Var) : assumeFalse cond = .test cond.negate := rfl

mutual

/-- The sequences of commands that a statement may perform. A branch, and a round of a loop that
tests first, ends with a command that does nothing; the other loop starts with one. -/
def Stmt.traces : Stmt → Language Command
  | .prim cmd => cmd.traces
  | .ifThen cond body =>
    (Command.test cond).traces * body.traces * Command.traces [] +
      (Command.test cond.negate).traces
  | .ifElse cond yes no =>
    (Command.test cond).traces * yes.traces * Command.traces [] +
      (Command.test cond.negate).traces * no.traces * Command.traces []
  | .whileDo cond body =>
    ((Command.test cond).traces * body.traces * Command.traces [])∗ *
      (Command.test cond.negate).traces
  | .doWhile body cond =>
    Command.traces [] * body.traces * ((Command.test cond).traces * body.traces)∗ *
      (Command.test cond.negate).traces

/-- The sequences of commands that a block may perform: those of its statements in order. -/
def Block.traces : Block → Language Command
  | .done _ => 1
  | .next _ stmt rest => stmt.traces * rest.traces

end

/-- The view held at the end of a block. -/
def Block.last : Block → View Var
  | .done held => held
  | .next _ _ rest => rest.last

/-! ### The walks around a body -/

/-- A loop whose rounds start with a command goes round any number of times. -/
theorem Command.eq_kstar_mul {cmd : Command} {L M N : Language Command}
    (h : L = cmd.traces * M * L + N) : L = (cmd.traces * M)∗ * N := by
  refine (Language.self_eq_mul_add_iff ?_).mp h
  rw [Language.mem_mul]
  rintro ⟨w, hw, w', -, hnil⟩
  rw [Command.mem_traces.mp hw] at hnil
  cases hnil

/-- Arcs between the nodes from `first` up to `next`. They lead from `first` to `exit` along the
traces `T` and leave `exit` to the arcs around them. -/
structure Body (inner : List Arc) (first exit next : Nat) (T : Language Command) : Prop where
  le_exit : first ≤ exit
  exit_lt : exit < next
  inside : ∀ arc ∈ inner, (first ≤ arc.src ∧ arc.src < next) ∧ arc.src ≠ exit ∧
    first ≤ arc.dest ∧ arc.dest < next
  walks_eq : Arc.walks inner first exit = T

namespace Body

variable {inner outer arcs : List Arc} {first exit next u v : Nat} {T : Language Command}

/-- No arc of a body starts at its exit or outside it. -/
theorem filter_src_eq_nil (h : Body inner first exit next T)
    (hu : u = exit ∨ u < first ∨ next ≤ u) : inner.filter (·.src = u) = [] := by
  rw [List.filter_eq_nil_iff]
  intro arc harc hsrc
  have hinside := h.inside arc harc
  rw [decide_eq_true_eq] at hsrc
  omega

/-- A walk that enters a body goes through it to its exit, if the other arcs start there or outside
the body. -/
theorem walks_first (h : Body inner first exit next T) (hsub : inner ⊆ arcs)
    (houter : ∀ arc ∈ arcs, arc ∈ inner ∨ arc.src = exit ∨ arc.src < first ∨ next ≤ arc.src)
    (hv : v < first) : Arc.walks arcs first v = T * Arc.walks arcs exit v := by
  have hexit := h.le_exit
  have hlt := h.exit_lt
  rw [← h.walks_eq]
  apply Arc.walks_through (N := {n | first ≤ n ∧ n < next}) hsub
  · intro arc harc hsrc hne
    simp only [Set.mem_ofPred_eq] at hsrc ⊢
    rcases houter arc harc with hinner | hother
    · exact ⟨hinner, (h.inside arc hinner).2.2⟩
    · omega
  · exact ⟨le_rfl, by omega⟩
  · intro hinside
    simp only [Set.mem_ofPred_eq] at hinside
    omega

/-- The walks along the arcs of a body and arcs around it: from its first node they go through the
body. -/
theorem walks_append_first (h : Body inner first exit next T)
    (houter : ∀ arc ∈ outer, arc.src = exit ∨ arc.src < first) (hv : v < first) :
    Arc.walks (inner ++ outer) first v = T * Arc.walks (inner ++ outer) exit v := by
  apply h.walks_first (List.subset_append_left inner outer) _ hv
  intro arc harc
  rcases List.mem_append.mp harc with hinner | hmem
  · exact .inl hinner
  · exact .inr ((houter arc hmem).imp_right .inl)

/-- The walks along the arcs of a body and arcs around it: elsewhere they take an arc around it. -/
theorem walks_append (h : Body inner first exit next T) (hu : u = exit ∨ u < first) :
    Arc.walks (inner ++ outer) u v = (if u = v then 1 else 0) +
      ((outer.filter (·.src = u)).map fun arc =>
        arc.cmd.traces * Arc.walks (inner ++ outer) arc.dest v).sum := by
  rw [Arc.walks_eq, List.filter_append, h.filter_src_eq_nil (hu.imp_right .inl), List.nil_append]

/-- A walk to a node that no arc leaves ends there at once. -/
theorem walks_append_self (h : Body inner first exit next T) (hu : u < first)
    (houter : ∀ arc ∈ outer, arc.src ≠ u) : Arc.walks (inner ++ outer) u u = 1 := by
  have hnone : outer.filter (·.src = u) = [] := by simpa [List.filter_eq_nil_iff] using houter
  rw [h.walks_append (.inr hu), hnone]
  simp

variable {src dest : Nat} {yes no : Command}

/-- A body that is entered or passed by, and is left to a node outside it. -/
theorem walks_enter_or_pass {back : Nat} (h : Body inner first exit next T)
    (houter : outer = [⟨src, first, yes⟩, ⟨exit, back, []⟩, ⟨src, dest, no⟩])
    (hsrc : src < first) (hdest : dest < first) (hne : src ≠ dest) :
    Arc.walks (inner ++ outer) dest dest = 1 ∧
      Arc.walks (inner ++ outer) src dest =
        yes.traces * T * Command.traces [] * Arc.walks (inner ++ outer) back dest +
          no.traces := by
  have hle := h.le_exit
  have hend : Arc.walks (inner ++ outer) dest dest = 1 :=
    h.walks_append_self hdest (by simp [houter, hne, show exit ≠ dest by omega])
  have hstart : Arc.walks (inner ++ outer) src dest =
      yes.traces * Arc.walks (inner ++ outer) first dest +
        no.traces * Arc.walks (inner ++ outer) dest dest := by
    rw [h.walks_append (.inr hsrc)]
    simp [houter, hne, show exit ≠ src by omega]
  have hentry : Arc.walks (inner ++ outer) first dest = T * Arc.walks (inner ++ outer) exit dest :=
    h.walks_append_first (by simp [houter, hsrc]) hdest
  have hexit : Arc.walks (inner ++ outer) exit dest =
      Command.traces [] * Arc.walks (inner ++ outer) back dest := by
    rw [h.walks_append (.inl rfl)]
    simp [houter, show exit ≠ dest by omega, show src ≠ exit by omega]
  rw [hstart, hentry, hexit, hend, mul_one]
  simp only [mul_assoc, and_self]

/-- A branch that may be left out. -/
theorem walks_branch (h : Body inner first exit next T)
    (houter : outer = [⟨src, first, yes⟩, ⟨exit, dest, []⟩, ⟨src, dest, no⟩])
    (hsrc : src < first) (hdest : dest < first) (hne : src ≠ dest) :
    Arc.walks (inner ++ outer) src dest =
      yes.traces * T * Command.traces [] + no.traces := by
  obtain ⟨hend, hstart⟩ := h.walks_enter_or_pass houter hsrc hdest hne
  rw [hstart, hend, mul_one]

/-- A loop that tests before each round. -/
theorem walks_while (h : Body inner first exit next T)
    (houter : outer = [⟨src, first, yes⟩, ⟨exit, src, []⟩, ⟨src, dest, no⟩])
    (hsrc : src < first) (hdest : dest < first) (hne : src ≠ dest) :
    Arc.walks (inner ++ outer) src dest =
      (yes.traces * T * Command.traces [])∗ * no.traces := by
  obtain ⟨-, hstart⟩ := h.walks_enter_or_pass houter hsrc hdest hne
  rw [mul_assoc yes.traces] at hstart ⊢
  exact Command.eq_kstar_mul hstart

/-- A loop that tests after each round. -/
theorem walks_doWhile (h : Body inner first exit next T)
    (houter : outer = [⟨src, first, []⟩, ⟨exit, first, yes⟩, ⟨exit, dest, no⟩])
    (hsrc : src < first) (hdest : dest < first) (hne : src ≠ dest) :
    Arc.walks (inner ++ outer) src dest =
      Command.traces [] * T * (yes.traces * T)∗ * no.traces := by
  have hle := h.le_exit
  have hend : Arc.walks (inner ++ outer) dest dest = 1 :=
    h.walks_append_self hdest (by simp [houter, hne, show exit ≠ dest by omega])
  have hstart : Arc.walks (inner ++ outer) src dest =
      Command.traces [] * Arc.walks (inner ++ outer) first dest := by
    rw [h.walks_append (.inr hsrc)]
    simp [houter, hne, show exit ≠ src by omega]
  have hentry : Arc.walks (inner ++ outer) first dest = T * Arc.walks (inner ++ outer) exit dest :=
    h.walks_append_first (by simp [houter, hsrc]) hdest
  have hexit : Arc.walks (inner ++ outer) exit dest =
      yes.traces * Arc.walks (inner ++ outer) first dest +
        no.traces * Arc.walks (inner ++ outer) dest dest := by
    rw [h.walks_append (.inl rfl)]
    simp [houter, show exit ≠ dest by omega, show src ≠ exit by omega]
  rw [hentry, hend, mul_one, ← mul_assoc] at hexit
  rw [hstart, hentry, Command.eq_kstar_mul hexit]
  simp only [mul_assoc]

/-- Two branches. -/
theorem walks_branches {inner' : List Arc} {first' exit' next' : Nat} {T' : Language Command}
    (h : Body inner first exit next T) (h' : Body inner' first' exit' next' T')
    (hnext : next ≤ first')
    (harcs : arcs = inner ++ [⟨src, first, yes⟩, ⟨exit, dest, []⟩] ++ inner' ++
      [⟨src, first', no⟩, ⟨exit', dest, []⟩])
    (hsrc : src < first) (hdest : dest < first) (hne : src ≠ dest) :
    Arc.walks arcs src dest =
      yes.traces * T * Command.traces [] + no.traces * T' * Command.traces [] := by
  have hle := h.le_exit
  have hlt := h.exit_lt
  have hle' := h'.le_exit
  have hmem (arc : Arc) : arc ∈ arcs ↔ arc ∈ inner ∨ arc ∈ inner' ∨ arc = ⟨src, first, yes⟩ ∨
      arc = ⟨exit, dest, []⟩ ∨ arc = ⟨src, first', no⟩ ∨ arc = ⟨exit', dest, []⟩ := by
    simp only [harcs, List.mem_append, List.mem_cons, List.not_mem_nil, or_false]
    tauto
  have hentry : Arc.walks arcs first dest = T * Arc.walks arcs exit dest := by
    refine h.walks_first (fun arc harc => (hmem arc).mpr (.inl harc)) (fun arc harc => ?_) hdest
    have hother := h'.inside arc
    rcases (hmem arc).mp harc with hin | hin | rfl | rfl | rfl | rfl
    · exact .inl hin
    · exact .inr (by have := hother hin; omega)
    all_goals exact .inr (by dsimp only; omega)
  have hentry' : Arc.walks arcs first' dest = T' * Arc.walks arcs exit' dest := by
    refine h'.walks_first (fun arc harc => (hmem arc).mpr (.inr (.inl harc)))
      (fun arc harc => ?_) (by omega)
    have hother := h.inside arc
    rcases (hmem arc).mp harc with hin | hin | rfl | rfl | rfl | rfl
    · exact .inr (by have := hother hin; omega)
    · exact .inl hin
    all_goals exact .inr (by dsimp only; omega)
  have hstep {u : Nat} (hu : u = exit ∨ u = exit' ∨ u < first) :
      Arc.walks arcs u dest = (if u = dest then 1 else 0) +
        ((([⟨src, first, yes⟩, ⟨exit, dest, []⟩] : List Arc).filter (·.src = u) ++
          ([⟨src, first', no⟩, ⟨exit', dest, []⟩] : List Arc).filter (·.src = u)).map fun arc =>
            arc.cmd.traces * Arc.walks arcs arc.dest dest).sum := by
    have hinner := h.filter_src_eq_nil (u := u) (by omega)
    have hinner' := h'.filter_src_eq_nil (u := u) (by omega)
    rw [Arc.walks_eq]
    congr 3
    simp only [harcs, List.filter_append, hinner, hinner', List.nil_append, List.append_nil]
  have hstart : Arc.walks arcs src dest =
      yes.traces * Arc.walks arcs first dest + no.traces * Arc.walks arcs first' dest := by
    rw [hstep (.inr (.inr hsrc))]
    simp [hne, show exit ≠ src by omega, show exit' ≠ src by omega]
  have hend : Arc.walks arcs dest dest = 1 := by
    rw [hstep (.inr (.inr hdest))]
    simp [hne, show exit ≠ dest by omega, show exit' ≠ dest by omega]
  have hexit : Arc.walks arcs exit dest = Command.traces [] := by
    rw [hstep (.inl rfl)]
    simp [hend, show exit ≠ dest by omega, show src ≠ exit by omega, show exit' ≠ exit by omega]
  have hexit' : Arc.walks arcs exit' dest = Command.traces [] := by
    rw [hstep (.inr (.inl rfl))]
    simp [hend, show exit' ≠ dest by omega, show src ≠ exit' by omega, show exit ≠ exit' by omega]
  rw [hstart, hentry, hentry', hexit, hexit', ← mul_assoc, ← mul_assoc]

end Body

/-! ### The walks through a method -/

mutual

/-- The walks through a statement are its traces. -/
theorem Stmt.walks_lower (src dest fresh : Nat) (hsrc : src < fresh) (hdest : dest < fresh)
    (hne : src ≠ dest) : (stmt : Stmt) →
    Arc.walks (stmt.lower src dest fresh).arcs src dest = stmt.traces
  | .prim cmd => by
    change Arc.walks [⟨src, dest, cmd⟩] src dest = cmd.traces
    have hend : Arc.walks [⟨src, dest, cmd⟩] dest dest = 1 := by
      rw [Arc.walks_eq]
      simp [hne]
    rw [Arc.walks_eq]
    simp [hne, hend]
  | .ifThen _ body => (body.body_lowerFrom fresh).walks_branch rfl hsrc hdest hne
  | .ifElse _ yes no => by
    refine (yes.body_lowerFrom fresh).walks_branches (no.body_lowerFrom _) le_rfl ?_ hsrc hdest hne
    simp [Stmt.lower, assumeTrue_eq_test, assumeFalse_eq_test]
  | .whileDo _ body => (body.body_lowerFrom fresh).walks_while rfl hsrc hdest hne
  | .doWhile body _ => (body.body_lowerFrom fresh).walks_doWhile rfl hsrc hdest hne

/-- A block whose first node is numbered before its other nodes is the body of a statement. -/
theorem Block.body_lowerFrom (fresh : Nat) (b : Block) :
    Body (b.lowerFrom fresh (fresh + 1)).1.arcs fresh (b.lowerFrom fresh (fresh + 1)).2
      (fresh + 1 + (b.lowerFrom fresh (fresh + 1)).1.views.length) b.traces := by
  have hexit := b.inside_exit fresh (fresh + 1)
  simp only [Inside] at hexit
  refine ⟨by omega, by omega, fun arc harc => ?_, b.walks_lowerFrom fresh (fresh + 1) (by omega)⟩
  have hinside := b.inside_lowerFrom fresh (fresh + 1) (by omega) arc harc
  simp only [Inside] at hinside
  omega

/-- The walks through a block are its traces. -/
theorem Block.walks_lowerFrom (cur fresh : Nat) (hcur : cur < fresh) : (b : Block) →
    Arc.walks (b.lowerFrom cur fresh).1.arcs cur (b.lowerFrom cur fresh).2 = b.traces
  | .done _ => by
    change Arc.walks [] cur cur = 1
    rw [Arc.walks_eq]
    simp
  | .next _ stmt rest => by
    have hstmt := stmt.walks_lower cur fresh (fresh + 1) (by omega) (by omega) (by omega)
    have hpart := stmt.inside_lower cur fresh (fresh + 1)
    simp only [Block.lowerFrom, Fragment.arcs_append, Fragment.arcs_ofView, List.nil_append]
    generalize (stmt.lower cur fresh (fresh + 1)).views.length = size at hpart ⊢
    have hrest := rest.walks_lowerFrom fresh (fresh + 1 + size) (by omega)
    have htail := rest.inside_lowerFrom fresh (fresh + 1 + size) (by omega)
    have hexit := rest.inside_exit fresh (fresh + 1 + size)
    rw [Block.traces, ← hstmt, ← hrest]
    refine Arc.walks_append (P := {n | Inside cur (fresh + 1) size n}) (Q := {n | Inside fresh
      (fresh + 1 + size) (rest.lowerFrom fresh (fresh + 1 + size)).1.views.length n})
      hpart (fun arc harc => ⟨(htail arc harc).1, (htail arc harc).2.2⟩) ?_ (.inl rfl) (.inl rfl)
      hexit
    intro n hP hQ
    simp only [Set.mem_ofPred_eq, Inside] at hP hQ
    omega

end

/-- The last node of a block is its first one, or one of its new nodes, and holds its last view. -/
theorem Block.getElem?_views_lowerFrom (cur fresh : Nat) : (b : Block) →
    (b.lowerFrom cur fresh).2 = cur ∧ b.last = b.entry ∨
      ∃ i, (b.lowerFrom cur fresh).2 = fresh + i ∧
        (b.lowerFrom cur fresh).1.views[i]? = some b.last
  | .done _ => .inl ⟨rfl, rfl⟩
  | .next _ stmt rest => by
    right
    simp only [Block.lowerFrom, Block.last, Fragment.views_append, Fragment.views_ofView]
    generalize hpart : (stmt.lower cur fresh (fresh + 1)).views = part
    rcases rest.getElem?_views_lowerFrom fresh (fresh + 1 + part.length) with
      ⟨hexit, hlast⟩ | ⟨i, hexit, hview⟩
    · exact ⟨0, hexit, by simp [hlast]⟩
    · have hlength : ([rest.entry] ++ part).length = 1 + part.length := by
        rw [List.length_append, List.length_singleton]
      refine ⟨1 + part.length + i, by omega, ?_⟩
      rw [List.getElem?_append_right (by omega), hlength, Nat.add_sub_cancel_left, hview]

/-- The walks along the edges of a flow. -/
def Flow.walks (g : Flow) (u v : String) : Language Command :=
  ViewLogic.walks (fun u cmd v => ∃ name, g.edges.get? name = some ⟨u, v, cmd⟩) u v

namespace Method

/-- The node at which a method starts. -/
def entryNode (m : Method) : String := nodeName m.name 0

/-- The node at which a method ends. -/
def exitNode (m : Method) : String := nodeName m.name (m.body.lowerFrom 0 1).2

/-- The walks along the edges of a method's flow are those along the numbered arcs. -/
theorem walks_flow (m : Method) (u v : Nat) :
    m.flow.walks (nodeName m.name u) (nodeName m.name v) = Arc.walks m.body.lower.arcs u v := by
  refine walks_map (fun n k h => (nodeName_inj.mp h).2) ?_ u v
  intro u cmd y
  constructor
  · rintro ⟨name, hname⟩
    obtain ⟨n, ⟨src, dest, cmd⟩, harc, -, heq⟩ := Fragment.get?_edges_toFlow.mp hname
    obtain ⟨hsrc, rfl, rfl⟩ := Edge.mk.inj heq
    obtain rfl := (nodeName_inj.mp hsrc).2
    exact ⟨dest, rfl, List.mem_of_getElem? harc⟩
  · rintro ⟨v, rfl, harc⟩
    obtain ⟨n, hn⟩ := List.getElem?_of_mem harc
    exact ⟨edgeName m.name n, Fragment.get?_edges_toFlow.mpr ⟨n, _, hn, rfl, rfl⟩⟩

/-- A method starts with its first view and ends with its last one, and the sequences of commands
along the walks from its start to its end are exactly the traces of its text. -/
theorem walks_flow_eq_traces (m : Method) :
    m.flow.nodes.get? m.entryNode = some m.body.entry.held ∧
      m.flow.nodes.get? m.exitNode = some m.body.last.held ∧
      m.flow.walks m.entryNode m.exitNode = m.body.traces := by
  refine ⟨?_, ?_, ?_⟩
  · exact Fragment.get?_nodes_toFlow.mpr ⟨0, m.body.entry, rfl, rfl, rfl⟩
  · rcases m.body.getElem?_views_lowerFrom 0 1 with ⟨hexit, hlast⟩ | ⟨i, hexit, hview⟩
    · rw [exitNode, hexit, hlast]
      exact Fragment.get?_nodes_toFlow.mpr ⟨0, m.body.entry, rfl, rfl, rfl⟩
    · rw [exitNode, hexit, Nat.add_comm]
      exact Fragment.get?_nodes_toFlow.mpr ⟨i + 1, m.body.last, hview, rfl, rfl⟩
  · rw [entryNode, exitNode, walks_flow]
    exact m.body.walks_lowerFrom 0 1 Nat.zero_lt_one

end Method

end ViewLogic

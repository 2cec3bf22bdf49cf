import ViewLogic.Proofs.Answers
import ViewLogic.Proofs.Preservation

/-!
# Soundness of verification

If a report says that everything is proved, then every state of a run satisfies what is held at its
node, once the first one does. Runs go along the flow that a method is lowered to, before any edge
is folded. The stages come together here: the flow is reduced without losing an edge that does
something, every edge left has its triple in the model, every triple has its obligations, and each
of these is valid.
-/

namespace ViewLogic

/-- A walk through a flow from a node and a state to another node and state, where `step` relates
the states before and after the command of each edge. -/
inductive Flow.Run (g : Flow) (step : Command → Valuation Var → Valuation Var → Prop)
    (start : String) (first : Valuation Var) : String → Valuation Var → Prop where
  | refl : Run g step start first start first
  | edge {name : String} {e : Edge} {s s' : Valuation Var} (run : Run g step start first e.src s)
      (hedge : g.edges.get? name = some e) (hstep : step e.cmd s s') :
      Run g step start first e.dest s'

namespace Obligation.Context

variable {ctx : Context} {I : Interpretation} {m : Mark} {held : Bag (Held Var)}
  {s s' : Valuation Var}

/-- A state satisfies a held bag: every match of the bag that can be instantiated at a moment is
true where the variables of that moment have the values of the state. -/
def Satisfies (ctx : Context) (I : Interpretation) (m : Mark) (held : Bag (Held Var))
    (s : Valuation Var) : Prop :=
  ∀ v ∈ (reify held ctx.patterns).elements, ∀ r, ctx.instantiate m v = .ok r →
    ∀ ρ : Valuation MarkedVar, ρ.stateAt m = s → r.eval I ρ = true

/-- Every match of a held bag can be instantiated, at any moment. -/
def Instantiable (ctx : Context) (held : Bag (Held Var)) : Prop :=
  ∀ v ∈ (reify held ctx.patterns).elements, ∀ m, ∃ r, ctx.instantiate m v = .ok r

/-- A command leads from one state to another: its relation holds between them for some values of
the intermediate variables. Variables that are not declared may change freely. -/
def Leads (ctx : Context) (I : Interpretation) (cmd : Command) (s s' : Valuation Var) : Prop :=
  ∃ r ρ, ctx.semantics.commandRelation ctx.scope cmd = .ok r ∧ r.eval I ρ = true ∧
    ρ.stateAt .before = s ∧ ρ.stateAt .after = s'

/-- The valuation that has the values of a state at every moment. -/
def steady (s : Valuation Var) : Valuation MarkedVar :=
  ⟨fun v => s.int v.name, fun v => s.bool v.name⟩

/-- In a satisfying state, every match that can be instantiated says the truth. -/
theorem Satisfies.says_of_instantiate (h : ctx.Satisfies I m held s) {v : Match Var}
    (hv : v ∈ (reify held ctx.patterns).elements) {m' : Mark} {r : Relation}
    (hr : ctx.instantiate m' v = .ok r) : ctx.Says I v s := by
  obtain ⟨r', hr'⟩ := exists_instantiate hr m
  have htrue : r'.eval I (steady s) = true := h v hv r' hr' (steady s) rfl
  exact (eval_instantiate (ctx.shows_stateAt (steady s) m) hr').mp htrue

/-- A state satisfies a held bag if every match says something true of it. -/
theorem satisfies_of_says (h : ∀ v ∈ (reify held ctx.patterns).elements, ctx.Says I v s) :
    ctx.Satisfies I m held s := by
  rintro v hv r hr ρ rfl
  exact (eval_instantiate (ctx.shows_stateAt ρ m) hr).mpr (h v hv)

/-- States that agree on the declared variables satisfy the same bags. -/
theorem Satisfies.congr (h : ctx.Satisfies I m held s) (hglobals : ctx.globals.Agree s s')
    (hscope : ctx.scope.Agree s s') : ctx.Satisfies I m held s' := by
  rintro v hv r hr ρ rfl
  have htrue : r.eval I (steady s) = true := h v hv r hr (steady s) rfl
  have hshows : ctx.Shows (steady s) m (ρ.stateAt m) := ⟨hglobals, hscope⟩
  rw [eval_instantiate hshows hr] at htrue
  rwa [eval_instantiate (ctx.shows_stateAt ρ m) hr]

/-- The empty command changes no declared variable. -/
theorem Leads.agree (h : ctx.Leads I [] s s') : ctx.scope.Agree s s' := by
  obtain ⟨r, ρ, hr, hρ, rfl, rfl⟩ := h
  cases hr
  exact Semantics.eval_frame_nil.mp hρ

/-- Valid obligations of a triple between held bags carry satisfaction along its command. -/
theorem Satisfies.of_valid {t : Triple} {held' : Bag (Held Var)} {os : List Obligation}
    (hpre : t.pre = reify held ctx.patterns) (hpost : t.post = reify held' ctx.patterns)
    (hfold : ctx.FoldsSoundly t.cmd) (hos : ctx.obligations t = .ok os)
    (hvalid : ∀ o ∈ os, o.Valid I) (hstep : ctx.Leads I t.cmd s s')
    (h : ctx.Satisfies I m held s) : ctx.Satisfies I m held' s' := by
  obtain ⟨r, ρ, hr, hρ, rfl, rfl⟩ := hstep
  apply satisfies_of_says
  rw [← hpost]
  refine says_of_valid hfold hos hvalid hr hρ ?_
  intro v hv
  obtain ⟨_, _, _, hheld, -⟩ := exists_obligation hos
  obtain ⟨r', -, hr'⟩ := (mapM_eq_ok hheld).1 v hv
  exact h.says_of_instantiate (hpre ▸ hv) hr'

/-- A bag that obligations were built for can be instantiated. -/
theorem instantiable_of_obligations {t : Triple} {os : List Obligation}
    (hpost : t.post = reify held ctx.patterns) (hos : ctx.obligations t = .ok os) :
    ctx.Instantiable held := by
  intro v hv m
  obtain ⟨_, _, _, -, -, hgoals, -⟩ := exists_obligation hos
  obtain ⟨r, -, hr⟩ := (mapM_eq_ok hgoals).1 v (hpost ▸ hv)
  exact exists_instantiate hr m

end Obligation.Context

/-! ### Verified methods -/

open Obligation

namespace Command

/-- Folding assumed conditions is sound for the commands that edges carry, if it is for the
primitive commands of the text. -/
theorem Lowered.foldsSoundly {ctx : Context} {prims : List Command} {cmd : Command}
    (h : Lowered prims cmd)
    (hrule : ctx.options.foldAssumes = true →
      ctx.semantics.rules.get? assumeName = Semantics.minimal.rules.get? assumeName ∧
        ∀ prim ∈ prims, ∀ cond, prim.assumed? = some cond →
          ∀ leaf ∈ cond.leaves, leaf.var.mark = .before) :
    ctx.FoldsSoundly cmd := by
  intro hon
  obtain ⟨hassume, hprims⟩ := hrule hon
  refine ⟨hassume, fun cond hcond leaf hleaf => ?_⟩
  cases h with
  | prim hmem => exact hprims cmd hmem cond hcond leaf hleaf
  | nop => cases hcond
  | condition cond' =>
    cases hcond
    exact BoolExpr.mark_of_mem_leaves_mark hleaf

end Command

section Runs

variable {f : Flow} {ctx : Context} {I : Interpretation} {m : Mark}

/-- One edge of a flow carries satisfaction along, if the triples of a reduced graph have valid
obligations. An edge that the graph has lost does nothing between nodes that hold the same. -/
theorem Flow.Reduces.satisfies_step {g : Graph} {π : String → String} (h : f.Reduces g.flow π)
    (hsub : ∀ x ty, ctx.globals.get? x = some ty → ctx.scope.get? x = some ty)
    (hvalid : ∀ t ∈ g.triples ctx.patterns, ∃ os, ctx.obligations t = .ok os ∧
      ∀ o ∈ os, o.Valid I)
    {name : String} {e : Edge} (he : f.edges.get? name = some e) (hfold : ctx.FoldsSoundly e.cmd)
    {held : Bag (Held Var)} (hheld : f.nodes.get? e.src = some held) {s s' : Valuation Var}
    (hs : ctx.Satisfies I m held s) (hstep : ctx.Leads I e.cmd s s') :
    ∃ held', f.nodes.get? e.dest = some held' ∧ ctx.Satisfies I m held' s' ∧
      (ctx.Instantiable held → ctx.Instantiable held') := by
  rcases h.edges name e he with hfoldable | hkept
  · obtain ⟨hcmd, held', hsrc, hdest⟩ := Flow.foldable_iff.mp hfoldable
    rw [hheld] at hsrc
    cases hsrc
    rw [hcmd] at hstep
    exact ⟨held, hdest, hs.congr (hstep.agree.mono hsub) hstep.agree, id⟩
  · obtain ⟨src, dest, hsrc, hdest⟩ := g.exists_ends hkept
    have hsame : some held = some src := by
      rw [← hheld, ← h.nodes, ← hsrc, Edge.rename]
    cases hsame
    have ht : ⟨name, reify held ctx.patterns, e.cmd, reify dest ctx.patterns⟩ ∈
        g.triples ctx.patterns :=
      Graph.mem_triples.mpr ⟨_, held, dest, hkept, hsrc, hdest, rfl⟩
    obtain ⟨os, hos, hos_valid⟩ := hvalid _ ht
    refine ⟨dest, ?_, hs.of_valid rfl rfl hfold hos hos_valid hstep, ?_⟩
    · rw [← h.nodes, ← hdest, Edge.rename]
    · intro _
      exact Context.instantiable_of_obligations rfl hos

/-- What every edge carries along, a whole run carries along. -/
theorem Flow.Run.carries {step : Command → Valuation Var → Valuation Var → Prop}
    {P : Bag (Held Var) → Valuation Var → Prop}
    (hedges : ∀ name e, f.edges.get? name = some e → ∀ held s s',
      f.nodes.get? e.src = some held → P held s → step e.cmd s s' →
      ∃ held', f.nodes.get? e.dest = some held' ∧ P held' s')
    {start node : String} {first last : Valuation Var} {held : Bag (Held Var)}
    (hrun : f.Run step start first node last) (hstart : f.nodes.get? start = some held)
    (hfirst : P held first) :
    ∃ held', f.nodes.get? node = some held' ∧ P held' last := by
  induction hrun with
  | refl => exact ⟨held, hstart, hfirst⟩
  | edge run hedge hstep ih =>
    obtain ⟨held', hsrc, hs⟩ := ih
    exact hedges _ _ hedge held' _ _ hsrc hs hstep

end Runs

namespace Script

variable {s : Script} {semantics : Semantics} {options : Options} {ctx : Context}

/-- The context of a script has the given semantics and options, and its scope extends the
globals. -/
theorem of_context (h : s.context semantics options = .ok ctx) :
    ctx.semantics = semantics ∧ ctx.options = options ∧
      ∀ x ty, ctx.globals.get? x = some ty → ctx.scope.get? x = some ty := by
  obtain ⟨globals, -, h⟩ := bind_eq_ok.mp h
  obtain ⟨locals, -, h⟩ := bind_eq_ok.mp h
  obtain ⟨scope, hscope, h⟩ := bind_eq_ok.mp h
  cases h
  exact ⟨rfl, rfl, fun x ty => Scope.get?_of_merge hscope⟩

/-- If a report says that everything is proved, then every run of a method that starts in a state
that satisfies what is held at its first node ends in a state that satisfies what is held at its
last node. If the matches at the first node can be instantiated, then so can those at the last
one. -/
theorem satisfies_of_allProved {pool : Pool} (hpool : pool.InOrder) {report : Report Relation}
    (hnames : (s.methods.map (·.name)).Nodup)
    (hfold : options.foldAssumes = true →
      semantics.rules.get? Command.assumeName =
          Semantics.minimal.rules.get? Command.assumeName ∧
        ∀ method ∈ s.methods, ∀ cmd ∈ method.body.prims, ∀ cond, cmd.assumed? = some cond →
          ∀ leaf ∈ cond.leaves, leaf.var.mark = .before)
    (h : s.verifyOn pool semantics options .propagation = .ok report)
    (hproved : report.allProved = true) :
    ∃ ctx, s.context semantics options = .ok ctx ∧
      ∀ method ∈ s.methods, ∀ (I : Interpretation) (m : Mark) (start node : String)
        (held : Bag (Held Var)) (first last : Valuation Var),
        method.flow.nodes.get? start = some held →
        method.flow.Run (ctx.Leads I) start first node last →
        ctx.Satisfies I m held first →
        ∃ held', method.flow.nodes.get? node = some held' ∧ ctx.Satisfies I m held' last ∧
          (ctx.Instantiable held → ctx.Instantiable held') := by
  obtain ⟨model, ctx, hmodel, hclean, hctx, hdefinitions, hanswered⟩ :=
    answered_of_allProved hpool h hproved
  obtain ⟨rfl, rfl, hsub⟩ := of_context hctx
  refine ⟨ctx, hctx, ?_⟩
  intro method hmethod I m start node held first last hstart hrun hfirst
  obtain ⟨g, hgraph, htriples⟩ := get?_triples hnames hmodel hclean hmethod
  obtain ⟨π, hreduces⟩ := Method.reduces_of_graph hgraph
  have hvalid : ∀ t ∈ g.triples ctx.patterns, ∃ os, ctx.obligations t = .ok os ∧
      ∀ o ∈ os, o.Valid I := by
    intro t ht
    rw [Context.patterns, hdefinitions] at ht
    obtain ⟨os, hos, hresponses⟩ := hanswered t (SortedMap.mem_values_of_get? (htriples t ht))
    refine ⟨os, hos, fun o ho => ?_⟩
    obtain ⟨response, hresponse, hunsat⟩ := hresponses o ho
    exact Obligation.valid_of_respond I hresponse hunsat
  refine hrun.carries (P := fun held' s => ctx.Satisfies I m held' s ∧
    (ctx.Instantiable held → ctx.Instantiable held')) ?_ hstart ⟨hfirst, id⟩
  rintro name e he held₁ s s' hheld₁ ⟨hs, hinst⟩ hstep
  have hsound : ctx.FoldsSoundly e.cmd := by
    refine (Method.of_get?_edges_flow he).2.foldsSoundly fun hon => ?_
    exact ⟨(hfold hon).1, (hfold hon).2 method hmethod⟩
  obtain ⟨held₂, hheld₂, hs', hinst'⟩ :=
    hreduces.satisfies_step hsub hvalid he hsound hheld₁ hs hstep
  exact ⟨held₂, hheld₂, hs', hinst' ∘ hinst⟩

/-- A loop that sets `b` and ends once it is set. A run that enters it with `b` unset goes through
its body once and comes to the last node, where `b` holds. -/
theorem satisfies_of_allProved_loop :
    let I : Interpretation := ⟨fun _ => 0, 0, fun _ _ => false, fun _ _ => 0, fun _ _ => false⟩
    let unset : BoolExpr Var := .not (.var "b")
    let setB : Command := [⟨"BAssign", [.bool (.var ⟨.after, "b"⟩), .bool (.lit true)]⟩]
    let body : Block :=
      .next .unit (.prim (assumeTrue unset)) (.next .unit (.prim setB) (.done .unit))
    let method : Method :=
      ⟨"m", .next .unit (.whileDo unset body) (.done (.atom ⟨"Set", []⟩))⟩
    let script : Script :=
      ⟨[⟨"Set", []⟩], [⟨.bool, "b"⟩], [], [⟨.atom ⟨"Set", []⟩, some (.var "b")⟩], [method]⟩
    let state (b : Bool) : Valuation Var := ⟨fun _ => 0, fun _ => b⟩
    ∃ report ctx held, script.verify .core .standard .propagation = .ok report ∧
      report.allProved = true ∧ script.context .core .standard = .ok ctx ∧
      method.flow.Run (ctx.Leads I) "m_V0" (state false) "m_V1" (state true) ∧
      method.flow.nodes.get? "m_V1" = some held ∧ ctx.Satisfies I .after held (state true) ∧
      ctx.Instantiable held := by
  intro I unset setB body method script state
  have hverify : (script.verify .core .standard .propagation).map (·.allProved) = .ok true := by
    decide +kernel
  obtain ⟨report, hreport, hproved⟩ := map_eq_ok.mp hverify
  have hassumes : ∀ method ∈ script.methods, ∀ cmd ∈ method.body.prims, ∀ cond,
      cmd.assumed? = some cond → ∀ leaf ∈ cond.leaves, leaf.var.mark = .before := by
    simp only [script, List.mem_singleton, forall_eq]
    intro cmd hcmd cond hcond leaf hleaf
    obtain rfl | rfl : cmd = assumeTrue unset ∨ cmd = setB := by
      simpa [method, body, Block.prims, Stmt.prims] using hcmd
    · cases hcond
      exact BoolExpr.mark_of_mem_leaves_mark hleaf
    · cases hcond
  obtain ⟨ctx, hctx, hsound⟩ := satisfies_of_allProved Pool.single_inOrder (by decide)
    (fun _ => ⟨by cbv, hassumes⟩) hreport hproved
  have hleads (cmd : Command) (x y : Bool)
      (h : (script.context .core .standard >>= fun ctx =>
        (ctx.semantics.commandRelation ctx.scope cmd).map fun r =>
          r.eval I ⟨fun _ => 0, fun v => if v.mark = .after then y else x⟩) = .ok true) :
      ctx.Leads I cmd (state x) (state y) := by
    rw [hctx] at h
    obtain ⟨r, hr, h⟩ := map_eq_ok.mp h
    exact ⟨r, _, hr, h, rfl, rfl⟩
  have hassume : ctx.Leads I (assumeTrue unset) (state false) (state false) :=
    hleads _ _ _ (by decide +kernel)
  have hset : ctx.Leads I setB (state false) (state true) := hleads _ _ _ (by decide +kernel)
  have hback : ctx.Leads I [] (state true) (state true) := hleads _ _ _ (by decide +kernel)
  have hexit : ctx.Leads I (assumeFalse unset) (state true) (state true) :=
    hleads _ _ _ (by decide +kernel)
  have hrun : method.flow.Run (ctx.Leads I) "m_V0" (state false) "m_V1" (state true) := by
    have h₂ : method.flow.edges.get? "m_C2" = some ⟨"m_V0", "m_V2", assumeTrue unset⟩ := by
      decide +kernel
    have h₀ : method.flow.edges.get? "m_C0" = some ⟨"m_V2", "m_V3", assumeTrue unset⟩ := by
      decide +kernel
    have h₁ : method.flow.edges.get? "m_C1" = some ⟨"m_V3", "m_V4", setB⟩ := by decide +kernel
    have h₃ : method.flow.edges.get? "m_C3" = some ⟨"m_V4", "m_V0", []⟩ := by decide +kernel
    have h₄ : method.flow.edges.get? "m_C4" = some ⟨"m_V0", "m_V1", assumeFalse unset⟩ := by
      decide +kernel
    have hbody : method.flow.Run (ctx.Leads I) "m_V0" (state false) "m_V3" (state false) :=
      .edge (.edge .refl h₂ hassume) h₀ hassume
    exact .edge (.edge (.edge hbody h₁ hset) h₃ hback) h₄ hexit
  have hstart : method.flow.nodes.get? "m_V0" = some .empty := by decide +kernel
  have hnone (v : Match Var) : v ∉ (reify (.empty : Bag (Held Var)) ctx.patterns).elements := by
    have hempty : (script.context .core .standard).map (fun ctx =>
        (reify (.empty : Bag (Held Var)) ctx.patterns).elements.isEmpty) = .ok true := by
      decide +kernel
    rw [hctx] at hempty
    rw [List.isEmpty_iff.mp (Except.ok.inj hempty)]
    exact List.not_mem_nil
  obtain ⟨held, hheld, hlast, hinst⟩ := hsound method (by simp [script]) I .after _ _ _ _ _ hstart
    hrun fun v hv => absurd hv (hnone v)
  exact ⟨report, ctx, held, hreport, hproved, hctx, hrun, hheld, hlast,
    hinst fun v hv => absurd hv (hnone v)⟩

end Script

end ViewLogic

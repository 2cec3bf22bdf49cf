import Mathlib.Data.List.Nodup
import ViewLogic.Proofs.Entries
import ViewLogic.Proofs.Resolution
import ViewLogic.Proofs.SmtSyntax
import ViewLogic.Proofs.Translatable

/-!
# Scripts declare the variables of their formulas

The declarations of a script are collected from the leaves of the formula, one leaf after another,
while its assertion is written along the operands. Both visit the same leaves: every variable of the
formula is declared once, at the type at which it is read, and under a symbol of its own. A reader
finds these declarations in the script, before an assertion of a term with the same symbols.
-/

namespace ViewLogic

/-! ### Reading scripts -/

namespace Smt

/-- The expressions that a whole text is read as, one after another. -/
def readAll? (text : String) : Option (List SExpr) := do
  let r ← Reader.run ⟨.between, [[]]⟩ text.toList
  match ← r.flush with
  | [items] => some items.reverse
  | _ => none

/-- Lines are read one after another. -/
theorem Reader.run_lines {lines : List String} {xs : List SExpr}
    (h : List.Forall₂ Spells lines xs) (items : List SExpr) (stack : Stack) :
    run ⟨.between, items :: stack⟩ (lines.flatMap fun line => line.toList ++ ['\n']) =
      some ⟨.between, (xs.reverse ++ items) :: stack⟩ := by
  induction h generalizing items with
  | nil => rfl
  | @cons line x lines xs hx _ ih =>
    obtain ⟨r, hrun, hflush⟩ := hx items stack
    have hbreak : r.run ['\n'] = some ⟨.between, (x :: items) :: stack⟩ := by
      rw [run_cons, step_of_flush hflush (by decide)]
      rfl
    rw [List.flatMap_cons, run_append, run_append, hrun, Option.bind_some, hbreak,
      Option.bind_some, ih, List.reverse_cons, List.append_assoc, List.singleton_append]

/-- A text of lines is read as the expressions of the lines. -/
theorem readAll?_lines {lines : List String} {xs : List SExpr}
    (h : List.Forall₂ Spells lines xs) :
    readAll? (String.join (lines.map (· ++ "\n"))) = some xs := by
  have hchars : (String.join (lines.map (· ++ "\n"))).toList =
      lines.flatMap fun line => line.toList ++ ['\n'] := by
    simp [String.toList_join, List.flatMap_map]
  rw [readAll?, hchars, Reader.run_lines h]
  simp [Reader.flush]

/-- The command that declares a variable. -/
def declaration (d : Leaf MarkedVar) : SExpr :=
  .list [.word "declare-const", .quoted d.var.render, .word (Relation.smtSort d.ty)]

/-- The commands of a script that declares variables and asserts a term. -/
def script (decls : List (Leaf MarkedVar)) (x : SExpr) : List SExpr :=
  .list [.word "set-logic", .word "QF_NIA"] :: decls.map declaration ++
    [.list [.word "assert", x], .list [.word "check-sat"]]

/-- The first line of a script spells the command that sets the logic. -/
theorem spells_setLogic :
    Spells "(set-logic QF_NIA)" (.list [.word "set-logic", .word "QF_NIA"]) := by
  intro items stack
  exact ⟨_, rfl, rfl⟩

/-- The line of a declaration spells its command, if the name can be quoted. -/
theorem spells_declaration {d : Leaf MarkedVar} (h : Quotable d.var.name) :
    Spells
      ("(declare-const " ++ (SmtTerm.ofVar d.var).render ++ " " ++ Relation.smtSort d.ty ++ ")")
      (declaration d) := by
  have hsymbol : Spells (SmtTerm.ofVar d.var).render (.quoted d.var.render) :=
    spells_quoted (MarkedVar.quotable_render h)
  have hsort : Spells (Relation.smtSort d.ty) (.word (Relation.smtSort d.ty)) := by
    cases d.ty <;> exact spells_word (by decide) (by decide)
  have hword : Spells "declare-const" (.word "declare-const") :=
    spells_word (by decide) (by decide)
  generalize (SmtTerm.ofVar d.var).render = symbol at hsymbol ⊢
  simpa [declaration, String.append_assoc] using
    spells_app hword (.cons hsymbol (.cons hsort .nil)) (List.cons_ne_nil _ _)

/-- The line of an assertion spells the assertion of what its body spells. -/
theorem spells_assertion {body : String} {x : SExpr} (h : Spells body x) :
    Spells ("(assert " ++ body ++ ")") (.list [.word "assert", x]) := by
  have hword : Spells "assert" (.word "assert") := spells_word (by decide) (by decide)
  simpa using spells_app hword (.cons h .nil) (List.cons_ne_nil _ _)

/-- The last line of a script spells the command that asks for a verdict. -/
theorem spells_checkSat : Spells "(check-sat)" (.list [.word "check-sat"]) := by
  intro items stack
  exact ⟨_, rfl, rfl⟩

/-- The text of a script is read as its commands. -/
theorem readAll?_script {decls : List (Leaf MarkedVar)} {body : String} {x : SExpr}
    (hnames : ∀ d ∈ decls, Quotable d.var.name) (hbody : Spells body x) :
    readAll? ("(set-logic QF_NIA)\n" ++
      String.join (decls.map fun d => Relation.declarationLine d.var d.ty) ++
        "(assert " ++ body ++ ")\n(check-sat)\n") = some (script decls x) := by
  let line (d : Leaf MarkedVar) : String :=
    "(declare-const " ++ (SmtTerm.ofVar d.var).render ++ " " ++ Relation.smtSort d.ty ++ ")"
  have hdecls : List.Forall₂ Spells (decls.map line) (decls.map declaration) := by
    rw [List.forall₂_map_left_iff, List.forall₂_map_right_iff, List.forall₂_same]
    exact fun d hd => spells_declaration (hnames d hd)
  have hlines : List.Forall₂ Spells ("(set-logic QF_NIA)" :: decls.map line ++
      ["(assert " ++ body ++ ")", "(check-sat)"]) (script decls x) :=
    List.rel_append (.cons spells_setLogic hdecls)
      (.cons (spells_assertion hbody) (.cons spells_checkSat .nil))
  have hbreaks : decls.map ((· ++ "\n") ∘ line) =
      decls.map fun d => Relation.declarationLine d.var d.ty := by
    refine List.map_congr_left fun d _ => ?_
    rw [Function.comp_apply, String.append_assoc]
    rfl
  rw [← readAll?_lines hlines]
  simp [hbreaks, String.append_assoc]

end Smt

/-! ### Declarations -/

namespace Relation

variable {e : Relation}

/-- Declaring a leaf adds it to what is declared. -/
theorem get?_of_declareLeaf {decls decls' : SortedMap MarkedVar Ty} {leaf : Leaf MarkedVar}
    (h : declareLeaf decls leaf = .ok decls') {v : MarkedVar} {ty : Ty} :
    decls'.get? v = some ty ↔ decls.get? v = some ty ∨ ⟨ty, v⟩ = leaf := by
  obtain ⟨ty', v'⟩ := leaf
  unfold declareLeaf at h
  split at h
  next found hfound =>
    split at h
    next hty =>
      cases h
      subst hty
      refine (or_iff_left_of_imp ?_).symm
      rintro ⟨⟩
      exact hfound
    next => cases h
  next hnone =>
    cases h
    by_cases hv : v = v'
    · subst hv
      have hnone' : decls.get? v = none := hnone
      simp [SortedMap.get?_insert_self, hnone', eq_comm]
    · simp [SortedMap.get?_insert_of_ne _ hv, hv]

/-- Declaring leaves adds them to what is declared. -/
theorem get?_of_foldlM_declareLeaf {leaves : List (Leaf MarkedVar)}
    {decls decls' : SortedMap MarkedVar Ty} (h : leaves.foldlM declareLeaf decls = .ok decls')
    {v : MarkedVar} {ty : Ty} :
    decls'.get? v = some ty ↔ decls.get? v = some ty ∨ ⟨ty, v⟩ ∈ leaves := by
  induction leaves generalizing decls with
  | nil =>
    cases h
    simp
  | cons leaf leaves ih =>
    rw [List.foldlM_cons] at h
    obtain ⟨mid, hmid, h⟩ := bind_eq_ok.mp h
    rw [ih h, get?_of_declareLeaf hmid, List.mem_cons, or_assoc]

/-- The recorder declares a variable and keeps it. -/
theorem looks_recorder : recorder.Looks record ⟨.var, .var⟩ :=
  ⟨fun _ => rfl, fun _ => rfl⟩

/-- Recording leaves one after the other is a fold of their declarations. -/
theorem run_forM_record (leaves : List (Leaf MarkedVar)) (decls : SortedMap MarkedVar Ty) :
    (leaves.forM record).run decls = (fun d => ((), d)) <$> leaves.foldlM declareLeaf decls := by
  induction leaves generalizing decls with
  | nil => rfl
  | cons leaf leaves ih =>
    have hrecord : (record leaf).run decls = (fun d => ((), d)) <$> declareLeaf decls leaf := by
      simp [record]
    rw [List.forM, StateT.run_bind, hrecord, bind_map_left, List.foldlM_cons, map_bind]
    simp only [ih]

/-- The traversal of a formula that records its variables is a fold over the leaves. -/
theorem declarations_eq_foldlM (e : Relation) :
    e.declarations = e.leaves.foldlM declareLeaf ∅ := by
  rw [declarations, (Expr.resolve_eq_forM looks_recorder).2.1, StateT.run_bind, run_forM_record]
  simp

/-- The declared variables of a formula are its leaves. -/
theorem get?_declarations {decls : SortedMap MarkedVar Ty} (h : e.declarations = .ok decls)
    {v : MarkedVar} {ty : Ty} : decls.get? v = some ty ↔ ⟨ty, v⟩ ∈ e.leaves := by
  rw [declarations_eq_foldlM] at h
  rw [get?_of_foldlM_declareLeaf h]
  simp

/-- The variables of a formula can be declared if and only if none is read at both types. -/
theorem exists_declarations_iff : (∃ decls, e.declarations = .ok decls) ↔
    ∀ leaf ∈ e.leaves, ∀ leaf' ∈ e.leaves, leaf.var = leaf'.var → leaf.ty = leaf'.ty := by
  constructor
  · rintro ⟨decls, hdecls⟩ ⟨ty, v⟩ hleaf ⟨ty', _⟩ hleaf' rfl
    have hget := (get?_declarations hdecls).mpr hleaf
    rw [(get?_declarations hdecls).mpr hleaf'] at hget
    exact (Option.some.inj hget).symm
  · intro h
    rw [declarations_eq_foldlM]
    refine exists_foldlM_eq_ok
      (P := fun decls => ∀ v ty, decls.get? v = some ty → ⟨ty, v⟩ ∈ e.leaves) ?_ ?_
    · intro decls leaf hleaf hdecls
      have hstep : ∃ decls', declareLeaf decls leaf = .ok decls' := by
        unfold declareLeaf
        split
        next ty hty =>
          have heq : ty = leaf.ty := h ⟨ty, leaf.var⟩ (hdecls leaf.var ty hty) leaf hleaf rfl
          exact ⟨decls, if_pos heq⟩
        next => exact ⟨_, rfl⟩
      obtain ⟨decls', hdecls'⟩ := hstep
      refine ⟨decls', hdecls', fun v ty hv => ?_⟩
      rcases (get?_of_declareLeaf hdecls').mp hv with hv | rfl
      · exact hdecls v ty hv
      · exact hleaf
    · intro v ty hv
      cases hv

/-! ### Scripts -/

/-- The declared variables, each with its type. -/
def declared (decls : SortedMap MarkedVar Ty) : List (Leaf MarkedVar) :=
  decls.entries.map fun d => ⟨d.2, d.1⟩

/-- What a script declares are the leaves of its formula. -/
theorem mem_declared {decls : SortedMap MarkedVar Ty} (h : e.declarations = .ok decls)
    (leaf : Leaf MarkedVar) : leaf ∈ declared decls ↔ leaf ∈ e.leaves := by
  rw [← get?_declarations h, SortedMap.get?_eq_some_iff, declared, List.mem_map]
  constructor
  · rintro ⟨d, hd, rfl⟩
    exact hd
  · intro hd
    exact ⟨_, hd, rfl⟩

/-- Declared variables have different symbols. -/
theorem nodup_symbols_declared (decls : SortedMap MarkedVar Ty) :
    ((declared decls).map fun d => (SmtTerm.ofVar d.var).render).Nodup := by
  have hinj : Function.Injective fun v : MarkedVar => (SmtTerm.ofVar v).render := by
    intro v w h
    have hbars : "|" ++ v.render ++ "|" = "|" ++ w.render ++ "|" := h
    exact MarkedVar.render_inj (by simpa using hbars)
  have hkeys := decls.nodup_keys.map hinj
  rw [SortedMap.keys, List.map_map] at hkeys
  rwa [declared, List.map_map]

/-- A script consists of the logic, the declarations, the asserted text and the request for a
verdict. -/
theorem smtScript_eq_ok {text : String} : e.smtScript = .ok text ↔
    ∃ decls body, e.declarations = .ok decls ∧ e.smtText = .ok body ∧
      text = "(set-logic QF_NIA)\n" ++
        String.join ((declared decls).map fun d => declarationLine d.var d.ty) ++
          "(assert " ++ body ++ ")\n(check-sat)\n" := by
  have hlines (decls : SortedMap MarkedVar Ty) :
      ((declared decls).map fun d => declarationLine d.var d.ty) =
        decls.entries.map fun d => declarationLine d.1 d.2 :=
    List.map_map
  simp only [hlines]
  constructor
  · intro h
    obtain ⟨decls, hdecls, h⟩ := bind_eq_ok.mp h
    obtain ⟨body, hbody, h⟩ := bind_eq_ok.mp h
    cases h
    exact ⟨decls, body, hdecls, hbody, rfl⟩
  · rintro ⟨decls, body, hdecls, hbody, rfl⟩
    exact bind_eq_ok.mpr ⟨decls, hdecls, bind_eq_ok.mpr ⟨body, hbody, rfl⟩⟩

/-- A formula has a script exactly if it can be translated and its variables can be declared. -/
theorem exists_smtScript_iff : (∃ text, e.smtScript = .ok text) ↔
    e.mentionsSymbolic = false ∧ e.mentionsEmptyDiff = false ∧
      ∀ leaf ∈ e.leaves, ∀ leaf' ∈ e.leaves, leaf.var = leaf'.var → leaf.ty = leaf'.ty := by
  rw [← and_assoc, ← Expr.exists_smtTerm.2.1, ← exists_declarations_iff]
  constructor
  · rintro ⟨text, htext⟩
    obtain ⟨decls, body, hdecls, hbody, -⟩ := smtScript_eq_ok.mp htext
    obtain ⟨t, ht, -⟩ := map_eq_ok.mp hbody
    exact ⟨⟨t, ht⟩, decls, hdecls⟩
  · rintro ⟨⟨t, ht⟩, decls, hdecls⟩
    exact ⟨_, smtScript_eq_ok.mpr ⟨decls, t.render, hdecls, map_eq_ok.mpr ⟨t, ht, rfl⟩, rfl⟩⟩

open Smt in
/-- A formula has a script if and only if it holds no symbolic leaf and no difference of no operands
and reads no variable at both types. Whatever the names of its variables are, the script declares
exactly these, each once and at the type at which it is read, and under different symbols. If the
names can be quoted, then a reader finds these declarations in the script, and after them the
assertion of a term whose symbols are the variables of the formula. -/
theorem smtScript_declares_leaves (e : Relation) :
    ((∃ text, e.smtScript = .ok text) ↔
      e.mentionsSymbolic = false ∧ e.mentionsEmptyDiff = false ∧
        ∀ leaf ∈ e.leaves, ∀ leaf' ∈ e.leaves, leaf.var = leaf'.var → leaf.ty = leaf'.ty) ∧
      ∀ text, e.smtScript = .ok text → ∃ (decls : List (Leaf MarkedVar)) (body : String),
        e.smtText = .ok body ∧
        text = "(set-logic QF_NIA)\n" ++
          String.join (decls.map fun d => declarationLine d.var d.ty) ++
            "(assert " ++ body ++ ")\n(check-sat)\n" ∧
        (∀ leaf, leaf ∈ decls ↔ leaf ∈ e.leaves) ∧
        (decls.map fun d => (SmtTerm.ofVar d.var).render).Nodup ∧
        ((∀ leaf ∈ e.leaves, Quotable leaf.var.name) → ∃ x, read? body = some x ∧
          readAll? text = some (script decls x) ∧
          x.symbols = e.leaves.map (·.var.render)) := by
  refine ⟨exists_smtScript_iff, fun text htext => ?_⟩
  obtain ⟨decls, body, hdecls, hbody, rfl⟩ := smtScript_eq_ok.mp htext
  refine ⟨declared decls, body, hbody, rfl, mem_declared hdecls, nodup_symbols_declared decls, ?_⟩
  intro hnames
  obtain ⟨x, hspells, hsymbols, -⟩ := writes_smtText hbody hnames
  have hdeclared : ∀ d ∈ declared decls, Quotable d.var.name :=
    fun d hd => hnames d ((mem_declared hdecls d).mp hd)
  exact ⟨x, hspells.read?_eq, readAll?_script hdeclared hspells, hsymbols⟩

open Smt in
/-- The symbols of `x` and `x!0` before the command, of `x` at stage zero and of `x!before` after
the command are different, and each of these variables is declared once. A further use of `x` before
the command, now as a Boolean, leaves no script. -/
theorem smtScript_declares_leaves_marks :
    let x : IntExpr MarkedVar := .var ⟨.before, "x"⟩
    let y : IntExpr MarkedVar := .var ⟨.intermediate .zero, "x"⟩
    let p : Relation := .var ⟨.before, "x!0"⟩
    let q : Relation := .var ⟨.after, "x!before"⟩
    let e : Relation := .conn .and [.cmp .lt x y, p, .implies q p]
    let text := "(set-logic QF_NIA)\n(declare-const |x!before| Int)\n" ++
      "(declare-const |x!0!before| Bool)\n(declare-const |x!before!after| Bool)\n" ++
      "(declare-const |x!0| Int)\n(assert (and (< |x!before| |x!0|) |x!0!before| " ++
      "(=> |x!before!after| |x!0!before|)))\n(check-sat)\n"
    e.smtScript = .ok text ∧
      (∃ (decls : List (Leaf MarkedVar)) (term : SExpr), readAll? text = some (script decls term) ∧
        (∀ leaf, leaf ∈ decls ↔ leaf ∈ e.leaves) ∧
        (decls.map fun d => (SmtTerm.ofVar d.var).render).Nodup ∧
        term.symbols = ["x!before", "x!0", "x!0!before", "x!before!after", "x!0!before"]) ∧
      ¬∃ text, Relation.smtScript (.conn .and [e, .var ⟨.before, "x"⟩]) = .ok text := by
  intro x y p q e text
  have htext : e.smtScript = .ok text := by decide +kernel
  have hnames : ∀ leaf ∈ e.leaves, Quotable leaf.var.name := by decide +kernel
  refine ⟨htext, ?_, fun hclash => ?_⟩
  · obtain ⟨decls, body, -, -, hmem, hnodup, hread⟩ := (smtScript_declares_leaves e).2 text htext
    obtain ⟨term, -, hread, hsymbols⟩ := hread hnames
    exact ⟨decls, term, hread, hmem, hnodup, hsymbols⟩
  · obtain ⟨-, -, htypes⟩ := (smtScript_declares_leaves _).1.mp hclash
    have hsame : Ty.int = Ty.bool := htypes ⟨.int, ⟨.before, "x"⟩⟩ (by decide +kernel)
      ⟨.bool, ⟨.before, "x"⟩⟩ (by decide +kernel) rfl
    cases hsame

end Relation

end ViewLogic

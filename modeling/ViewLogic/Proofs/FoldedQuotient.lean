import Mathlib.Data.List.Basic
import Mathlib.Logic.Relation
import ViewLogic.Proofs.NopFolding

/-!
# Folding computes a quotient

Folding an idle edge makes one node of its two ends. Whichever edge is folded first, idle edges stay
idle and no other edge becomes idle, so in the end two nodes have become one if and only if idle
edges connect them. One pass in the order of the names is the same as folding the first idle edge
again and again.
-/

namespace ViewLogic

namespace Flow

/-- An edge does nothing between two nodes that hold the same. -/
def Idle (g : Flow) (e : Edge) : Prop :=
  e.cmd = [] ∧ ∃ held, g.nodes.get? e.src = some held ∧ g.nodes.get? e.dest = some held

/-- An idle edge with one of the names leads from one node to another. -/
def Links (g : Flow) (names : List String) (a b : String) : Prop :=
  ∃ name ∈ names, ∃ e, g.edges.get? name = some e ∧ g.Idle e ∧ e.src = a ∧ e.dest = b

/-- Two nodes are connected by idle edges, in either direction. -/
def Connected (g : Flow) : String → String → Prop :=
  Relation.EqvGen fun a b =>
    ∃ name e, g.edges.get? name = some e ∧ g.Idle e ∧ e.src = a ∧ e.dest = b

/-- A flow is the quotient of `g` by its idle edges: `ρ` takes each node of `g` to the node that
stands for it. -/
structure IsQuotient (g g' : Flow) (ρ : String → String) : Prop where
  /-- The nodes of the quotient are the images of the nodes. -/
  onto : ∀ m, g'.nodes.contains m = true ↔ ∃ n, g.nodes.contains n = true ∧ ρ n = m
  /-- Two nodes become one if and only if idle edges connect them. -/
  classes : ∀ a b, g.nodes.contains a = true → g.nodes.contains b = true →
    (ρ a = ρ b ↔ g.Connected a b)
  /-- A node holds what the nodes hold that it stands for. -/
  views : ∀ n, g.nodes.contains n = true → g'.nodes.get? (ρ n) = g.nodes.get? n
  /-- The edges are those that are not idle. An end that is no node keeps its name. -/
  edges : ∀ name e', g'.edges.get? name = some e' ↔
    ∃ e, g.edges.get? name = some e ∧ ¬g.Idle e ∧
      e' = e.rename fun n => if g.nodes.contains n then ρ n else n

variable {g g' : Flow} {s t : String} {held : Bag (Held Var)}

/-- Two names are made one by a redirection if and only if they are one already, or are the
redirected name and its target. -/
theorem redirect_eq_redirect_iff {x y : String} :
    redirect s t x = redirect s t y ↔ x = y ∨ (x = s ∧ y = t) ∨ (x = t ∧ y = s) := by
  unfold redirect
  by_cases hx : x = t <;> by_cases hy : y = t <;> grind

/-- A map that takes related names to one name takes connected names to one name. -/
theorem eq_of_eqvGen {r : String → String → Prop} {π : String → String}
    (hr : ∀ a b, r a b → π a = π b) {a b : String} (h : Relation.EqvGen r a b) : π a = π b := by
  have hkernel : Equivalence fun a b => π a = π b := ⟨fun _ => rfl, Eq.symm, Eq.trans⟩
  exact hkernel.eqvGen_iff.mp (Relation.EqvGen.mono hr a b h)

/-! ### The classes of a partly folded flow -/

/-- What a map from the nodes of a flow to those of a partly folded one identifies. -/
structure Identified (g : Flow) (done : List String) (g' : Flow) (π : String → String) : Prop
    extends Folded g done g' π where
  /-- A node that is left stands for itself. -/
  fixed : ∀ n, g'.nodes.contains n = true → π n = n
  /-- A name that is no node is not changed. -/
  absent : ∀ n, g.nodes.contains n = false → π n = n
  /-- Two nodes have become one if and only if folded edges connect them. -/
  classes : ∀ a b, π a = π b ↔ Relation.EqvGen (g.Links done) a b

namespace Identified

variable {done : List String} {π : String → String} {name : String}

/-- Before any edge is folded, every node is identified with itself only. -/
theorem refl (g : Flow) : Identified g [] g id where
  toFolded := .refl g
  fixed _ _ := rfl
  absent _ _ := rfl
  classes a b := by
    constructor
    · rintro rfl
      exact .refl a
    · refine eq_of_eqvGen ?_
      rintro a b ⟨name, hname, -⟩
      cases hname

/-- An edge that is not foldable, or was seen before, identifies no further nodes. -/
theorem skip (h : Identified g done g' π)
    (hdone : ∀ e, g.edges.get? name = some e → g.foldable e = true → name ∈ done) :
    Identified g (name :: done) g' π where
  toFolded := h.toFolded.skip hdone
  fixed := h.fixed
  absent := h.absent
  classes a b := by
    have hlinks : g.Links (name :: done) = g.Links done := by
      funext a b
      rw [eq_iff_iff]
      constructor
      · rintro ⟨name', hname', e, he, hidle, hends⟩
        rcases List.mem_cons.mp hname' with rfl | hmem
        · exact ⟨name', hdone e he (foldable_iff.mpr hidle), e, he, hidle, hends⟩
        · exact ⟨name', hmem, e, he, hidle, hends⟩
      · rintro ⟨name', hmem, hlink⟩
        exact ⟨name', List.mem_cons_of_mem _ hmem, hlink⟩
    rw [hlinks]
    exact h.classes a b

/-- Folding one more edge joins the classes of its two ends and no others. -/
theorem contract (h : Identified g done g' π) {e : Edge} (he : g.edges.get? name = some e)
    (hfold : g.foldable e = true) :
    Identified g (name :: done) (g'.contract name (π e.src) (π e.dest))
      fun n => redirect (π e.src) (π e.dest) (π n) := by
  have hidle : g.Idle e := foldable_iff.mp hfold
  obtain ⟨-, held, hsrc, hdest⟩ := hidle
  rw [← h.nodes] at hsrc hdest
  refine ⟨h.toFolded.contract he hfold, fun n hn => ?_, fun n hn => ?_, fun a b => ?_⟩
  · obtain ⟨hleft, hself⟩ := of_contains_merge hsrc hdest hn
    rw [h.fixed n hleft, hself]
  · -- The target of the merge is a node, so no other name is redirected.
    have hne : π n ≠ π e.dest := by
      intro heq
      have hnode := h.nodes n
      rw [heq, hdest] at hnode
      simp [SortedMap.contains, ← hnode] at hn
    rw [redirect, if_neg hne, h.absent n hn]
  · have hlink : Relation.EqvGen (g.Links (name :: done)) e.src e.dest :=
      .rel _ _ ⟨name, List.mem_cons_self, e, he, foldable_iff.mp hfold, rfl, rfl⟩
    have hold {a b : String} (hab : π a = π b) :
        Relation.EqvGen (g.Links (name :: done)) a b := by
      refine Relation.EqvGen.mono ?_ a b ((h.classes a b).mp hab)
      rintro a b ⟨name', hname', hlink'⟩
      exact ⟨name', List.mem_cons_of_mem _ hname', hlink'⟩
    constructor
    · intro heq
      rcases redirect_eq_redirect_iff.mp heq with heq | ⟨ha, hb⟩ | ⟨ha, hb⟩
      · exact hold heq
      · exact .trans _ _ _ (hold ha) (.trans _ _ _ hlink (hold hb.symm))
      · exact .trans _ _ _ (hold ha) (.trans _ _ _ (.symm _ _ hlink) (hold hb.symm))
    · refine eq_of_eqvGen (π := fun n => redirect (π e.src) (π e.dest) (π n)) ?_
      rintro a b ⟨name', hname', e', he', hidle', rfl, rfl⟩
      rcases List.mem_cons.mp hname' with rfl | hmem
      · rw [he] at he'
        cases he'
        exact redirect_eq_redirect_iff.mpr (.inr (.inl ⟨rfl, rfl⟩))
      · have hsame := (h.classes _ _).mpr (.rel _ _ ⟨name', hmem, e', he', hidle', rfl, rfl⟩)
        rw [hsame]

/-- The pass keeps what the map from nodes to merged nodes identifies. -/
theorem passInvariant (g : Flow) : PassInvariant g (Identified g) :=
  ⟨toFolded, fun h hdone => h.skip hdone, fun h he hfold => h.contract he hfold⟩

end Identified

/-! ### The folded flow -/

/-- Steps at edges that are not foldable change nothing. -/
theorem foldl_foldEdge_eq_self {names : List String}
    (h : ∀ name ∈ names, ∀ e, g.edges.get? name = some e → g.foldable e = false) :
    names.foldl foldEdge g = g := by
  induction names with
  | nil => rfl
  | cons name names ih =>
    obtain ⟨hname, hnames⟩ := List.forall_mem_cons.mp h
    have hstep : g.foldEdge name = g := by
      unfold foldEdge
      split
      next e he => rw [hname e he, if_neg (by decide)]
      next => rfl
    rw [List.foldl_cons, hstep, ih hnames]

/-- A flow without foldable edges stays as it is. -/
theorem fold_eq_self (h : ∀ name e, g.edges.get? name = some e → g.foldable e = false) :
    g.fold = g :=
  foldl_foldEdge_eq_self fun name _ => h name

/-- Once all edges have been looked at, those that are left are the ones that are not foldable, with
their ends renamed. -/
theorem Folded.get?_edges_iff {done : List String} {π : String → String} (h : Folded g done g' π)
    (hdone : ∀ name ∈ g.edges.keys, name ∈ done) {name : String} {e' : Edge} :
    g'.edges.get? name = some e' ↔
      ∃ e, g.edges.get? name = some e ∧ g.foldable e = false ∧ e' = e.rename π := by
  rw [h.edges name, Option.bind_eq_some_iff]
  refine exists_congr fun e => and_congr_right fun he => ?_
  have hname : name ∈ done := hdone name (SortedMap.mem_keys_iff.mpr ⟨e, he⟩)
  cases hfold : g.foldable e <;> simp [hname, eq_comm]

/-- The folded flow is reached by a map that identifies the ends of idle edges. -/
theorem exists_identified_fold (g : Flow) : ∃ π, Identified g g.edges.keys.reverse g.fold π := by
  obtain ⟨π, h⟩ := (Identified.passInvariant g).foldl_foldEdge g.edges.keys (.refl g)
  rw [List.append_nil] at h
  exact ⟨π, h⟩

/-- Among all the edges of a flow, the links are its idle edges. -/
theorem links_keys (g : Flow) : g.Links g.edges.keys.reverse = fun a b =>
    ∃ name e, g.edges.get? name = some e ∧ g.Idle e ∧ e.src = a ∧ e.dest = b := by
  funext a b
  rw [eq_iff_iff]
  refine exists_congr fun name => ⟨fun hlink => hlink.2, fun hlink => ⟨?_, hlink⟩⟩
  obtain ⟨e, he, -⟩ := hlink
  exact List.mem_reverse.mpr (SortedMap.mem_keys_iff.mpr ⟨e, he⟩)

/-- Once all edges have been looked at, the flow is folded to its quotient. -/
theorem Identified.isQuotient {π : String → String} (h : Identified g g.edges.keys.reverse g' π) :
    IsQuotient g g' π where
  onto m := by
    have hcontains (n : String) : g'.nodes.contains (π n) = g.nodes.contains n := by
      rw [SortedMap.contains, SortedMap.contains, h.nodes]
    constructor
    · intro hm
      have hfixed : π m = m := h.fixed m hm
      exact ⟨m, by rwa [← hcontains, hfixed], hfixed⟩
    · rintro ⟨n, hn, rfl⟩
      rw [hcontains, hn]
  classes a b _ _ := by rw [h.classes, links_keys, Connected]
  views n _ := h.nodes n
  edges name e' := by
    -- Names that are no nodes are not changed by `π` anyway.
    have hends : (fun n => if g.nodes.contains n then π n else n) = π := by
      funext n
      cases hn : g.nodes.contains n with
      | true => rfl
      | false => exact (h.absent n hn).symm
    rw [h.get?_edges_iff fun _ => List.mem_reverse.mpr, hends]
    refine exists_congr fun e => and_congr_right fun _ => and_congr_left fun _ => ?_
    rw [← Bool.not_eq_true, foldable_iff, Idle]

/-- Folding leaves no foldable edge, so it has nothing to do the second time. -/
theorem fold_fold (g : Flow) : g.fold.fold = g.fold := by
  obtain ⟨π, h⟩ := g.exists_identified_fold
  refine fold_eq_self fun name e' he' => ?_
  obtain ⟨e, -, hfold, rfl⟩ := (h.get?_edges_iff fun _ => List.mem_reverse.mpr).mp he'
  rw [h.foldable_rename, hfold]

/-! ### The order of the steps -/

/-- The edges that are left keep their order. -/
theorem Folded.keys_edges {done : List String} {π : String → String} (h : Folded g done g' π) :
    g'.edges.keys =
      (g.edges.entries.filter fun entry => !(decide (entry.1 ∈ done) && g.foldable entry.2)).map
        (·.1) := by
  rw [SortedMap.keys, SortedMap.entries_eq_filterMap h.edges, List.map_filterMap,
    ← List.filterMap_eq_map, List.filterMap_filter]
  refine List.filterMap_congr fun entry _ => ?_
  by_cases hfolded : entry.1 ∈ done ∧ g.foldable entry.2 = true <;> simp [hfolded]

/-- Folding the first foldable edge takes away its name and no other. -/
theorem Folded.keys_edges_of_first {name : String} {e : Edge} {before after : List (String × Edge)}
    {π : String → String} (h : Folded g [name] g' π)
    (hsplit : g.edges.entries = before ++ (name, e) :: after) (hfold : g.foldable e = true)
    (hbefore : ∀ entry ∈ before, g.foldable entry.2 = false) :
    g'.edges.keys = before.map (·.1) ++ after.map (·.1) := by
  have hkept : before.filter (fun entry => !(decide (entry.1 ∈ [name]) && g.foldable entry.2)) =
      before :=
    List.filter_eq_self.mpr fun entry hentry => by simp [hbefore entry hentry]
  have hkept' : after.filter (fun entry => !(decide (entry.1 ∈ [name]) && g.foldable entry.2)) =
      after :=
    List.filter_eq_self.mpr fun entry hentry => by
      simp [SortedMap.ne_of_entries_eq hsplit entry hentry]
  rw [h.keys_edges, hsplit, List.filter_append, hkept,
    List.filter_cons_of_neg (by simpa using hfold), hkept', List.map_append]

/-- The pass begins at the first foldable edge, and then goes on as if it began anew. -/
theorem fold_of_find? {entry : String × Edge}
    (h : g.edges.entries.find? (fun entry => g.foldable entry.2) = some entry) :
    g.fold = (g.foldEdge entry.1).fold := by
  obtain ⟨name, e⟩ := entry
  obtain ⟨hfold, before, after, hsplit, hbefore⟩ := List.find?_eq_some_iff_append.mp h
  simp only [Bool.not_eq_true'] at hbefore
  obtain ⟨π, hstep⟩ := (Folded.passInvariant g).foldEdge (.refl g) name
  have hkeys := hstep.keys_edges_of_first hsplit hfold hbefore
  -- The edges before the first foldable one are not foldable, also once its ends are merged.
  have hunfoldable (name' : String) (hname' : name' ∈ before.map (·.1)) (e' : Edge)
      (he' : g.edges.get? name' = some e') : g.foldable e' = false := by
    obtain ⟨entry, hentry, rfl⟩ := List.mem_map.mp hname'
    have hentry' : g.edges.get? entry.1 = some entry.2 := by
      rw [SortedMap.get?_eq_some_iff, hsplit]
      exact List.mem_append_left _ hentry
    rw [he'] at hentry'
    cases hentry'
    exact hbefore entry hentry
  have hskip : (before.map (·.1)).foldl foldEdge g = g := foldl_foldEdge_eq_self hunfoldable
  have hskip' : (before.map (·.1)).foldl foldEdge (g.foldEdge name) = g.foldEdge name := by
    refine foldl_foldEdge_eq_self fun name' hname' e' he' => ?_
    obtain ⟨e, he, rfl⟩ := hstep.exists_edge he'
    rw [hstep.foldable_rename]
    exact hunfoldable name' hname' e he
  rw [fold, fold, hkeys, SortedMap.keys, hsplit, List.map_append, List.map_cons, List.foldl_append,
    List.foldl_cons, hskip, List.foldl_append, hskip']

/-- The pass does the same as a loop that folds the first foldable edge until there is none. -/
theorem fold_eq_loop (g : Flow) :
    g.fold = (g.edges.entries.find? fun entry => g.foldable entry.2).elim g
      fun entry => (g.foldEdge entry.1).fold := by
  cases hfind : g.edges.entries.find? fun entry => g.foldable entry.2 with
  | some entry => exact fold_of_find? hfind
  | none =>
    refine fold_eq_self fun name e he => ?_
    simpa using List.find?_eq_none.mp hfind (name, e) (SortedMap.get?_eq_some_iff.mp he)

/-- Folding computes the quotient of a flow by its idle edges, whether or not other edges lack an
end, and a second time it changes nothing. One pass over the names is the same as folding the first
idle edge again and again. -/
theorem fold_computes_quotient (g : Flow) :
    (∃ ρ, IsQuotient g g.fold ρ) ∧ g.fold.fold = g.fold ∧
      g.fold = (g.edges.entries.find? fun entry => g.foldable entry.2).elim g
        fun entry => (g.foldEdge entry.1).fold := by
  obtain ⟨ρ, h⟩ := g.exists_identified_fold
  exact ⟨⟨ρ, h.isQuotient⟩, g.fold_fold, g.fold_eq_loop⟩

/-- A cycle of idle edges becomes one node. Of the other edges, one leads to a node that holds
nothing and one to a name that is no node. -/
example :
    let held : Bag (Held Var) := .ofList [⟨.lit true, ⟨"V", []⟩⟩]
    let flow : Flow :=
      ⟨.ofList [("m", held), ("n", held), ("o", held), ("p", ∅)],
        .ofList [("a", ⟨"n", "o", []⟩), ("b", ⟨"m", "n", []⟩), ("c", ⟨"o", "m", []⟩),
          ("d", ⟨"o", "p", []⟩), ("e", ⟨"n", "q", []⟩)]⟩
    flow.fold = ⟨.ofList [("m", held), ("p", ∅)],
      .ofList [("d", ⟨"m", "p", []⟩), ("e", ⟨"m", "q", []⟩)]⟩ := by
  decide +kernel

end Flow

end ViewLogic

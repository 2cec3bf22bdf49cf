import ViewLogic.Json.View

/-!
# Reading undoes writing

The JSON form of an expression, a guarded atom or a match is read as what it was written from. For
expressions this is one induction; the variables only need forms that are read back themselves.
-/

namespace ViewLogic

variable {α V : Type}

/-! ### Parts of values -/

/-- Values that are written and read one after another come back, if each does. -/
theorem mapM_map_eq_some {read : Json → Option α} {write : α → Json} {l : List α}
    (h : ∀ a ∈ l, read (write a) = some a) : (l.map write).mapM read = some l := by
  induction l with
  | nil => rfl
  | cons a l ih =>
    obtain ⟨ha, hl⟩ := List.forall_mem_cons.mp h
    rw [List.map_cons, List.mapM_cons, ha, ih hl]
    rfl

namespace Json

/-- Items with proofs of a property are the items themselves. -/
theorem unattach_items {P : Json → Prop} {items : List Json} (h : ∀ v ∈ items, P v) :
    (items.attach.map fun v => (⟨v.1, h v.1 v.2⟩ : { v // P v })).unattach = items := by
  rw [List.unattach, List.map_map]
  exact List.attach_map_subtype_val items

/-- A list is read from an array item by item. -/
theorem list?_arr (read : Json → Option α) (items : List Json) :
    (arr items).list? read = items.mapM read := by
  simp [list?, items?, unattach_items]

/-- A string is read from its value. -/
@[simp] theorem str?_str (s : String) : (str s).str? = some s := rfl

/-- A tagged value is no string. -/
@[simp] theorem str?_tagged (tag : String) (value : Json) : (tagged tag value).str? = none := rfl

/-- A tagged value is read as its tag and its content. -/
@[simp] theorem tagged?_tagged (tag : String) (value : Json) :
    (tagged tag value).tagged? = some (tag, ⟨value, by simp [tagged]; omega⟩) := by
  simp [tagged, tagged?, fields?]

/-- An array of two items is read as a pair. -/
@[simp] theorem pair?_arr (a b : Json) :
    (arr [a, b]).pair? = some (⟨a, by simp; omega⟩, ⟨b, by simp; omega⟩) := by
  simp [pair?, items?]

/-- A number that fits into 64 bits is read back. -/
theorem nat64?_int {n : Nat} (h : n < 18446744073709551616) : (int n).nat64? = some n := by
  have hrange : 0 ≤ (n : Int) ∧ (n : Int) < 18446744073709551616 := by omega
  rw [nat64?, if_pos hrange, Int.toNat_natCast]

end Json

/-! ### Variables -/

/-- A kind of variable whose JSON form is read back. -/
class LawfulJsonForm (V : Type) [JsonForm V] : Prop where
  ofJson?_toJson (v : V) : ofJson? (toJson v) = some v

instance : LawfulJsonForm Var := ⟨fun _ => rfl⟩

/-- The number of a stage is read as that stage. -/
theorem Stage.ofNat?_val (n : Stage) : Stage.ofNat? n.val = some n := dif_pos n.val_le

/-- An intermediate variable is read from a number and a name. This is stated for any two parts:
with a stage in place of `n` the range check would be computed. -/
theorem MarkedVar.ofJson?_intermediate (n x : Json) :
    MarkedVar.ofJson? (.tagged "Intermediate" (.arr [n, x])) =
      (n.nat64?.bind Stage.ofNat?).bind fun stage => x.str?.map (⟨.intermediate stage, ·⟩) := by
  simp [MarkedVar.ofJson?]

instance : LawfulJsonForm MarkedVar where
  ofJson?_toJson v := by
    obtain ⟨mark, name⟩ := v
    cases mark with
    | before | after | goal => simp [toJson, ofJson?, MarkedVar.toJson, MarkedVar.ofJson?]
    | intermediate n =>
      have hle : n.val ≤ 18446744073709551615 := n.val_le
      have hstage : (Json.int n.val).nat64? = some n.val := Json.nat64?_int (by omega)
      change MarkedVar.ofJson? (MarkedVar.toJson ⟨.intermediate n, name⟩) = _
      rw [MarkedVar.toJson, MarkedVar.ofJson?_intermediate, hstage, Option.bind_some,
        Stage.ofNat?_val]
      rfl

/-! ### Expressions -/

/-- Integer operands are written one by one. -/
theorem IntExpr.toJsonAll_eq [JsonForm V] (es : List (IntExpr V)) :
    toJsonAll es = es.map toJson := by
  induction es with
  | nil => rfl
  | cons e es ih => rw [toJsonAll, ih, List.map_cons]

/-- Boolean operands are written one by one. -/
theorem BoolExpr.toJsonAll_eq [JsonForm V] (es : List (BoolExpr V)) :
    toJsonAll es = es.map toJson := by
  induction es with
  | nil => rfl
  | cons e es ih => rw [toJsonAll, ih, List.map_cons]

/-- Parameters are written one by one. -/
theorem Expr.toJsonAll_eq [JsonForm V] (es : List (Expr V)) : toJsonAll es = es.map toJson := by
  induction es with
  | nil => rfl
  | cons e es ih => rw [toJsonAll, ih, List.map_cons]

/-- The value of a constant is in range, and is read as that constant. -/
theorem Constant.ofInt?_val (c : Constant) : Constant.ofInt? c.val = some c :=
  dif_pos ⟨c.le_val, c.val_lt⟩

variable [JsonForm V] [LawfulJsonForm V]

/-- Expressions are read back from their JSON forms. -/
theorem Expr.ofJson?_toJson :
    (∀ e : IntExpr V, IntExpr.ofJson? e.toJson = some e) ∧
      (∀ e : BoolExpr V, BoolExpr.ofJson? e.toJson = some e) ∧
      ∀ e : Expr V, Expr.ofJson? e.toJson = some e := by
  apply Expr.induct
  case const =>
    intro c
    rw [IntExpr.toJson, IntExpr.ofJson?]
    simp [Json.int?, Constant.ofInt?_val]
  case intVar =>
    intro v
    rw [IntExpr.toJson, IntExpr.ofJson?]
    simp [LawfulJsonForm.ofJson?_toJson]
  case intSym =>
    intro name args ih
    rw [IntExpr.toJson, symbolJson, IntExpr.ofJson?, Expr.toJsonAll_eq]
    simp [Json.required?, Json.field?, Json.fields?, Json.items?, Json.unattach_items,
      List.lookup_cons, mapM_map_eq_some ih]
  case arith =>
    intro op es ih
    rw [IntExpr.toJson, IntExpr.ofJson?, IntExpr.toJsonAll_eq]
    cases op <;>
      simp [ArithOp.tag, ArithOp.ofTag?, Json.items?, Json.unattach_items, mapM_map_eq_some ih]
  case div =>
    intro l r hl hr
    rw [IntExpr.toJson, IntExpr.ofJson?]
    simp [hl, hr]
  case lit =>
    intro b
    rw [BoolExpr.toJson, BoolExpr.ofJson?]
    cases b <;> rfl
  case boolVar =>
    intro v
    rw [BoolExpr.toJson, BoolExpr.ofJson?]
    simp [LawfulJsonForm.ofJson?_toJson]
  case boolSym =>
    intro name args ih
    rw [BoolExpr.toJson, symbolJson, BoolExpr.ofJson?, Expr.toJsonAll_eq]
    simp [Json.required?, Json.field?, Json.fields?, Json.items?, Json.unattach_items,
      List.lookup_cons, mapM_map_eq_some ih]
  case conn =>
    intro op es ih
    rw [BoolExpr.toJson, BoolExpr.ofJson?, BoolExpr.toJsonAll_eq]
    cases op <;>
      simp [Connective.tag, Connective.ofTag?, Json.items?, Json.unattach_items,
        mapM_map_eq_some ih]
  case implies | eq =>
    intro l r hl hr
    rw [BoolExpr.toJson, BoolExpr.ofJson?]
    simp [hl, hr]
  case cmp =>
    intro op l r hl hr
    rw [BoolExpr.toJson, BoolExpr.ofJson?]
    cases op <;> simp [Comparison.tag, Comparison.ofTag?, Connective.ofTag?, hl, hr]
  case not =>
    intro e he
    rw [BoolExpr.toJson, BoolExpr.ofJson?]
    simp [he]
  case int | bool =>
    intro e he
    rw [Expr.toJson, Expr.ofJson?]
    simp [he]

/-! ### Guarded atoms and matches -/

/-- Atoms are read back from their JSON forms. -/
theorem Atom.ofJson?_toJson (a : Atom (Expr V)) :
    Atom.ofJson? Expr.ofJson? (a.toJson Expr.toJson) = some a := by
  have hparams : (a.params.map Expr.toJson).mapM Expr.ofJson? = some a.params :=
    mapM_map_eq_some fun e _ => Expr.ofJson?_toJson.2.2 e
  simp [Atom.ofJson?, Atom.toJson, Json.required?, Json.field?, Json.fields?, List.lookup_cons,
    Json.list?_arr, hparams]

/-- A guarded item is read back if the item is. -/
theorem Guarded.ofJson?_toJson {read : Json → Option α} {write : α → Json} (g : Guarded V α)
    (h : read (write g.item) = some g.item) :
    Guarded.ofJson? read (g.toJson write) = some g := by
  simp [Guarded.ofJson?, Guarded.toJson, Json.required?, Json.field?, Json.fields?,
    List.lookup_cons, Expr.ofJson?_toJson.2.1 g.guard, h]

/-- Guarded atoms are read back from their JSON forms. -/
theorem Held.ofJson?_toJson (h : Held V) : Held.ofJson? h.toJson = some h :=
  Guarded.ofJson?_toJson h (Atom.ofJson?_toJson h.item)

/-- Matches are read back from their JSON forms. -/
theorem Match.ofJson?_toJson (m : Match V) : Match.ofJson? m.toJson = some m := by
  refine Guarded.ofJson?_toJson m ?_
  rw [Json.list?_arr]
  exact mapM_map_eq_some fun a _ => Atom.ofJson?_toJson a

end ViewLogic

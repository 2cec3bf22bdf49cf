import Mathlib.Data.List.Forall2
import ViewLogic.Backend.SmtLib

/-!
# Reading SMT-LIB terms

The text of a term is read one character at a time, with a stack of the lists that are still open.
A symbol between bars may hold any character but a bar and a backslash, so blanks and parentheses
inside it belong to the symbol. `Spells` says that a text is read as a given expression wherever it
stands; it is proved of a term from its parts, and nothing else is needed of the reader.
-/

namespace ViewLogic.Smt

/-- What is read: a quoted symbol without its bars, a numeral or plain symbol, or a list. -/
inductive SExpr where
  | quoted (name : String)
  | word (text : String)
  | list (items : List SExpr)

/-- Whether a character may stand in a numeral or a plain symbol. -/
def isWordChar (c : Char) : Bool := c.isAlphanum || "~!@$%^&*_-+=<>.?/".toList.contains c

/-- Whether a character separates words. -/
def isBlank (c : Char) : Bool := c == ' ' || c == '\t' || c == '\n' || c == '\r'

/-- What has been read of an unfinished word or quoted symbol, with the last character first. -/
inductive Mode where
  | between
  | word (read : List Char)
  | quoted (read : List Char)

/-- The lists that are still open, the innermost one first, and each with its last item first. -/
abbrev Stack := List (List SExpr)

/-- Adds an item to the innermost open list. -/
def Stack.place (x : SExpr) : Stack → Option Stack
  | [] => none
  | items :: stack => some ((x :: items) :: stack)

/-- Closes the innermost open list. -/
def Stack.close : Stack → Option Stack
  | [] => none
  | items :: stack => Stack.place (.list items.reverse) stack

/-- What has been read of a text. -/
structure Reader where
  mode : Mode
  stack : Stack

namespace Reader

/-- The open lists if a word may end here. A quoted symbol ends at its bar only. -/
def flush (r : Reader) : Option Stack :=
  match r.mode with
  | .between => some r.stack
  | .word read => r.stack.place (.word (String.ofList read.reverse))
  | .quoted _ => none

/-- Reads a character outside of words and quoted symbols. -/
def stepBetween (stack : Stack) (c : Char) : Option Reader :=
  if isBlank c then some ⟨.between, stack⟩
  else if isWordChar c then some ⟨.word [c], stack⟩
  else match c with
    | '(' => some ⟨.between, [] :: stack⟩
    | ')' => stack.close.map (⟨.between, ·⟩)
    | '|' => some ⟨.quoted [], stack⟩
    | _ => none

/-- Reads one character. -/
def step (r : Reader) (c : Char) : Option Reader :=
  match r.mode with
  | .between => stepBetween r.stack c
  | .word read =>
    if isWordChar c then some ⟨.word (c :: read), r.stack⟩
    else r.flush.bind (stepBetween · c)
  | .quoted read =>
    if c = '|' then
      (r.stack.place (.quoted (String.ofList read.reverse))).map (⟨.between, ·⟩)
    else if c = '\\' then none
    else some ⟨.quoted (c :: read), r.stack⟩

/-- Reads characters one after another. -/
def run (r : Reader) (cs : List Char) : Option Reader := cs.foldlM step r

end Reader

/-- The expression that a whole text is read as. -/
def read? (text : String) : Option SExpr := do
  let r ← Reader.run ⟨.between, [[]]⟩ text.toList
  match ← r.flush with
  | [[x]] => some x
  | _ => none

/-! ### Texts of expressions -/

/-- A text is read as an expression, whatever was read before it. -/
def Spells (text : String) (x : SExpr) : Prop :=
  ∀ items stack, ∃ r, Reader.run ⟨.between, items :: stack⟩ text.toList = some r ∧
    r.flush = some ((x :: items) :: stack)

/-- A text that spells an expression is read as that expression. -/
theorem Spells.read?_eq {text : String} {x : SExpr} (h : Spells text x) : read? text = some x := by
  obtain ⟨r, hrun, hflush⟩ := h [] []
  simp [read?, hrun, hflush]

namespace Reader

variable {r : Reader} {stack : Stack} {items : List SExpr}

/-- Characters are read from left to right. -/
theorem run_append (r : Reader) (as bs : List Char) :
    r.run (as ++ bs) = (r.run as).bind (run · bs) :=
  List.foldlM_append

/-- A first character is read in one step. -/
theorem run_cons (r : Reader) (c : Char) (cs : List Char) :
    r.run (c :: cs) = (r.step c).bind (run · cs) :=
  List.foldlM_cons

/-- Where a word may end, a character that is not part of one starts anew. -/
theorem step_of_flush (h : r.flush = some stack) {c : Char} (hc : isWordChar c = false) :
    r.step c = stepBetween stack c := by
  obtain ⟨mode, stack'⟩ := r
  cases mode with
  | between =>
    cases h
    rfl
  | word read => simp [step, hc, h]
  | quoted read => cases h

/-- A character of a word starts a word. -/
theorem stepBetween_word {c : Char} (hc : isWordChar c = true) :
    stepBetween stack c = some ⟨.word [c], stack⟩ := by
  have hblank : isBlank c = false := by
    have hne (d : Char) (hd : isWordChar d = false) : c ≠ d := by
      rintro rfl
      rw [hc] at hd
      cases hd
    simp [isBlank, hne ' ' (by decide), hne '\t' (by decide), hne '\n' (by decide),
      hne '\r' (by decide)]
  simp [stepBetween, hblank, hc]

/-- The characters of a word are collected. -/
theorem run_word {cs : List Char} (hcs : ∀ c ∈ cs, isWordChar c = true) (read : List Char) :
    run ⟨.word read, stack⟩ cs = some ⟨.word (cs.reverse ++ read), stack⟩ := by
  induction cs generalizing read with
  | nil => rfl
  | cons c cs ih =>
    obtain ⟨hc, hcs⟩ := List.forall_mem_cons.mp hcs
    rw [run_cons]
    simp [step, hc, ih hcs]

/-- The characters of a quoted symbol are collected. -/
theorem run_quoted {cs : List Char} (hbar : '|' ∉ cs) (hslash : '\\' ∉ cs) (read : List Char) :
    run ⟨.quoted read, stack⟩ cs = some ⟨.quoted (cs.reverse ++ read), stack⟩ := by
  induction cs generalizing read with
  | nil => rfl
  | cons c cs ih =>
    rw [List.mem_cons, not_or] at hbar hslash
    rw [run_cons]
    simp [step, Ne.symm hbar.1, Ne.symm hslash.1, ih hbar.2 hslash.2]

/-- Expressions after blanks are added to the innermost list one after another. -/
theorem run_items {texts : List String} {xs : List SExpr} (h : List.Forall₂ Spells texts xs)
    (hflush : r.flush = some (items :: stack)) :
    ∃ r', r.run (texts.flatMap fun text => ' ' :: text.toList) = some r' ∧
      r'.flush = some ((xs.reverse ++ items) :: stack) := by
  induction h generalizing r items with
  | nil => exact ⟨r, rfl, hflush⟩
  | @cons text x texts xs hx _ ih =>
    obtain ⟨mid, hmid, hflush'⟩ := hx items stack
    obtain ⟨r', hr', hflush''⟩ := ih hflush'
    refine ⟨r', ?_, by simpa using hflush''⟩
    have hblank : r.step ' ' = some ⟨.between, items :: stack⟩ := by
      rw [step_of_flush hflush (by decide)]
      rfl
    rw [List.flatMap_cons, List.cons_append, run_cons, hblank, Option.bind_some, run_append, hmid,
      Option.bind_some, hr']

end Reader

/-- A nonempty text of word characters spells a word. -/
theorem spells_word {text : String} (hne : text ≠ "")
    (htext : text.toList.all isWordChar = true) : Spells text (.word text) := by
  intro items stack
  cases hcs : text.toList with
  | nil => exact absurd (String.toList_eq_nil_iff.mp hcs) hne
  | cons c cs =>
    rw [hcs, List.all_eq_true] at htext
    obtain ⟨hc, hrest⟩ := List.forall_mem_cons.mp htext
    refine ⟨⟨.word (cs.reverse ++ [c]), items :: stack⟩, ?_, ?_⟩
    · rw [Reader.run_cons, Reader.step, Reader.stepBetween_word hc, Option.bind_some,
        Reader.run_word hrest]
    · simp [Reader.flush, Stack.place, ← hcs]

/-- A name can stand between bars. -/
def Quotable (name : String) : Prop := '|' ∉ name.toList ∧ '\\' ∉ name.toList

instance (name : String) : Decidable (Quotable name) := inferInstanceAs (Decidable (_ ∧ _))

/-- A name between bars spells a quoted symbol, if it can be quoted. -/
theorem spells_quoted {name : String} (hname : Quotable name) :
    Spells ("|" ++ name ++ "|") (.quoted name) := by
  intro items stack
  refine ⟨⟨.between, (.quoted name :: items) :: stack⟩, ?_, rfl⟩
  have hopen : Reader.step ⟨.between, items :: stack⟩ '|' = some ⟨.quoted [], items :: stack⟩ := rfl
  have hclose : Reader.run ⟨.quoted name.toList.reverse, items :: stack⟩ ['|'] =
      some ⟨.between, (.quoted name :: items) :: stack⟩ := by
    simp [Reader.run, Reader.step, Stack.place]
  have hchars : ("|" ++ name ++ "|").toList = '|' :: (name.toList ++ ['|']) := by simp
  rw [hchars, Reader.run_cons, hopen, Option.bind_some, Reader.run_append,
    Reader.run_quoted hname.1 hname.2, List.append_nil, Option.bind_some, hclose]

/-- Texts with a blank between two of them, after one more blank. -/
theorem toList_intercalate_blank {texts : List String} (hne : texts ≠ []) :
    ' ' :: (String.intercalate " " texts).toList =
      texts.flatMap fun text => ' ' :: text.toList := by
  rw [String.toList_intercalate]
  induction texts with
  | nil => exact absurd rfl hne
  | cons text texts ih =>
    cases texts with
    | nil => simp
    | cons next rest => simpa [List.intercalate_cons_cons] using ih (List.cons_ne_nil next rest)

/-- An operation with operands is read as the list of both. -/
theorem spells_app {op : String} {texts : List String} {xs : List SExpr}
    (hop : Spells op (.word op)) (h : List.Forall₂ Spells texts xs) (hne : texts ≠ []) :
    Spells ("(" ++ op ++ " " ++ String.intercalate " " texts ++ ")") (.list (.word op :: xs)) := by
  intro items stack
  have hchars : ("(" ++ op ++ " " ++ String.intercalate " " texts ++ ")").toList =
      '(' :: (op.toList ++ (texts.flatMap (fun text => ' ' :: text.toList) ++ [')'])) := by
    simp [← toList_intercalate_blank hne]
  obtain ⟨first, hfirst, hflush⟩ := hop [] (items :: stack)
  obtain ⟨last, hlast, hflush'⟩ := Reader.run_items h hflush
  have hopen : Reader.step ⟨.between, items :: stack⟩ '(' =
      some ⟨.between, [] :: items :: stack⟩ := rfl
  have hclose : last.step ')' =
      some ⟨.between, (.list (.word op :: xs) :: items) :: stack⟩ := by
    rw [Reader.step_of_flush hflush' (by decide)]
    simp [Reader.stepBetween, isBlank, isWordChar, Stack.close, Stack.place]
  refine ⟨⟨.between, (.list (.word op :: xs) :: items) :: stack⟩, ?_, rfl⟩
  rw [hchars, Reader.run_cons, hopen, Option.bind_some, Reader.run_append, hfirst,
    Option.bind_some, Reader.run_append, hlast, Option.bind_some, Reader.run_cons, hclose]
  rfl

end ViewLogic.Smt

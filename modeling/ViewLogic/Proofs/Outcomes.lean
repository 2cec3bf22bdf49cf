/-!
# Computations that may fail

A sequence of steps succeeds if and only if every step does. These facts take a successful
computation apart, so that proofs about it need not open the monad.
-/

namespace ViewLogic

variable {ε α β σ τ : Type}

/-- Two steps succeed exactly if the first one does, and the second one on its result. -/
theorem bind_eq_ok {x : Except ε α} {f : α → Except ε β} {b : β} :
    x >>= f = .ok b ↔ ∃ a, x = .ok a ∧ f a = .ok b := by
  cases x with
  | error e =>
    constructor
    · intro h
      cases h
    · rintro ⟨a, ha, -⟩
      cases ha
  | ok a =>
    constructor
    · intro h
      exact ⟨a, rfl, h⟩
    · rintro ⟨_, ha, h⟩
      cases ha
      exact h

/-- A mapped outcome is a success exactly if the outcome is. -/
theorem map_eq_ok {x : Except ε α} {f : α → β} {b : β} :
    x.map f = .ok b ↔ ∃ a, x = .ok a ∧ f a = b := by
  cases x with
  | error e => simp [Except.map]
  | ok a => simp [Except.map]

/-- The results of a successful traversal come from the members of the list, one from each. -/
theorem mapM_eq_ok {f : α → Except ε β} {l : List α} {bs : List β} (h : l.mapM f = .ok bs) :
    (∀ a ∈ l, ∃ b ∈ bs, f a = .ok b) ∧ ∀ b ∈ bs, ∃ a ∈ l, f a = .ok b := by
  induction l generalizing bs with
  | nil =>
    cases h
    simp
  | cons a l ih =>
    rw [List.mapM_cons] at h
    obtain ⟨b, hb, h⟩ := bind_eq_ok.mp h
    obtain ⟨bs, hbs, h⟩ := bind_eq_ok.mp h
    cases h
    obtain ⟨hmem, hfrom⟩ := ih hbs
    constructor
    · intro a' ha'
      rcases List.mem_cons.mp ha' with rfl | ha'
      · exact ⟨b, by simp, hb⟩
      · obtain ⟨b', hb', heq⟩ := hmem a' ha'
        exact ⟨b', by simp [hb'], heq⟩
    · intro b' hb'
      rcases List.mem_cons.mp hb' with rfl | hb'
      · exact ⟨a, by simp, hb⟩
      · obtain ⟨a', ha', heq⟩ := hfrom b' hb'
        exact ⟨a', by simp [ha'], heq⟩

/-- Work on a list that succeeds has as many results as items. -/
theorem length_of_mapM_eq_ok {f : α → Except ε β} {l : List α} {bs : List β}
    (h : l.mapM f = .ok bs) : bs.length = l.length := by
  induction l generalizing bs with
  | nil =>
    cases h
    rfl
  | cons a l ih =>
    rw [List.mapM_cons] at h
    obtain ⟨b, -, h⟩ := bind_eq_ok.mp h
    obtain ⟨bs, hbs, h⟩ := bind_eq_ok.mp h
    cases h
    rw [List.length_cons, List.length_cons, ih hbs]

/-- A traversal succeeds if every member of the list gives a result. -/
theorem mapM_isOk {f : α → Except ε β} {l : List α} (h : ∀ a ∈ l, ∃ b, f a = .ok b) :
    ∃ bs, l.mapM f = .ok bs := by
  induction l with
  | nil => exact ⟨[], rfl⟩
  | cons a l ih =>
    obtain ⟨b, hb⟩ := h a (by simp)
    obtain ⟨bs, hbs⟩ := ih fun a' ha' => h a' (by simp [ha'])
    refine ⟨b :: bs, ?_⟩
    rw [List.mapM_cons, hb, hbs]
    rfl

/-- Work on a list succeeds exactly if it does on every item. -/
theorem exists_mapM_eq_ok {f : α → Except ε β} {l : List α} :
    (∃ bs, l.mapM f = .ok bs) ↔ ∀ a ∈ l, ∃ b, f a = .ok b := by
  constructor
  · rintro ⟨bs, hbs⟩ a ha
    obtain ⟨b, -, hb⟩ := (mapM_eq_ok hbs).1 a ha
    exact ⟨b, hb⟩
  · exact mapM_isOk

/-- A successful run keeps what relates its state to another run, if every step does. -/
theorem foldlM_rel {f : σ → α → Except ε σ} {g : τ → α → τ} {R : σ → τ → Prop} {l : List α}
    (hstep : ∀ s t a s', a ∈ l → R s t → f s a = .ok s' → R s' (g t a)) {s s' : σ} {t : τ}
    (hR : R s t) (h : l.foldlM f s = .ok s') : R s' (l.foldl g t) := by
  induction l generalizing s t with
  | nil =>
    cases h
    exact hR
  | cons a l ih =>
    rw [List.foldlM_cons] at h
    obtain ⟨mid, hmid, h⟩ := bind_eq_ok.mp h
    refine ih (fun s t b s' hb => hstep s t b s' (by simp [hb])) ?_ h
    exact hstep s t a mid (by simp) hR hmid

/-- A successful run keeps what every step keeps. -/
theorem foldlM_inv {f : σ → α → Except ε σ} {P : σ → Prop} {l : List α}
    (hstep : ∀ s a s', a ∈ l → P s → f s a = .ok s' → P s') {s s' : σ} (hP : P s)
    (h : l.foldlM f s = .ok s') : P s' :=
  foldlM_rel (R := fun s (_ : Unit) => P s) (g := fun t _ => t)
    (fun s _ a s' ha hs hs' => hstep s a s' ha hs hs') (t := ()) hP h

/-- A run succeeds if every step does from what the steps keep. -/
theorem exists_foldlM_eq_ok {f : σ → α → Except ε σ} {P : σ → Prop} {l : List α}
    (hstep : ∀ s a, a ∈ l → P s → ∃ s', f s a = .ok s' ∧ P s') {s : σ} (hP : P s) :
    ∃ s', l.foldlM f s = .ok s' := by
  induction l generalizing s with
  | nil => exact ⟨s, rfl⟩
  | cons a l ih =>
    obtain ⟨mid, hmid, hP'⟩ := hstep s a (by simp) hP
    obtain ⟨s', hs'⟩ := ih (fun s b hb => hstep s b (by simp [hb])) hP'
    refine ⟨s', ?_⟩
    rw [List.foldlM_cons]
    exact bind_eq_ok.mpr ⟨mid, hmid, hs'⟩

/-- Steps that agree on the items of a list make the same run. -/
theorem foldlM_congr {f g : σ → α → Except ε σ} {l : List α} (h : ∀ s, ∀ a ∈ l, f s a = g s a)
    (s : σ) : l.foldlM f s = l.foldlM g s := by
  induction l generalizing s with
  | nil => rfl
  | cons a l ih =>
    rw [List.foldlM_cons, List.foldlM_cons, h s a (by simp)]
    exact bind_congr fun s' => ih (fun s b hb => h s b (by simp [hb])) s'

/-- A run over lists that are put together is a run of runs. -/
theorem foldlM_flatMap {f : α → List β} {g : σ → β → Except ε σ} (l : List α) (s : σ) :
    (l.flatMap f).foldlM g s = l.foldlM (fun s a => (f a).foldlM g s) s := by
  induction l generalizing s with
  | nil => rfl
  | cons a l ih =>
    rw [List.flatMap_cons, List.foldlM_append, List.foldlM_cons]
    exact bind_congr ih

/-- Checks of a list succeed exactly if every one does. -/
theorem forM_eq_ok {f : α → Except ε Unit} {l : List α} :
    l.forM f = .ok () ↔ ∀ a ∈ l, f a = .ok () := by
  induction l with
  | nil => exact iff_of_true rfl (by simp)
  | cons a l ih =>
    rw [List.forM, List.forall_mem_cons, ← ih]
    constructor
    · intro h
      obtain ⟨_, ha, hl⟩ := bind_eq_ok.mp h
      exact ⟨ha, hl⟩
    · rintro ⟨ha, hl⟩
      exact bind_eq_ok.mpr ⟨(), ha, hl⟩

/-- The test for success finds exactly the successful checks. -/
theorem isOk_iff {x : Except ε Unit} : x.isOk = true ↔ x = .ok () := by
  cases x with
  | error e => exact iff_of_false Bool.false_ne_true (by simp)
  | ok => exact iff_of_true rfl rfl

/-- A required property is checked successfully exactly if it holds. -/
theorem require_eq_ok {p : Prop} [Decidable p] {e : ε} :
    (if p then .ok () else .error e : Except ε Unit) = .ok () ↔ p := by
  by_cases hp : p <;> simp [hp]

/-- A second run succeeds along with a first one, if every step of it does in related states. -/
theorem foldlM_sim {f : σ → α → Except ε σ} {g : τ → α → Except ε τ} {R : σ → τ → Prop}
    {l : List α}
    (hstep : ∀ s t a s', a ∈ l → R s t → f s a = .ok s' → ∃ t', g t a = .ok t' ∧ R s' t')
    {s s' : σ} {t : τ} (hR : R s t) (h : l.foldlM f s = .ok s') :
    ∃ t', l.foldlM g t = .ok t' ∧ R s' t' := by
  induction l generalizing s t with
  | nil =>
    cases h
    exact ⟨t, rfl, hR⟩
  | cons a l ih =>
    rw [List.foldlM_cons] at h
    obtain ⟨mid, hmid, h⟩ := bind_eq_ok.mp h
    obtain ⟨mid', hmid', hR'⟩ := hstep s t a mid (by simp) hR hmid
    obtain ⟨t', ht', hR''⟩ := ih (fun s t b s' hb => hstep s t b s' (by simp [hb])) hR' h
    refine ⟨t', ?_, hR''⟩
    rw [List.foldlM_cons]
    exact bind_eq_ok.mpr ⟨mid', hmid', ht'⟩

/-! ### Causes of failure -/

/-- A computation can only fail for a cause of some kind. -/
def FailsWith (P : ε → Prop) (x : Except ε α) : Prop := ∀ e, x = .error e → P e

section FailsWith

variable {P : ε → Prop}

/-- A success has no error to account for. -/
theorem failsWith_ok (a : α) : FailsWith P (.ok a : Except ε α) := by
  rintro e ⟨⟩

/-- If the errors of two steps are of a kind, then so are those of the steps together. -/
theorem FailsWith.bind {x : Except ε α} {f : α → Except ε β} (hx : FailsWith P x)
    (hf : ∀ a, FailsWith P (f a)) : FailsWith P (x >>= f) := by
  intro e he
  cases x with
  | error e' =>
    cases he
    exact hx _ rfl
  | ok a => exact hf a e he

/-- Mapping a result adds no error. -/
theorem FailsWith.map {x : Except ε α} {f : α → β} (hx : FailsWith P x) :
    FailsWith P (x.map f) := by
  intro e he
  cases x with
  | error e' =>
    cases he
    exact hx _ rfl
  | ok a => cases he

/-- If the errors of the work on each item are of a kind, then so are those of the work on the
list. -/
theorem FailsWith.mapM {f : α → Except ε β} {l : List α} (h : ∀ a ∈ l, FailsWith P (f a)) :
    FailsWith P (l.mapM f) := by
  induction l with
  | nil => exact failsWith_ok []
  | cons a l ih =>
    obtain ⟨ha, hl⟩ := List.forall_mem_cons.mp h
    rw [List.mapM_cons]
    exact ha.bind fun b => (ih hl).bind fun bs => failsWith_ok (b :: bs)

/-- If the errors of the check of each item are of a kind, then so are those of the check of the
list. -/
theorem FailsWith.forM {f : α → Except ε Unit} {l : List α} (h : ∀ a ∈ l, FailsWith P (f a)) :
    FailsWith P (l.forM f) := by
  induction l with
  | nil => exact failsWith_ok ()
  | cons a l ih =>
    obtain ⟨ha, hl⟩ := List.forall_mem_cons.mp h
    exact ha.bind fun _ => ih hl

end FailsWith

end ViewLogic

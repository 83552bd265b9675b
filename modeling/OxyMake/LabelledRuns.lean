import Mathlib.Logic.Function.Basic
import Mathlib.Data.List.Basic

/-!
# Runs of a labelled transition relation

A step carries at most one label and a run collects the labels in order. A run
can be cut before any of its labels, an invariant of the steps holds along the
run, and a quantity that every step changes only through its label is
determined by the labels.
-/

namespace OxyMake.LabelledRuns

open List

variable {σ ℓ : Type*}

/-- Finite runs together with the labels they emit. -/
inductive Run (Step : σ → Option ℓ → σ → Prop) : σ → List ℓ → σ → Prop
  | refl (s : σ) : Run Step s [] s
  | cons {s t u : σ} {label : Option ℓ} {labels : List ℓ} :
      Step s label t → Run Step t labels u → Run Step s (label.toList ++ labels) u

variable {Step : σ → Option ℓ → σ → Prop} {s t u : σ}

/-- A silent step is a run without labels. -/
theorem Run.silent (h : Step s none t) : Run Step s [] t := .cons h (.refl t)

/-- A labelled step is a run with that label. -/
theorem Run.single {label : ℓ} (h : Step s (some label) t) : Run Step s [label] t :=
  .cons h (.refl t)

/-- Runs compose and their labels concatenate. -/
theorem Run.trans {a b : List ℓ} (h₁ : Run Step s a t) (h₂ : Run Step t b u) :
    Run Step s (a ++ b) u := by
  induction h₁ with
  | refl => exact h₂
  | cons hstep _ ih =>
    rw [append_assoc]
    exact .cons hstep (ih h₂)

/-- A run whose steps are also steps of another relation is a run of that relation. -/
theorem Run.mono {Step' : σ → Option ℓ → σ → Prop} {labels : List ℓ} (h : Run Step s labels t)
    (hstep : ∀ s label t, Step s label t → (∀ x ∈ label, x ∈ labels) → Step' s label t) :
    Run Step' s labels t := by
  induction h with
  | refl s => exact .refl s
  | @cons s t u label labels hs _ ih =>
    refine .cons (hstep s label t hs ?_) (ih ?_)
    · exact fun x hx => mem_append_left _ (Option.mem_toList.mpr hx)
    · exact fun s' label' t' hs' hmem =>
        hstep s' label' t' hs' fun x hx => mem_append_right _ (hmem x hx)

/-- An invariant of the steps holds at the end of a run. -/
theorem Run.invariant (Inv : σ → Prop) (hstep : ∀ s label t, Inv s → Step s label t → Inv t)
    {labels : List ℓ} (h : Run Step s labels t) (hs : Inv s) : Inv t := by
  induction h with
  | refl => exact hs
  | cons hs' _ ih => exact ih (hstep _ _ _ hs hs')

/-- An invariant of the states and of the labels emitted so far, kept by the steps whose
label meets a condition, holds at the end of a run whose labels all meet it. -/
theorem Run.recorded_if {Inv : List ℓ → σ → Prop} (Cond : List ℓ → ℓ → Prop)
    (hstep : ∀ past s label t, Inv past s → Step s label t → (∀ x ∈ label, Cond past x) →
      Inv (past ++ label.toList) t)
    {past labels : List ℓ} (h : Run Step s labels t) (hs : Inv past s)
    (hcond : ∀ pre x post, labels = pre ++ x :: post → Cond (past ++ pre) x) :
    Inv (past ++ labels) t := by
  induction h generalizing past with
  | refl =>
    rw [append_nil]
    exact hs
  | @cons s t u label labels hfirst _ ih =>
    rw [← append_assoc]
    have hlabel : ∀ x ∈ label, Cond past x := by
      intro x hx
      cases hx
      simpa only [append_nil] using hcond [] x labels rfl
    refine ih (hstep past _ _ _ hs hfirst hlabel) ?_
    intro pre x post heq
    rw [append_assoc]
    refine hcond (label.toList ++ pre) x post ?_
    rw [heq, append_assoc]

/-- An invariant of the states and of the labels emitted so far holds at the end of a run. -/
theorem Run.recorded (Inv : List ℓ → σ → Prop)
    (hstep : ∀ past s label t, Inv past s → Step s label t → Inv (past ++ label.toList) t)
    {past labels : List ℓ} (h : Run Step s labels t) (hs : Inv past s) :
    Inv (past ++ labels) t :=
  Run.recorded_if (fun _ _ => True) (fun past s label t hinv hs _ =>
    hstep past s label t hinv hs) h hs fun _ _ _ _ => trivial

/-- Every label meets a condition on the labels before it. -/
def Each (Cond : List ℓ → ℓ → Prop) : List ℓ → List ℓ → Prop
  | _, [] => True
  | past, x :: rest => Cond past x ∧ Each Cond (past ++ [x]) rest

/-- A condition that each label meets is met wherever the labels are cut. -/
theorem Each.at {Cond : List ℓ → ℓ → Prop} {past labels : List ℓ} (h : Each Cond past labels) :
    ∀ pre x post, labels = pre ++ x :: post → Cond (past ++ pre) x := by
  intro pre
  induction pre generalizing past labels with
  | nil =>
    intro x post heq
    rw [nil_append] at heq
    subst heq
    rw [append_nil]
    exact h.1
  | cons y pre ih =>
    intro x post heq
    rw [cons_append] at heq
    subst heq
    have hrest := ih h.2 x post rfl
    rw [append_assoc] at hrest
    exact hrest

theorem Run.split {a b : List ℓ} (h : Run Step s (a ++ b) t) :
    ∃ m, Run Step s a m ∧ Run Step m b t := by
  generalize hl : a ++ b = labels at h
  induction h generalizing a with
  | refl s =>
    obtain ⟨rfl, rfl⟩ := append_eq_nil_iff.mp hl
    exact ⟨s, .refl s, .refl s⟩
  | @cons s t u label labels hstep hrest ih =>
    cases label with
    | none =>
      obtain ⟨m, hm, hmt⟩ := ih hl
      exact ⟨m, .cons hstep hm, hmt⟩
    | some =>
      cases a with
      | nil =>
        subst hl
        exact ⟨s, .refl s, .cons hstep hrest⟩
      | cons =>
        obtain ⟨rfl, htail⟩ := cons_eq_cons.mp hl
        obtain ⟨m, hm, hmt⟩ := ih htail
        exact ⟨m, Run.cons hstep hm, hmt⟩

theorem Run.first {x : ℓ} {b : List ℓ} (h : Run Step s (x :: b) t) :
    ∃ m n, Run Step s [] m ∧ Step m (some x) n ∧ Run Step n b t := by
  generalize hl : x :: b = labels at h
  induction h with
  | refl => cases hl
  | @cons s t u label labels hstep hrest ih =>
    cases label with
    | none =>
      obtain ⟨m, n, hm, hx, hn⟩ := ih hl
      exact ⟨m, n, .cons hstep hm, hx, hn⟩
    | some =>
      obtain ⟨rfl, rfl⟩ := cons_eq_cons.mp hl
      exact ⟨s, t, .refl s, hstep, hrest⟩

/-- The step that emits a given label of a run. -/
theorem Run.split_at {a b : List ℓ} {x : ℓ} (h : Run Step s (a ++ x :: b) t) :
    ∃ m n, Run Step s a m ∧ Step m (some x) n ∧ Run Step n b t := by
  obtain ⟨m, hm, hx⟩ := h.split
  obtain ⟨m', n, hsilent, hstep, hn⟩ := hx.first
  have happ := hm.trans hsilent
  rw [append_nil] at happ
  exact ⟨m', n, happ, hstep, hn⟩

theorem Run.replay_eq {κ : Type*} {value : σ → κ} {apply : κ → ℓ → κ}
    (hstep : ∀ s label t, Step s label t → value t = label.toList.foldl apply (value s))
    {labels : List ℓ} (h : Run Step s labels t) : value t = labels.foldl apply (value s) := by
  induction h with
  | refl => rfl
  | cons hs _ ih => rw [ih, foldl_append, hstep _ _ _ hs]

end OxyMake.LabelledRuns

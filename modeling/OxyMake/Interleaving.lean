import Mathlib.Data.List.Induction
import OxyMake.LabelledRuns

/-!
# Interleaved programs of atomic statements

A program is a tree of atomic statements that ends in a value or in an error.
Any number of calls run such programs over one shared store: a step starts a
call, executes the next statement of a call, lets a call fail at its next
statement, or moves the store by itself. A property of the executed statements
that each program keeps, whatever the others did to the store since its last
statement, holds of every statement of every run.
-/

namespace OxyMake.Interleaving

open List Option Function
open LabelledRuns

/-- Programs whose statements of type `S β` answer with a value of type `β`. -/
inductive Prog (S : Type → Type) (α : Type) : Type 1
  | ret (a : α)
  | err
  /-- The call executes a statement and goes on with its answer. -/
  | stmt {β : Type} (s : S β) (k : β → Prog S α)

namespace Prog

variable {S : Type → Type} {α β : Type}

/-- Run a program and go on with its value. -/
def bind : Prog S α → (α → Prog S β) → Prog S β
  | .ret a, f => f a
  | .err, _ => .err
  | .stmt s k, f => .stmt s fun r => (k r).bind f

instance : Monad (Prog S) where
  pure := .ret
  bind := bind

def exec (s : S α) : Prog S α := .stmt s .ret

@[simp]
theorem pure_eq (a : α) : (pure a : Prog S α) = .ret a := rfl

@[simp]
theorem ret_bind (a : α) (f : α → Prog S β) : (.ret a >>= f) = f a := rfl

@[simp]
theorem err_bind (f : α → Prog S β) : ((.err : Prog S α) >>= f) = .err := rfl

@[simp]
theorem stmt_bind {γ : Type} (s : S γ) (k : γ → Prog S α) (f : α → Prog S β) :
    (.stmt s k >>= f) = .stmt s fun r => k r >>= f := rfl

@[simp]
theorem exec_bind (s : S α) (f : α → Prog S β) : (exec s >>= f) = .stmt s f := rfl

/-- Binding twice is binding once with the composed rest. -/
@[simp]
theorem bind_bind {γ : Type} (p : Prog S α) (f : α → Prog S β) (g : β → Prog S γ) :
    (p >>= f) >>= g = p >>= fun a => f a >>= g := by
  induction p with
  | ret | err => rfl
  | stmt s k ih =>
    simp only [stmt_bind]
    exact congrArg (Prog.stmt s) (funext ih)

@[simp]
theorem map_eq (f : α → β) (p : Prog S α) : f <$> p = p >>= fun a => .ret (f a) := rfl

end Prog

/-- Statements over a shared store, the programs of the operations, and how the store
moves by itself. -/
structure Machine (S : Type → Type) (W Op α : Type) where
  /-- Answer and new store of a statement, unless the store refuses it. -/
  exec : {β : Type} → S β → W → Option (β × W)
  program : Op → Prog S α
  /-- Changes of the store that no call makes. -/
  drift : W → W → Prop

/-- A shared store and the calls made so far. -/
structure System (S : Type → Type) (W Op α : Type) where
  world : W
  /-- What each call was asked for and what is left of its program. -/
  calls : ℕ → Option (Op × Prog S α)

/-- The record of one executed statement. -/
structure Executed (S : Type → Type) (W Op α : Type) where
  operation : Op
  statement : (β : Type) × S β
  before : W
  after : W
  /-- What is left of the program of the call. -/
  rest : Prog S α

variable {S : Type → Type} {W Op α : Type}

def System.Idle (x : System S W Op α) : Prop := ∀ c, x.calls c = none

/-- The call `c` is now at a given point of its program. -/
def System.setCall (x : System S W Op α) (w : W) (c : ℕ) (op : Op) (p : Prog S α) :
    System S W Op α :=
  ⟨w, Function.update x.calls c (some (op, p))⟩

/-- A call after one call moved is that call or was made before. -/
theorem System.calls_setCall {x : System S W Op α} {w : W} {c c' : ℕ} {op : Op} {p : Prog S α}
    {v : Op × Prog S α} (h : (x.setCall w c op p).calls c' = some v) :
    (c' = c ∧ v = (op, p)) ∨ (c' ≠ c ∧ x.calls c' = some v) := by
  by_cases hc : c' = c
  · subst hc
    have hsome : some (op, p) = some v := by
      simpa only [System.setCall, update_self] using h
    exact .inl ⟨rfl, (Option.some.inj hsome).symm⟩
  · have hold : x.calls c' = some v := by
      simpa only [System.setCall, update_of_ne hc] using h
    exact .inr ⟨hc, hold⟩

/-- Steps of a system, labelled with the executed statement. -/
inductive Step (M : Machine S W Op α) :
    System S W Op α → Option (Executed S W Op α) → System S W Op α → Prop
  | call (x : System S W Op α) (c : ℕ) (op : Op) :
      x.calls c = none → Step M x none (x.setCall x.world c op (M.program op))
  | execute (x : System S W Op α) (c : ℕ) (op : Op) {β : Type} (s : S β) (k : β → Prog S α)
      (r : β) (w : W) :
      x.calls c = some (op, .stmt s k) → M.exec s x.world = some (r, w) →
      Step M x (some ⟨op, ⟨β, s⟩, x.world, w, k r⟩) (x.setCall w c op (k r))
  /-- The next statement of a call fails and the call returns the error. -/
  | abort (x : System S W Op α) (c : ℕ) (op : Op) {β : Type} (s : S β) (k : β → Prog S α) :
      x.calls c = some (op, .stmt s k) → Step M x none (x.setCall x.world c op .err)
  | drift (x : System S W Op α) (w : W) :
      M.drift x.world w → Step M x none ⟨w, x.calls⟩

/-- Execute the next statement of a call, if it has one and the store accepts it. -/
def advance (M : Machine S W Op α) (x : System S W Op α) (c : ℕ) :
    Option (Executed S W Op α × System S W Op α) :=
  match x.calls c with
  | some (op, .stmt (β := β) s k) =>
    match M.exec s x.world with
    | some (r, w) => some (⟨op, ⟨β, s⟩, x.world, w, k r⟩, x.setCall w c op (k r))
    | none => none
  | _ => none

/-- Execute the next statements of calls in a given order. -/
def schedule (M : Machine S W Op α) :
    List ℕ → System S W Op α → Option (List (Executed S W Op α) × System S W Op α)
  | [], x => some ([], x)
  | c :: cs, x =>
    match advance M x c with
    | some (e, y) => (schedule M cs y).map fun (log, z) => (e :: log, z)
    | none => none

/-- Executing the next statement of a call is a step. -/
theorem step_of_advance {M : Machine S W Op α} {x y : System S W Op α} {c : ℕ}
    {e : Executed S W Op α} (h : advance M x c = some (e, y)) : Step M x (some e) y := by
  unfold advance at h
  split at h
  · rename_i op β s k hcall
    split at h
    · rename_i r w hexec
      cases h
      exact .execute x c op s k r w hcall hexec
    · cases h
  · cases h

theorem calls_none_of_advance {M : Machine S W Op α} {x y : System S W Op α} {c c' : ℕ}
    {e : Executed S W Op α} (h : advance M x c = some (e, y)) (hnone : x.calls c' = none) :
    y.calls c' = none := by
  unfold advance at h
  split at h
  · rename_i op β s k hcall
    split at h
    · cases h
      have hne : c' ≠ c := fun heq => nomatch (heq ▸ hnone).symm.trans hcall
      simpa only [System.setCall, update_of_ne hne] using hnone
    · cases h
  · cases h

/-- Executing statements in a given order is a run. -/
theorem run_of_schedule {M : Machine S W Op α} {cs : List ℕ} {x y : System S W Op α}
    {log : List (Executed S W Op α)} (h : schedule M cs x = some (log, y)) :
    Run (Step M) x log y := by
  induction cs generalizing x log with
  | nil =>
    cases h
    exact .refl _
  | cons c cs ih =>
    unfold schedule at h
    split at h
    · rename_i e z hadv
      obtain ⟨⟨_, _⟩, hrest, heq⟩ := map_eq_some_iff.mp h
      cases heq
      exact .cons (step_of_advance hadv) (ih hrest)
    · cases h

/-- A check of every statement that a schedule executes. -/
def along (M : Machine S W Op α) (ok : System S W Op α → Executed S W Op α → Bool) :
    List ℕ → System S W Op α → Bool
  | [], _ => true
  | c :: cs, x =>
    match advance M x c with
    | some (e, y) => ok x e && along M ok cs y
    | none => false

/-- A schedule of the first `n` calls whose statements pass a check is a run of the steps
that the check allows. -/
theorem run_along {M : Machine S W Op α} (ok : System S W Op α → Executed S W Op α → Bool)
    {R : System S W Op α → Option (Executed S W Op α) → System S W Op α → Prop} {n : ℕ}
    (hR : ∀ x c e y, (∀ c, n ≤ c → x.calls c = none) → advance M x c = some (e, y) →
      ok x e = true → R x (some e) y)
    {cs : List ℕ} {x y : System S W Op α} {log : List (Executed S W Op α)}
    (hfree : ∀ c, n ≤ c → x.calls c = none) (h : schedule M cs x = some (log, y))
    (hok : along M ok cs x = true) : Run R x log y := by
  induction cs generalizing x log with
  | nil =>
    cases h
    exact .refl _
  | cons c cs ih =>
    unfold schedule at h
    unfold along at hok
    cases hadv : advance M x c with
    | none =>
      rw [hadv] at h
      cases h
    | some ez =>
      obtain ⟨e, z⟩ := ez
      rw [hadv] at h hok
      obtain ⟨⟨_, _⟩, hrest, heq⟩ := map_eq_some_iff.mp h
      cases heq
      obtain ⟨hfirst, hok⟩ := Bool.and_eq_true_iff.mp hok
      exact .cons (hR x c e z hfree hadv hfirst)
        (ih (fun c' hc' => calls_none_of_advance hadv (hfree c' hc')) hrest hok)

def System.idle (w : W) : System S W Op α := ⟨w, fun _ => none⟩

/-- The system in which calls of some operations, numbered in order, have started. -/
def started (M : Machine S W Op α) (w : W) (ops : List Op) : System S W Op α :=
  ⟨w, fun c => (ops[c]?).map fun op => (op, M.program op)⟩

/-- Calls of any operations can start by steps that include the starts of these calls. -/
theorem run_started_of {R : System S W Op α → Option (Executed S W Op α) → System S W Op α → Prop}
    (M : Machine S W Op α) (w : W) (ops : List Op)
    (hcall : ∀ x c, ∀ op ∈ ops, x.calls c = none →
      R x none (x.setCall x.world c op (M.program op))) :
    Run R (System.idle w) [] (started M w ops) := by
  induction ops using List.reverseRecOn with
  | nil => exact .refl _
  | append_singleton ops op ih =>
    refine (ih fun x c op' hop => hcall x c op' (mem_append_left _ hop)).trans
      (Run.silent ?_)
    have hfree : (started M w ops).calls ops.length = none := by
      dsimp only [started]
      rw [getElem?_eq_none (Nat.le_refl _), map_none]
    have heq : (started M w ops).setCall w ops.length op (M.program op) =
        started M w (ops ++ [op]) := by
      unfold System.setCall started
      congr 1
      funext c
      rcases Nat.lt_trichotomy c ops.length with hlt | heq | hgt
      · rw [update_of_ne (Nat.ne_of_lt hlt), getElem?_append_left hlt]
      · subst heq
        rw [update_self, getElem?_concat_length]
        rfl
      · have hlong : (ops ++ [op]).length ≤ c := by
          rw [length_append, length_singleton]
          omega
        rw [update_of_ne (Nat.ne_of_gt hgt), getElem?_eq_none hlong]
        dsimp only
        rw [getElem?_eq_none (Nat.le_of_lt hgt)]
    rw [← heq]
    exact hcall _ ops.length op (mem_append_right _ (mem_singleton_self op)) hfree

theorem run_started (M : Machine S W Op α) (w : W) (ops : List Op) :
    Run (Step M) (System.idle w) [] (started M w ops) :=
  run_started_of M w ops fun x c op _ => .call x c op

theorem calls_started_none {M : Machine S W Op α} {w : W} {ops : List Op} {c : ℕ}
    (h : ops.length ≤ c) : (started M w ops).calls c = none := by
  dsimp only [started]
  rw [getElem?_eq_none h, map_none]

/-- Every statement a program executes has a property, when the others change the store
between its statements only as `rely` allows. -/
def Guarded (M : Machine S W Op α) (rely : W → W → Prop) (P : Executed S W Op α → Prop) (op : Op) :
    Prog S α → W → Prop
  | .ret _, _ => True
  | .err, _ => True
  | .stmt (β := β) s k, w => ∀ w₁, rely w w₁ → ∀ r w₂, M.exec s w₁ = some (r, w₂) →
      P ⟨op, ⟨β, s⟩, w₁, w₂, k r⟩ ∧ Guarded M rely P op (k r) w₂

section Rules

variable {M : Machine S W Op α} {rely : W → W → Prop} {P : Executed S W Op α → Prop}

theorem Guarded.mono (htrans : ∀ u v w, rely u v → rely v w → rely u w) {op : Op}
    {p : Prog S α} {w w' : W} (h : Guarded M rely P op p w) (hw : rely w w') :
    Guarded M rely P op p w' := by
  cases p with
  | ret | err => trivial
  | stmt => exact fun w₁ hw₁ => h w₁ (htrans _ _ _ hw hw₁)

/-- Every call of a system is guarded from the present store on. -/
def Safe (M : Machine S W Op α) (rely : W → W → Prop) (P : Executed S W Op α → Prop)
    (x : System S W Op α) : Prop :=
  ∀ c op p, x.calls c = some (op, p) → Guarded M rely P op p x.world

theorem Safe.setCall (htrans : ∀ u v w, rely u v → rely v w → rely u w)
    {x : System S W Op α} (hx : Safe M rely P x) {w : W} (hw : rely x.world w) (c : ℕ) {op : Op}
    {p : Prog S α} (hp : Guarded M rely P op p w) : Safe M rely P (x.setCall w c op p) := by
  intro c' op' p' hcall
  rcases System.calls_setCall hcall with ⟨-, heq⟩ | ⟨-, hold⟩
  · cases heq
    exact hp
  · exact (hx c' op' p' hold).mono htrans hw

/-- What every step of a machine needs so that guarded programs stay guarded. -/
structure Relies (M : Machine S W Op α) (rely : W → W → Prop) : Prop where
  refl : ∀ w, rely w w
  trans : ∀ u v w, rely u v → rely v w → rely u w
  /-- Every statement is a change others may make. -/
  exec : ∀ {β : Type} (s : S β) w r w', M.exec s w = some (r, w') → rely w w'
  /-- The store moves by itself only so. -/
  drift : ∀ w w', M.drift w w' → rely w w'

theorem Safe.step (hM : Relies M rely) (hprog : ∀ op w, Guarded M rely P op (M.program op) w)
    {x y : System S W Op α} {e : Option (Executed S W Op α)} (hx : Safe M rely P x)
    (h : Step M x e y) : Safe M rely P y ∧ ∀ f ∈ e, P f := by
  cases h with
  | call c op =>
    exact ⟨hx.setCall hM.trans (hM.refl _) c (hprog op _), fun f hf => nomatch hf⟩
  | execute c op s k r w hcall hexec =>
    obtain ⟨hP, hguard⟩ := hx c op _ hcall _ (hM.refl _) r w hexec
    refine ⟨hx.setCall hM.trans (hM.exec s _ r w hexec) c hguard, ?_⟩
    intro f hf
    cases hf
    exact hP
  | abort c =>
    exact ⟨hx.setCall hM.trans (hM.refl _) c trivial, fun f hf => nomatch hf⟩
  | drift w hw =>
    exact ⟨fun c op p hcall => (hx c op p hcall).mono hM.trans (hM.drift _ _ hw),
      fun f hf => nomatch hf⟩

/-- Every statement of a run from a safe system has the property. -/
theorem Safe.run (hM : Relies M rely) (hprog : ∀ op w, Guarded M rely P op (M.program op) w)
    {x y : System S W Op α} {log : List (Executed S W Op α)} (hx : Safe M rely P x)
    (h : Run (Step M) x log y) : Safe M rely P y ∧ ∀ e ∈ log, P e := by
  induction h with
  | refl => exact ⟨hx, fun e he => nomatch he⟩
  | cons hstep _ ih =>
    obtain ⟨hsafe, hlabel⟩ := hx.step hM hprog hstep
    obtain ⟨hfinal, hrest⟩ := ih hsafe
    refine ⟨hfinal, ?_⟩
    intro e he
    rcases mem_append.mp he with he | he
    · exact hlabel e (mem_toList.mp he)
    · exact hrest e he

/-- An idle system is safe. -/
theorem System.Idle.safe {x : System S W Op α} (hx : x.Idle) : Safe M rely P x := by
  intro c op p hcall
  rw [hx c] at hcall
  cases hcall

end Rules

/-- What may be left of a program once some of its statements have been answered. -/
inductive Prog.Leads : Prog S α → Prog S α → Prop
  | refl (p : Prog S α) : Prog.Leads p p
  | answer {p : Prog S α} {β : Type} {s : S β} {k : β → Prog S α} (r : β) :
      Prog.Leads p (.stmt s k) → Prog.Leads p (k r)

/-- What a program leads to is the program itself or follows an answer of its first
statement. -/
theorem Prog.Leads.first {p q : Prog S α} (h : Prog.Leads p q) :
    q = p ∨ ∃ (β : Type) (s : S β) (k : β → Prog S α) (r : β),
      p = .stmt s k ∧ Prog.Leads (k r) q := by
  induction h with
  | refl => exact Or.inl rfl
  | answer r _ ih =>
    rcases ih with heq | ⟨β, s, k, r₀, hp, hrest⟩
    · exact Or.inr ⟨_, _, _, r, heq.symm, .refl _⟩
    · exact Or.inr ⟨β, s, k, r₀, hp, .answer r hrest⟩

/-- Every value a program may return has a property. -/
def Prog.Returns (P : α → Prop) : Prog S α → Prop
  | .ret a => P a
  | .err => True
  | .stmt _ k => ∀ r, (k r).Returns P

theorem Prog.Returns.of_leads {P : α → Prop} {p q : Prog S α} (h : p.Returns P)
    (hleads : Prog.Leads p q) : q.Returns P := by
  induction hleads with
  | refl => exact h
  | answer r _ ih => exact ih r

theorem Prog.Returns.bind {γ : Type} {P : γ → Prop} (p : Prog S α) {f : α → Prog S γ}
    (hf : ∀ a, (f a).Returns P) : (p >>= f).Returns P := by
  induction p with
  | ret a => exact hf a
  | err => trivial
  | stmt s k ih => exact fun r => ih r

/-- After some statements of a run, the call `c` executed the first statement of its
program, which answered `r`. -/
def Began (M : Machine S W Op α) (x : System S W Op α) (log : List (Executed S W Op α))
    (y : System S W Op α) (c : ℕ) (op : Op) {β : Type} (s : S β) (k : β → Prog S α) (r : β)
    (earlier : List (Executed S W Op α)) : Prop :=
  ∃ a w later, Run (Step M) x earlier a ∧ a.calls c = some (op, .stmt s k) ∧
    M.exec s a.world = some (r, w) ∧ Run (Step M) (a.setCall w c op (k r)) later y ∧
    log = earlier ++ ⟨op, ⟨β, s⟩, a.world, w, k r⟩ :: later

theorem Began.extend {M : Machine S W Op α} {x y z : System S W Op α}
    {log earlier : List (Executed S W Op α)} {c : ℕ} {op : Op} {β : Type} {s : S β}
    {k : β → Prog S α} {r : β} (h : Began M x log y c op s k r earlier)
    {label : Option (Executed S W Op α)} (hstep : Step M y label z) :
    Began M x (log ++ label.toList) z c op s k r earlier := by
  obtain ⟨a, w, later, hrun, hcall, hexec, hrest, rfl⟩ := h
  have hlast : Run (Step M) y label.toList z := by
    simpa only [append_nil] using Run.cons hstep (.refl z)
  exact ⟨a, w, later ++ label.toList, hrun, hcall, hexec, hrest.trans hlast,
    by rw [append_assoc, cons_append]⟩

/-- Every call `c` of an operation has not begun, has failed, or has begun and gone on from
the answer of its first statement. -/
def Traced (M : Machine S W Op α) (x : System S W Op α) (c : ℕ) (op : Op) {β : Type} (s : S β)
    (k : β → Prog S α) (log : List (Executed S W Op α)) (y : System S W Op α) : Prop :=
  ∀ p, y.calls c = some (op, p) → p = .stmt s k ∨ p = .err ∨
    ∃ r earlier, Began M x log y c op s k r earlier ∧ Prog.Leads (k r) p

theorem Traced.step {M : Machine S W Op α} {x y z : System S W Op α}
    {log : List (Executed S W Op α)} {c : ℕ} {op : Op} {β : Type} {s : S β}
    {k : β → Prog S α} (hprog : M.program op = .stmt s k) (hrun : Run (Step M) x log y)
    (h : Traced M x c op s k log y) {label : Option (Executed S W Op α)}
    (hstep : Step M y label z) : Traced M x c op s k (log ++ label.toList) z := by
  have hold : ∀ p, y.calls c = some (op, p) → p = .stmt s k ∨ p = .err ∨
      ∃ r earlier, Began M x (log ++ label.toList) z c op s k r earlier ∧
        Prog.Leads (k r) p := by
    intro p hp
    rcases h p hp with hstart | herr | ⟨r, earlier, hbegan, hleads⟩
    · exact Or.inl hstart
    · exact Or.inr (Or.inl herr)
    · exact Or.inr (Or.inr ⟨r, earlier, hbegan.extend hstep, hleads⟩)
  intro p hp
  cases hstep with
  | call =>
    rcases System.calls_setCall hp with ⟨-, heq⟩ | ⟨-, hother⟩
    · cases heq
      exact Or.inl hprog
    · exact hold p hother
  | execute c' op' s' k' r' w hc' hexec =>
    rcases System.calls_setCall hp with ⟨rfl, heq⟩ | ⟨-, hother⟩
    · cases heq
      rcases h _ hc' with hstart | herr | ⟨r, earlier, hbegan, hleads⟩
      · cases hstart
        exact Or.inr (Or.inr ⟨r', log, ⟨y, w, [], hrun, hc', hexec, .refl _, rfl⟩, .refl _⟩)
      · cases herr
      · exact Or.inr (Or.inr ⟨r, earlier, hbegan.extend (.execute y c op s' k' r' w hc' hexec),
          .answer r' hleads⟩)
    · exact hold p hother
  | abort =>
    rcases System.calls_setCall hp with ⟨-, heq⟩ | ⟨-, hother⟩
    · cases heq
      exact Or.inr (Or.inl rfl)
    · exact hold p hother
  | drift => exact hold p hp

theorem traced_of_run {M : Machine S W Op α} {x y : System S W Op α}
    {log : List (Executed S W Op α)} (hidle : x.Idle) (h : Run (Step M) x log y) {op : Op}
    {β : Type} {s : S β} {k : β → Prog S α} (hprog : M.program op = .stmt s k) (c : ℕ) :
    Traced M x c op s k log y := by
  have hstart : Traced M x c op s k [] x := fun p hp => nomatch (hidle c).symm.trans hp
  have hall := Run.recorded
    (fun past z => Run (Step M) x past z ∧ Traced M x c op s k past z) ?_ h ⟨.refl x, hstart⟩
  · exact hall.2
  · intro past u label v hu hstep
    have hlast : Run (Step M) u label.toList v := by
      simpa only [append_nil] using Run.cons hstep (.refl v)
    exact ⟨hu.1.trans hlast, hu.2.step hprog hu.1 hstep⟩

/-- The statement of a step is executed in the store before it and leaves the one after it. -/
theorem Step.executed {M : Machine S W Op α} {x y : System S W Op α} {e : Executed S W Op α}
    (h : Step M x (some e) y) : e.before = x.world ∧ e.after = y.world := by
  cases h with
  | execute => exact ⟨rfl, rfl⟩

/-- Every statement of a run was executed as the machine says. -/
theorem run_executed {M : Machine S W Op α} {x y : System S W Op α}
    {log : List (Executed S W Op α)} (h : Run (Step M) x log y) :
    ∀ e ∈ log, ∃ r, M.exec e.statement.2 e.before = some (r, e.after) := by
  induction h with
  | refl => exact fun e he => nomatch he
  | cons hstep _ ih =>
    intro e he
    rcases mem_append.mp he with he | he
    · cases hstep with
      | call | abort | drift => cases he
      | execute c op s k r w hcall hexec =>
        rw [toList_some, mem_singleton] at he
        subst he
        exact ⟨r, hexec⟩
    · exact ih e he

/-- A property of the store that every executed statement keeps holds before each of them
and at the end of the run. -/
theorem run_keeps {M : Machine S W Op α} {I : W → Prop}
    (hdrift : ∀ w w', M.drift w w' → I w → I w')
    {x y : System S W Op α} {log : List (Executed S W Op α)} (h : Run (Step M) x log y)
    (hlog : ∀ e ∈ log, I e.before → I e.after) (hx : I x.world) :
    I y.world ∧ ∀ e ∈ log, I e.before := by
  induction h with
  | refl => exact ⟨hx, fun e he => nomatch he⟩
  | @cons x y z label labels hstep _ ih =>
    have hfirst : I y.world ∧ ∀ e ∈ label.toList, I e.before := by
      cases hstep with
      | call | abort => exact ⟨hx, fun e he => nomatch he⟩
      | execute =>
        refine ⟨hlog _ (mem_append_left _ mem_cons_self) hx, ?_⟩
        intro e he
        rw [toList_some, mem_singleton] at he
        subst he
        exact hx
      | drift w hw => exact ⟨hdrift _ _ hw hx, fun e he => nomatch he⟩
    obtain ⟨hlast, hrest⟩ :=
      ih (fun e he => hlog e (mem_append_right _ he)) hfirst.1
    refine ⟨hlast, ?_⟩
    intro e he
    rcases mem_append.mp he with he | he
    · exact hfirst.2 e he
    · exact hrest e he

end OxyMake.Interleaving

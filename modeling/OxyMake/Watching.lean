import OxyMake.Interleaving

/-!
# Programs that rely on the others for a while

Some programs look at the store first and act on what they saw later. Such a
call watches from its look to its end, and what it does is right only if the
others change the store meanwhile as it relies on. A run heeds its watching
calls when every step changes the store only as the calls that watch at that
moment rely on; in such a run every executed statement has the property that
the programs keep under these changes.
-/

namespace OxyMake.Watching

open LabelledRuns Interleaving

variable {S T : Type → Type} {W Op α : Type}

def lift (f : {β : Type} → S β → T β) : Prog S α → Prog T α
  | .ret a => .ret a
  | .err => .err
  | .stmt s k => .stmt (f s) fun r => lift f (k r)

/-- Every statement a program may execute has a property. -/
def Uses (Q : {β : Type} → S β → Prop) : Prog S α → Prop
  | .ret _ => True
  | .err => True
  | .stmt s k => Q s ∧ ∀ r, Uses Q (k r)

/-- Going on with programs that use only such statements. -/
theorem Uses.bind {γ : Type} {Q : {β : Type} → S β → Prop} {p : Prog S α} {f : α → Prog S γ}
    (hp : Uses Q p) (hf : ∀ a, Uses Q (f a)) : Uses Q (p >>= f) := by
  induction p with
  | ret a => exact hf a
  | err => trivial
  | stmt s k ih => exact ⟨hp.1, fun r => ih r (hp.2 r)⟩

theorem Uses.lift {Q : {β : Type} → T β → Prop} {f : {β : Type} → S β → T β} {p : Prog S α}
    (hp : Uses (fun s => Q (f s)) p) : Uses Q (Watching.lift f p) := by
  induction p with
  | ret | err => trivial
  | stmt s k ih => exact ⟨hp.1, fun r => ih r (hp.2 r)⟩

theorem Uses.mono {Q Q' : {β : Type} → S β → Prop} (hQ : ∀ {β : Type} (s : S β), Q s → Q' s)
    {p : Prog S α} (hp : Uses Q p) : Uses Q' p := by
  induction p with
  | ret | err => trivial
  | stmt s k ih => exact ⟨hQ s hp.1, fun r => ih r (hp.2 r)⟩

def Unfinished : Prog S α → Prop
  | .stmt _ _ => True
  | _ => False

variable {M : Machine S W Op α} {P : Executed S W Op α → Prop}

/-- A program is guarded by an invariant of the store that the others keep and that each of
its statements keeps while it has the property. -/
theorem guarded_of_invariant {rely : W → W → Prop} {I : W → Prop} {Q : {β : Type} → S β → Prop}
    {op : Op} (hrely : ∀ w w', rely w w' → I w → I w')
    (hexec : ∀ {β : Type} (s : S β) (k : β → Prog S α) w r w', Q s →
      M.exec s w = some (r, w') → I w → I w' ∧ P ⟨op, ⟨β, s⟩, w, w', k r⟩)
    {p : Prog S α} (hp : Uses Q p) {w : W} (hw : I w) : Guarded M rely P op p w := by
  induction p generalizing w with
  | ret | err => trivial
  | stmt s k ih =>
    intro w₁ hw₁ r w₂ hstmt
    obtain ⟨hafter, hP⟩ := hexec s k w₁ r w₂ hp.1 hstmt (hrely w w₁ hw₁ hw)
    exact ⟨hP, ih r (hp.2 r) hafter⟩

/-- A step that changes the store only as the watching calls rely on and starts a call only
in a store from which its operation may begin. -/
structure HeedfulStep (M : Machine S W Op α) (Watch : Op → Prog S α → Prop)
    (rely : Op → W → W → Prop) (Begin : Op → W → Prop) (x : System S W Op α)
    (label : Option (Executed S W Op α)) (y : System S W Op α) : Prop where
  step : Step M x label y
  /-- The store changes only as the watching calls rely on. -/
  heeds : ∀ c op p, x.calls c = some (op, p) → Watch op p → rely op x.world y.world
  /-- A call that starts may begin. -/
  begins : ∀ c op p, x.calls c = none → y.calls c = some (op, p) → Begin op x.world

/-- What the programs have to keep. -/
structure Heeds (M : Machine S W Op α) (Watch : Op → Prog S α → Prop)
    (rely : Op → W → W → Prop) (Begin : Op → W → Prop) (P : Executed S W Op α → Prop) :
    Prop where
  refl : ∀ op w, rely op w w
  trans : ∀ op u v w, rely op u v → rely op v w → rely op u w
  /-- A call that watches from its start is guarded. -/
  start : ∀ op w, Begin op w → Watch op (M.program op) →
    Guarded M (rely op) P op (M.program op) w
  /-- A statement of a call that does not watch has the property, and a call that watches
  from then on is guarded. -/
  look : ∀ op {β : Type} (s : S β) (k : β → Prog S α), Prog.Leads (M.program op) (.stmt s k) →
    ¬ Watch op (.stmt s k) → ∀ w r w', M.exec s w = some (r, w') →
      P ⟨op, ⟨β, s⟩, w, w', k r⟩ ∧ (Watch op (k r) → Guarded M (rely op) P op (k r) w')

/-- Every call is at a point of its program and guarded while it watches. -/
def Heeded (M : Machine S W Op α) (Watch : Op → Prog S α → Prop) (rely : Op → W → W → Prop)
    (P : Executed S W Op α → Prop) (x : System S W Op α) : Prop :=
  ∀ c op p, x.calls c = some (op, p) →
    (p = .err ∨ Prog.Leads (M.program op) p) ∧ (Watch op p → Guarded M (rely op) P op p x.world)

section Rule

variable {Watch : Op → Prog S α → Prop} {rely : Op → W → W → Prop} {Begin : Op → W → Prop}

theorem guarded_err {rely : W → W → Prop} (op : Op) (w : W) :
    Guarded M rely P op (.err : Prog S α) w := trivial

/-- Moving the store as the watching calls rely on and one call along its program keeps a
system heeded. -/
theorem Heeded.setCall (hM : Heeds M Watch rely Begin P) {x : System S W Op α}
    (hx : Heeded M Watch rely P x) {w : W}
    (hw : ∀ c op p, x.calls c = some (op, p) → Watch op p → rely op x.world w) (c : ℕ) {op : Op}
    {p : Prog S α} (hshape : p = .err ∨ Prog.Leads (M.program op) p)
    (hp : Watch op p → Guarded M (rely op) P op p w) :
    Heeded M Watch rely P (x.setCall w c op p) := by
  intro c' op' p' hcall
  rcases System.calls_setCall hcall with ⟨-, heq⟩ | ⟨-, hold⟩
  · cases heq
    exact ⟨hshape, hp⟩
  · obtain ⟨hshape', hguard⟩ := hx c' op' p' hold
    exact ⟨hshape', fun hwatch =>
      (hguard hwatch).mono (hM.trans op') (hw c' op' p' hold hwatch)⟩

theorem Heeded.step (hM : Heeds M Watch rely Begin P) {x y : System S W Op α}
    {label : Option (Executed S W Op α)} (hx : Heeded M Watch rely P x)
    (h : HeedfulStep M Watch rely Begin x label y) :
    Heeded M Watch rely P y ∧ ∀ e ∈ label, P e := by
  obtain ⟨hstep, hrely, hbegin⟩ := h
  cases hstep with
  | call c op hfree =>
    have hmay : Begin op x.world := by
      refine hbegin c op (M.program op) hfree ?_
      simp only [System.setCall, Function.update_self]
    exact ⟨hx.setCall hM hrely c (Or.inr (.refl _)) (hM.start op _ hmay), fun e he => by cases he⟩
  | execute c op s k r w hcall hexec =>
    obtain ⟨hshape, hguard⟩ := hx c op _ hcall
    have hleads : Prog.Leads (M.program op) (.stmt s k) := by
      rcases hshape with herr | hleads
      · cases herr
      · exact hleads
    have hnext : P ⟨op, ⟨_, s⟩, x.world, w, k r⟩ ∧
        (Watch op (k r) → Guarded M (rely op) P op (k r) w) := by
      by_cases hwatch : Watch op (.stmt s k)
      · obtain ⟨hP, hrest⟩ := hguard hwatch x.world (hM.refl op _) r w hexec
        exact ⟨hP, fun _ => hrest⟩
      · exact hM.look op s k hleads hwatch x.world r w hexec
    refine ⟨hx.setCall hM hrely c (Or.inr (.answer r hleads)) hnext.2, ?_⟩
    intro e he
    cases he
    exact hnext.1
  | abort c op =>
    exact ⟨hx.setCall hM hrely c (Or.inl rfl) (fun _ => guarded_err op _), fun e he => by cases he⟩
  | drift =>
    refine ⟨?_, fun e he => by cases he⟩
    intro c op p hcall
    obtain ⟨hshape, hguard⟩ := hx c op p hcall
    exact ⟨hshape, fun hwatch =>
      (hguard hwatch).mono (hM.trans op) (hrely c op p hcall hwatch)⟩

/-- Every statement of a run that heeds its watching calls has the property. -/
theorem heedful_run (hM : Heeds M Watch rely Begin P) {x y : System S W Op α}
    {log : List (Executed S W Op α)} (hidle : x.Idle)
    (h : Run (HeedfulStep M Watch rely Begin) x log y) : ∀ e ∈ log, P e := by
  have hall : ∀ x, Heeded M Watch rely P x → ∀ log y,
      Run (HeedfulStep M Watch rely Begin) x log y → ∀ e ∈ log, P e := by
    intro x hx log y hrun
    induction hrun with
    | refl => exact fun e he => nomatch he
    | cons hstep _ ih =>
      obtain ⟨hnext, hlabel⟩ := hx.step hM hstep
      intro e he
      rcases List.mem_append.mp he with he | he
      · exact hlabel e (Option.mem_toList.mp he)
      · exact ih hnext e he
  refine hall x ?_ log y h
  intro c op p hcall
  rw [hidle c] at hcall
  cases hcall

end Rule

end OxyMake.Watching

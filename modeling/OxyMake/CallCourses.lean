import OxyMake.Watching

/-!
# The course of one call among many

A run of interleaved calls is numbered when each executed statement carries the
call that executed it. The statements of one call, in order, then form a course
of its program: each meets a store that the others changed since the last one
only as the machine allows, and what is left of the program is what the call has
still to do. The course of a program that goes on with another one is a course
of the first followed by a course of the second.
-/

namespace OxyMake.CallCourses

open List Function
open LabelledRuns Interleaving Watching

variable {S : Type → Type} {W Op α β : Type}

/-- A statement with the store it was executed in and the one it left. -/
structure Moment (S : Type → Type) (W : Type) where
  statement : (β : Type) × S β
  before : W
  after : W

def moment (e : Executed S W Op α) : Moment S W := ⟨e.statement, e.before, e.after⟩

/-- A program has executed some of its statements, the others changed the store between them
as they may, and the rest of the program is left. -/
inductive Course (E : {β : Type} → S β → W → Option (β × W)) (rely : W → W → Prop) :
    Prog S α → W → List (Moment S W) → Prog S α → W → Prop
  | done (p : Prog S α) (w : W) : Course E rely p w [] p w
  /-- The first statement has been executed and its answer led on. -/
  | next {γ : Type} {s : S γ} {k : γ → Prog S α} {w w₁ w₂ v : W} {r : γ}
      {own : List (Moment S W)} {q : Prog S α} :
      rely w w₁ → E s w₁ = some (r, w₂) → Course E rely (k r) w₂ own q v →
      Course E rely (.stmt s k) w (⟨⟨γ, s⟩, w₁, w₂⟩ :: own) q v

namespace Course

variable {E : {β : Type} → S β → W → Option (β × W)} {rely : W → W → Prop}
  {own : List (Moment S W)} {w v : W}

/-- A program that has returned executes nothing. -/
theorem of_ret {a : α} {q : Prog S α} (h : Course E rely (.ret a) w own q v) :
    own = [] ∧ q = .ret a ∧ v = w := by
  cases h with
  | done => exact ⟨rfl, rfl, rfl⟩

theorem of_err {q : Prog S α} (h : Course E rely .err w own q v) :
    own = [] ∧ q = .err ∧ v = w := by
  cases h with
  | done => exact ⟨rfl, rfl, rfl⟩

/-- A program at a statement has not executed it, or has and gone on with its answer. -/
theorem of_stmt {γ : Type} {s : S γ} {k : γ → Prog S α} {q : Prog S α}
    (h : Course E rely (.stmt s k) w own q v) :
    (own = [] ∧ q = .stmt s k ∧ v = w) ∨ ∃ w₁ r w₂ rest, rely w w₁ ∧
      E s w₁ = some (r, w₂) ∧ own = ⟨⟨γ, s⟩, w₁, w₂⟩ :: rest ∧
      Course E rely (k r) w₂ rest q v := by
  cases h with
  | done => exact .inl ⟨rfl, rfl, rfl⟩
  | next hrely hexec hrest => exact .inr ⟨_, _, _, _, hrely, hexec, rfl, hrest⟩

theorem snoc {p : Prog S α} {γ : Type} {s : S γ} {k : γ → Prog S α} {w₁ w₂ : W} {r : γ}
    (h : Course E rely p w own (.stmt s k) v) (hrely : rely v w₁)
    (hexec : E s w₁ = some (r, w₂)) :
    Course E rely p w (own ++ [⟨⟨γ, s⟩, w₁, w₂⟩]) (k r) w₂ := by
  generalize hq : Prog.stmt s k = q at h
  induction h with
  | done =>
    subst hq
    exact .next hrely hexec (.done _ _)
  | next hfirst hanswer _ ih =>
    rw [cons_append]
    exact .next hfirst hanswer (ih hrely hq)

/-- A course of a program that goes on with another one has not left the first, or has ended
it and is a course of the second from there. -/
theorem of_bind {p : Prog S α} {f : α → Prog S β} {q : Prog S β}
    (h : Course E rely (p >>= f) w own q v) :
    (∃ p', Course E rely p w own p' v ∧ q = p' >>= f) ∨
      ∃ a own₁ own₂ u, Course E rely p w own₁ (.ret a) u ∧ Course E rely (f a) u own₂ q v ∧
        own = own₁ ++ own₂ := by
  induction p generalizing w own with
  | ret a => exact .inr ⟨a, [], own, w, .done _ _, h, rfl⟩
  | err =>
    obtain ⟨rfl, rfl, rfl⟩ := of_err h
    exact .inl ⟨.err, .done _ _, rfl⟩
  | stmt s k ih =>
    rcases of_stmt h with ⟨rfl, rfl, rfl⟩ | ⟨_, r, _, _, hrely, hexec, rfl, hrest⟩
    · exact .inl ⟨_, .done _ _, rfl⟩
    · rcases ih r hrest with ⟨p', hp, rfl⟩ | ⟨a, own₁, own₂, u, hp, hf, rfl⟩
      · exact .inl ⟨p', .next hrely hexec hp, rfl⟩
      · exact .inr ⟨a, _ :: own₁, own₂, u, .next hrely hexec hp, hf, rfl⟩

theorem of_bind_ret {p : Prog S α} {f : α → Prog S β} {b : β}
    (h : Course E rely (p >>= f) w own (.ret b) v) :
    ∃ a own₁ own₂ u, Course E rely p w own₁ (.ret a) u ∧
      Course E rely (f a) u own₂ (.ret b) v ∧ own = own₁ ++ own₂ := by
  rcases of_bind h with ⟨p', hp, heq⟩ | hdone
  · cases p' with
    | ret a =>
      refine ⟨a, own, [], v, hp, ?_, (append_nil _).symm⟩
      rw [heq]
      exact .done _ _
    | err | stmt => cases heq
  · exact hdone

theorem uses {Q : {β : Type} → S β → Prop} {p q : Prog S α} (hp : Uses Q p)
    (h : Course E rely p w own q v) : ∀ m ∈ own, Q m.statement.2 := by
  induction h with
  | done => exact fun m hm => nomatch hm
  | next _ _ _ ih =>
    intro m hm
    rcases mem_cons.mp hm with rfl | hm
    · exact hp.1
    · exact ih (hp.2 _) m hm

theorem executed {p q : Prog S α} (h : Course E rely p w own q v) :
    ∀ m ∈ own, ∃ r, E m.statement.2 m.before = some (r, m.after) := by
  induction h with
  | done => exact fun m hm => nomatch hm
  | next _ hexec _ ih =>
    intro m hm
    rcases mem_cons.mp hm with rfl | hm
    · exact ⟨_, hexec⟩
    · exact ih m hm

theorem cut {p q : Prog S α} {pre post : List (Moment S W)} {m : Moment S W}
    (h : Course E rely p w (pre ++ m :: post) q v) :
    ∃ p' u, Course E rely p w pre p' u ∧ rely u m.before := by
  induction pre generalizing p w with
  | nil =>
    cases h with
    | next hrely _ _ => exact ⟨_, w, .done _ _, hrely⟩
  | cons m' pre ih =>
    cases h with
    | next hrely hexec hrest =>
      obtain ⟨p', u, hcourse, hu⟩ := ih hrest
      exact ⟨p', u, .next hrely hexec hcourse, hu⟩

theorem relies (hrefl : ∀ w, rely w w) (htrans : ∀ u v w, rely u v → rely v w → rely u w)
    (hexec : ∀ {β : Type} (s : S β) w r w', E s w = some (r, w') → rely w w') {p q : Prog S α}
    (h : Course E rely p w own q v) :
    rely w v ∧ ∀ m ∈ own, rely w m.before ∧ rely m.after v := by
  induction h with
  | done p w => exact ⟨hrefl w, fun m hm => nomatch hm⟩
  | @next γ s k w w₁ w₂ v r own q hrely hstmt _ ih =>
    have hfirst : rely w w₂ := htrans _ _ _ hrely (hexec _ _ _ _ hstmt)
    refine ⟨htrans _ _ _ hfirst ih.1, ?_⟩
    intro m hm
    rcases mem_cons.mp hm with rfl | hm
    · exact ⟨hrely, ih.1⟩
    · exact ⟨htrans _ _ _ hfirst (ih.2 m hm).1, (ih.2 m hm).2⟩

end Course

/-! ### Numbered runs -/

/-- Steps of a system, labelled with the executed statement and the call that executed it. -/
inductive Numbered (M : Machine S W Op α) :
    System S W Op α → Option (ℕ × Executed S W Op α) → System S W Op α → Prop
  | silent {x y : System S W Op α} : Step M x none y → Numbered M x none y
  | execute (x : System S W Op α) (c : ℕ) (op : Op) {γ : Type} (s : S γ) (k : γ → Prog S α)
      (r : γ) (w : W) :
      x.calls c = some (op, .stmt s k) → M.exec s x.world = some (r, w) →
      Numbered M x (some (c, ⟨op, ⟨γ, s⟩, x.world, w, k r⟩)) (x.setCall w c op (k r))

def own (c : ℕ) (log : List (ℕ × Executed S W Op α)) : List (Moment S W) :=
  (log.filter (·.1 = c)).map fun e => moment e.2

section Runs

variable {M : Machine S W Op α} {x y : System S W Op α}

theorem exists_numbered {label : Option (Executed S W Op α)} (h : Step M x label y) :
    ∃ numbered : Option (ℕ × Executed S W Op α), Numbered M x numbered y ∧
      numbered.map (·.2) = label := by
  cases h with
  | call c op hfree => exact ⟨none, .silent (.call x c op hfree), rfl⟩
  | execute c op s k r w hcall hexec => exact ⟨_, .execute x c op s k r w hcall hexec, rfl⟩
  | abort c op s k hcall => exact ⟨none, .silent (.abort x c op s k hcall), rfl⟩
  | drift w hw => exact ⟨none, .silent (.drift x w hw), rfl⟩

theorem exists_numbered_run {log : List (Executed S W Op α)} (h : Run (Step M) x log y) :
    ∃ numbered, Run (Numbered M) x numbered y ∧ numbered.map (·.2) = log := by
  induction h with
  | refl x => exact ⟨[], .refl x, rfl⟩
  | cons hstep _ ih =>
    obtain ⟨first, hfirst, hlabel⟩ := exists_numbered hstep
    obtain ⟨rest, hrest, hlog⟩ := ih
    refine ⟨first.toList ++ rest, .cons hfirst hrest, ?_⟩
    rw [map_append, hlog, ← hlabel]
    cases first <;> rfl

theorem numbered_of_advance {c : ℕ} {e : Executed S W Op α} (h : advance M x c = some (e, y)) :
    Numbered M x (some (c, e)) y := by
  unfold advance at h
  split at h
  · rename_i op γ s k hcall
    split at h
    · rename_i r w hexec
      cases h
      exact .execute x c op s k r w hcall hexec
    · cases h
  · cases h

/-- Executing statements of calls in a given order is a run with their numbers. -/
theorem numbered_of_schedule {cs : List ℕ} {log : List (Executed S W Op α)}
    (h : schedule M cs x = some (log, y)) : Run (Numbered M) x (cs.zip log) y := by
  induction cs generalizing x log with
  | nil =>
    cases h
    exact .refl _
  | cons c cs ih =>
    unfold schedule at h
    split at h
    · rename_i e z hadv
      obtain ⟨⟨_, _⟩, hrest, heq⟩ := Option.map_eq_some_iff.mp h
      cases heq
      exact .cons (numbered_of_advance hadv) (ih hrest)
    · cases h

/-- Calls of any operations can start. -/
theorem numbered_started (M : Machine S W Op α) (w : W) (ops : List Op) :
    Run (Numbered M) (System.idle w) [] (started M w ops) := by
  obtain ⟨_, hrun, hlog⟩ := exists_numbered_run (run_started M w ops)
  rw [map_eq_nil_iff.mp hlog] at hrun
  exact hrun

end Runs

/-! ### Every call follows a course -/

/-- The store has moved as it may, calls that have not started executed nothing, and every
other call is where a course of its program ended, or failed there. -/
structure Underway (M : Machine S W Op α) (rely : W → W → Prop) (start : W)
    (log : List (ℕ × Executed S W Op α)) (y : System S W Op α) : Prop where
  moved : rely start y.world
  /-- A call that has not started executed nothing. -/
  waiting : ∀ c, y.calls c = none → own c log = []
  /-- A call is where a course of its program ended, or failed there. -/
  course : ∀ c op p, y.calls c = some (op, p) → ∃ q v,
    Course M.exec rely (M.program op) start (own c log) q v ∧ rely v y.world ∧ (p = q ∨ p = .err)

theorem own_concat (c c' : ℕ) (log : List (ℕ × Executed S W Op α)) (e : Executed S W Op α) :
    own c (log ++ [(c', e)]) = if c' = c then own c log ++ [moment e] else own c log := by
  unfold own
  rw [filter_append, map_append, filter_singleton]
  by_cases hc : c' = c
  · rw [if_pos hc, decide_eq_true hc]
    rfl
  · rw [if_neg hc, decide_eq_false hc]
    exact append_nil _

theorem Underway.step {M : Machine S W Op α} {rely : W → W → Prop} (hM : Relies M rely)
    {start : W} {log : List (ℕ × Executed S W Op α)} {x y : System S W Op α}
    (h : Underway M rely start log x) {label : Option (ℕ × Executed S W Op α)}
    (hstep : Numbered M x label y) : Underway M rely start (log ++ label.toList) y := by
  cases hstep with
  | silent hsilent =>
    rw [Option.toList_none, append_nil]
    cases hsilent with
    | call c op hfree =>
      constructor
      · exact h.moved
      · intro c' hnone
        refine h.waiting c' ?_
        by_cases hc : c' = c
        · rw [hc]
          exact hfree
        · simpa only [System.setCall, update_of_ne hc] using hnone
      · intro c' op' p hp
        rcases System.calls_setCall hp with ⟨rfl, heq⟩ | ⟨-, hold⟩
        · cases heq
          rw [h.waiting c' hfree]
          exact ⟨_, start, .done _ _, h.moved, .inl rfl⟩
        · exact h.course c' op' p hold
    | abort c op s k hcall =>
      constructor
      · exact h.moved
      · intro c' hnone
        refine h.waiting c' ?_
        by_cases hc : c' = c
        · subst hc
          simp only [System.setCall, update_self, reduceCtorEq] at hnone
        · simpa only [System.setCall, update_of_ne hc] using hnone
      · intro c' op' p hp
        rcases System.calls_setCall hp with ⟨rfl, heq⟩ | ⟨-, hold⟩
        · cases heq
          obtain ⟨q, v, hcourse, hv, -⟩ := h.course c' op _ hcall
          exact ⟨q, v, hcourse, hv, .inr rfl⟩
        · exact h.course c' op' p hold
    | drift w hw =>
      have hmove : rely x.world w := hM.drift _ _ hw
      constructor
      · exact hM.trans _ _ _ h.moved hmove
      · exact h.waiting
      · intro c op p hp
        obtain ⟨q, v, hcourse, hv, hq⟩ := h.course c op p hp
        exact ⟨q, v, hcourse, hM.trans _ _ _ hv hmove, hq⟩
  | execute c op s k r w hcall hexec =>
    have hmove : rely x.world w := hM.exec s _ r w hexec
    rw [Option.toList_some]
    constructor
    · exact hM.trans _ _ _ h.moved hmove
    · intro c' hnone
      by_cases hc : c' = c
      · subst hc
        simp only [System.setCall, update_self, reduceCtorEq] at hnone
      · rw [own_concat, if_neg fun heq => hc heq.symm]
        refine h.waiting c' ?_
        simpa only [System.setCall, update_of_ne hc] using hnone
    · intro c' op' p hp
      rcases System.calls_setCall hp with ⟨rfl, heq⟩ | ⟨hne, hold⟩
      · cases heq
        rw [own_concat, if_pos rfl]
        obtain ⟨q, v, hcourse, hv, hq⟩ := h.course c' op _ hcall
        rcases hq with rfl | hfailed
        · exact ⟨k r, w, hcourse.snoc hv hexec, hM.refl w, .inl rfl⟩
        · cases hfailed
      · rw [own_concat, if_neg fun heq => hne heq.symm]
        obtain ⟨q, v, hcourse, hv, hq⟩ := h.course c' op' p hold
        exact ⟨q, v, hcourse, hM.trans _ _ _ hv hmove, hq⟩

/-- In every run from an idle system each call follows a course of its program. -/
theorem course_of_run {M : Machine S W Op α} {rely : W → W → Prop} (hM : Relies M rely)
    {x y : System S W Op α} {log : List (ℕ × Executed S W Op α)} (hidle : x.Idle)
    (h : Run (Numbered M) x log y) {c : ℕ} {op : Op} {p : Prog S α}
    (hcall : y.calls c = some (op, p)) :
    ∃ q v, Course M.exec rely (M.program op) x.world (own c log) q v ∧ (p = q ∨ p = .err) := by
  have hstart : Underway M rely x.world [] x := by
    constructor
    · exact hM.refl x.world
    · exact fun c _ => rfl
    · intro c op p hp
      rw [hidle c] at hp
      cases hp
  have hend := Run.recorded (Underway M rely x.world)
    (fun past u label v hu hstep => hu.step hM hstep) h hstart
  obtain ⟨q, v, hcourse, -, hq⟩ := hend.course c op p hcall
  exact ⟨q, v, hcourse, hq⟩

end OxyMake.CallCourses

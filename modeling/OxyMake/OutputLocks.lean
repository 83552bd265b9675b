import OxyMake.AdvisoryLocks
import OxyMake.LockKeys
import Mathlib.Logic.Equiv.List
import Mathlib.Logic.Relation

/-!
# Locks over output paths

Sessions lock the outputs of a job key by key before they execute it. The children of
an execution inherit the descriptors, so that its locks outlive the session. All
interleavings of the steps of acquisitions, of dropped guards, of dying sessions and
of exiting children are considered.
-/

namespace OxyMake.OutputLocks

open List Option Function
open AdvisoryLocks LockKeys

/-! ### The system -/

structure World (N : Type) where
  tree : DirTree N
  workDir : ℕ → List N
  engineDir : N
  locksDir : N
  lockName : Location N → N

/-- Owner of descriptors: the session for one acquisition, or a child of its execution. -/
inductive Owner
  | session (attempt : ℕ)
  | child (attempt number : ℕ)
  deriving DecidableEq

def Owner.attempt : Owner → ℕ
  | .session a => a
  | .child a _ => a

/-- How far an acquisition has come. -/
inductive Phase (N : Type)
  /-- Entries to lock, and the lock file that was opened for the first. -/
  | acquiring (todo : List (Keyed N)) (file : Option (Description (Location N)))
  | held
  /-- It returned the path that another session has locked. -/
  | contended (path : List N)
  | failed
  /-- The guard was dropped, or the session died. -/
  | closed

structure Attempt (N : Type) where
  session : ℕ
  outputs : List (List N)
  phase : Phase N

structure State (N : Type) [DecidableEq N] where
  kernel : Kernel Owner (Location N)
  attempts : ℕ → Option (Attempt N)
  /-- Children that have not exited, with the acquisition of their execution. -/
  children : List (ℕ × ℕ)

section System

variable {N : Type} [LinearOrder N] (w : World N)

def lockPath (session : ℕ) (key : Location N) : Location N :=
  w.tree.locate (w.workDir session ++ [w.engineDir, w.locksDir, w.lockName key])

namespace State

def initial : State N := ⟨Kernel.empty _ _, fun _ => none, []⟩

def setPhase (s : State N) (a : ℕ) (t : Attempt N) (phase : Phase N) : State N :=
  { s with attempts := Function.update s.attempts a (some { t with phase := phase }) }

def release (s : State N) (a : ℕ) : State N :=
  { s with kernel := s.kernel.close fun o => decide (o = .session a) }

def buried (s : State N) (session : ℕ) (a : ℕ) : Option (Attempt N) :=
  (s.attempts a).map fun t => if t.session = session then { t with phase := .closed } else t

/-- An owner whose descriptors are closed when a session dies. -/
def ofSession (s : State N) (session : ℕ) : Owner → Bool
  | .session a => (s.attempts a).any fun t => decide (t.session = session)
  | .child _ _ => false

end State

open State

/-- What a step does for an acquisition. -/
inductive Label
  /-- The acquisition opens or locks the next lock file, or returns its guard. -/
  | advance (attempt : ℕ)
  | fail (attempt : ℕ)
  | drop (attempt : ℕ)
  | die (session : ℕ)
  | other
  deriving DecidableEq

inductive Step : Label → State N → State N → Prop
  /-- A session calls for the locks of a job. -/
  | call {s : State N} {a : ℕ} (session : ℕ) (outputs : List (List N)) : s.attempts a = none →
      Step .other s
        (s.setPhase a ⟨session, outputs, .closed⟩ (.acquiring (keyed w.tree outputs) none))
  /-- The lock file of the next key is opened. -/
  | openFile {s : State N} {a : ℕ} {t : Attempt N} {entry : Keyed N} {todo : List (Keyed N)} :
      s.attempts a = some t → t.phase = .acquiring (entry :: todo) none →
      Step (.advance a) s { s.setPhase a t (.acquiring (entry :: todo)
          (some (s.kernel.nextDescription (lockPath w t.session (key entry))))) with
        kernel := s.kernel.openFile (.session a) (lockPath w t.session (key entry)) }
  | lock {s : State N} {a : ℕ} {t : Attempt N} {entry : Keyed N} {todo : List (Keyed N)}
      {d : Description (Location N)} (isOpen : ∃ o, (o, d) ∈ s.kernel.opened) :
      s.attempts a = some t → t.phase = .acquiring (entry :: todo) (some d) →
      s.kernel.free d = true →
      Step (.advance a) s
        { s.setPhase a t (.acquiring todo none) with kernel := s.kernel.lock d isOpen }
  /-- The lock is not free: everything is released and the path is returned. -/
  | contend {s : State N} {a : ℕ} {t : Attempt N} {entry : Keyed N} {todo : List (Keyed N)}
      {d : Description (Location N)} :
      s.attempts a = some t → t.phase = .acquiring (entry :: todo) (some d) →
      s.kernel.free d = false →
      Step .other s ((s.setPhase a t (.contended (original entry))).release a)
  /-- A directory or a lock file cannot be created, opened or locked: everything is released. -/
  | fail {s : State N} {a : ℕ} {t : Attempt N} {entry : Keyed N} {todo : List (Keyed N)}
      {file : Option (Description (Location N))} :
      s.attempts a = some t → t.phase = .acquiring (entry :: todo) file →
      Step (.fail a) s ((s.setPhase a t .failed).release a)
  /-- All keys are locked, and the guard is returned. -/
  | finish {s : State N} {a : ℕ} {t : Attempt N} : s.attempts a = some t →
      t.phase = .acquiring [] none → Step (.advance a) s (s.setPhase a t .held)
  /-- The executed job inherits all descriptors of the guard. -/
  | spawn {s : State N} {a number : ℕ} {t : Attempt N} : s.attempts a = some t →
      t.phase = .held → (a, number) ∉ s.children →
      Step .other s { s with
        kernel := s.kernel.duplicate (.session a) (.child a number)
        children := (a, number) :: s.children }
  | drop {s : State N} {a : ℕ} {t : Attempt N} : s.attempts a = some t → t.phase = .held →
      Step (.drop a) s ((s.setPhase a t .closed).release a)
  | die {s : State N} (session : ℕ) :
      Step (.die session) s ⟨s.kernel.close (s.ofSession session), s.buried session, s.children⟩
  | exit {s : State N} (a number : ℕ) :
      Step .other s { s with
        kernel := s.kernel.close fun o => decide (o = .child a number)
        children := s.children.filter fun c => decide (c ≠ (a, number)) }

def Steps (s s' : State N) : Prop := ∃ l, Step w l s s'

def Reachable (s : State N) : Prop := Relation.ReflTransGen (Steps w) initial s

/-- A guard, or a surviving child that inherited its descriptors. -/
def Executes (s : State N) (a : ℕ) : Prop :=
  (∃ t, s.attempts a = some t ∧ t.phase = .held) ∨ ∃ number, (a, number) ∈ s.children

/-- An execution, or an acquisition that has not returned. -/
def Engaged (s : State N) (a : ℕ) : Prop :=
  Executes s a ∨ ∃ t todo file, s.attempts a = some t ∧ t.phase = .acquiring todo file

/-! ### What an owner covers -/

variable {w}

/-- An owner holds the locks of some entries, and has no other lock files open. -/
structure Covers (w : World N) (k : Kernel Owner (Location N)) (o : Owner) (session : ℕ)
    (entries : List (Keyed N)) : Prop where
  holds : ∀ e ∈ entries, k.Holds o (lockPath w session (key e))
  files : ∀ d, (o, d) ∈ k.opened → ∃ e ∈ entries, d.file = lockPath w session (key e)

/-- How the descriptors of a session fit the phase of its acquisition. -/
def Fits (w : World N) (k : Kernel Owner (Location N)) (a : ℕ) (t : Attempt N) : Prop :=
  match t.phase with
  | .acquiring todo none =>
    ∃ done, keyed w.tree t.outputs = done ++ todo ∧ Covers w k (.session a) t.session done
  | .acquiring todo (some d) =>
    ∃ done entry rest, keyed w.tree t.outputs = done ++ todo ∧ todo = entry :: rest ∧
      d.file = lockPath w t.session (key entry) ∧ (.session a, d) ∈ k.opened ∧
      (∀ e ∈ done, k.Holds (.session a) (lockPath w t.session (key e))) ∧
      ∀ d', (.session a, d') ∈ k.opened → d' = d ∨
        ∃ e ∈ done, d'.file = lockPath w t.session (key e)
  | .held => Covers w k (.session a) t.session (keyed w.tree t.outputs)
  | .contended _ | .failed | .closed => ∀ d, (.session a, d) ∉ k.opened

/-- The acquisition has returned its guard at some time. -/
def Launched : Phase N → Prop
  | .held | .closed => True
  | _ => False

structure Sound (w : World N) (s : State N) : Prop where
  /-- Descriptions are shared by the session and the children of one acquisition. -/
  grouped : s.kernel.Grouped Owner.attempt
  /-- Every acquisition has the descriptors of its phase. -/
  fits : ∀ a t, s.attempts a = some t → Fits w s.kernel a t
  /-- Nothing is open for an acquisition before it starts. -/
  unstarted : ∀ a, s.attempts a = none → ∀ d, (.session a, d) ∉ s.kernel.opened
  alive : ∀ a number d, (.child a number, d) ∈ s.kernel.opened → (a, number) ∈ s.children
  /-- A child has all the locks of its execution. -/
  heirs : ∀ a number, (a, number) ∈ s.children → ∃ t, s.attempts a = some t ∧ Launched t.phase ∧
    Covers w s.kernel (.child a number) t.session (keyed w.tree t.outputs)

/-- What another kernel leaves to an owner. -/
structure Same (k k' : Kernel Owner (Location N)) (o : Owner) : Prop where
  opened : ∀ d, (o, d) ∈ k'.opened ↔ (o, d) ∈ k.opened
  holds : ∀ f, k.Holds o f → k'.Holds o f

omit [LinearOrder N] in
theorem Covers.same {k k' : Kernel Owner (Location N)} {o : Owner} {session : ℕ}
    {entries : List (Keyed N)} (h : Covers w k o session entries) (hsame : Same k k' o) :
    Covers w k' o session entries :=
  ⟨fun e he => hsame.holds _ (h.holds e he), fun d hd => h.files d ((hsame.opened d).mp hd)⟩

theorem Fits.same {k k' : Kernel Owner (Location N)} {a : ℕ} {t : Attempt N}
    (h : Fits w k a t) (hsame : Same k k' (.session a)) : Fits w k' a t := by
  unfold Fits at h ⊢
  cases hphase : t.phase with
  | acquiring todo file =>
    rw [hphase] at h
    cases file with
    | none =>
      obtain ⟨done, hplan, hcovers⟩ := h
      exact ⟨done, hplan, hcovers.same hsame⟩
    | some d =>
      obtain ⟨done, entry, rest, hplan, htodo, hfile, hopen, hholds, hfiles⟩ := h
      exact ⟨done, entry, rest, hplan, htodo, hfile, (hsame.opened d).mpr hopen,
        fun e he => hsame.holds _ (hholds e he), fun d' hd => hfiles d' ((hsame.opened d').mp hd)⟩
  | held =>
    rw [hphase] at h
    exact Covers.same h hsame
  | contended | failed | closed =>
    rw [hphase] at h
    exact fun d hd => h d ((hsame.opened d).mp hd)

theorem Sound.setPhase {s : State N} (h : Sound w s) {a : ℕ} {t : Attempt N} {phase : Phase N}
    {k : Kernel Owner (Location N)} (hgrouped : k.Grouped Owner.attempt)
    (hsame : ∀ o, o ≠ .session a → Same s.kernel k o) (hfits : Fits w k a { t with phase := phase })
    (hheirs : ∀ number, (a, number) ∈ s.children → s.attempts a = some t ∧ Launched phase) :
    Sound w { s.setPhase a t phase with kernel := k } := by
  have hother : ∀ b, b ≠ a → (s.setPhase a t phase).attempts b = s.attempts b :=
    fun b hb => update_of_ne hb _ _
  have hself : (s.setPhase a t phase).attempts a = some { t with phase := phase } :=
    update_self _ _ _
  have hsession : ∀ b, b ≠ a → Owner.session b ≠ .session a :=
    fun b hb heq => hb (Owner.session.inj heq)
  refine ⟨hgrouped, ?_, ?_, ?_, ?_⟩
  · intro b u hu
    by_cases hb : b = a
    · subst hb
      cases hself.symm.trans hu
      exact hfits
    · exact (h.fits b u ((hother b hb).symm.trans hu)).same (hsame _ (hsession b hb))
  · intro b hnone d hd
    by_cases hb : b = a
    · subst hb
      cases hself.symm.trans hnone
    · exact h.unstarted b ((hother b hb).symm.trans hnone) d
        (((hsame _ (hsession b hb)).opened d).mp hd)
  · intro b number d hd
    exact h.alive b number d (((hsame (.child b number) nofun).opened d).mp hd)
  · intro b number hmem
    obtain ⟨u, hu, hlaunched, hcovers⟩ := h.heirs b number hmem
    have hcovers := hcovers.same (hsame (.child b number) nofun)
    by_cases hb : b = a
    · subst hb
      obtain ⟨ht, hphase⟩ := hheirs number hmem
      cases ht.symm.trans hu
      exact ⟨_, hself, hphase, hcovers⟩
    · exact ⟨u, (hother b hb).trans hu, hlaunched, hcovers⟩

theorem Sound.childless {s : State N} (h : Sound w s) {a number : ℕ} {t : Attempt N}
    (ht : s.attempts a = some t) (hphase : ¬ Launched t.phase) : (a, number) ∉ s.children := by
  intro hmem
  obtain ⟨u, hu, hlaunched, -⟩ := h.heirs a number hmem
  cases ht.symm.trans hu
  exact hphase hlaunched

/-! ### Steps keep the invariant -/

section Kernels

variable {k : Kernel Owner (Location N)} {o o' : Owner}

omit [LinearOrder N] in
theorem Same.refl (k : Kernel Owner (Location N)) (o : Owner) : Same k k o :=
  ⟨fun _ => Iff.rfl, fun _ h => h⟩

omit [LinearOrder N] in
theorem same_openFile (hne : o ≠ o') (f : Location N) : Same k (k.openFile o' f) o where
  opened d := by
    rw [Kernel.mem_openFile]
    exact or_iff_right fun h => hne h.1
  holds _ h := Kernel.holds_openFile.mpr h

theorem same_lock {d : Description (Location N)} (isOpen : ∃ o, (o, d) ∈ k.opened)
    (hfree : k.free d = true) (o : Owner) : Same k (k.lock d isOpen) o where
  opened _ := Iff.rfl
  holds _ h := (Kernel.holds_lock hfree).mpr (.inl h)

theorem same_close {gone : Owner → Bool} (h : gone o = false) : Same k (k.close gone) o where
  opened d := by
    rw [Kernel.mem_close]
    exact and_iff_left h
  holds _ hheld := Kernel.holds_close.mpr ⟨hheld, h⟩

omit [LinearOrder N] in
theorem same_duplicate {source : Owner} (hne : o ≠ o') : Same k (k.duplicate source o') o where
  opened d := by
    rw [Kernel.mem_duplicate]
    exact or_iff_right fun h => hne h.1
  holds _ h := Kernel.holds_duplicate.mpr (.inr h)

theorem same_release {a : ℕ} (hne : o ≠ .session a) :
    Same k (k.close fun o => decide (o = .session a)) o :=
  same_close (decide_eq_false hne)

end Kernels

section Steps

variable {s : State N} {a : ℕ} {t : Attempt N}

theorem Sound.call (h : Sound w s) (session : ℕ) (outputs : List (List N))
    (hnone : s.attempts a = none) :
    Sound w
      (s.setPhase a ⟨session, outputs, .closed⟩ (.acquiring (keyed w.tree outputs) none)) := by
  refine h.setPhase h.grouped (fun o _ => .refl _ o) ?_ ?_
  · refine ⟨[], rfl, fun e he => absurd he not_mem_nil, fun d hd => ?_⟩
    exact absurd hd (h.unstarted a hnone d)
  · intro number hmem
    obtain ⟨u, hu, -⟩ := h.heirs a number hmem
    cases hnone.symm.trans hu

theorem Sound.openFile (h : Sound w s) {entry : Keyed N} {todo : List (Keyed N)}
    (ht : s.attempts a = some t) (hphase : t.phase = .acquiring (entry :: todo) none) :
    Sound w { s.setPhase a t (.acquiring (entry :: todo)
        (some (s.kernel.nextDescription (lockPath w t.session (key entry))))) with
      kernel := s.kernel.openFile (.session a) (lockPath w t.session (key entry)) } := by
  have hfits := h.fits a t ht
  rw [Fits, hphase] at hfits
  obtain ⟨done, hplan, hcovers⟩ := hfits
  refine h.setPhase (h.grouped.openFile _ _) (fun o ho => same_openFile ho _) ?_ ?_
  · refine ⟨done, entry, todo, hplan, rfl, rfl, Kernel.mem_openFile.mpr (.inl ⟨rfl, rfl⟩), ?_, ?_⟩
    · exact fun e he => Kernel.holds_openFile.mpr (hcovers.holds e he)
    · intro d hd
      rcases Kernel.mem_openFile.mp hd with ⟨-, heq⟩ | hd
      · exact .inl heq
      · exact .inr (hcovers.files d hd)
  · intro number hmem
    have hnot : ¬ Launched t.phase := by
      rw [hphase]
      exact id
    exact absurd hmem (h.childless ht hnot)

theorem Sound.lock (h : Sound w s) {entry : Keyed N} {todo : List (Keyed N)}
    {d : Description (Location N)} (isOpen : ∃ o, (o, d) ∈ s.kernel.opened)
    (ht : s.attempts a = some t) (hphase : t.phase = .acquiring (entry :: todo) (some d))
    (hfree : s.kernel.free d = true) :
    Sound w { s.setPhase a t (.acquiring todo none) with kernel := s.kernel.lock d isOpen } := by
  have hfits := h.fits a t ht
  rw [Fits, hphase] at hfits
  obtain ⟨done, _, _, hplan, hcons, hfile, hopen, hholds, hfiles⟩ := hfits
  cases hcons
  refine h.setPhase h.grouped (fun o _ => same_lock isOpen hfree o) ?_ ?_
  · refine ⟨done ++ [entry], ?_, fun e he => ?_, fun d' hd => ?_⟩
    · rw [append_assoc]
      exact hplan
    · rw [Kernel.holds_lock hfree]
      rcases mem_append.mp he with he | he
      · exact .inl (hholds e he)
      · rw [mem_singleton.mp he]
        exact .inr ⟨hfile.symm, hopen⟩
    · rcases hfiles d' hd with rfl | ⟨e, he, hfile'⟩
      · exact ⟨entry, mem_append_right _ mem_cons_self, hfile⟩
      · exact ⟨e, mem_append_left _ he, hfile'⟩
  · intro number hmem
    have hnot : ¬ Launched t.phase := by
      rw [hphase]
      exact id
    exact absurd hmem (h.childless ht hnot)

theorem Sound.release (h : Sound w s) (ht : s.attempts a = some t) {phase : Phase N}
    (hover : ∀ k, (∀ d, (.session a, d) ∉ k.opened) → Fits w k a { t with phase := phase })
    (hheirs : ∀ number, (a, number) ∈ s.children → Launched phase) :
    Sound w ((s.setPhase a t phase).release a) := by
  refine h.setPhase (h.grouped.close _) (fun o ho => same_release ho) (hover _ fun d hd => ?_)
    fun number hmem => ⟨ht, hheirs number hmem⟩
  have hgone := (Kernel.mem_close.mp hd).2
  exact absurd rfl (of_decide_eq_false hgone)

theorem Sound.spawn (h : Sound w s) {number : ℕ} (ht : s.attempts a = some t)
    (hphase : t.phase = .held) (hnew : (a, number) ∉ s.children) :
    Sound w { s with
      kernel := s.kernel.duplicate (.session a) (.child a number)
      children := (a, number) :: s.children } := by
  have hfits := h.fits a t ht
  rw [Fits, hphase] at hfits
  have hother : ∀ b m, (b, m) ∈ s.children → Owner.child b m ≠ .child a number := by
    rintro b m hmem ⟨⟩
    exact hnew hmem
  refine ⟨h.grouped.duplicate rfl, ?_, ?_, ?_, ?_⟩
  · intro b u hu
    exact (h.fits b u hu).same (same_duplicate nofun)
  · intro b hnone d hd
    rcases Kernel.mem_duplicate.mp hd with ⟨heq, -⟩ | hd
    · cases heq
    · exact h.unstarted b hnone d hd
  · intro b m d hd
    rcases Kernel.mem_duplicate.mp hd with ⟨heq, -⟩ | hd
    · cases heq
      exact mem_cons_self
    · exact mem_cons_of_mem _ (h.alive b m d hd)
  · intro b m hmem
    rcases mem_cons.mp hmem with heq | hmem
    · cases heq
      refine ⟨t, ht, by rw [hphase]; trivial, fun e he => ?_, fun d hd => ?_⟩
      · exact Kernel.holds_duplicate.mpr (.inl ⟨rfl, hfits.holds e he⟩)
      · rcases Kernel.mem_duplicate.mp hd with ⟨-, hd⟩ | hd
        · exact hfits.files d hd
        · exact absurd (h.alive _ _ d hd) hnew
    · obtain ⟨u, hu, hlaunched, hcovers⟩ := h.heirs b m hmem
      exact ⟨u, hu, hlaunched, hcovers.same (same_duplicate (hother b m hmem))⟩

theorem Sound.die (h : Sound w s) (session : ℕ) :
    Sound w ⟨s.kernel.close (s.ofSession session), s.buried session, s.children⟩ := by
  refine ⟨h.grouped.close _, ?_, ?_, ?_, ?_⟩
  · intro b u hu
    obtain ⟨u', hu', heq⟩ := map_eq_some_iff.mp hu
    by_cases hsession : u'.session = session
    · rw [if_pos hsession] at heq
      subst heq
      intro d hd
      have hkept := (Kernel.mem_close.mp hd).2
      rw [State.ofSession, hu', any_some, decide_eq_true hsession] at hkept
      cases hkept
    · rw [if_neg hsession] at heq
      subst heq
      refine (h.fits b u' hu').same (same_close ?_)
      rw [State.ofSession, hu', any_some, decide_eq_false hsession]
  · intro b hnone d hd
    exact h.unstarted b (map_eq_none_iff.mp hnone) d (Kernel.mem_close.mp hd).1
  · intro b m d hd
    exact h.alive b m d (Kernel.mem_close.mp hd).1
  · intro b m hmem
    obtain ⟨u, hu, hlaunched, hcovers⟩ := h.heirs b m hmem
    have hsame : Same s.kernel (s.kernel.close (s.ofSession session)) (.child b m) :=
      same_close rfl
    have hcovers := hcovers.same hsame
    refine ⟨_, map_eq_some_iff.mpr ⟨u, hu, rfl⟩, ?_⟩
    by_cases hsession : u.session = session
    · rw [if_pos hsession]
      exact ⟨trivial, hcovers⟩
    · rw [if_neg hsession]
      exact ⟨hlaunched, hcovers⟩

theorem Sound.exit (h : Sound w s) (a number : ℕ) :
    Sound w { s with
      kernel := s.kernel.close fun o => decide (o = .child a number)
      children := s.children.filter fun c => decide (c ≠ (a, number)) } := by
  have hsame : ∀ o, o ≠ .child a number →
      Same s.kernel (s.kernel.close fun o => decide (o = .child a number)) o :=
    fun o ho => same_close (decide_eq_false ho)
  refine ⟨h.grouped.close _, ?_, ?_, ?_, ?_⟩
  · intro b u hu
    exact (h.fits b u hu).same (hsame (.session b) nofun)
  · intro b hnone d hd
    exact h.unstarted b hnone d (Kernel.mem_close.mp hd).1
  · intro b m d hd
    obtain ⟨hd, hkept⟩ := Kernel.mem_close.mp hd
    refine mem_filter.mpr ⟨h.alive b m d hd, decide_eq_true ?_⟩
    rintro ⟨⟩
    exact of_decide_eq_false hkept rfl
  · intro b m hmem
    obtain ⟨hmem, hkept⟩ := mem_filter.mp hmem
    obtain ⟨u, hu, hlaunched, hcovers⟩ := h.heirs b m hmem
    refine ⟨u, hu, hlaunched, hcovers.same (hsame (.child b m) ?_)⟩
    rintro ⟨⟩
    exact of_decide_eq_true hkept rfl

theorem Sound.step {s' : State N} {l : Label} (h : Sound w s) (hstep : Step w l s s') :
    Sound w s' := by
  have hnone : ∀ {b u todo file}, s.attempts b = some u → u.phase = .acquiring todo file →
      ∀ number, (b, number) ∉ s.children := by
    intro b u todo file hu hphase number
    refine h.childless hu ?_
    rw [hphase]
    exact id
  cases hstep with
  | call session outputs hstart => exact h.call session outputs hstart
  | openFile ht hphase => exact h.openFile ht hphase
  | lock isOpen ht hphase hfree => exact h.lock isOpen ht hphase hfree
  | contend ht hphase _ =>
    exact h.release ht (fun _ hk => hk) fun number hmem => absurd hmem (hnone ht hphase number)
  | fail ht hphase =>
    exact h.release ht (fun _ hk => hk) fun number hmem => absurd hmem (hnone ht hphase number)
  | finish ht hphase =>
    refine h.setPhase h.grouped (fun o _ => .refl _ o) ?_
      fun number hmem => absurd hmem (hnone ht hphase number)
    have hfits := h.fits _ _ ht
    rw [Fits, hphase] at hfits
    obtain ⟨_, hplan, hcovers⟩ := hfits
    rw [append_nil] at hplan
    change Covers w s.kernel _ _ _
    rw [hplan]
    exact hcovers
  | spawn ht hphase hnew => exact h.spawn ht hphase hnew
  | drop ht => exact h.release ht (fun _ hk => hk) fun _ _ => trivial
  | die session => exact h.die session
  | exit b number => exact h.exit b number

end Steps

theorem sound_of_reachable {s : State N} (h : Reachable w s) : Sound w s := by
  induction h with
  | refl =>
    refine ⟨?_, ?_, ?_, ?_, ?_⟩
    · intro o o' d hd
      cases hd
    · intro a t ht
      cases ht
    · intro a _ d hd
      cases hd
    · intro a number d hd
      cases hd
    · intro a number hmem
      cases hmem
  | tail _ hstep ih =>
    obtain ⟨l, hstep⟩ := hstep
    exact ih.step hstep

/-! ### Lock files -/

def SameDirectory (w : World N) (session session' : ℕ) : Prop :=
  ∃ loc, w.tree.canonicalize (w.workDir session) = some loc ∧
    w.tree.canonicalize (w.workDir session') = some loc

omit [LinearOrder N] in
theorem lockPath_eq {session session' : ℕ} (h : SameDirectory w session session')
    (key : Location N) : lockPath w session key = lockPath w session' key := by
  obtain ⟨_, hloc, hloc'⟩ := h
  have hname : ([w.engineDir, w.locksDir, w.lockName key] : List N) ≠ [] := cons_ne_nil _ _
  have hfirst := DirTree.locateFrom_append hloc hname
  have hsecond := DirTree.locateFrom_append hloc' hname
  exact hfirst.trans hsecond.symm

omit [LinearOrder N] in
theorem lockPath_inj (hname : Function.Injective w.lockName) {session session' : ℕ}
    {k k' : Location N} (h : lockPath w session k = lockPath w session' k') : k = k' := by
  have hlast : ∀ i j, (lockPath w i j).getLast? = some (w.lockName j) := by
    intro i j
    have hsplit : w.workDir i ++ [w.engineDir, w.locksDir, w.lockName j] =
        (w.workDir i ++ [w.engineDir, w.locksDir]) ++ [w.lockName j] := by
      rw [append_assoc]
      rfl
    rw [lockPath, DirTree.locate, hsplit]
    exact DirTree.getLast?_locateFrom _ _ _
  have heq := (hlast session k).symm.trans ((congrArg List.getLast? h).trans (hlast session' k'))
  exact hname (Option.some.inj heq)

/-! ### Exclusion -/

section Sound

variable {s : State N}

theorem Sound.holds_of_executes (h : Sound w s) {a : ℕ} {t : Attempt N}
    (ht : s.attempts a = some t) (hexec : Executes s a) {path : List N} (hpath : path ∈ t.outputs) :
    ∃ o : Owner, o.attempt = a ∧
      s.kernel.Holds o (lockPath w t.session (w.tree.locate path)) := by
  obtain ⟨e, he, hkey⟩ := exists_mem_keyed w.tree hpath
  rw [← hkey]
  rcases hexec with ⟨u, hu, hphase⟩ | ⟨number, hmem⟩
  · cases ht.symm.trans hu
    have hfits := h.fits a t ht
    rw [Fits, hphase] at hfits
    exact ⟨.session a, rfl, hfits.holds e he⟩
  · obtain ⟨u, hu, -, hcovers⟩ := h.heirs a number hmem
    cases ht.symm.trans hu
    exact ⟨.child a number, rfl, hcovers.holds e he⟩

theorem Sound.exclusive (h : Sound w s) {a b : ℕ} {t u : Attempt N} (hne : a ≠ b)
    (ht : s.attempts a = some t) (hu : s.attempts b = some u) (ha : Executes s a)
    (hb : Executes s b) (hdir : SameDirectory w t.session u.session) {p q : List N}
    (hp : p ∈ t.outputs) (hq : q ∈ u.outputs) : w.tree.locate p ≠ w.tree.locate q := by
  intro heq
  obtain ⟨o, ho, hholds⟩ := h.holds_of_executes ht ha hp
  obtain ⟨_, ho', hholds'⟩ := h.holds_of_executes hu hb hq
  rw [lockPath_eq hdir, heq] at hholds
  have hgroup := h.grouped.exclusive hholds hholds'
  rw [ho, ho'] at hgroup
  exact hne hgroup

theorem Sound.released (h : Sound w s) {a : ℕ} {t : Attempt N} (ht : s.attempts a = some t)
    (hphase : (∃ path, t.phase = .contended path) ∨ t.phase = .failed) {o : Owner}
    {d : Description (Location N)} (hopen : (o, d) ∈ s.kernel.opened) : o.attempt ≠ a := by
  have hfits := h.fits a t ht
  have hclosed : ∀ d, (.session a, d) ∉ s.kernel.opened := by
    rcases hphase with ⟨path, hphase⟩ | hphase
    · rw [Fits, hphase] at hfits
      exact hfits
    · rw [Fits, hphase] at hfits
      exact hfits
  have hnot : ¬ Launched t.phase := by
    rcases hphase with ⟨path, hphase⟩ | hphase
    · rw [hphase]
      exact id
    · rw [hphase]
      exact id
  cases o with
  | session =>
    rintro rfl
    exact hclosed d hopen
  | child =>
    rintro rfl
    exact h.childless ht hnot (h.alive _ _ _ hopen)

theorem Sound.engaged (h : Sound w s) {o : Owner} {d : Description (Location N)}
    (hopen : (o, d) ∈ s.kernel.opened) : ∃ u, s.attempts o.attempt = some u ∧
      Engaged s o.attempt ∧ ∃ q ∈ u.outputs, d.file = lockPath w u.session (w.tree.locate q) := by
  have hfile : ∀ (u : Attempt N) (entries : List (Keyed N)), (∀ e ∈ entries,
      e ∈ keyed w.tree u.outputs) → (∃ e ∈ entries, d.file = lockPath w u.session (key e)) →
      ∃ q ∈ u.outputs, d.file = lockPath w u.session (w.tree.locate q) := by
    rintro u entries hsub ⟨e, he, hd⟩
    obtain ⟨hmem, hkey⟩ := of_mem_keyed w.tree (hsub e he)
    exact ⟨original e, hmem, hkey ▸ hd⟩
  cases o with
  | child b number =>
    have hmem := h.alive b number d hopen
    obtain ⟨u, hu, -, hcovers⟩ := h.heirs b number hmem
    exact ⟨u, hu, .inl (.inr ⟨number, hmem⟩), hfile u _ (fun _ he => he) (hcovers.files d hopen)⟩
  | session b =>
    cases hu : s.attempts b with
    | none => exact absurd hopen (h.unstarted b hu d)
    | some u =>
      refine ⟨u, hu, ?_⟩
      have hfits := h.fits b u hu
      unfold Fits at hfits
      cases hphase : u.phase with
      | acquiring todo file =>
        rw [hphase] at hfits
        refine ⟨.inr ⟨u, todo, file, hu, hphase⟩, ?_⟩
        cases file with
        | none =>
          obtain ⟨done, hplan, hcovers⟩ := hfits
          refine hfile u done (fun e he => ?_) (hcovers.files d hopen)
          rw [hplan]
          exact mem_append_left _ he
        | some =>
          obtain ⟨done, entry, _, hplan, htodo, hcurrent, -, -, hfiles⟩ := hfits
          refine hfile u (keyed w.tree u.outputs) (fun _ he => he) ?_
          rw [hplan, htodo]
          rcases hfiles d hopen with rfl | ⟨e, he, hd⟩
          · exact ⟨entry, mem_append_right _ mem_cons_self, hcurrent⟩
          · exact ⟨e, mem_append_left _ he, hd⟩
      | held =>
        rw [hphase] at hfits
        exact ⟨.inl (.inl ⟨u, hu, hphase⟩), hfile u _ (fun _ he => he) (hfits.files d hopen)⟩
      | contended | failed | closed =>
        rw [hphase] at hfits
        exact absurd hopen (hfits d)

theorem Sound.contended (h : Sound w s) (hname : Function.Injective w.lockName) {a : ℕ}
    {t : Attempt N} {entry : Keyed N} {todo : List (Keyed N)} {d : Description (Location N)}
    (ht : s.attempts a = some t) (hphase : t.phase = .acquiring (entry :: todo) (some d))
    (hbusy : s.kernel.free d = false) :
    original entry ∈ t.outputs ∧ ∃ b u, b ≠ a ∧ s.attempts b = some u ∧ Engaged s b ∧
      ∃ q ∈ u.outputs, w.tree.locate q = w.tree.locate (original entry) := by
  have hfits := h.fits a t ht
  rw [Fits, hphase] at hfits
  obtain ⟨_, _, _, hplan, hcons, hfile, -, -, hfiles⟩ := hfits
  cases hcons
  have hentry : entry ∈ keyed w.tree t.outputs := by
    rw [hplan]
    exact mem_append_right _ mem_cons_self
  obtain ⟨hmem, hkey⟩ := of_mem_keyed w.tree hentry
  obtain ⟨o, d', hne, hopen, -, hsame⟩ := Kernel.holds_of_not_free hbusy
  obtain ⟨u, hu, hengaged, q, hq, hfile'⟩ := h.engaged hopen
  refine ⟨hmem, o.attempt, u, ?_, hu, hengaged, q, hq, ?_⟩
  · intro heq
    cases o with
    | child =>
      cases heq
      have hnot : ¬ Launched t.phase := by
        rw [hphase]
        exact id
      exact h.childless ht hnot (h.alive _ _ _ hopen)
    | session =>
      cases heq
      rcases hfiles d' hopen with heq | ⟨e, he, hd⟩
      · exact hne heq
      · have hkeys := lockPath_inj hname (hd.symm.trans (hsame.trans hfile))
        have hnodup := keyed_nodup w.tree t.outputs
        rw [hplan, map_append, map_cons] at hnodup
        have hapart := (nodup_append.mp hnodup).2.2
        exact hapart _ (List.mem_map_of_mem he) _ mem_cons_self hkeys
  · rw [← hkey]
    exact lockPath_inj hname (hfile'.symm.trans (hsame.trans hfile))

end Sound

/-! ### What becomes of an acquisition -/

/-- The step breaks an acquisition off: a lock operation of it fails, its session dies, or its
guard is dropped. -/
def Breaks (s : State N) (a : ℕ) : Label → Prop
  | .fail b => b = a
  | .drop b => b = a
  | .die session => ∃ t, s.attempts a = some t ∧ t.session = session
  | .advance _ => False
  | .other => False

/-- Phases that one step can bring an acquisition to. -/
inductive Moves (s : State N) (l : Label) (a : ℕ) (t : Attempt N) : Phase N → Prop
  | same : Moves s l a t t.phase
  | openFile {entry : Keyed N} {todo : List (Keyed N)} (d : Description (Location N)) :
      t.phase = .acquiring (entry :: todo) none → Moves s l a t (.acquiring (entry :: todo) (some d))
  | lock {entry : Keyed N} {todo : List (Keyed N)} {d : Description (Location N)} :
      t.phase = .acquiring (entry :: todo) (some d) → Moves s l a t (.acquiring todo none)
  | contend {entry : Keyed N} {todo : List (Keyed N)} {d : Description (Location N)} :
      t.phase = .acquiring (entry :: todo) (some d) → s.kernel.free d = false →
      Moves s l a t (.contended (original entry))
  | fail : Breaks s a l → Moves s l a t .failed
  | finish : t.phase = .acquiring [] none → Moves s l a t .held
  | close : Breaks s a l → Moves s l a t .closed

theorem moves_of_step {s s' : State N} {l : Label} (h : Step w l s s') {a : ℕ} {t : Attempt N}
    (ht : s.attempts a = some t) :
    ∃ phase, s'.attempts a = some { t with phase := phase } ∧ Moves s l a t phase := by
  have hset : ∀ (b : ℕ) (u : Attempt N) (phase : Phase N),
      (s.attempts b = some u → Moves s l b u phase) →
      (s.attempts b = some u ∨ s.attempts b = none) →
      ∃ phase', (s.setPhase b u phase).attempts a = some { t with phase := phase' } ∧
        Moves s l a t phase' := by
    intro b u phase hmoves hu
    by_cases hb : a = b
    · subst hb
      rcases hu with hu | hu
      · cases ht.symm.trans hu
        exact ⟨phase, update_self _ _ _, hmoves ht⟩
      · cases ht.symm.trans hu
    · exact ⟨t.phase, (update_of_ne hb _ _).trans ht, .same⟩
  cases h with
  | call session outputs hnone =>
    exact hset _ _ _ (fun hu => by cases hnone.symm.trans hu) (.inr hnone)
  | openFile hu hphase => exact hset _ _ _ (fun _ => .openFile _ hphase) (.inl hu)
  | lock _ hu hphase _ => exact hset _ _ _ (fun _ => .lock hphase) (.inl hu)
  | contend hu hphase hbusy => exact hset _ _ _ (fun _ => .contend hphase hbusy) (.inl hu)
  | fail hu _ => exact hset _ _ _ (fun _ => .fail rfl) (.inl hu)
  | finish hu hphase => exact hset _ _ _ (fun _ => .finish hphase) (.inl hu)
  | spawn | exit => exact ⟨t.phase, ht, .same⟩
  | drop hu _ => exact hset _ _ _ (fun _ => .close rfl) (.inl hu)
  | die session =>
    by_cases hsession : t.session = session
    · refine ⟨.closed, ?_, .close ⟨t, ht, hsession⟩⟩
      change (s.attempts a).map _ = _
      rw [ht, map_some, if_pos hsession]
    · refine ⟨t.phase, ?_, .same⟩
      change (s.attempts a).map _ = _
      rw [ht, map_some, if_neg hsession]

/-- No other execution and no other acquisition in progress has a location of an acquisition. -/
def Quiet (w : World N) (a : ℕ) (s : State N) : Prop :=
  ∀ t, s.attempts a = some t → ∀ b u, b ≠ a → s.attempts b = some u → Engaged s b →
    ∀ p ∈ t.outputs, ∀ q ∈ u.outputs, w.tree.locate q ≠ w.tree.locate p

def QuietRun (w : World N) (a : ℕ) : State N → State N → Prop :=
  Relation.ReflTransGen fun s s' => Steps w s s' ∧ Quiet w a s

/-- A quiet run none of whose steps breaks the acquisition off. -/
def SmoothRun (w : World N) (a : ℕ) : State N → State N → Prop :=
  Relation.ReflTransGen fun s s' => ∃ l, Step w l s s' ∧ ¬ Breaks s a l ∧ Quiet w a s

def Acquires (s : State N) (a : ℕ) : Prop :=
  ∃ t todo file, s.attempts a = some t ∧ t.phase = .acquiring todo file

def Held (s : State N) (a : ℕ) : Prop := ∃ t, s.attempts a = some t ∧ t.phase = .held

theorem not_contended_of_quiet (hname : Function.Injective w.lockName) {s s' : State N}
    (hreach : Reachable w s) {a : ℕ} {t : Attempt N} (ht : s.attempts a = some t)
    (hphase : ∀ path, t.phase ≠ .contended path) (hrun : QuietRun w a s s') :
    Reachable w s' ∧ ∃ t', s'.attempts a = some t' ∧ ∀ path, t'.phase ≠ .contended path := by
  induction hrun with
  | refl => exact ⟨hreach, t, ht, hphase⟩
  | tail _ hstep ih =>
    obtain ⟨hreach, u, hu, hnot⟩ := ih
    obtain ⟨⟨l, hstep⟩, hquiet⟩ := hstep
    obtain ⟨_, hphase, hmoves⟩ := moves_of_step hstep hu
    refine ⟨hreach.tail ⟨l, hstep⟩, _, hphase, fun path => ?_⟩
    cases hmoves with
    | same => exact hnot path
    | contend hbefore hbusy =>
      obtain ⟨hmem, b, v, hne, hv, hengaged, q, hq, heq⟩ :=
        (sound_of_reachable hreach).contended hname hu hbefore hbusy
      exact absurd heq (hquiet u hu b v hne hv hengaged _ hmem q hq)
    | openFile | lock | fail | finish | close => nofun

/-- A quiet run that nothing breaks off keeps the acquisition in progress until it has
returned its guard. -/
theorem acquires_or_held_of_smooth (hname : Function.Injective w.lockName) {s s' : State N}
    (hreach : Reachable w s) {a : ℕ} (hs : Acquires s a) (hrun : SmoothRun w a s s') :
    Reachable w s' ∧ (Acquires s' a ∨ Held s' a) := by
  induction hrun with
  | refl => exact ⟨hreach, .inl hs⟩
  | @tail s₁ s₂ _ hstep ih =>
    obtain ⟨hreach, hnow⟩ := ih
    obtain ⟨l, hstep, hgoes, hquiet⟩ := hstep
    refine ⟨hreach.tail ⟨l, hstep⟩, ?_⟩
    have hcase : ∃ u, s₁.attempts a = some u ∧
        ((∃ todo file, u.phase = .acquiring todo file) ∨ u.phase = .held) := by
      rcases hnow with ⟨u, todo, file, hu, hphase⟩ | ⟨u, hu, hphase⟩
      · exact ⟨u, hu, .inl ⟨todo, file, hphase⟩⟩
      · exact ⟨u, hu, .inr hphase⟩
    obtain ⟨u, hu, hphase⟩ := hcase
    obtain ⟨_, hafter, hmoves⟩ := moves_of_step hstep hu
    cases hmoves with
    | same =>
      rcases hphase with ⟨todo, file, hphase⟩ | hphase
      · exact .inl ⟨_, todo, file, hafter, hphase⟩
      · exact .inr ⟨_, hafter, hphase⟩
    | openFile d _ => exact .inl ⟨_, _, _, hafter, rfl⟩
    | lock _ => exact .inl ⟨_, _, _, hafter, rfl⟩
    | contend hbefore hbusy =>
      obtain ⟨hmem, b, v, hne, hv, hengaged, q, hq, heq⟩ :=
        (sound_of_reachable hreach).contended hname hu hbefore hbusy
      exact absurd heq (hquiet u hu b v hne hv hengaged _ hmem q hq)
    | fail hbreaks => exact absurd hbreaks hgoes
    | finish _ => exact .inr ⟨_, hafter, rfl⟩
    | close hbreaks => exact absurd hbreaks hgoes

def remaining (s : State N) (a : ℕ) : ℕ :=
  match (s.attempts a).map Attempt.phase with
  | some (.acquiring todo none) => 2 * todo.length + 1
  | some (.acquiring todo (some _)) => 2 * todo.length
  | _ => 0

theorem remaining_le {s s' : State N} {l : Label} (h : Step w l s s') {a : ℕ} {t : Attempt N}
    (ht : s.attempts a = some t) : remaining s' a ≤ remaining s a := by
  obtain ⟨_, hphase, hmoves⟩ := moves_of_step h ht
  rw [remaining, remaining, hphase, ht]
  dsimp only [map_some]
  cases hmoves with
  | same => exact Nat.le_refl _
  | openFile d hbefore =>
    rw [hbefore]
    exact Nat.le_succ _
  | lock hbefore =>
    rw [hbefore]
    dsimp only
    rw [length_cons]
    omega
  | contend hbefore _ => exact Nat.zero_le _
  | fail _ => exact Nat.zero_le _
  | finish => exact Nat.zero_le _
  | close _ => exact Nat.zero_le _

/-- An acquisition in progress that nothing disturbs can go on, and comes closer to its end. -/
theorem exists_advance (hname : Function.Injective w.lockName) {s : State N} (h : Sound w s)
    {a : ℕ} (hs : Acquires s a) (hquiet : Quiet w a s) :
    ∃ s', Step w (.advance a) s s' ∧ remaining s' a < remaining s a := by
  obtain ⟨t, todo, file, ht, hphase⟩ := hs
  have hnow : remaining s a = match (some (Phase.acquiring todo file) : Option (Phase N)) with
      | some (.acquiring todo none) => 2 * todo.length + 1
      | some (.acquiring todo (some _)) => 2 * todo.length
      | _ => 0 := by
    rw [remaining, ht, map_some, hphase]
  have hlater : ∀ (k : Kernel Owner (Location N)) (phase : Phase N),
      remaining ({ s.setPhase a t phase with kernel := k } : State N) a =
        match (some phase : Option (Phase N)) with
        | some (.acquiring todo none) => 2 * todo.length + 1
        | some (.acquiring todo (some _)) => 2 * todo.length
        | _ => 0 := by
    intro k phase
    have hself : (s.setPhase a t phase).attempts a = some { t with phase := phase } :=
      update_self _ _ _
    rw [remaining]
    dsimp only
    rw [hself, map_some]
  cases file with
  | none =>
    cases todo with
    | nil =>
      refine ⟨_, .finish ht hphase, ?_⟩
      rw [hnow]
      exact (hlater s.kernel .held).symm ▸ Nat.succ_pos _
    | cons =>
      refine ⟨_, .openFile ht hphase, ?_⟩
      rw [hlater, hnow]
      exact Nat.lt_succ_self _
  | some d =>
    have hfits := h.fits a t ht
    rw [Fits, hphase] at hfits
    obtain ⟨_, _, rest, -, rfl, -, hopen, -⟩ := hfits
    by_cases hfree : s.kernel.free d = true
    · refine ⟨_, .lock ⟨_, hopen⟩ ht hphase hfree, ?_⟩
      rw [hlater, hnow]
      change 2 * rest.length + 1 < 2 * (rest.length + 1)
      omega
    · obtain ⟨hmem, b, u, hne, hu, hengaged, q, hq, heq⟩ :=
        h.contended hname ht hphase (Bool.eq_false_of_not_eq_true hfree)
      exact absurd heq (hquiet t ht b u hne hu hengaged _ hmem q hq)

theorem frame_of_advance {s s' : State N} {a : ℕ} (h : Step w (.advance a) s s') :
    (∀ b, b ≠ a → s'.attempts b = s.attempts b) ∧ s'.children = s.children := by
  cases h with
  | openFile | lock | finish => exact ⟨fun b hb => update_of_ne hb _ _, rfl⟩

theorem Quiet.advance {s s' : State N} {a : ℕ} (h : Quiet w a s) (hs : Acquires s a)
    (hstep : Step w (.advance a) s s') : Quiet w a s' := by
  obtain ⟨t₀, -, -, ht₀, -⟩ := hs
  obtain ⟨hothers, hchildren⟩ := frame_of_advance hstep
  obtain ⟨_, hafter, -⟩ := moves_of_step hstep ht₀
  intro t ht b u hne hu hengaged p hp q hq
  cases hafter.symm.trans ht
  rw [Engaged, Executes, hothers b hne, hchildren] at hengaged
  rw [hothers b hne] at hu
  exact h t₀ ht₀ b u hne hu hengaged p hp q hq

/-- By its own steps alone an acquisition that nothing disturbs returns its guard. -/
theorem exists_held_of_quiet (hname : Function.Injective w.lockName) {a n : ℕ} {s : State N}
    (hreach : Reachable w s) (hs : Acquires s a) (hquiet : Quiet w a s)
    (hn : remaining s a ≤ n) : ∃ s', SmoothRun w a s s' ∧ Held s' a := by
  induction n generalizing s with
  | zero =>
    obtain ⟨s', -, hlt⟩ := exists_advance hname (sound_of_reachable hreach) hs hquiet
    omega
  | succ n ih =>
    obtain ⟨s', hstep, hlt⟩ := exists_advance hname (sound_of_reachable hreach) hs hquiet
    have hfirst : SmoothRun w a s s' := .single ⟨_, hstep, id, hquiet⟩
    obtain ⟨hreach', hs' | hheld⟩ := acquires_or_held_of_smooth hname hreach hs hfirst
    · obtain ⟨s'', hrest, hheld⟩ := ih hreach' hs' (hquiet.advance hs hstep) (by omega)
      exact ⟨s'', hfirst.trans hrest, hheld⟩
    · exact ⟨s', hfirst, hheld⟩

/-! ### Mutual exclusion, all or nothing -/

/-- What the locks promise in a state. -/
structure Safe (w : World N) (s : State N) : Prop where
  /-- Two executions whose sessions work in one directory have no location in common. -/
  exclusive : ∀ a b t u, a ≠ b → s.attempts a = some t → s.attempts b = some u →
    Executes s a → Executes s b → SameDirectory w t.session u.session →
    ∀ p ∈ t.outputs, ∀ q ∈ u.outputs, w.tree.locate p ≠ w.tree.locate q
  /-- An acquisition that returned contention or an error has nothing open. -/
  released : ∀ a t, s.attempts a = some t →
    ((∃ path, t.phase = .contended path) ∨ t.phase = .failed) →
    ∀ o d, (o, d) ∈ s.kernel.opened → o.attempt ≠ a
  /-- An acquisition that nothing disturbs does not return contention. -/
  quiet : ∀ a t todo file, s.attempts a = some t → t.phase = .acquiring todo file →
    ∀ s', QuietRun w a s s' →
      ∃ t', s'.attempts a = some t' ∧ ∀ path, t'.phase ≠ .contended path
  /-- An acquisition that nothing disturbs or breaks off is in progress or has returned its
  guard; in progress it can take a step of its own, and such steps lead to its guard. -/
  returns : ∀ a, Acquires s a → ∀ s', SmoothRun w a s s' → Held s' a ∨
    (Acquires s' a ∧ (Quiet w a s' →
      (∃ s'', Step w (.advance a) s' s'' ∧ remaining s'' a < remaining s' a) ∧
        ∃ s'', SmoothRun w a s' s'' ∧ Held s'' a))
  /-- No step takes an acquisition further away from its end. -/
  bounded : ∀ a t, s.attempts a = some t → ∀ s', Steps w s s' → remaining s' a ≤ remaining s a

/-- In every state that is reached, whatever the directories and links, the locks of executions
in one directory exclude each other, and an acquisition holds all its locks or none. -/
theorem safe_of_reachable (hname : Function.Injective w.lockName) {s : State N}
    (h : Reachable w s) : Safe w s := by
  have hsound := sound_of_reachable h
  refine ⟨?_, ?_, ?_, ?_, ?_⟩
  · intro a b t u hne ht hu ha hb hdir p hp q hq
    exact hsound.exclusive hne ht hu ha hb hdir hp hq
  · intro a t ht hphase o d hopen
    exact hsound.released ht hphase hopen
  · intro a t todo file ht hphase s' hrun
    have hnot : ∀ path, t.phase ≠ .contended path := by
      intro path heq
      rw [hphase] at heq
      cases heq
    exact (not_contended_of_quiet hname h ht hnot hrun).2
  · intro a hacquires s' hrun
    obtain ⟨hreach, hnow⟩ := acquires_or_held_of_smooth hname h hacquires hrun
    refine hnow.symm.imp_right fun hs => ⟨hs, fun hquiet => ⟨?_, ?_⟩⟩
    · exact exists_advance hname (sound_of_reachable hreach) hs hquiet
    · exact exists_held_of_quiet hname hreach hs hquiet (Nat.le_refl _)
  · rintro a t ht s' ⟨l, hstep⟩
    exact remaining_le hstep ht

/-! ### One output after another -/

theorem exists_held {s : State N} (h : Reachable w s) {a : ℕ} (session : ℕ) (path : List N)
    (hnone : s.attempts a = none)
    (hfree : s.kernel.locks (lockPath w session (w.tree.locate path)) = none) :
    ∃ s', Reachable w s' ∧ s'.attempts a = some ⟨session, [path], .held⟩ ∧
      (∀ b, b ≠ a → s'.attempts b = s.attempts b) ∧
      ∀ f, f ≠ lockPath w session (w.tree.locate path) → s'.kernel.locks f = s.kernel.locks f := by
  have hkeyed : keyed w.tree [path] = [toLex (w.tree.lockKey path, path)] := rfl
  have hkey : key (toLex (w.tree.lockKey path, path)) = w.tree.locate path :=
    DirTree.lockKey_eq path
  have hcall := h.tail ⟨_, .call session [path] hnone⟩
  rw [hkeyed] at hcall
  have hopened := hcall.tail ⟨_, .openFile (update_self _ _ _) rfl⟩
  rw [hkey] at hopened
  have hmem : ∃ o, (o, s.kernel.nextDescription (lockPath w session (w.tree.locate path))) ∈
      (s.kernel.openFile (.session a) (lockPath w session (w.tree.locate path))).opened :=
    ⟨.session a, Kernel.mem_openFile.mpr (.inl ⟨rfl, rfl⟩)⟩
  have hlocked := hopened.tail ⟨_, .lock hmem (update_self _ _ _) rfl
    (decide_eq_true (.inl hfree))⟩
  have hheld := hlocked.tail ⟨_, .finish (update_self _ _ _) rfl⟩
  refine ⟨_, hheld, update_self _ _ _, fun b hb => ?_, fun f hf => ?_⟩
  · change Function.update (Function.update (Function.update (Function.update s.attempts a _) a _)
      a _) a _ b = _
    rw [update_of_ne hb, update_of_ne hb, update_of_ne hb,
      update_of_ne hb]
  · exact update_of_ne hf _ _

end System

/-! ### Other directories, other spellings, other failures -/

def ExclusiveEverywhere : Prop :=
  ∀ (w : World ℕ) (s : State ℕ), Function.Injective w.lockName → Reachable w s →
    ∀ a b t u, a ≠ b → s.attempts a = some t → s.attempts b = some u → Executes s a →
      Executes s b → ∀ p ∈ t.outputs, ∀ q ∈ u.outputs, w.tree.locate p ≠ w.tree.locate q

/-- Executions in one directory exclude each other when the last names of two outputs lead to
one directory. -/
def ExclusiveBehindLinks : Prop :=
  ∀ (w : World ℕ) (s : State ℕ), Function.Injective w.lockName → Reachable w s →
    ∀ a b t u, a ≠ b → s.attempts a = some t → s.attempts b = some u → Executes s a →
      Executes s b → SameDirectory w t.session u.session → ∀ p ∈ t.outputs, ∀ q ∈ u.outputs,
      ∀ loc, w.tree.canonicalize p = some loc → w.tree.canonicalize q ≠ some loc

def HeldWithoutFailure : Prop :=
  ∀ (w : World ℕ) (s s' : State ℕ), Function.Injective w.lockName → Reachable w s →
    ∀ a t todo file, s.attempts a = some t → t.phase = .acquiring todo file →
      QuietRun w a s s' → ∀ t', s'.attempts a = some t' → t'.phase ≠ .failed

def twoProjects : DirTree ℕ where
  dir loc := decide (loc = [] ∨ loc = [1] ∨ loc = [2])
  link loc name := if loc = [] ∧ name = 3 then some [1] else none
  root_dir := rfl
  parent_dir loc name h := by
    have h := of_decide_eq_true h
    rcases h with h | h | h
    · exact absurd h (append_ne_nil_of_right_ne_nil _ (cons_ne_nil _ _))
    · cases loc with
      | nil => rfl
      | cons =>
        rw [cons_append, List.cons.injEq] at h
        exact absurd h.2 (append_ne_nil_of_right_ne_nil _ (cons_ne_nil _ _))
    · cases loc with
      | nil => rfl
      | cons =>
        rw [cons_append, List.cons.injEq] at h
        exact absurd h.2 (append_ne_nil_of_right_ne_nil _ (cons_ne_nil _ _))
  link_dir loc name target h := by
    split at h
    · cases h
      rfl
    · cases h
  link_free loc name target h := by
    split at h
    · next hlink =>
      rw [hlink.1, hlink.2]
      rfl
    · cases h

/-- The first session works in the first project, every other one in the second. -/
def twoSessions : World ℕ where
  tree := twoProjects
  workDir session := if session = 0 then [1] else [2]
  engineDir := 5
  locksDir := 6
  lockName key := Encodable.encode key

theorem twoSessions_lockName : Function.Injective twoSessions.lockName :=
  Encodable.encode_injective

theorem exists_both {w : World ℕ} {session session' : ℕ} {p q : List ℕ}
    (hne : lockPath w session' (w.tree.locate q) ≠ lockPath w session (w.tree.locate p)) :
    ∃ s, Reachable w s ∧ s.attempts 0 = some ⟨session, [p], .held⟩ ∧
      s.attempts 1 = some ⟨session', [q], .held⟩ := by
  have hstart : Reachable w (State.initial : State ℕ) := .refl
  obtain ⟨s, hs, hfirst, hnone, hlocks⟩ := exists_held hstart (a := 0) session p rfl rfl
  obtain ⟨s', hs', hsecond, hsame, -⟩ := exists_held hs (a := 1) session' q
    (hnone 1 (by decide)) (hlocks _ hne)
  exact ⟨s', hs', (hsame 0 (by decide)).trans hfirst, hsecond⟩

/-- A session has called for the lock of one output. -/
def started : State ℕ :=
  State.initial.setPhase 0 ⟨0, [[7]], .closed⟩ (.acquiring (keyed twoProjects [[7]]) none)

/-- Sessions of two projects lock one path under each project, a link is not followed by the last
name, and a lock file may fail to open. -/
theorem not_exclusive_everywhere :
    ¬ ExclusiveEverywhere ∧ ¬ ExclusiveBehindLinks ∧ ¬ HeldWithoutFailure := by
  refine ⟨fun h => ?_, fun h => ?_, fun h => ?_⟩
  · have hne : lockPath twoSessions 1 [7] ≠ lockPath twoSessions 0 [7] := by
      intro heq
      cases (List.cons.inj heq).1
    obtain ⟨s, hs, hfirst, hsecond⟩ := exists_both (p := [7]) (q := [7]) hne
    exact h twoSessions s twoSessions_lockName hs 0 1 _ _ (by decide) hfirst hsecond
      (.inl ⟨_, hfirst, rfl⟩) (.inl ⟨_, hsecond, rfl⟩) [7] mem_cons_self [7]
      mem_cons_self rfl
  · have hne : lockPath twoSessions 0 [1] ≠ lockPath twoSessions 0 [3] := by
      intro heq
      cases lockPath_inj twoSessions_lockName heq
    obtain ⟨s, hs, hfirst, hsecond⟩ := exists_both (p := [3]) (q := [1]) hne
    exact h twoSessions s twoSessions_lockName hs 0 1 _ _ (by decide) hfirst hsecond
      (.inl ⟨_, hfirst, rfl⟩) (.inl ⟨_, hsecond, rfl⟩) ⟨[1], rfl, rfl⟩ [3] mem_cons_self [1]
      mem_cons_self [1] rfl rfl
  · have hself : started.attempts 0 =
        some ⟨0, [[7]], .acquiring (keyed twoProjects [[7]]) none⟩ := rfl
    have hcall : Steps twoSessions State.initial started := ⟨_, .call 0 [[7]] rfl⟩
    have hquiet : Quiet twoSessions 0 started := by
      intro t _ b u hb hu
      have hnone : started.attempts b = none := update_of_ne hb _ _
      cases hnone.symm.trans hu
    have hphase : (⟨0, [[7]], .acquiring (keyed twoProjects [[7]]) none⟩ : Attempt ℕ).phase =
        .acquiring [toLex ([7], [7])] none := rfl
    have hfail := Step.fail (w := twoSessions) hself hphase
    exact h twoSessions _ _ twoSessions_lockName (.single hcall) 0 _ _ _ hself rfl
      (.single ⟨⟨_, hfail⟩, hquiet⟩) ⟨0, [[7]], .failed⟩ rfl rfl

/-- Beside an execution of its project an acquisition of another output returns its guard. -/
theorem safe_of_reachable_held : ∃ s s', Reachable twoSessions s ∧ Held s 0 ∧ Acquires s 1 ∧
    SmoothRun twoSessions 1 s s' ∧ Held s' 1 ∧ Safe twoSessions s' := by
  obtain ⟨s, hs, hfirst, hnone, -⟩ :=
    exists_held (w := twoSessions) .refl (a := 0) 0 [7] rfl rfl
  let called : State ℕ :=
    s.setPhase 1 ⟨0, [[8]], .closed⟩ (.acquiring (keyed twoProjects [[8]]) none)
  have hcall : Reachable twoSessions called :=
    hs.tail ⟨_, .call 0 [[8]] (hnone 1 (by decide))⟩
  have hself : called.attempts 1 =
      some ⟨0, [[8]], .acquiring (keyed twoProjects [[8]]) none⟩ := rfl
  have hother : ∀ b, b ≠ 1 → called.attempts b = s.attempts b :=
    fun b hb => update_of_ne hb _ _
  have hquiet : Quiet twoSessions 1 called := by
    intro t ht b u hb hu _ p hp q hq heq
    cases hself.symm.trans ht
    rw [hother b hb] at hu
    by_cases hzero : b = 0
    · subst hzero
      cases hfirst.symm.trans hu
      rw [mem_singleton.mp hp, mem_singleton.mp hq] at heq
      cases heq
    · cases (hnone b hzero).symm.trans hu
  have hacquires : Acquires called 1 := ⟨_, _, _, hself, rfl⟩
  have hsafe := safe_of_reachable twoSessions_lockName hcall
  rcases hsafe.returns 1 hacquires called .refl with ⟨t, ht, hphase⟩ | ⟨-, hreturns⟩
  · cases hself.symm.trans ht
    cases hphase
  · obtain ⟨s', hrun, hheld⟩ := (hreturns hquiet).2
    refine ⟨called, s', hcall, ⟨_, (hother 0 (by decide)).trans hfirst, rfl⟩, hacquires, hrun,
      hheld, ?_⟩
    exact safe_of_reachable twoSessions_lockName
      (acquires_or_held_of_smooth twoSessions_lockName hcall hacquires hrun).1

end OxyMake.OutputLocks

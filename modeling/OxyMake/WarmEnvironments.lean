import Mathlib.Data.List.Forall2
import Mathlib.Data.Set.Basic
import OxyMake.InMemoryInputs
import OxyMake.JobCacheKey

/-!
# Warm workers and environments

A warm worker is looked up under a key that is derived from the environment of a
job: requirements with their separators replaced, or the letters and digits of
the debug rendering. A job runs on a worker of its own environment in every run
over a set of jobs exactly if no two of these environments are written alike.
-/

namespace OxyMake.WarmEnvironments

open List
open JobCacheKey (EnvSpec)
open InMemoryInputs (sanitize)

abbrev Text := List Char

structure CharClasses where
  isAlphanumeric : Char → Bool
  isPrintable : Char → Bool
  isGraphemeExtended : Char → Bool
  alphanumeric_ascii : ∀ c : Char, c.toNat < 128 → isAlphanumeric c = c.isAlphanum

/-- What the warm path reads of a call-mode job. -/
structure CallJob where
  env : List (String × String)
  environment : Option EnvSpec

structure Worker where
  /-- Environment of the job that it was started for. -/
  startedFor : Option EnvSpec
  argv : List Text

section Keys

variable (classes : CharClasses)

def escapeUnicode (c : Char) : Text :=
  ['\\', 'u', '\x7b'] ++ Nat.toDigits 16 c.toNat ++ ['\x7d']

def escapeDebug (c : Char) : Text :=
  if c = '\x00' then ['\\', '0']
  else if c = '\t' then ['\\', 't']
  else if c = '\r' then ['\\', 'r']
  else if c = '\n' then ['\\', 'n']
  else if c = '\\' then ['\\', '\\']
  else if c = '"' then ['\\', '"']
  else if classes.isGraphemeExtended c then escapeUnicode c
  else if classes.isPrintable c then [c]
  else escapeUnicode c

def debugString (s : String) : Text := ['"'] ++ s.toList.flatMap (escapeDebug classes) ++ ['"']

def debugOption : Option String → Text
  | none => "None".toList
  | some s => "Some(".toList ++ debugString classes s ++ [')']

def debugField (variant field value : String) : Text :=
  (variant ++ " \x7b " ++ field ++ ": ").toList ++ debugString classes value ++ [' ', '\x7d']

def debugEnvSpec : EnvSpec → Text
  | .system => "System".toList
  | .uv project requirements =>
    "Uv \x7b project: ".toList ++ debugOption classes project ++ ", requirements: ".toList ++
      debugOption classes requirements ++ [' ', '\x7d']
  | .conda env => debugField classes "Conda" "env" env
  | .docker image => debugField classes "Docker" "image" image
  | .nix expr => debugField classes "Nix" "expr" expr
  | .apptainer image => debugField classes "Apptainer" "image" image

def keeps (c : Char) : Bool := classes.isAlphanumeric c || c == '_'

/-- The key under which the worker for an environment is pooled. -/
def envKey : Option EnvSpec → Text
  | some (.uv _ (some r)) => "uv_".toList ++ (sanitize r).toList
  | some (.uv _ none) => "uv_default".toList
  | some other => (debugEnvSpec classes other).filter (keeps classes)
  | none => "system".toList

def warmWorkerArgv (job : CallJob) (scriptPath : Text) : List Text :=
  match job.environment with
  | some (.uv _ (some req)) =>
    ["uv".toList, "run".toList, "--with-requirements".toList, req.toList, "--".toList,
      "python3".toList, scriptPath]
  | some (.uv _ none) =>
    ["uv".toList, "run".toList, "--".toList, "python3".toList, scriptPath]
  | _ => ["python3".toList, scriptPath]

def scriptPath (workDir key : Text) : Text :=
  workDir ++ "/.oxymake_warm_".toList ++ key ++ ".py".toList

end Keys

/-- The pool, and what it has executed. -/
structure State where
  workers : Text → Option Worker
  /-- Every job dispatched so far, with the worker that it went to. -/
  executed : List (CallJob × Worker)

/-- What happens to a pool. -/
inductive Action
  /-- A job is executed. Whether a worker, where one is to be started, becomes ready, and whether
  the dispatch evicts its worker. -/
  | execute (job : CallJob) (ready evicts : Bool)
  | killEnv (key : Text)

section Pool

variable (classes : CharClasses) (workDir : Text)

/-- The worker of a job after it was warmed, if there is one. -/
def ensureWarm (workers : Text → Option Worker) (job : CallJob) (ready : Bool) :
    Option Worker :=
  let key := envKey classes job.environment
  match workers key with
  | some w => some w
  | none =>
    if ready then
      some ⟨job.environment, warmWorkerArgv job (scriptPath workDir key)⟩
    else none

/-- One step of the pool. A job with environment variables, or for which no worker becomes ready,
is spawned cold. -/
def step (s : State) : Action → State
  | .execute job ready evicts =>
    if job.env.isEmpty then
      match ensureWarm classes workDir s.workers job ready with
      | some w =>
        { workers := Function.update s.workers (envKey classes job.environment)
            (if evicts then none else some w),
          executed := (job, w) :: s.executed }
      | none => s
    else s
  | .killEnv key => { s with workers := Function.update s.workers key none }

def start : State := ⟨fun _ => none, []⟩

def run (actions : List Action) : State := actions.foldl (step classes workDir) start

end Pool

/-- Every dispatched job went to a worker that was started for its environment. -/
def Isolated (s : State) : Prop :=
  ∀ e ∈ s.executed, e.2.startedFor = e.1.environment

/-- The jobs that a sequence of steps executes are among some. -/
def Over (jobs : Set CallJob) (actions : List Action) : Prop :=
  ∀ job ready evicts, Action.execute job ready evicts ∈ actions → job ∈ jobs

def Alike (c d : Char) : Prop :=
  c = d ∨ (c ∈ ['/', '.', '_'] ∧ d ∈ ['/', '.', '_'])

section Remnants

variable (classes : CharClasses)

/-- What a key keeps of one character of a name. -/
def remnant (c : Char) : Text :=
  if c = '\x00' then ['0']
  else if c = '\t' then ['t']
  else if c = '\r' then ['r']
  else if c = '\n' then ['n']
  else if c = '\\' ∨ c = '"' then []
  else if classes.isGraphemeExtended c = true ∨ classes.isPrintable c = false then
    'u' :: Nat.toDigits 16 c.toNat
  else if classes.isAlphanumeric c = true ∨ c = '_' then [c]
  else []

def remnants (s : String) : Text := s.toList.flatMap (remnant classes)

/-- Two environments that have one key are the same. For two names this is asked where the same
letters and digits are left of them. -/
def Separate : Option EnvSpec → Option EnvSpec → Prop
  | some (.uv p (some r)), some (.uv p' (some r')) =>
    List.Forall₂ Alike r.toList r'.toList → p = p' ∧ r = r'
  | some (.uv p none), some (.uv p' none) => p = p'
  | some (.uv _ (some r)), some (.uv _ none) => r ≠ "default"
  | some (.uv _ none), some (.uv _ (some r)) => r ≠ "default"
  | some (.conda e), some (.conda e') => remnants classes e = remnants classes e' → e = e'
  | some (.docker i), some (.docker i') => remnants classes i = remnants classes i' → i = i'
  | some (.nix e), some (.nix e') => remnants classes e = remnants classes e' → e = e'
  | some (.apptainer i), some (.apptainer i') =>
    remnants classes i = remnants classes i' → i = i'
  | _, _ => True

end Remnants

/-! ### Keys -/

theorem replaced_separator {c : Char} (hc : c ∈ ['/', '.', '_']) :
    (if c = '/' ∨ c = '.' then '_' else c) = '_' := by
  by_cases hreplaced : c = '/' ∨ c = '.'
  · rw [if_pos hreplaced]
  · rw [if_neg hreplaced]
    simp only [mem_cons, not_mem_nil, or_false] at hc
    exact (or_assoc.mpr hc).resolve_left hreplaced

theorem replaced_other {c : Char} (hc : c ∉ ['/', '.', '_']) :
    (if c = '/' ∨ c = '.' then '_' else c) = c := by
  refine if_neg fun hreplaced => hc ?_
  simp only [mem_cons, not_mem_nil, or_false]
  exact or_assoc.mp (Or.inl hreplaced)

theorem replaced_eq_iff (c d : Char) :
    (if c = '/' ∨ c = '.' then '_' else c) = (if d = '/' ∨ d = '.' then '_' else d) ↔
      Alike c d := by
  have hunderscore : '_' ∈ ['/', '.', '_'] := by decide
  by_cases hc : c ∈ ['/', '.', '_']
  · rw [replaced_separator hc]
    by_cases hd : d ∈ ['/', '.', '_']
    · rw [replaced_separator hd]
      exact ⟨fun _ => Or.inr ⟨hc, hd⟩, fun _ => rfl⟩
    · rw [replaced_other hd]
      constructor
      · exact fun heq => absurd (heq ▸ hunderscore) hd
      · intro halike
        cases halike with
        | inl heq => exact absurd (heq ▸ hc) hd
        | inr hboth => exact absurd hboth.2 hd
  · rw [replaced_other hc]
    by_cases hd : d ∈ ['/', '.', '_']
    · rw [replaced_separator hd]
      constructor
      · exact fun heq => absurd (heq ▸ hunderscore) hc
      · intro halike
        cases halike with
        | inl heq => exact absurd (heq ▸ hd) hc
        | inr hboth => exact absurd hboth.1 hc
    · rw [replaced_other hd]
      constructor
      · exact Or.inl
      · intro halike
        cases halike with
        | inl heq => exact heq
        | inr hboth => exact absurd hboth.1 hc

theorem map_separators_eq_iff (s t : List Char) :
    s.map (fun c => if c = '/' ∨ c = '.' then '_' else c) =
      t.map (fun c => if c = '/' ∨ c = '.' then '_' else c) ↔ List.Forall₂ Alike s t := by
  induction s generalizing t with
  | nil =>
    cases t with
    | nil | cons => simp
  | cons c s ih =>
    cases t with
    | nil => simp
    | cons =>
      rw [map_cons, map_cons, List.cons.injEq, ih, forall₂_cons, replaced_eq_iff]

theorem sanitize_eq_iff (r r' : String) :
    (sanitize r).toList = (sanitize r').toList ↔ List.Forall₂ Alike r.toList r'.toList := by
  rw [sanitize, sanitize, String.toList_ofList, String.toList_ofList]
  exact map_separators_eq_iff r.toList r'.toList

theorem eq_of_map_separators {s t : List Char} (ht : '_' ∉ t)
    (h : s.map (fun c => if c = '/' ∨ c = '.' then '_' else c) = t) : s = t := by
  have hsame : ∀ c ∈ s, (if c = '/' ∨ c = '.' then '_' else c) = id c := by
    intro c hc
    split_ifs with hseparator
    · have hmem := mem_map_of_mem (f := fun c => if c = '/' ∨ c = '.' then '_' else c) hc
      rw [h] at hmem
      rw [if_pos hseparator] at hmem
      exact absurd hmem ht
    · rfl
  rw [← h, map_congr_left hsame, map_id]

theorem sanitize_eq_default (r : String) :
    (sanitize r).toList = "default".toList ↔ r = "default" := by
  constructor
  · intro h
    rw [sanitize, String.toList_ofList] at h
    exact String.toList_inj.mp (eq_of_map_separators (by decide) h)
  · rintro rfl
    decide

section Remnants

variable (classes : CharClasses)

theorem filter_keeps_ascii {t : Text} (h : t.all (fun c => c.toNat < 128) = true) :
    t.filter (keeps classes) = t.filter fun c => c.isAlphanum || c == '_' := by
  refine filter_congr fun c hc => ?_
  have hascii : c.toNat < 128 := of_decide_eq_true (all_eq_true.mp h c hc)
  rw [keeps, classes.alphanumeric_ascii c hascii]

theorem digit_alphanum (n : ℕ) :
    ∀ c ∈ Nat.toDigits 16 n, c.toNat < 128 ∧ c.isAlphanum = true := by
  have hdigit : ∀ d < 16, d.digitChar.toNat < 128 ∧ d.digitChar.isAlphanum = true := by decide
  induction n using Nat.strongRecOn with
  | ind n ih =>
    intro c hc
    rw [Nat.toDigits_eq_if (by decide)] at hc
    split_ifs at hc with hlt
    · rw [mem_singleton.mp hc]
      exact hdigit n hlt
    · cases mem_append.mp hc with
      | inl hc => exact ih (n / 16) (Nat.div_lt_self (by omega) (by decide)) c hc
      | inr hc =>
        rw [mem_singleton.mp hc]
        exact hdigit (n % 16) (Nat.mod_lt n (by decide))

theorem filter_keeps_digits (n : ℕ) :
    (Nat.toDigits 16 n).filter (keeps classes) = Nat.toDigits 16 n := by
  refine filter_eq_self.mpr fun c hc => ?_
  obtain ⟨hascii, halphanum⟩ := digit_alphanum n c hc
  rw [keeps, classes.alphanumeric_ascii c hascii, halphanum]
  rfl

theorem filter_escapeUnicode (c : Char) :
    (escapeUnicode c).filter (keeps classes) = 'u' :: Nat.toDigits 16 c.toNat := by
  have hopen : (['\\', 'u', '\x7b'] : Text).filter (keeps classes) = ['u'] := by
    rw [filter_keeps_ascii classes (by decide)]
    decide
  have hclose : (['\x7d'] : Text).filter (keeps classes) = [] := by
    rw [filter_keeps_ascii classes (by decide)]
    decide
  rw [escapeUnicode, filter_append, filter_append, hopen, hclose, filter_keeps_digits,
    append_nil]
  rfl

theorem filter_escapeDebug (c : Char) :
    (escapeDebug classes c).filter (keeps classes) = remnant classes c := by
  have hpair : ∀ d ∈ ['0', 't', 'r', 'n'], (['\\', d] : Text).filter (keeps classes) = [d] := by
    simp only [forall_mem_cons, not_mem_nil, false_implies, implies_true, and_true]
    refine ⟨?_, ?_, ?_, ?_⟩ <;> rw [filter_keeps_ascii classes (by decide)] <;> decide
  have hdrop : ∀ d ∈ ['\\', '"'], (['\\', d] : Text).filter (keeps classes) = [] := by
    simp only [forall_mem_cons, not_mem_nil, false_implies, implies_true, and_true]
    constructor <;> rw [filter_keeps_ascii classes (by decide)] <;> decide
  rw [escapeDebug, remnant]
  by_cases hnul : c = '\x00'
  · rw [if_pos hnul, if_pos hnul]
    exact hpair '0' (by decide)
  rw [if_neg hnul, if_neg hnul]
  by_cases htab : c = '\t'
  · rw [if_pos htab, if_pos htab]
    exact hpair 't' (by decide)
  rw [if_neg htab, if_neg htab]
  by_cases hreturn : c = '\r'
  · rw [if_pos hreturn, if_pos hreturn]
    exact hpair 'r' (by decide)
  rw [if_neg hreturn, if_neg hreturn]
  by_cases hnewline : c = '\n'
  · rw [if_pos hnewline, if_pos hnewline]
    exact hpair 'n' (by decide)
  rw [if_neg hnewline, if_neg hnewline]
  by_cases hbackslash : c = '\\'
  · rw [if_pos hbackslash, if_pos (Or.inl hbackslash)]
    exact hdrop '\\' (by decide)
  rw [if_neg hbackslash]
  by_cases hquote : c = '"'
  · rw [if_pos hquote, if_pos (Or.inr hquote)]
    exact hdrop '"' (by decide)
  rw [if_neg hquote, if_neg (not_or.mpr ⟨hbackslash, hquote⟩)]
  by_cases hextended : classes.isGraphemeExtended c = true
  · rw [if_pos hextended, if_pos (Or.inl hextended)]
    exact filter_escapeUnicode classes c
  rw [if_neg hextended]
  by_cases hprintable : classes.isPrintable c = true
  · have hneither : ¬(classes.isGraphemeExtended c = true ∨ classes.isPrintable c = false) := by
      rw [hprintable]
      tauto
    rw [if_pos hprintable, if_neg hneither, filter_singleton, keeps]
    by_cases hkept : classes.isAlphanumeric c = true ∨ c = '_'
    · have hor : (classes.isAlphanumeric c || c == '_') = true := by simpa using hkept
      rw [if_pos hkept, hor]
      rfl
    · have hor : (classes.isAlphanumeric c || c == '_') = false := by simpa using hkept
      rw [if_neg hkept, hor]
      rfl
  · have hfalse : classes.isPrintable c = false := eq_false_of_ne_true hprintable
    rw [if_neg hprintable, if_pos (Or.inr hfalse)]
    exact filter_escapeUnicode classes c

theorem filter_debugString (s : String) :
    (debugString classes s).filter (keeps classes) = remnants classes s := by
  have hquote : (['"'] : Text).filter (keeps classes) = [] := by
    rw [filter_keeps_ascii classes (by decide)]
    decide
  have hinner : (s.toList.flatMap (escapeDebug classes)).filter (keeps classes) =
      remnants classes s := by
    rw [filter_flatMap, remnants]
    exact flatMap_congr fun c _ => filter_escapeDebug classes c
  rw [debugString, filter_append, filter_append, hquote, hinner, append_nil,
    nil_append]

theorem filter_debugField {variant field : String} {kept : Text}
    (hascii : (variant ++ " \x7b " ++ field ++ ": ").toList.all (fun c => c.toNat < 128) = true)
    (hkept : ((variant ++ " \x7b " ++ field ++ ": ").toList.filter
      fun c => c.isAlphanum || c == '_') = kept) (value : String) :
    (debugField classes variant field value).filter (keeps classes) =
      kept ++ remnants classes value := by
  have hclose : ([' ', '\x7d'] : Text).filter (keeps classes) = [] := by
    rw [filter_keeps_ascii classes (by decide)]
    decide
  rw [debugField, filter_append, filter_append, hclose, filter_debugString,
    filter_keeps_ascii classes hascii, hkept, append_nil]

theorem envKey_conda (env : String) : envKey classes (some (.conda env)) =
    ['C', 'o', 'n', 'd', 'a', 'e', 'n', 'v'] ++ remnants classes env :=
  filter_debugField classes (by decide) (by decide) env

theorem envKey_docker (image : String) : envKey classes (some (.docker image)) =
    ['D', 'o', 'c', 'k', 'e', 'r', 'i', 'm', 'a', 'g', 'e'] ++ remnants classes image :=
  filter_debugField classes (by decide) (by decide) image

theorem envKey_nix (expr : String) : envKey classes (some (.nix expr)) =
    ['N', 'i', 'x', 'e', 'x', 'p', 'r'] ++ remnants classes expr :=
  filter_debugField classes (by decide) (by decide) expr

theorem envKey_apptainer (image : String) : envKey classes (some (.apptainer image)) =
    ['A', 'p', 'p', 't', 'a', 'i', 'n', 'e', 'r', 'i', 'm', 'a', 'g', 'e'] ++
      remnants classes image :=
  filter_debugField classes (by decide) (by decide) image

theorem envKey_system : envKey classes (some .system) = ['S', 'y', 's', 't', 'e', 'm'] := by
  have hkept : ("System".toList : Text).filter (fun c => c.isAlphanum || c == '_') =
      ['S', 'y', 's', 't', 'e', 'm'] := by decide
  have hfilter := filter_keeps_ascii classes (t := "System".toList) (by decide)
  exact hfilter.trans hkept

theorem envKey_requirements (p : Option String) (r : String) :
    envKey classes (some (.uv p (some r))) = ['u', 'v', '_'] ++ (sanitize r).toList := by
  have hletters : "uv_".toList = ['u', 'v', '_'] := by decide
  exact congrArg (fun letters => letters ++ (sanitize r).toList) hletters

theorem envKey_default (p : Option String) :
    envKey classes (some (.uv p none)) = ['u', 'v', '_'] ++ "default".toList := by
  have hletters : "uv_default".toList = ['u', 'v', '_'] ++ "default".toList := by decide
  exact hletters

theorem envKey_none : envKey classes none = ['s', 'y', 's', 't', 'e', 'm'] := by
  have hletters : "system".toList = ['s', 'y', 's', 't', 'e', 'm'] := by decide
  exact hletters

/-- The first letter of the key of each kind of environment. -/
def keyKind : Option EnvSpec → Char
  | none => 's'
  | some .system => 'S'
  | some (.uv _ _) => 'u'
  | some (.conda _) => 'C'
  | some (.docker _) => 'D'
  | some (.nix _) => 'N'
  | some (.apptainer _) => 'A'

theorem envKey_head (e : Option EnvSpec) : (envKey classes e).head? = some (keyKind e) := by
  cases e with
  | none =>
    rw [envKey_none]
    rfl
  | some e =>
    cases e with
    | system =>
      rw [envKey_system]
      rfl
    | uv p r =>
      cases r with
      | none =>
        rw [envKey_default]
        rfl
      | some =>
        rw [envKey_requirements]
        rfl
    | conda =>
      rw [envKey_conda]
      rfl
    | docker =>
      rw [envKey_docker]
      rfl
    | nix =>
      rw [envKey_nix]
      rfl
    | apptainer =>
      rw [envKey_apptainer]
      rfl

theorem keyKind_eq_of_envKey_eq {a b : Option EnvSpec} (h : envKey classes a = envKey classes b) :
    keyKind a = keyKind b := by
  have hhead := envKey_head classes a
  rw [h, envKey_head] at hhead
  exact (Option.some.inj hhead).symm

theorem requirements_separate_iff (p p' : Option String) (r r' : String) :
    (envKey classes (some (.uv p (some r))) = envKey classes (some (.uv p' (some r'))) →
        some (EnvSpec.uv p (some r)) = some (.uv p' (some r'))) ↔
      Separate classes (some (.uv p (some r))) (some (.uv p' (some r'))) := by
  rw [envKey_requirements, envKey_requirements, append_cancel_left_eq, sanitize_eq_iff,
    Option.some.injEq, EnvSpec.uv.injEq, Option.some.injEq]
  exact Iff.rfl

theorem name_separate_iff {kept : Text} {kind : String → EnvSpec} (hinj : kind.Injective)
    (hkey : ∀ name, envKey classes (some (kind name)) = kept ++ remnants classes name)
    (name name' : String) :
    (envKey classes (some (kind name)) = envKey classes (some (kind name')) →
        some (kind name) = some (kind name')) ↔
      (remnants classes name = remnants classes name' → name = name') := by
  rw [hkey, hkey, append_cancel_left_eq, Option.some.injEq, hinj.eq_iff]

theorem separate_iff (a b : Option EnvSpec) :
    (envKey classes a = envKey classes b → a = b) ↔ Separate classes a b := by
  by_cases hkind : keyKind a = keyKind b
  · match a, b with
    | none, none => exact ⟨fun _ => trivial, fun _ _ => rfl⟩
    | some .system, some .system => exact ⟨fun _ => trivial, fun _ _ => rfl⟩
    | some (.uv p (some r)), some (.uv p' (some r')) =>
      exact requirements_separate_iff classes p p' r r'
    | some (.uv p none), some (.uv p' none) =>
      rw [envKey_default, envKey_default, Option.some.injEq, EnvSpec.uv.injEq]
      dsimp only [Separate]
      tauto
    | some (.uv p (some r)), some (.uv p' none) =>
      rw [envKey_requirements, envKey_default, append_cancel_left_eq, sanitize_eq_default,
        Option.some.injEq, EnvSpec.uv.injEq]
      dsimp only [Separate]
      simp
    | some (.uv p none), some (.uv p' (some r')) =>
      rw [envKey_requirements, envKey_default, append_cancel_left_eq, eq_comm,
        sanitize_eq_default, Option.some.injEq, EnvSpec.uv.injEq]
      dsimp only [Separate]
      simp
    | some (.conda e), some (.conda e') =>
      exact name_separate_iff classes (fun _ _ h => by injection h) (envKey_conda classes) e e'
    | some (.docker i), some (.docker i') =>
      exact name_separate_iff classes (fun _ _ h => by injection h) (envKey_docker classes) i i'
    | some (.nix e), some (.nix e') =>
      exact name_separate_iff classes (fun _ _ h => by injection h) (envKey_nix classes) e e'
    | some (.apptainer i), some (.apptainer i') =>
      exact name_separate_iff classes (fun _ _ h => by injection h)
        (envKey_apptainer classes) i i'
  · have hne : envKey classes a ≠ envKey classes b :=
      fun heq => hkind (keyKind_eq_of_envKey_eq classes heq)
    refine iff_of_true (fun heq => absurd heq hne) ?_
    unfold Separate
    split <;> first | exact absurd rfl hkind | trivial

end Remnants

/-! ### Runs -/

/-- Any two of the jobs that can be dispatched have separate environments. -/
def AllSeparate (classes : CharClasses) (jobs : Set CallJob) : Prop :=
  ∀ a ∈ jobs, ∀ b ∈ jobs, a.env = [] → b.env = [] →
    Separate classes a.environment b.environment

/-- Equal keys of dispatched jobs come from equal environments, and whatever happens to the pool,
every dispatched job goes to a worker that was started for its environment. -/
def IsolatesEnvironments (classes : CharClasses) (workDir : Text) (jobs : Set CallJob) : Prop :=
  (∀ a ∈ jobs, ∀ b ∈ jobs, a.env = [] → b.env = [] →
      envKey classes a.environment = envKey classes b.environment →
      a.environment = b.environment) ∧
    ∀ actions, Over jobs actions → Isolated (run classes workDir actions)

/-- A worker is pooled under the key of the job that it was started for. -/
structure Pooled (classes : CharClasses) (jobs : Set CallJob) (s : State) : Prop where
  origin : ∀ key w, s.workers key = some w →
    ∃ job ∈ jobs, job.env = [] ∧ job.environment = w.startedFor ∧
      envKey classes job.environment = key
  /-- Jobs so far went to workers of their own environments. -/
  isolated : Isolated s

section Runs

variable {classes : CharClasses} {workDir : Text} {jobs : Set CallJob}

theorem ensureWarm_origin {s : State} (hs : Pooled classes jobs s) {job : CallJob}
    (hjob : job ∈ jobs) (henv : job.env = []) {ready : Bool} {w : Worker}
    (h : ensureWarm classes workDir s.workers job ready = some w) :
    ∃ other ∈ jobs, other.env = [] ∧ other.environment = w.startedFor ∧
      envKey classes other.environment = envKey classes job.environment := by
  dsimp only [ensureWarm] at h
  split at h
  · rename_i u hu
    cases h
    exact hs.origin _ w hu
  · split at h
    · cases h
      exact ⟨job, hjob, henv, rfl, rfl⟩
    · cases h

theorem Pooled.killEnv {s : State} (hs : Pooled classes jobs s) (key : Text) :
    Pooled classes jobs (step classes workDir s (.killEnv key)) where
  origin other w hw := by
    dsimp only [step] at hw
    by_cases hkey : other = key
    · subst hkey
      rw [Function.update_self] at hw
      cases hw
    · rw [Function.update_of_ne hkey] at hw
      exact hs.origin other w hw
  isolated := hs.isolated

theorem Pooled.execute (hseparate : AllSeparate classes jobs) {s : State}
    (hs : Pooled classes jobs s) {job : CallJob} (hjob : job ∈ jobs) (ready evicts : Bool) :
    Pooled classes jobs (step classes workDir s (.execute job ready evicts)) := by
  dsimp only [step]
  split
  · rename_i hempty
    have henv : job.env = [] := List.isEmpty_iff.mp hempty
    split
    · rename_i w hwarm
      obtain ⟨other, hother, hothers, hstarted, hkey⟩ :=
        ensureWarm_origin hs hjob henv hwarm
      constructor
      · intro key u hu
        dsimp only at hu
        by_cases hsame : key = envKey classes job.environment
        · subst hsame
          rw [Function.update_self] at hu
          split at hu
          · cases hu
          · cases hu
            exact ⟨other, hother, hothers, hstarted, hkey⟩
        · rw [Function.update_of_ne hsame] at hu
          exact hs.origin key u hu
      · intro e he
        cases mem_cons.mp he with
        | inl he =>
          subst he
          have hsep := hseparate other hother job hjob hothers henv
          have heq := (separate_iff classes _ _).mpr hsep hkey
          exact hstarted.symm.trans heq
        | inr he => exact hs.isolated e he
    · exact hs
  · exact hs

theorem Pooled.step (hseparate : AllSeparate classes jobs) {s : State}
    (hs : Pooled classes jobs s) (action : Action)
    (hover : ∀ job ready evicts, action = .execute job ready evicts → job ∈ jobs) :
    Pooled classes jobs (step classes workDir s action) := by
  cases action with
  | execute job ready evicts => exact hs.execute hseparate (hover job ready evicts rfl) ready evicts
  | killEnv key => exact hs.killEnv key

theorem Pooled.foldl (hseparate : AllSeparate classes jobs) {s : State}
    (hs : Pooled classes jobs s) (actions : List Action) (hover : Over jobs actions) :
    Pooled classes jobs (actions.foldl (WarmEnvironments.step classes workDir) s) := by
  induction actions generalizing s with
  | nil => exact hs
  | cons action actions ih =>
    rw [foldl_cons]
    apply ih
    · refine hs.step hseparate action ?_
      intro job ready evicts heq
      exact hover job ready evicts (heq ▸ mem_cons_self)
    · intro job ready evicts hmem
      exact hover job ready evicts (.tail _ hmem)

theorem pooled_start : Pooled classes jobs start where
  origin key w hw := by cases hw
  isolated e he := by cases he

end Runs

/-- Jobs run on workers of their own environments exactly if no two environments among them are
written alike. -/
theorem isolatesEnvironments_iff (classes : CharClasses) (workDir : Text)
    (jobs : Set CallJob) :
    IsolatesEnvironments classes workDir jobs ↔ AllSeparate classes jobs := by
  constructor
  · intro hisolates a ha b hb haenv hbenv
    exact (separate_iff classes _ _).mp (hisolates.1 a ha b hb haenv hbenv)
  · intro hseparate
    constructor
    · intro a ha b hb haenv hbenv
      exact (separate_iff classes _ _).mpr (hseparate a ha b hb haenv hbenv)
    · intro actions hover
      exact (pooled_start.foldl hseparate actions hover).isolated

/-- Character classes of a machine that knows ASCII only. -/
def asciiClasses : CharClasses where
  isAlphanumeric := Char.isAlphanum
  isPrintable c := 32 ≤ c.toNat && c.toNat < 127
  isGraphemeExtended _ := false
  alphanumeric_ascii _ _ := rfl

/-- Requirements in a directory and requirements in a file with a dot share a worker. -/
theorem not_isolatesEnvironments :
    ¬ ∀ jobs : Set CallJob, IsolatesEnvironments asciiClasses [] jobs := by
  intro hall
  have hsame := (hall Set.univ).1 ⟨[], some (.uv none (some "a/b"))⟩ trivial
    ⟨[], some (.uv none (some "a.b"))⟩ trivial rfl rfl (by decide)
  exact absurd hsame (by decide)

end OxyMake.WarmEnvironments

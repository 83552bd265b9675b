import OxyMake.JobCacheKey
import OxyMake.ShellWords

/-!
# Commands in an environment

The command of a job is handed to a shell inside its environment: the line that is run
names the program that enters the environment, its options, the shell and the command,
with everything that the workflow chooses in single quotes. A shell that reads the line
finds exactly these words, whatever the workflow wrote, and the command as one of them.
-/

namespace OxyMake.EnvironmentCommands

open List
open JobCacheKey (EnvSpec)
open ShellWords

abbrev Text := List Char

/-- The value of a conda environment is a file and no name. -/
def isCondaFileSpec (env : String) : Bool :=
  ".yaml".toList.isSuffixOf env.toList || ".yml".toList.isSuffixOf env.toList

section Wrapping

variable (fileStem : String → Option String) (command shell : Text)

/-- The name of an environment that is made from a file. -/
def envName (env : String) : Text := ((fileStem env).getD "oxymake_env").toList

/-- The line that runs the command in an environment; what is not fixed is escaped. -/
def resolveEnvironment : Option EnvSpec → Text
  | none | some .system => command
  | some (.conda env) =>
    if isCondaFileSpec env then
      line [.plain "conda env create -f ".toList, .single env.toList, .plain " -n ".toList,
        .single (envName fileStem env), .plain " --yes 2>/dev/null || conda env update -f ".toList,
        .single env.toList, .plain " -n ".toList, .single (envName fileStem env),
        .plain " --prune; conda run --no-banner -n ".toList, .single (envName fileStem env),
        .plain " -- ".toList, .single shell, .plain " -c ".toList, .single command]
    else
      line [.plain "conda run --no-banner -n ".toList, .single env.toList, .plain " -- ".toList,
        .single shell, .plain " -c ".toList, .single command]
  | some (.docker image) =>
    line [.plain "docker run --rm ".toList, .single image.toList, .plain " ".toList, .single shell,
      .plain " -c ".toList, .single command]
  | some (.uv _ requirements) =>
    let reqFlag := match requirements with
      | some req => [.plain " --with-requirements ".toList, .single req.toList]
      | none => []
    line ([.plain "uv run".toList] ++ reqFlag ++ [.plain " -- ".toList, .single shell,
      .plain " -c ".toList, .single command])
  | some (.nix expr) =>
    line [.plain "nix develop ".toList, .single expr.toList, .plain " -c ".toList, .single shell,
      .plain " -c ".toList, .single command]
  | some (.apptainer image) =>
    line [.plain "apptainer exec ".toList, .single image.toList, .plain " ".toList, .single shell,
      .plain " -c ".toList, .single command]

/-- The line for a job, which passes its declared variables on to a container. -/
def resolveJobEnvironment (environment : Option EnvSpec) (declaredEnv : List Text) : Text :=
  match environment with
  | some (.docker image) =>
    let envFlags := declaredEnv.flatMap fun name => [.plain " --env ".toList, .single name]
    line ([.plain "docker run --rm".toList] ++ envFlags ++ [.plain " ".toList, .single image.toList,
      .plain " ".toList, .single shell, .plain " -c ".toList, .single command])
  | environment => resolveEnvironment fileStem command shell environment

/-! ### The words of the line -/

def words (texts : List String) : List Token := texts.map fun text => .word text.toList

/-- What enters an environment: the tokens in front of the shell. -/
def launcher (declaredEnv : List Text) : EnvSpec → List Token
  | .system => []
  | .conda env =>
    if isCondaFileSpec env then
      words ["conda", "env", "create", "-f", env, "-n"] ++ [.word (envName fileStem env)] ++
      words ["--yes"] ++ [.number ['2'], .operator ['>']] ++ words ["/dev/null"] ++
      [.operator ['|', '|']] ++ words ["conda", "env", "update", "-f", env, "-n"] ++
      [.word (envName fileStem env)] ++ words ["--prune"] ++ [.operator [';']] ++
      words ["conda", "run", "--no-banner", "-n"] ++ [.word (envName fileStem env)] ++ words ["--"]
    else words ["conda", "run", "--no-banner", "-n", env, "--"]
  | .docker image =>
    words ["docker", "run", "--rm"] ++
      declaredEnv.flatMap (fun name => words ["--env"] ++ [.word name]) ++ words [image]
  | .uv _ none => words ["uv", "run", "--"]
  | .uv _ (some req) => words ["uv", "run", "--with-requirements", req, "--"]
  | .nix expr => words ["nix", "develop", expr, "-c"]
  | .apptainer image => words ["apptainer", "exec", image]

end Wrapping

theorem run_blank (text : Text) (bare : Bool) :
    run (.word text bare) " ".toList = some ([.word text], .between) := by
  have htoken : (bare && text.all Char.isDigit && (decide (' ' = '<') || decide (' ' = '>'))) =
      false := Bool.and_false _
  change run (.word text bare) [' '] = _
  rw [ShellWords.run, ShellWords.step, htoken]
  rfl

/-- The flags end a word in front of them, and a blank behind them ends the last name. -/
theorem readPieces_envFlags (names : List Text) (text : Text) (bare : Bool)
    {pieces : List Piece} {tokens : List Token} {mode : Mode}
    (h : readPieces .between pieces = some (tokens, mode)) :
    readPieces (.word text bare)
      (names.flatMap (fun name => [.plain " --env ".toList, .single name]) ++
        .plain " ".toList :: pieces) =
      some (.word text :: names.flatMap (fun name => words ["--env"] ++ [.word name]) ++ tokens,
        mode) := by
  induction names generalizing text bare with
  | nil =>
    rw [flatMap_nil, nil_append, readPieces, run_blank]
    dsimp only [bind, Option.bind]
    rw [h]
    rfl
  | cons name names ih =>
    have hflag : run (.word text bare) " --env ".toList =
        some ([.word text] ++ words ["--env"], .between) :=
      Reads.append (run_blank text bare) (show run .between "--env ".toList = _ from rfl)
    rw [flatMap_cons, append_assoc, cons_append, readPieces, hflag]
    dsimp only [bind, Option.bind]
    rw [cons_append, nil_append, readPieces, ih name false]
    rfl

/-- A line is read as its tokens up to the command, which is its last word. -/
theorem tokenize_launched {shell command : Text} {pieces : List Piece} {tokens : List Token}
    (h : readPieces .between pieces =
      some (tokens ++ [.word shell, .word "-c".toList], .word command false)) :
    tokenize (line pieces) = some (tokens ++ [.word shell, .word "-c".toList, .word command]) := by
  rw [tokenize_line h rfl, append_assoc]
  rfl

/-- Without an environment the command is run as it is. In an environment the line is read as the
words that enter it, the shell, its flag and the command, whatever texts these are. -/
theorem environment_line (fileStem : String → Option String) (command shell : Text)
    (declaredEnv : List Text) :
    (∀ environment ∈ [none, some EnvSpec.system],
      resolveJobEnvironment fileStem command shell environment declaredEnv = command) ∧
    ∀ env, env ≠ EnvSpec.system →
      tokenize (resolveJobEnvironment fileStem command shell (some env) declaredEnv) =
        some (launcher fileStem declaredEnv env ++
          [.word shell, .word "-c".toList, .word command]) := by
  constructor
  · intro environment henv
    rcases mem_pair.mp henv with rfl | rfl
    · rfl
    · rfl
  · intro env hsystem
    unfold resolveJobEnvironment
    cases env with
    | system => exact absurd rfl hsystem
    | conda env =>
      unfold resolveEnvironment launcher
      by_cases hfile : isCondaFileSpec env = true
      · simp only [if_pos hfile]
        refine tokenize_launched ?_
        simp only [words, map_cons, map_nil, String.reduceToList]
        rfl
      · simp only [if_neg hfile]
        refine tokenize_launched ?_
        simp only [words, map_cons, map_nil, String.reduceToList]
        rfl
    | docker image =>
      refine tokenize_launched ?_
      have hrest : readPieces .between [.single image.toList, .plain " ".toList, .single shell,
          .plain " -c ".toList, .single command] =
            some ([.word image.toList, .word shell, .word "-c".toList], .word command false) := by
        simp only [String.reduceToList]
        rfl
      have hrun : run .between "docker run --rm".toList =
          some ([.word "docker".toList, .word "run".toList], .word "--rm".toList true) := by
        simp only [String.reduceToList]
        rfl
      rw [append_assoc, cons_append, readPieces, hrun]
      dsimp only [bind, Option.bind]
      rw [nil_append, readPieces_envFlags declaredEnv "--rm".toList true hrest, launcher,
        append_assoc, append_assoc]
      simp only [words, map_cons, map_nil, String.reduceToList]
      rfl
    | uv project requirements =>
      unfold resolveEnvironment
      cases requirements with
      | none | some =>
        refine tokenize_launched ?_
        simp only [launcher, words, map_cons, map_nil, String.reduceToList]
        rfl
    | nix | apptainer =>
      refine tokenize_launched ?_
      simp only [launcher, words, map_cons, map_nil, String.reduceToList]
      rfl

/-- A command with quotes and operators is one word of the line for a container. -/
theorem environment_line_container :
    tokenize (resolveJobEnvironment (fun _ => none) "echo 'a b' > c; true".toList "sh".toList
      (some (.docker "python:3")) ["TOKEN".toList]) =
        some (words ["docker", "run", "--rm", "--env", "TOKEN", "python:3", "sh", "-c",
          "echo 'a b' > c; true"]) :=
  (environment_line (fun _ => none) _ _ ["TOKEN".toList]).2 (.docker "python:3") nofun

end OxyMake.EnvironmentCommands

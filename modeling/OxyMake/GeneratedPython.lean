import OxyMake.CommandInterpolation
import OxyMake.PhysicalGraph
import OxyMake.PythonLiterals
import OxyMake.RuleFields

/-!
# Generated Python

A job in Python gets its values through generated source: a preamble that binds them,
in front of a block of code, and a script around the call of a function. Texts are
written as literals in one of three spellings. Each is read back by Python when its
spelling knows the characters: the one of the preamble knows all but NUL.
-/

namespace OxyMake.GeneratedPython

open List
open Wildcard (Text)
open CommandInterpolation (threadsValue)
open ConfigStages (parseI64 replaceAll)
open PhysicalGraph (OutputRef)
open PythonLiterals
open ResourceNormalization (ResourceValue FloatValue canonicalizeResourceKey trim
  bind_eq_ok)
open RuleInstances (forall₂_of_mapM)
open RuleFields (parseU64)

def apostrophe : Char := Char.ofNat 39

def pyChar (c : Char) : Text :=
  if c = '\\' then ['\\', '\\']
  else if c = apostrophe then ['\\', apostrophe]
  else if c = '\n' then ['\\', 'n']
  else if c = '\r' then ['\\', 'r']
  else if c = '\t' then ['\\', 't']
  else [c]

/-- A text as a literal of Python between apostrophes. -/
def pyStr (s : Text) : Text := quoted apostrophe pyChar s

/-- Debug spelling of a character; `plain` are the characters that are printable and extend no
grapheme. An apostrophe is escaped in paths only. -/
def debugChar (plain : Char → Bool) (single : Bool) (c : Char) : Text :=
  if c = '\x00' then ['\\', '0']
  else if c = '\t' then ['\\', 't']
  else if c = '\r' then ['\\', 'r']
  else if c = '\n' then ['\\', 'n']
  else if c = '\\' then ['\\', '\\']
  else if c = '"' then ['\\', '"']
  else if c = apostrophe ∧ single then ['\\', apostrophe]
  else if plain c then [c]
  else ['\\', 'u', '\x7b'] ++ Nat.toDigits 16 c.toNat ++ ['\x7d']

def debugStr (plain : Char → Bool) (single : Bool) (s : Text) : Text :=
  quoted '"' (debugChar plain single) s

/-- A part of generated source. -/
inductive Part
  | code (text : Text)
  | str (value : Text)
  | debug (value : Text)
  | path (value : Text)
  deriving DecidableEq, Repr

def Part.text (plain : Char → Bool) : Part → Text
  | .code text => text
  | .str value => pyStr value
  | .debug value => debugStr plain false value
  | .path value => debugStr plain true value

def source (plain : Char → Bool) (parts : List Part) : Text := parts.flatMap (Part.text plain)

def code (s : String) : Part := .code s.toList

def joined (separator : String) (items : List (List Part)) : List Part :=
  [code separator].intercalate items

/-- An input or output of a job. -/
structure ResolvedFile where
  name : Option Text
  reference : OutputRef
  format : Option Text

/-- What the generators read of a job. -/
structure PythonJob where
  inputs : List ResolvedFile
  outputs : List ResolvedFile
  logStdout : Option Text
  logStderr : Option Text
  params : List (Text × Text)
  wildcards : List (Text × Text)
  resources : List (String × ResourceValue)

/-! ### Run mode -/

def preambleHelpers : String := "class _OxNamedList(list):
    def __init__(self, items, names):
        super().__init__(items)
        self._names = names
    def __getattr__(self, name):
        try:
            return object.__getattribute__(self, '_names')[name]
        except KeyError:
            raise AttributeError(name) from None
    def __str__(self):
        return ' '.join(str(x) for x in self)
class _OxNamedMap(dict):
    def __getattr__(self, name):
        try:
            return self[name]
        except KeyError:
            raise AttributeError(name) from None
"

def pyNamedList (items : List (Option Text × Text)) : List Part :=
  code "_OxNamedList([" :: joined ", " (items.map fun e => [.str e.2]) ++
    code "], \x7b" :: joined ", " (items.filterMap fun e =>
      e.1.map fun name => [.str name, code ": ", .str e.2]) ++ [code "\x7d)"]

def pyNamedMap (entries : List (Text × Part)) : List Part :=
  code "_OxNamedMap(\x7b" ::
    joined ", " (entries.map fun e => [.str e.1, code ": ", e.2]) ++ [code "\x7d)"]

def fileItems (files : List ResolvedFile) : List (Option Text × Text) :=
  files.filterMap fun f =>
    match f.reference with
    | .file path => some (f.name, path.toList)
    | _ => none

def pyResource : ResourceValue → Part
  | .int n => .code (toString n).toList
  | .float f => .code f.text.toList
  | .str s => .str s.toList

/-- Number with a suffix for a power of ten. -/
def parseByteSuffix (s : Text) : Option ℕ :=
  let s := trim s
  match s.getLast? with
  | none => none
  | some last =>
    let (number, multiplier) :=
      if last = 'K' ∨ last = 'k' then (s.dropLast, 1000)
      else if last = 'M' ∨ last = 'm' then (s.dropLast, 1000000)
      else if last = 'G' ∨ last = 'g' then (s.dropLast, 1000000000)
      else if last = 'T' ∨ last = 't' then (s.dropLast, 1000000000000)
      else (s, 1)
    (parseU64 (trim number)).map fun n => min (n * multiplier) (2 ^ 64 - 1)

/-- A value as an unsigned number; `ceil` rounds a floating-point value up. -/
def asU64 (ceil : FloatValue → ℕ) : ResourceValue → Option ℕ
  | .int n => some n.toNat
  | .float f => some (if f.negative then 0 else ceil f)
  | .str s => parseByteSuffix s.toList

def preambleThreads (ceil : FloatValue → ℕ) (resources : List (String × ResourceValue)) : ℕ :=
  ((resources.lookup "cpu").bind (asU64 ceil)).getD 1

def pythonPreamble (ceil : FloatValue → ℕ) (job : PythonJob) : List Part :=
  [code preambleHelpers] ++
    code "input = " :: pyNamedList (fileItems job.inputs) ++
    code "\noutput = " :: pyNamedList (fileItems job.outputs) ++
    code "\nlog = " ::
      pyNamedList ((job.logStdout.toList ++ job.logStderr.toList).map fun p => (none, p)) ++
    code "\nparams = " :: pyNamedMap (job.params.map fun e => (e.1, .str e.2)) ++
    code "\nwildcards = " :: pyNamedMap (job.wildcards.map fun e => (e.1, .str e.2)) ++
    code "\nresources = " ::
      pyNamedMap (job.resources.map fun e => (e.1.toList, pyResource e.2)) ++
    [code "\nthreads = ", .code (toString (preambleThreads ceil job.resources)).toList, code "\n"]

/-! ### Call mode -/

/-- Python code that reads and writes files of a format. -/
structure FormatCodec where
  pythonRead : Text
  pythonWrite : Text
  pythonImports : List Text

/-- Why no script can be generated. -/
inductive CallError
  /-- A function is not given as module and name. -/
  | notAReference (function : Text)
  | emptyName (function : Text)
  | unsupportedInput (reference : OutputRef)
  | unknownInputFormat (path reason : Text)
  | unsupportedOutput (reference : OutputRef)
  | unknownOutputFormat (path reason : Text)
  deriving DecidableEq

/-- An argument of the call. -/
structure InputArg where
  varName : Text
  filePath : Text
  codec : FormatCodec
  paramName : Option Text

/-- A result of the call. -/
structure OutputArg where
  filePath : Text
  codec : FormatCodec
  returnName : Option Text

def parseFunctionRef (function : Text) : Except CallError (Text × Text) :=
  match function.dropWhile (· ≠ ':') with
  | [] => .error (.notAReference function)
  | _ :: name =>
    if function.takeWhile (· ≠ ':') = [] ∨ name = [] then .error (.emptyName function)
    else .ok (function.takeWhile (· ≠ ':'), name)

section Call

variable (lookup : Text → Option Text → Except Text FormatCodec)

def resolveInput (e : ResolvedFile × ℕ) : Except CallError InputArg :=
  match e.1.reference with
  | .file path =>
    match lookup path.toList e.1.format with
    | .error reason => .error (.unknownInputFormat path.toList reason)
    | .ok codec =>
      let suffix := e.1.name.getD (toString e.2).toList
      .ok ⟨"_inp_".toList ++ suffix, path.toList, codec, e.1.name⟩
  | other => .error (.unsupportedInput other)

def resolveOutput (f : ResolvedFile) : Except CallError OutputArg :=
  match f.reference with
  | .file path =>
    match lookup path.toList f.format with
    | .error reason => .error (.unknownOutputFormat path.toList reason)
    | .ok codec => .ok ⟨path.toList, codec, f.name⟩
  | other => .error (.unsupportedOutput other)

end Call

def collectImports (codecs : List FormatCodec) : List Text :=
  (codecs.flatMap FormatCodec.pythonImports).dedup.mergeSort fun a b => a ≤ b

def pathHole : Text := "\x7bpath\x7d".toList

/-- The code of a codec with a path in it. -/
def withPath (path : Text) : Text → List Part
  | [] => []
  | c :: rest =>
    if pathHole <+: c :: rest then .path path :: withPath path (rest.drop (pathHole.length - 1))
    else .code [c] :: withPath path rest
  termination_by template => template.length
  decreasing_by
    · simp only [length_drop, length_cons]
      omega
    · exact Nat.lt_succ_self _

/-- A parameter as an argument; `parsesF64` are the texts of floating-point numbers. -/
def callParam (parsesF64 : Text → Bool) (e : Text × Text) : List Part :=
  if (parseI64 e.2).isSome ∨ parsesF64 e.2 then [.code (e.1 ++ '=' :: e.2)]
  else if e.2 = "true".toList then [.code (e.1 ++ "=True".toList)]
  else if e.2 = "false".toList then [.code (e.1 ++ "=False".toList)]
  else [.code (e.1 ++ ['=']), .debug e.2]

/-- Arguments of the call: unnamed inputs, named inputs, parameters. -/
def buildCallArgs (parsesF64 : Text → Bool) (inputs : List InputArg)
    (params : List (Text × Text)) : List Part :=
  joined ", " ((inputs.filter fun i => i.paramName.isNone).map (fun i => [.code i.varName]) ++
    inputs.filterMap (fun i => i.paramName.map fun name => [.code (name ++ '=' :: i.varName)]) ++
    params.map (callParam parsesF64))

def buildReturnNames (outputs : List OutputArg) : List Text :=
  outputs.zipIdx.map fun e => e.1.returnName.getD (toString e.2).toList

def outVar (i : ℕ) : Text := "_out_".toList ++ (toString i).toList

def wrapperHeader : String := "#!/usr/bin/env python3
\"\"\"Auto-generated call-mode wrapper by OxyMake.\"\"\"\nimport os\nimport sys\nimport traceback\nimport pathlib

_jax_cache = pathlib.Path('.oxymake') / 'jax_cache'
_jax_cache.mkdir(parents=True, exist_ok=True)
os.environ.setdefault('JAX_ENABLE_COMPILATION_CACHE', 'true')
os.environ.setdefault('JAX_COMPILATION_CACHE_DIR', str(_jax_cache))
os.environ.setdefault('JAX_PERSISTENT_CACHE_MIN_COMPILE_TIME_SECS', '0')

"

def wrapperFooter : String := "
except Exception as _e:
    print(f\"OxyMake call-mode error: \x7btype(_e).__name__\x7d: \x7b_e\x7d\", file=sys.stderr)
    traceback.print_exc(file=sys.stderr)
    sys.exit(1)
"

def writeStatement (obj : Text) (out : OutputArg) : List Part :=
  code "    " :: withPath out.filePath
    (replaceAll "\x7bobj\x7d".toList obj out.codec.pythonWrite) ++ [code "\n"]

def unpack (outputs : List OutputArg) : List Part :=
  code "\n    # Unpack multiple return values\n" ::
    if outputs.any fun o => o.returnName.isSome then
      (buildReturnNames outputs).zipIdx.flatMap fun e =>
        [.code ("    ".toList ++ outVar e.2 ++ " = _result[".toList), .debug e.1, code "]\n"]
    else
      code "    " :: joined ", " ((List.range outputs.length).map fun i => [.code (outVar i)]) ++
        [code " = _result\n"]

/-- The results are written; a single result is the result of the call. -/
def writeAll : List OutputArg → List Part
  | [out] => writeStatement "_result".toList out
  | outputs => outputs.zipIdx.flatMap fun e => writeStatement (outVar e.2) e.1

def wrapperScript (parsesF64 : Text → Bool) (module name : Text) (inputs : List InputArg)
    (outputs : List OutputArg) (params : List (Text × Text)) : List Part :=
  [code wrapperHeader] ++
    ((collectImports (inputs.map InputArg.codec ++ outputs.map OutputArg.codec)).map fun i =>
      .code (i ++ ['\n'])) ++
    [code "\n# Import the target function\nfrom ", .code module, code " import ", .code name,
      code "\n\ntry:\n    # Deserialize inputs\n"] ++
    (inputs.flatMap fun i => .code ("    ".toList ++ i.varName ++ " = ".toList) ::
      withPath i.filePath i.codec.pythonRead ++ [code "\n"]) ++
    [code "\n    # Call the function\n    _result = ", .code name, code "("] ++
    (buildCallArgs parsesF64 inputs params ++ [code ")\n"]) ++
    (if outputs.length ≤ 1 then [] else unpack outputs) ++
    [code "\n    # Serialize outputs\n"] ++
    writeAll outputs ++ [code wrapperFooter]

/-- Generate the script around the call of a function. -/
def generateWrapper (lookup : Text → Option Text → Except Text FormatCodec)
    (parsesF64 : Text → Bool) (function : Text) (job : PythonJob) :
    Except CallError (List Part) := do
  let (module, name) ← parseFunctionRef function
  let inputs ← job.inputs.zipIdx.mapM (resolveInput lookup)
  let outputs ← job.outputs.mapM (resolveOutput lookup)
  return wrapperScript parsesF64 module name inputs outputs job.params

/-! ### Spellings -/

theorem spells_pyChar (names : Text → Option Char) {c : Char} (hc : c ≠ '\x00') :
    Spells names apostrophe c (pyChar c) := by
  rw [pyChar]
  by_cases hslash : c = '\\'
  · rw [if_pos hslash, hslash]
    exact .escape (by decide) (by decide) fun rest => rfl
  by_cases hquote : c = apostrophe
  · rw [if_neg hslash, if_pos hquote, hquote]
    exact .escape (by decide) (by decide) fun rest => rfl
  by_cases hfeed : c = '\n'
  · rw [if_neg hslash, if_neg hquote, if_pos hfeed, hfeed]
    exact .escape (by decide) (by decide) fun rest => rfl
  by_cases hreturn : c = '\r'
  · rw [if_neg hslash, if_neg hquote, if_neg hfeed, if_pos hreturn, hreturn]
    exact .escape (by decide) (by decide) fun rest => rfl
  by_cases htab : c = '\t'
  · rw [if_neg hslash, if_neg hquote, if_neg hfeed, if_neg hreturn, if_pos htab, htab]
    exact .escape (by decide) (by decide) fun rest => rfl
  rw [if_neg hslash, if_neg hquote, if_neg hfeed, if_neg hreturn, if_neg htab]
  refine .plain hquote hslash ?_
  rw [breaksLine, beq_eq_false_iff_ne.mpr hfeed, beq_eq_false_iff_ne.mpr hreturn,
    beq_eq_false_iff_ne.mpr hc]
  rfl

/-- A character that the debug rendering escapes with one character, or shows as it is. -/
def DebugReadable (plain : Char → Bool) (c : Char) : Prop :=
  c ≠ '\x00' ∧ (c ∈ ['\t', '\r', '\n', '\\', '"'] ∨ plain c = true)

theorem spells_debugChar (names : Text → Option Char) {plain : Char → Bool} (single : Bool)
    {c : Char} (hc : DebugReadable plain c) : Spells names '"' c (debugChar plain single c) := by
  obtain ⟨hnul, hreadable⟩ := hc
  rw [debugChar, if_neg hnul]
  by_cases htab : c = '\t'
  · rw [if_pos htab, htab]
    exact .escape (by decide) (by decide) fun rest => rfl
  by_cases hreturn : c = '\r'
  · rw [if_neg htab, if_pos hreturn, hreturn]
    exact .escape (by decide) (by decide) fun rest => rfl
  by_cases hfeed : c = '\n'
  · rw [if_neg htab, if_neg hreturn, if_pos hfeed, hfeed]
    exact .escape (by decide) (by decide) fun rest => rfl
  by_cases hslash : c = '\\'
  · rw [if_neg htab, if_neg hreturn, if_neg hfeed, if_pos hslash, hslash]
    exact .escape (by decide) (by decide) fun rest => rfl
  by_cases hquote : c = '"'
  · rw [if_neg htab, if_neg hreturn, if_neg hfeed, if_neg hslash, if_pos hquote, hquote]
    exact .escape (by decide) (by decide) fun rest => rfl
  rw [if_neg htab, if_neg hreturn, if_neg hfeed, if_neg hslash, if_neg hquote]
  by_cases hsingle : c = apostrophe ∧ single
  · rw [if_pos hsingle, hsingle.1]
    exact .escape (by decide) (by decide) fun rest => rfl
  have hplain : plain c = true := by
    refine hreadable.resolve_left fun hmem => ?_
    simp only [mem_cons, not_mem_nil, or_false] at hmem
    rcases hmem with h | h | h | h | h
    · exact htab h
    · exact hreturn h
    · exact hfeed h
    · exact hslash h
    · exact hquote h
  rw [if_neg hsingle, if_pos hplain]
  refine .plain hquote hslash ?_
  rw [breaksLine, beq_eq_false_iff_ne.mpr hfeed, beq_eq_false_iff_ne.mpr hreturn,
    beq_eq_false_iff_ne.mpr hnul]
  rfl

def Part.value : Part → Option Text
  | .code _ => none
  | .str value => some value
  | .debug value => some value
  | .path value => some value

def Part.quote : Part → Char
  | .str _ => apostrophe
  | _ => '"'

/-- The spelling of a literal knows its characters; a path is not empty. -/
def Part.Readable (plain : Char → Bool) : Part → Prop
  | .code _ => True
  | .str value => '\x00' ∉ value
  | .debug value => ∀ c ∈ value, DebugReadable plain c
  | .path value => value ≠ [] ∧ ∀ c ∈ value, DebugReadable plain c

/-- Python reads each readable literal of generated source as the text it stands for. -/
def Denotes (names : Text → Option Char) (plain : Char → Bool) (parts : List Part) : Prop :=
  ∀ front part back value, parts = front ++ part :: back → part.value = some value →
    part.Readable plain →
    readLiteral names part.quote (part.text plain ++ source plain back) =
      some (value, source plain back)

def Part.Bare : Part → Prop
  | .str _ => True
  | .debug _ => True
  | _ => False

def Part.Opens : Part → Prop
  | .code (c :: _) => c ≠ '"' ∧ c ≠ apostrophe
  | _ => False

/-- Code that begins with no quote follows each literal that may be empty. -/
def Guarded (parts : List Part) : Prop :=
  ∀ front part back, parts = front ++ part :: back → part.Bare →
    ∃ next more, back = next :: more ∧ next.Opens

theorem denotes_of_guarded (names : Text → Option Char) (plain : Char → Bool) {parts : List Part}
    (h : Guarded parts) : Denotes names plain parts := by
  intro front part back value hparts hvalue hreadable
  have hhead : part.Bare → ∀ quote, quote = '"' ∨ quote = apostrophe →
      (source plain back).head? ≠ some quote := by
    intro hbare quote hquote
    obtain ⟨next, more, rfl, hopens⟩ := h front part back hparts hbare
    have hsource : source plain (next :: more) = next.text plain ++ source plain more :=
      flatMap_cons
    rw [hsource]
    cases next with
    | code text =>
      cases text with
      | nil => exact absurd hopens (by nofun)
      | cons c =>
        intro heq
        have hc : c = quote := Option.some.inj heq
        rcases hquote with rfl | rfl
        · exact hopens.1 hc
        · exact hopens.2 hc
    | str | debug | path => exact absurd hopens (by nofun)
  cases part with
  | code => cases hvalue
  | str =>
    cases hvalue
    refine readLiteral_quoted (by decide) (fun c hc => spells_pyChar names ?_) fun _ =>
      hhead trivial _ (Or.inr rfl)
    rintro rfl
    exact hreadable hc
  | debug =>
    cases hvalue
    exact readLiteral_quoted (by decide) (fun c hc => spells_debugChar names _ (hreadable c hc))
      fun _ => hhead trivial _ (Or.inl rfl)
  | path =>
    cases hvalue
    exact readLiteral_quoted (by decide) (fun c hc => spells_debugChar names _ (hreadable.2 c hc))
      fun hnil => absurd hnil hreadable.1

/-! ### Guarded source -/

theorem guarded_append {parts more : List Part} (hparts : Guarded parts) (hmore : Guarded more) :
    Guarded (parts ++ more) := by
  intro front part back heq hbare
  rcases append_eq_append_iff.mp heq with ⟨middle, _, hback⟩ | ⟨middle, hfirst, hback⟩
  · exact hmore middle part back hback hbare
  · cases middle with
    | nil => exact hmore [] part back hback.symm hbare
    | cons first middle =>
      obtain ⟨rfl, rfl⟩ := List.cons.inj hback
      obtain ⟨next, rest, rfl, hopens⟩ := hparts front part middle hfirst hbare
      exact ⟨next, rest ++ more, rfl, hopens⟩

theorem guarded_of_free {parts : List Part} (h : ∀ part ∈ parts, ¬ part.Bare) : Guarded parts := by
  intro front part back heq hbare
  refine absurd hbare (h part ?_)
  rw [heq]
  exact mem_append_right _ mem_cons_self

theorem guarded_code {text : Text} {parts : List Part} (h : Guarded parts) :
    Guarded (.code text :: parts) := by
  have hcode : Guarded [.code text] := guarded_of_free fun part hpart => by
    rw [mem_singleton.mp hpart]
    exact id
  exact guarded_append hcode h

theorem guarded_literal {literal next : Part} {parts : List Part} (hopens : next.Opens)
    (h : Guarded (next :: parts)) : Guarded (literal :: next :: parts) := by
  intro front part back heq hbare
  cases front with
  | nil =>
    obtain ⟨rfl, rfl⟩ := List.cons.inj heq
    exact ⟨next, parts, rfl, hopens⟩
  | cons first front => exact h front part back (List.cons.inj heq).2 hbare

/-- Source that is guarded when code that begins with no quote follows. -/
def Tame (parts : List Part) : Prop := ∀ next : Part, next.Opens → Guarded (parts ++ [next])

theorem not_bare_of_opens {next : Part} (h : next.Opens) : ¬ next.Bare := by
  cases next with
  | code => exact id
  | str | debug | path => exact absurd h (by nofun)

theorem tame_code (text : Text) : Tame [.code text] := fun _ hopens =>
  guarded_code (guarded_of_free fun part hpart => by
    rw [mem_singleton.mp hpart]
    exact not_bare_of_opens hopens)

theorem tame_literal (literal : Part) : Tame [literal] := fun _ hopens =>
  guarded_literal hopens (guarded_of_free fun part hpart => by
    rw [mem_singleton.mp hpart]
    exact not_bare_of_opens hopens)

theorem Tame.code {parts : List Part} (text : Text) (h : Tame parts) :
    Tame (.code text :: parts) := fun next hopens => guarded_code (h next hopens)

theorem tame_joined {c : Char} {text : Text} (hopens : (Part.code (c :: text)).Opens)
    {items : List (List Part)} (h : ∀ item ∈ items, Tame item) :
    Tame ([Part.code (c :: text)].intercalate items) := by
  induction items with
  | nil =>
    intro next hnext
    refine guarded_of_free fun part hpart => ?_
    rw [mem_singleton.mp hpart]
    exact not_bare_of_opens hnext
  | cons item items ih =>
    have hfirst := h item mem_cons_self
    have hrest := ih fun other hother => h other (.tail item hother)
    by_cases hnil : items = []
    · rw [hnil, intercalate_singleton]
      exact hfirst
    · intro next hnext
      rw [intercalate_cons_of_ne_nil hnil, append_assoc]
      exact guarded_append (hfirst _ hopens) (hrest next hnext)

theorem pyNamedList_eq (items : List (Option Text × Text)) :
    pyNamedList items = code "_OxNamedList([" ::
      (joined ", " (items.map fun e => [.str e.2]) ++ [code "], \x7b"] ++
        (joined ", " (items.filterMap fun e =>
          e.1.map fun name => [.str name, code ": ", .str e.2]) ++ [code "\x7d)"])) := by
  rw [pyNamedList]
  simp only [append_assoc, cons_append, nil_append]

theorem guarded_pyNamedList (items : List (Option Text × Text)) : Guarded (pyNamedList items) := by
  have hcomma : (Part.code ", ".toList).Opens := ⟨by decide, by decide⟩
  have hvalues : Tame (joined ", " (items.map fun e => [.str e.2])) := by
    refine tame_joined hcomma fun item hitem => ?_
    obtain ⟨e, -, rfl⟩ := mem_map.mp hitem
    exact tame_literal _
  have hnames : Tame (joined ", " (items.filterMap fun e =>
      e.1.map fun name => [.str name, code ": ", .str e.2])) := by
    refine tame_joined hcomma fun item hitem => ?_
    obtain ⟨e, -, he⟩ := mem_filterMap.mp hitem
    obtain ⟨name, -, rfl⟩ := Option.map_eq_some_iff.mp he
    intro next hnext
    have hcolon : (code ": ").Opens := ⟨by decide, by decide⟩
    exact guarded_literal hcolon (guarded_code (tame_literal _ next hnext))
  rw [pyNamedList_eq]
  refine guarded_code (guarded_append (hvalues _ ?_) (hnames _ ?_))
  · exact ⟨by decide, by decide⟩
  · exact ⟨by decide, by decide⟩

theorem guarded_pyNamedMap (entries : List (Text × Part)) : Guarded (pyNamedMap entries) := by
  have hcomma : (Part.code ", ".toList).Opens := ⟨by decide, by decide⟩
  have hentries : Tame (joined ", " (entries.map fun e => [.str e.1, code ": ", e.2])) := by
    refine tame_joined hcomma fun item hitem => ?_
    obtain ⟨e, -, rfl⟩ := mem_map.mp hitem
    intro next hnext
    have hcolon : (code ": ").Opens := ⟨by decide, by decide⟩
    exact guarded_literal hcolon (guarded_code (tame_literal _ next hnext))
  have hshape : pyNamedMap entries = code "_OxNamedMap(\x7b" ::
      (joined ", " (entries.map fun e => [.str e.1, code ": ", e.2]) ++ [code "\x7d)"]) := rfl
  rw [hshape]
  exact guarded_code (hentries _ ⟨by decide, by decide⟩)

theorem guarded_pythonPreamble (ceil : FloatValue → ℕ) (job : PythonJob) :
    Guarded (pythonPreamble ceil job) := by
  rw [pythonPreamble]
  refine guarded_append (guarded_append (guarded_append (guarded_append (guarded_append
    (guarded_append (guarded_append ?_ ?_) ?_) ?_) ?_) ?_) ?_) ?_
  · exact guarded_code (guarded_of_free fun part hpart => absurd hpart not_mem_nil)
  · exact guarded_code (guarded_pyNamedList _)
  · exact guarded_code (guarded_pyNamedList _)
  · exact guarded_code (guarded_pyNamedList _)
  · exact guarded_code (guarded_pyNamedMap _)
  · exact guarded_code (guarded_pyNamedMap _)
  · exact guarded_code (guarded_pyNamedMap _)
  · exact guarded_code (guarded_code (guarded_code (guarded_of_free fun part hpart =>
      absurd hpart not_mem_nil)))

theorem withPath_free (path template : Text) : ∀ part ∈ withPath path template, ¬ part.Bare := by
  fun_induction withPath path template with
  | case1 => exact fun part hpart => absurd hpart not_mem_nil
  | case2 c rest hstart ih => exact forall_mem_cons.mpr ⟨id, ih⟩
  | case3 c rest hstart ih => exact forall_mem_cons.mpr ⟨id, ih⟩

theorem tame_buildCallArgs (parsesF64 : Text → Bool) (inputs : List InputArg)
    (params : List (Text × Text)) : Tame (buildCallArgs parsesF64 inputs params) := by
  have hcomma : (Part.code ", ".toList).Opens := ⟨by decide, by decide⟩
  refine tame_joined hcomma fun item hitem => ?_
  rcases mem_append.mp hitem with hitem | hitem
  · rcases mem_append.mp hitem with hitem | hitem
    · obtain ⟨i, -, rfl⟩ := mem_map.mp hitem
      exact tame_code _
    · obtain ⟨i, -, hi⟩ := mem_filterMap.mp hitem
      obtain ⟨_, -, rfl⟩ := Option.map_eq_some_iff.mp hi
      exact tame_code _
  · obtain ⟨e, -, rfl⟩ := mem_map.mp hitem
    rw [callParam]
    split_ifs
    · exact tame_code _
    · exact tame_code _
    · exact tame_code _
    · exact (tame_literal _).code _

theorem guarded_unpack (outputs : List OutputArg) : Guarded (unpack outputs) := by
  refine guarded_code ?_
  by_cases hnamed : outputs.any (fun o => o.returnName.isSome) = true
  · rw [if_pos hnamed]
    generalize (buildReturnNames outputs).zipIdx = entries
    induction entries with
    | nil => exact guarded_of_free fun part hpart => absurd hpart not_mem_nil
    | cons e entries ih =>
      rw [flatMap_cons]
      have hclose : (code "]\n").Opens := ⟨by decide, by decide⟩
      exact guarded_append (guarded_code (tame_literal _ _ hclose)) ih
  · rw [if_neg hnamed]
    have hcomma : (Part.code ", ".toList).Opens := ⟨by decide, by decide⟩
    have hvars : Tame (joined ", "
        ((List.range outputs.length).map fun i => [.code (outVar i)])) := by
      refine tame_joined hcomma fun item hitem => ?_
      obtain ⟨i, -, rfl⟩ := mem_map.mp hitem
      exact tame_code _
    exact guarded_code (hvars _ ⟨by decide, by decide⟩)

theorem guarded_writeStatement (obj : Text) (out : OutputArg) :
    Guarded (writeStatement obj out) := by
  refine guarded_append (guarded_code (guarded_of_free (withPath_free _ _))) ?_
  exact guarded_code (guarded_of_free fun part hpart => absurd hpart not_mem_nil)

theorem guarded_flatMap {α : Type} {f : α → List Part} {items : List α}
    (h : ∀ item ∈ items, Guarded (f item)) : Guarded (items.flatMap f) := by
  induction items with
  | nil => exact guarded_of_free fun part hpart => absurd hpart not_mem_nil
  | cons item items ih =>
    rw [flatMap_cons]
    exact guarded_append (h item mem_cons_self)
      (ih fun other hother => h other (.tail item hother))

theorem guarded_wrapperScript (parsesF64 : Text → Bool) (module name : Text)
    (inputs : List InputArg) (outputs : List OutputArg) (params : List (Text × Text)) :
    Guarded (wrapperScript parsesF64 module name inputs outputs params) := by
  have hnil : Guarded [] := guarded_of_free fun part hpart => absurd hpart not_mem_nil
  rw [wrapperScript]
  refine guarded_append (guarded_append (guarded_append (guarded_append (guarded_append
    (guarded_append (guarded_append (guarded_append (guarded_append ?_ ?_) ?_) ?_) ?_) ?_) ?_) ?_)
    ?_) ?_
  · exact guarded_code hnil
  · refine guarded_of_free fun part hpart => ?_
    obtain ⟨i, -, rfl⟩ := mem_map.mp hpart
    exact id
  · exact guarded_code (guarded_code (guarded_code (guarded_code (guarded_code hnil))))
  · refine guarded_flatMap fun i _ => guarded_append (guarded_code ?_) (guarded_code hnil)
    exact guarded_of_free (withPath_free _ _)
  · exact guarded_code (guarded_code (guarded_code hnil))
  · exact tame_buildCallArgs parsesF64 inputs params _ ⟨by decide, by decide⟩
  · split_ifs
    · exact hnil
    · exact guarded_unpack outputs
  · exact guarded_code hnil
  · rw [writeAll.eq_def]
    split
    · exact guarded_writeStatement _ _
    · exact guarded_flatMap fun e _ => guarded_writeStatement _ _
  · exact guarded_code hnil

theorem guarded_generateWrapper {lookup : Text → Option Text → Except Text FormatCodec}
    {parsesF64 : Text → Bool} {function : Text} {job : PythonJob} {parts : List Part}
    (h : generateWrapper lookup parsesF64 function job = .ok parts) : Guarded parts := by
  obtain ⟨_, -, h⟩ := bind_eq_ok h
  obtain ⟨_, -, h⟩ := bind_eq_ok h
  obtain ⟨_, -, h⟩ := bind_eq_ok h
  cases h
  exact guarded_wrapperScript _ _ _ _ _ _

/-! ### Values -/

/-- The texts that the literals of source stand for, in order. -/
def values (parts : List Part) : List Text := parts.filterMap Part.value

theorem values_append (parts more : List Part) :
    values (parts ++ more) = values parts ++ values more := filterMap_append

theorem values_joined (separator : String) (items : List (List Part)) :
    values (joined separator items) = items.flatMap values := by
  induction items with
  | nil => rfl
  | cons item items ih =>
    rw [flatMap_cons, ← ih]
    by_cases hnil : items = []
    · rw [hnil, joined, intercalate_singleton, joined]
      exact (append_nil _).symm
    · rw [joined, intercalate_cons_of_ne_nil hnil, values_append, values_append, joined]
      exact congrArg (· ++ _) (append_nil _)

theorem values_code (s : String) (parts : List Part) : values (code s :: parts) = values parts :=
  rfl

theorem values_pyNamedList (items : List (Option Text × Text)) :
    values (pyNamedList items) = items.map Prod.snd ++
      items.flatMap fun e => e.1.elim [] fun name => [name, e.2] := by
  have hvalues : (items.map fun e => [Part.str e.2]).flatMap values = items.map Prod.snd := by
    rw [flatMap_map]
    exact map_eq_flatMap.symm
  have hnames : (items.filterMap fun e =>
      e.1.map fun name => [Part.str name, code ": ", Part.str e.2]).flatMap values =
      items.flatMap fun e => e.1.elim [] fun name => [name, e.2] := by
    clear hvalues
    induction items with
    | nil => rfl
    | cons e items ih =>
      rw [flatMap_cons, ← ih, filterMap_cons]
      cases e.1 with
      | none | some => rfl
  have hshape : values (pyNamedList items) =
      values (joined ", " (items.map fun e => [.str e.2])) ++
        (values (joined ", " (items.filterMap fun e =>
          e.1.map fun name => [.str name, code ": ", .str e.2])) ++ []) := by
    rw [pyNamedList, values_append, values_append, append_assoc]
    rfl
  rw [hshape, values_joined, values_joined, hvalues, hnames, append_nil]

theorem values_pyNamedMap (entries : List (Text × Part)) :
    values (pyNamedMap entries) =
      entries.flatMap fun e => e.1 :: e.2.value.toList := by
  have hshape : values (pyNamedMap entries) =
      values (joined ", " (entries.map fun e => [.str e.1, code ": ", e.2])) ++ [] := by
    rw [pyNamedMap, values_append]
    rfl
  rw [hshape, append_nil, values_joined, flatMap_map]
  refine congrArg (List.flatMap · entries) (funext fun e => ?_)
  cases e.2 with
  | code | str | debug | path => rfl

/-! ### What the preamble carries -/

/-- Path of a file of a job. -/
def ResolvedFile.path (f : ResolvedFile) : Option Text :=
  match f.reference with
  | .file path => some path.toList
  | _ => none

/-- The block of a namespace of files. -/
structure FileBlock (files : List ResolvedFile) (block : List Part) : Prop where
  /-- Its literals are the paths, and then each name in front of its path. -/
  literals : values block = files.filterMap ResolvedFile.path ++
    files.flatMap fun f => (f.name.bind fun name => f.path.map fun path => [name, path]).getD []
  /-- A name is the key of its path. -/
  bound : ∀ f ∈ files, ∀ name path, f.name = some name → f.path = some path →
    [.str name, code ": ", .str path] <:+: block

/-- The block of a namespace of texts. -/
structure TextBlock (entries : List (Text × Text)) (block : List Part) : Prop where
  /-- Its literals are the keys, each in front of its text. -/
  literals : values block = entries.flatMap fun e => [e.1, e.2]
  /-- Each key is that of its text. -/
  bound : ∀ e ∈ entries, [.str e.1, code ": ", .str e.2] <:+: block

def resourceText : ResourceValue → Option Text
  | .int _ => none
  | .float _ => none
  | .str s => some s.toList

/-- The block of the resources. -/
structure ResourceBlock (resources : List (String × ResourceValue)) (block : List Part) :
    Prop where
  /-- Its literals are the names, each in front of its value if that is a text. -/
  literals : values block = resources.flatMap fun e => e.1.toList :: (resourceText e.2).toList
  text : ∀ key s, (key, .str s) ∈ resources →
    [.str key.toList, code ": ", .str s.toList] <:+: block
  int : ∀ key n, (key, .int n) ∈ resources →
    [.str key.toList, code ": ", .code (toString n).toList] <:+: block
  float : ∀ key f, (key, .float f) ∈ resources →
    [.str key.toList, code ": ", .code f.text.toList] <:+: block

/-- The preamble binds its names to the values of the job. -/
def Preamble (job : PythonJob) (parts : List Part) : Prop :=
  ∃ input output log params wildcards resources threads, parts = [code preambleHelpers] ++
      code "input = " :: input ++ code "\noutput = " :: output ++ code "\nlog = " :: log ++
      code "\nparams = " :: params ++ code "\nwildcards = " :: wildcards ++
      code "\nresources = " :: resources ++ [code "\nthreads = ", .code threads, code "\n"] ∧
    FileBlock job.inputs input ∧ FileBlock job.outputs output ∧
    values log = job.logStdout.toList ++ job.logStderr.toList ∧
    TextBlock job.params params ∧ TextBlock job.wildcards wildcards ∧
    ResourceBlock job.resources resources

theorem infix_joined (separator : String) {items : List (List Part)} {item : List Part}
    (h : item ∈ items) : item <:+: joined separator items := by
  induction items with
  | nil => cases h
  | cons first items ih =>
    by_cases hnil : items = []
    · subst hnil
      rw [mem_singleton.mp h, joined, intercalate_singleton]
    · rw [joined, intercalate_cons_of_ne_nil hnil]
      rcases mem_cons.mp h with rfl | h
      · exact infix_append_left.trans infix_append_left
      · exact (ih h).trans infix_append_right

theorem fileItems_eq (files : List ResolvedFile) :
    fileItems files = files.filterMap fun f => f.path.map fun path => (f.name, path) := by
  apply filterMap_congr
  intro f _
  rw [ResolvedFile.path]
  cases f.reference <;> rfl

theorem fileBlock_pyNamedList (files : List ResolvedFile) :
    FileBlock files (pyNamedList (fileItems files)) := by
  constructor
  · have hpaths : (files.filterMap fun f => f.path.map fun path => (f.name, path)).map Prod.snd =
        files.filterMap ResolvedFile.path := by
      rw [map_filterMap]
      apply filterMap_congr
      intro f _
      cases f.path <;> rfl
    rw [values_pyNamedList, fileItems_eq, hpaths]
    congr 1
    clear hpaths
    induction files with
    | nil => rfl
    | cons f files ih =>
      rw [flatMap_cons, ← ih, filterMap_cons]
      cases f.path <;> cases f.name <;> rfl
  · intro f hf name path hname hpath
    have hmem : (some name, path) ∈ fileItems files := by
      rw [fileItems_eq, mem_filterMap]
      refine ⟨f, hf, ?_⟩
      rw [hname, hpath, Option.map_some]
    have hitem := infix_joined ", " (mem_filterMap.mpr ⟨_, hmem, rfl⟩ :
      [Part.str name, code ": ", Part.str path] ∈ (fileItems files).filterMap fun e =>
        e.1.map fun name => [Part.str name, code ": ", Part.str e.2])
    rw [pyNamedList_eq]
    exact infix_cons ((hitem.trans infix_append_left).trans infix_append_right)

theorem bound_pyNamedMap {α : Type} (f : α → Text × Part) {entries : List α} {e : α}
    (h : e ∈ entries) : [.str (f e).1, code ": ", (f e).2] <:+: pyNamedMap (entries.map f) := by
  have hitem := infix_joined ", " (mem_map_of_mem (mem_map_of_mem h) :
    [Part.str (f e).1, code ": ", (f e).2] ∈
      (entries.map f).map fun e => [Part.str e.1, code ": ", e.2])
  exact infix_cons (hitem.trans infix_append_left)

theorem textBlock_pyNamedMap (entries : List (Text × Text)) :
    TextBlock entries (pyNamedMap (entries.map fun e => (e.1, .str e.2))) := by
  constructor
  · rw [values_pyNamedMap, flatMap_map]
    rfl
  · intro e he
    exact bound_pyNamedMap (fun e => (e.1, .str e.2)) he

theorem resourceBlock_pyNamedMap (resources : List (String × ResourceValue)) :
    ResourceBlock resources
      (pyNamedMap (resources.map fun e => (e.1.toList, pyResource e.2))) := by
  constructor
  · rw [values_pyNamedMap, flatMap_map]
    apply flatMap_congr
    intro e _
    cases e.2 <;> rfl
  · intro key s h
    exact bound_pyNamedMap (fun e => (e.1.toList, pyResource e.2)) h
  · intro key n h
    exact bound_pyNamedMap (fun e => (e.1.toList, pyResource e.2)) h
  · intro key f h
    exact bound_pyNamedMap (fun e => (e.1.toList, pyResource e.2)) h

theorem values_logs (paths : List Text) :
    values (pyNamedList (paths.map fun p => (none, p))) = paths := by
  rw [values_pyNamedList, map_map, flatMap_map]
  have hnone : (paths.flatMap fun _ => ([] : List Text)) = [] := by
    rw [flatMap_eq_nil_iff]
    exact fun _ _ => rfl
  exact (congrArg (_ ++ ·) hnone).trans ((append_nil _).trans (map_id _))

theorem preamble_pythonPreamble (ceil : FloatValue → ℕ) (job : PythonJob) :
    Preamble job (pythonPreamble ceil job) :=
  ⟨_, _, _, _, _, _, _, rfl, fileBlock_pyNamedList _, fileBlock_pyNamedList _, values_logs _,
    textBlock_pyNamedMap _, textBlock_pyNamedMap _, resourceBlock_pyNamedMap _⟩

/-! ### What the script carries -/

/-- Number of the holes of a template. -/
def holes (template : Text) : ℕ := template.tails.countP fun t => pathHole <+: t

/-- The template has the literal of a path in each of its holes. -/
structure Fills (path template : Text) (parts : List Part) : Prop where
  source : ∀ plain, source plain parts = replaceAll pathHole (debugStr plain true path) template
  values : values parts = replicate (holes template) path

/-- Name of a file of a job, or its number. -/
def nameOf (e : ResolvedFile × ℕ) : Text := e.1.name.getD (toString e.2).toList

/-- The variable that an input is read into. -/
def variableOf (e : ResolvedFile × ℕ) : Text := "_inp_".toList ++ nameOf e

/-- The object that an output is written from, the result itself if there is no other output. -/
def objectOf (job : PythonJob) (i : ℕ) : Text :=
  if job.outputs.length = 1 then "_result".toList else outVar i

section Script

variable (lookup : Text → Option Text → Except Text FormatCodec) (parsesF64 : Text → Bool)
  (job : PythonJob)

/-- A line reads an input into its variable. -/
def Reads (e : ResolvedFile × ℕ) (line : List Part) : Prop :=
  ∃ path codec expr, e.1.path = some path ∧ lookup path e.1.format = .ok codec ∧
    line = .code ("    ".toList ++ variableOf e ++ " = ".toList) :: expr ++ [code "\n"] ∧
    Fills path codec.pythonRead expr

/-- A line writes an output. -/
def Writes (e : ResolvedFile × ℕ) (line : List Part) : Prop :=
  ∃ path codec expr, e.1.path = some path ∧ lookup path e.1.format = .ok codec ∧
    line = code "    " :: expr ++ [code "\n"] ∧
    Fills path (replaceAll "\x7bobj\x7d".toList (objectOf job e.2) codec.pythonWrite) expr

def Numeric (value : Text) : Prop := (parseI64 value).isSome ∨ parsesF64 value

/-- A parameter is passed under its key: a number as its text, true and false as the booleans,
another value as a literal. -/
inductive Passes (key value : Text) : List Part → Prop
  | number : Numeric parsesF64 value → Passes key value [.code (key ++ '=' :: value)]
  | yes : ¬ Numeric parsesF64 value → value = "true".toList →
      Passes key value [.code (key ++ "=True".toList)]
  | no : ¬ Numeric parsesF64 value → value = "false".toList →
      Passes key value [.code (key ++ "=False".toList)]
  | text : ¬ Numeric parsesF64 value → value ≠ "true".toList → value ≠ "false".toList →
      Passes key value [.code (key ++ ['=']), .debug value]

/-- The arguments are the unnamed inputs, the named ones and the parameters. -/
def Arguments (args : List Part) : Prop :=
  ∃ params, args = [code ", "].intercalate
      (((job.inputs.zipIdx.filter fun e => e.1.name.isNone).map fun e =>
          [.code (variableOf e)]) ++
        (job.inputs.zipIdx.filterMap fun e => e.1.name.map fun name =>
          [.code (name ++ '=' :: variableOf e)]) ++ params) ∧
    List.Forall₂ (fun e => Passes parsesF64 e.1 e.2) job.params params

/-- Of several results each is taken out under the name of its output where some output has a
name; else no literal is used. -/
structure Unpacks (parts : List Part) : Prop where
  named : 2 ≤ job.outputs.length → (∃ f ∈ job.outputs, f.name.isSome) →
    parts = code "\n    # Unpack multiple return values\n" :: job.outputs.zipIdx.flatMap fun e =>
      [.code ("    ".toList ++ outVar e.2 ++ " = _result[".toList), .debug (nameOf e), code "]\n"]
  unnamed : (job.outputs.length < 2 ∨ ∀ f ∈ job.outputs, f.name = none) → values parts = []

/-- The script reads the inputs, calls the function, takes the results apart and writes them. -/
def Script (parts : List Part) : Prop :=
  ∃ front reads call args results writes, parts = front ++ reads.flatten ++ call ++
      (args ++ [code ")\n"]) ++ results ++ [code "\n    # Serialize outputs\n"] ++
      writes.flatten ++ [code wrapperFooter] ∧
    values front = [] ∧ List.Forall₂ (Reads lookup) job.inputs.zipIdx reads ∧
    values call = [] ∧ Arguments parsesF64 job args ∧ Unpacks job results ∧
    List.Forall₂ (Writes lookup job) job.outputs.zipIdx writes

theorem holes_cons {c : Char} {rest : Text} (h : ¬ pathHole <+: c :: rest) :
    holes (c :: rest) = holes rest := by
  rw [holes, tails_cons, countP_cons_of_neg]
  · rfl
  · rw [decide_eq_true_eq]
    exact h

theorem holes_hole (rest : Text) : holes (pathHole ++ rest) = holes rest + 1 := by
  have hhole : pathHole = ['\x7b', 'p', 'a', 't', 'h', '\x7d'] := by decide
  have hnot : ∀ {c : Char} {text : Text}, c ≠ '\x7b' → ¬ pathHole <+: c :: text := by
    intro c text hc h
    rw [hhole] at h
    exact hc (cons_prefix_cons.mp h).1.symm
  have hfirst : holes (pathHole ++ rest) = holes ((pathHole ++ rest).tail) + 1 := by
    rw [hhole, holes, cons_append, tails_cons, countP_cons_of_pos]
    · rfl
    · rw [decide_eq_true_eq, hhole]
      exact prefix_append _ rest
  rw [hfirst, hhole]
  dsimp only [cons_append, nil_append, tail_cons]
  rw [holes_cons (hnot (by decide)), holes_cons (hnot (by decide)), holes_cons (hnot (by decide)),
    holes_cons (hnot (by decide)), holes_cons (hnot (by decide))]

theorem values_withPath (path template : Text) :
    values (withPath path template) = replicate (holes template) path := by
  fun_induction withPath path template with
  | case1 => rfl
  | case2 c rest hstart ih =>
    obtain ⟨text, htext⟩ := hstart
    have hdrop : rest.drop (pathHole.length - 1) = text := by
      have hall : (c :: rest).drop pathHole.length = text := by
        rw [← htext, drop_left]
      exact hall
    rw [hdrop] at ih ⊢
    rw [← htext, holes_hole, replicate_succ, ← ih]
    rfl
  | case3 c rest hstart ih =>
    rw [holes_cons hstart, ← ih]
    rfl

theorem source_withPath (plain : Char → Bool) (path template : Text) :
    source plain (withPath path template) =
      replaceAll pathHole (debugStr plain true path) template := by
  fun_induction withPath path template with
  | case1 => rw [replaceAll]; rfl
  | case2 c rest hstart ih =>
    rw [replaceAll, if_pos hstart, ← ih]
    rfl
  | case3 c rest hstart ih =>
    rw [replaceAll, if_neg hstart, ← ih]
    rfl

theorem fills_withPath (path template : Text) : Fills path template (withPath path template) :=
  ⟨fun plain => source_withPath plain path template, values_withPath path template⟩

variable {lookup parsesF64 job}

theorem resolveInput_spec {e : ResolvedFile × ℕ} {i : InputArg}
    (h : resolveInput lookup e = .ok i) :
    e.1.path = some i.filePath ∧ lookup i.filePath e.1.format = .ok i.codec ∧
      i.varName = variableOf e ∧ i.paramName = e.1.name := by
  rw [resolveInput] at h
  rw [ResolvedFile.path]
  cases hreference : e.1.reference with
  | file path =>
    rw [hreference] at h
    dsimp only at h
    cases hcodec : lookup path.toList e.1.format with
    | error =>
      rw [hcodec] at h
      cases h
    | ok =>
      rw [hcodec] at h
      cases h
      exact ⟨rfl, hcodec, rfl, rfl⟩
  | virtual | inMemory =>
    rw [hreference] at h
    cases h

theorem resolveOutput_spec {f : ResolvedFile} {o : OutputArg} (h : resolveOutput lookup f = .ok o) :
    f.path = some o.filePath ∧ lookup o.filePath f.format = .ok o.codec ∧
      o.returnName = f.name := by
  rw [resolveOutput] at h
  rw [ResolvedFile.path]
  cases hreference : f.reference with
  | file path =>
    rw [hreference] at h
    dsimp only at h
    cases hcodec : lookup path.toList f.format with
    | error =>
      rw [hcodec] at h
      cases h
    | ok =>
      rw [hcodec] at h
      cases h
      exact ⟨rfl, hcodec, rfl⟩
  | virtual | inMemory =>
    rw [hreference] at h
    cases h

theorem passes_callParam (e : Text × Text) :
    Passes parsesF64 e.1 e.2 (callParam parsesF64 e) := by
  rw [callParam]
  by_cases hnumber : (parseI64 e.2).isSome ∨ parsesF64 e.2
  · rw [if_pos hnumber]
    exact .number hnumber
  · rw [if_neg hnumber]
    by_cases hyes : e.2 = "true".toList
    · rw [if_pos hyes]
      exact .yes hnumber hyes
    · rw [if_neg hyes]
      by_cases hno : e.2 = "false".toList
      · rw [if_pos hno]
        exact .no hnumber hno
      · rw [if_neg hno]
        exact .text hnumber hyes hno

theorem inputs_eq {files : List (ResolvedFile × ℕ)} {inputs : List InputArg}
    (h : List.Forall₂ (fun e i => resolveInput lookup e = .ok i) files inputs) :
    (inputs.filter fun i => i.paramName.isNone).map (fun i => [Part.code i.varName]) =
        (files.filter fun e => e.1.name.isNone).map (fun e => [.code (variableOf e)]) ∧
      inputs.filterMap (fun i => i.paramName.map fun name => [Part.code (name ++ '=' :: i.varName)]) =
        files.filterMap fun e => e.1.name.map fun name => [.code (name ++ '=' :: variableOf e)] := by
  induction h with
  | nil => exact ⟨rfl, rfl⟩
  | @cons e i files inputs hfirst _ ih =>
    obtain ⟨-, -, hvariable, hname⟩ := resolveInput_spec hfirst
    rw [filter_cons, filter_cons, filterMap_cons, filterMap_cons, hname, hvariable, ih.2]
    cases e.1.name with
    | none =>
      refine ⟨?_, rfl⟩
      rw [if_pos Option.isNone_none, if_pos Option.isNone_none, map_cons, map_cons, ih.1,
        hvariable]
    | some => exact ⟨ih.1, rfl⟩

theorem arguments_buildCallArgs {inputs : List InputArg}
    (h : List.Forall₂ (fun e i => resolveInput lookup e = .ok i) job.inputs.zipIdx inputs) :
    Arguments parsesF64 job (buildCallArgs parsesF64 inputs job.params) := by
  obtain ⟨hunnamed, hnamed⟩ := inputs_eq h
  refine ⟨job.params.map (callParam parsesF64), ?_, ?_⟩
  · rw [buildCallArgs, hunnamed, hnamed]
    rfl
  · rw [forall₂_map_right_iff, forall₂_same]
    exact fun e _ => passes_callParam e

theorem forall₂_zipIdx {α β : Type} {R : α → β → Prop} {l : List α} {u : List β}
    (h : List.Forall₂ R l u) (n : ℕ) :
    List.Forall₂ (fun a b => R a.1 b.1 ∧ a.2 = b.2) (l.zipIdx n) (u.zipIdx n) := by
  induction h generalizing n with
  | nil => exact .nil
  | cons hfirst _ ih => exact .cons ⟨hfirst, rfl⟩ (ih (n + 1))

theorem zipIdx_names {files : List ResolvedFile} {outputs : List OutputArg}
    (h : List.Forall₂ (fun f o => resolveOutput lookup f = .ok o) files outputs) (n : ℕ) :
    ((outputs.zipIdx n).map fun e => e.1.returnName.getD (toString e.2).toList).zipIdx n =
      (files.zipIdx n).map fun e => (nameOf e, e.2) := by
  induction h generalizing n with
  | nil => rfl
  | cons hfirst _ ih =>
    rw [zipIdx_cons, zipIdx_cons, map_cons, map_cons, zipIdx_cons, ih, nameOf,
      (resolveOutput_spec hfirst).2.2]

theorem any_named {files : List ResolvedFile} {outputs : List OutputArg}
    (h : List.Forall₂ (fun f o => resolveOutput lookup f = .ok o) files outputs) :
    (outputs.any fun o => o.returnName.isSome) = files.any fun f => f.name.isSome := by
  induction h with
  | nil => rfl
  | cons hfirst _ ih => rw [any_cons, any_cons, ih, (resolveOutput_spec hfirst).2.2]

theorem unpacks_unpack {outputs : List OutputArg}
    (h : List.Forall₂ (fun f o => resolveOutput lookup f = .ok o) job.outputs outputs) :
    Unpacks job (if outputs.length ≤ 1 then [] else unpack outputs) := by
  have hlength := h.length_eq
  have hany := any_named h
  constructor
  · rintro htwo ⟨f, hf, hname⟩
    have hsome : (job.outputs.any fun f => f.name.isSome) = true :=
      any_eq_true.mpr ⟨f, hf, hname⟩
    rw [if_neg (by omega), unpack, if_pos (hany.trans hsome), buildReturnNames, zipIdx_names h 0,
      flatMap_map]
  · intro hfew
    by_cases hone : outputs.length ≤ 1
    · rw [if_pos hone]
      rfl
    · have hnone : ¬ (outputs.any fun o => o.returnName.isSome) = true := by
        rw [hany, any_eq_true]
        rintro ⟨f, hf, hname⟩
        rw [hfew.resolve_left (by omega) f hf] at hname
        cases hname
      rw [if_neg hone, unpack, if_neg hnone, values_code, values_append, values_code,
        values_joined, flatMap_map]
      have hvars : (List.range outputs.length).flatMap (fun i => values [.code (outVar i)]) = [] :=
        flatMap_eq_nil_iff.mpr fun _ _ => rfl
      rw [hvars]
      rfl

theorem writeAll_eq {outputs : List OutputArg} (h : job.outputs.length = outputs.length) :
    writeAll outputs =
      (outputs.zipIdx.map fun e => writeStatement (objectOf job e.2) e.1).flatten := by
  simp only [objectOf, h]
  cases outputs with
  | nil => rfl
  | cons first rest =>
    cases rest with
    | nil => exact (append_nil _).symm
    | cons second rest =>
      have hlength : (first :: second :: rest).length ≠ 1 := by
        rw [length_cons, length_cons]
        omega
      simp only [if_neg hlength]
      rfl

theorem script_generateWrapper {function : Text} {parts : List Part}
    (h : generateWrapper lookup parsesF64 function job = .ok parts) :
    Script lookup parsesF64 job parts := by
  obtain ⟨reference, -, h⟩ := bind_eq_ok h
  obtain ⟨inputs, hinputs, h⟩ := bind_eq_ok h
  obtain ⟨outputs, houtputs, h⟩ := bind_eq_ok h
  cases h
  have hreads := forall₂_of_mapM hinputs
  have hwrites := forall₂_of_mapM houtputs
  have hfront : values (([code wrapperHeader] ++
      ((collectImports (inputs.map InputArg.codec ++ outputs.map OutputArg.codec)).map fun i =>
        Part.code (i ++ ['\n']))) ++
      [code "\n# Import the target function\nfrom ", .code reference.1, code " import ",
        .code reference.2, code "\n\ntry:\n    # Deserialize inputs\n"]) = [] := by
    have himports : ∀ imports : List Text,
        values (imports.map fun i => Part.code (i ++ ['\n'])) = [] := by
      intro imports
      rw [values, filterMap_map, filterMap_eq_nil_iff]
      exact fun _ _ => rfl
    rw [values_append, values_append, himports]
    rfl
  refine ⟨_, inputs.map fun i => .code ("    ".toList ++ i.varName ++ " = ".toList) ::
      withPath i.filePath i.codec.pythonRead ++ [code "\n"],
    [code "\n    # Call the function\n    _result = ", .code reference.2, code "("], _, _,
    outputs.zipIdx.map fun e => writeStatement (objectOf job e.2) e.1, ?_, hfront, ?_, rfl,
    arguments_buildCallArgs hreads, unpacks_unpack hwrites, ?_⟩
  · rw [wrapperScript, writeAll_eq hwrites.length_eq]
    rfl
  · rw [forall₂_map_right_iff]
    refine hreads.imp fun e i hread => ?_
    obtain ⟨hpath, hcodec, hvariable, -⟩ := resolveInput_spec hread
    rw [hvariable]
    exact ⟨_, _, _, hpath, hcodec, rfl, fills_withPath _ _⟩
  · rw [forall₂_map_right_iff]
    refine (forall₂_zipIdx hwrites 0).imp fun e o hwrite => ?_
    obtain ⟨hpath, hcodec, -⟩ := resolveOutput_spec hwrite.1
    rw [← hwrite.2]
    exact ⟨_, _, _, hpath, hcodec, rfl, fills_withPath _ _⟩

end Script

/-! ### Threads -/

theorem threads_agree (ceil : FloatValue → ℕ) {resources : List (String × ResourceValue)} {n : ℤ}
    (hn : 0 ≤ n) (hmem : ("cpu", ResourceValue.int n) ∈ resources)
    (hcpu : ∀ e ∈ resources, canonicalizeResourceKey e.1 = .ok .cpu → e = ("cpu", .int n)) :
    ∃ value, threadsValue resources = some value ∧
      value.display = toString (preambleThreads ceil resources) := by
  have hkey : canonicalizeResourceKey "cpu" = .ok .cpu := by decide
  have hlookup : resources.lookup "cpu" = some (.int n) := by
    have hsome : (resources.lookup "cpu").isSome = true := by
      rw [lookup_isSome_iff]
      exact ⟨_, hmem, beq_self_eq_true _⟩
    obtain ⟨value, hvalue⟩ := Option.isSome_iff_exists.mp hsome
    obtain ⟨_, _, hsplit, -⟩ := lookup_eq_some_iff.mp hvalue
    have hin : ("cpu", value) ∈ resources := by
      rw [hsplit]
      exact mem_append_right _ mem_cons_self
    have heq := hcpu _ hin hkey
    rw [hvalue, (Prod.mk.inj heq).2]
  have hthreads : preambleThreads ceil resources = n.toNat := by
    rw [preambleThreads, hlookup]
    rfl
  refine ⟨.int n, ?_, ?_⟩
  · cases hfound : threadsValue resources with
    | none =>
      have hnone := findSome?_eq_none_iff.mp hfound _ hmem
      dsimp only at hnone
      rw [hkey] at hnone
      cases hnone
    | some value =>
      obtain ⟨e, he, hvalue⟩ := exists_of_findSome?_eq_some hfound
      split at hvalue
      · rename_i hcanonical
        have heq := hcpu e he hcanonical
        rw [heq] at hvalue
        exact hvalue.symm
      · cases hvalue
  · obtain ⟨k, rfl⟩ := Int.eq_ofNat_of_zero_le hn
    rw [hthreads]
    rfl

/-- Each readable literal that the generators write is read by Python as the text that it stands
for. The preamble binds its names to the values of the job, and the script around a call reads,
passes, takes apart and writes those of the job. The threads are those of a command. -/
theorem generated_denotes (names : Text → Option Char) (plain : Char → Bool)
    (ceil : FloatValue → ℕ) (lookup : Text → Option Text → Except Text FormatCodec)
    (parsesF64 : Text → Bool) :
    (∀ job, Denotes names plain (pythonPreamble ceil job) ∧
      Preamble job (pythonPreamble ceil job)) ∧
      (∀ function job parts, generateWrapper lookup parsesF64 function job = .ok parts →
        Denotes names plain parts ∧ Script lookup parsesF64 job parts) ∧
      ∀ (job : PythonJob) (n : ℤ), 0 ≤ n → ("cpu", ResourceValue.int n) ∈ job.resources →
        (∀ e ∈ job.resources, canonicalizeResourceKey e.1 = .ok .cpu → e = ("cpu", .int n)) →
        ∃ value, threadsValue job.resources = some value ∧
          [code "\nthreads = ", .code value.display.toList, code "\n"] <:+
            pythonPreamble ceil job := by
  refine ⟨?_, ?_, ?_⟩
  · intro job
    exact ⟨denotes_of_guarded names plain (guarded_pythonPreamble ceil job),
      preamble_pythonPreamble ceil job⟩
  · intro function job parts h
    exact ⟨denotes_of_guarded names plain (guarded_generateWrapper h), script_generateWrapper h⟩
  · intro job n hn hmem hcpu
    obtain ⟨value, hvalue, hthreads⟩ := threads_agree ceil hn hmem hcpu
    refine ⟨value, hvalue, ?_⟩
    rw [hthreads]
    exact suffix_append _ _

/-- A parameter that is a number is no literal of its text. -/
theorem not_generated_denotes :
    ¬ ∀ (parsesF64 : Text → Bool) (plain : Char → Bool) (e : Text × Text),
      ∃ quote literal, source plain (callParam parsesF64 e) = e.1 ++ '=' :: literal ∧
        readLiteral (fun _ => none) quote literal = some (e.2, []) := by
  intro h
  obtain ⟨quote, literal, hsource, hread⟩ := h (fun text => text = "5".toList) (fun _ => true)
    ("n".toList, "5".toList)
  have hnumber : callParam (fun text => text = "5".toList) ("n".toList, "5".toList) =
      [.code "n=5".toList] := if_pos (Or.inr rfl)
  rw [hnumber] at hsource
  have hfive : ['5'] = literal := (List.cons.inj (List.cons.inj hsource).2).2
  rw [← hfive, readLiteral] at hread
  split_ifs at hread
  rw [bodyOf] at hread
  cases hread

end OxyMake.GeneratedPython

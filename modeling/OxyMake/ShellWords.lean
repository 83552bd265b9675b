import Mathlib.Data.List.Basic

/-!
# Words of a shell command

A reader of command lines goes from character to character: blanks separate words, single
quotes keep everything but themselves, a backslash keeps one character, and operators end
a word. Whatever a shell expands or substitutes is not read at all. A text in single
quotes, with its own quotes written outside of them, is read as one word that is the text.
-/

namespace OxyMake.ShellWords

/-- A token of a command line. -/
inductive Token
  | word (text : List Char)
  | number (text : List Char)
  | operator (text : List Char)
  deriving DecidableEq, Repr

inductive Mode
  | between
  /-- In a word; it is bare as long as nothing of it was quoted. -/
  | word (text : List Char) (bare : Bool)
  | quoted (text : List Char)
  | escaped (text : List Char)
  | operator (text : List Char)
  deriving DecidableEq, Repr

def operators : List (List Char) :=
  [[';'], [';', ';'], ['|'], ['|', '|'], ['&'], ['&', '&'], ['<'], ['<', '<'], ['>'],
    ['>', '>'], ['('], [')']]

/-- Characters that stand for themselves wherever they are in a word. -/
def isPlain (c : Char) : Bool :=
  c.isAlphanum || ['-', '_', '.', '/', ':', ',', '@', '%', '+'].contains c

/-- The first character of a token, or a blank. -/
def start (c : Char) : Option Mode :=
  if c = ' ' then some .between
  else if c = '\'' then some (.quoted [])
  else if c = '\\' then some (.escaped [])
  else if [c] ∈ operators then some (.operator [c])
  else if isPlain c then some (.word [c] true)
  else none

/-- Read one character; nothing for what a shell would expand. -/
def step : Mode → Char → Option (List Token × Mode)
  | .between, c => (start c).map fun mode => ([], mode)
  | .word text bare, c =>
    if c = '\'' then some ([], .quoted text)
    else if c = '\\' then some ([], .escaped text)
    else if isPlain c then some ([], .word (text ++ [c]) bare)
    else
      let token := if bare && text.all Char.isDigit && (c = '<' || c = '>') then .number text
        else .word text
      (start c).map fun mode => ([token], mode)
  | .quoted text, c =>
    if c = '\'' then some ([], .word text false) else some ([], .quoted (text ++ [c]))
  | .escaped text, c => if c = '\n' then none else some ([], .word (text ++ [c]) false)
  | .operator text, c =>
    if text ++ [c] ∈ operators then some ([], .operator (text ++ [c]))
    else (start c).map fun mode => ([.operator text], mode)

def run : Mode → List Char → Option (List Token × Mode)
  | mode, [] => some ([], mode)
  | mode, c :: text => do
    let (tokens, next) ← step mode c
    let (others, last) ← run next text
    some (tokens ++ others, last)

def Mode.last : Mode → Option (List Token)
  | .between => some []
  | .word text _ => some [.word text]
  | .operator text => some [.operator text]
  | .quoted _ | .escaped _ => none

def tokenize (line : List Char) : Option (List Token) := do
  let (tokens, mode) ← run .between line
  let last ← mode.last
  some (tokens ++ last)

/-- The text is read from one mode to another. -/
def Reads (mode : Mode) (text : List Char) (tokens : List Token) (next : Mode) : Prop :=
  run mode text = some (tokens, next)

variable {mode next last : Mode} {text text' : List Char} {tokens tokens' : List Token}

/-- Texts one after the other are read one after the other. -/
theorem Reads.append (h : Reads mode text tokens next) (h' : Reads next text' tokens' last) :
    Reads mode (text ++ text') (tokens ++ tokens') last := by
  induction text generalizing mode tokens with
  | nil =>
    cases h
    exact h'
  | cons c text ih =>
    rw [Reads, run] at h
    obtain ⟨⟨_, _⟩, hstep, h⟩ := Option.bind_eq_some_iff.mp h
    obtain ⟨⟨after, _⟩, hrun, h⟩ := Option.bind_eq_some_iff.mp h
    cases h
    have hrest := ih hrun
    rw [Reads] at hrest
    rw [Reads, List.cons_append, run, hstep, List.append_assoc]
    dsimp only [bind, Option.bind]
    rw [hrest]

/-! ### Single quotes -/

def singleQuote (text : List Char) : List Char :=
  '\'' :: text.flatMap (fun c => if c = '\'' then ['\'', '\\', '\'', '\''] else [c]) ++ ['\'']

theorem reads_quoted (text before : List Char) :
    Reads (.quoted before)
      (text.flatMap (fun c => if c = '\'' then ['\'', '\\', '\'', '\''] else [c]) ++ ['\'']) []
      (.word (before ++ text) false) := by
  induction text generalizing before with
  | nil =>
    rw [List.append_nil]
    rfl
  | cons c text ih =>
    rw [List.flatMap_cons, List.append_assoc]
    have hrest := ih (before ++ [c])
    rw [List.append_assoc, List.singleton_append] at hrest
    by_cases hc : c = '\''
    · rw [if_pos hc]
      subst hc
      have hquote : Reads (.quoted before) ['\'', '\\', '\'', '\''] []
          (.quoted (before ++ ['\''])) := rfl
      exact hquote.append hrest
    · rw [if_neg hc]
      have hkept : Reads (.quoted before) [c] [] (.quoted (before ++ [c])) := by
        rw [Reads, run, step, if_neg hc]
        rfl
      exact hkept.append hrest

/-- A quoted text is read as one word. -/
theorem reads_singleQuote (text : List Char) :
    Reads .between (singleQuote text) [] (.word text false) := by
  have hopen : Reads .between ['\''] [] (.quoted []) := rfl
  exact hopen.append (reads_quoted text [])

/-! ### Lines with quoted texts -/

/-- A part of a line. -/
inductive Piece
  | plain (text : List Char)
  | single (text : List Char)

/-- A line of plain texts and texts in single quotes. -/
def line (pieces : List Piece) : List Char :=
  pieces.flatMap fun
    | .plain text => text
    | .single text => singleQuote text

/-- Read a line without looking into the texts in quotes. -/
def readPieces : Mode → List Piece → Option (List Token × Mode)
  | mode, [] => some ([], mode)
  | .between, .single text :: pieces => readPieces (.word text false) pieces
  | _, .single _ :: _ => none
  | mode, .plain text :: pieces => do
    let (tokens, next) ← run mode text
    let (others, last) ← readPieces next pieces
    some (tokens ++ others, last)

theorem reads_line {pieces : List Piece} (h : readPieces mode pieces = some (tokens, next)) :
    Reads mode (line pieces) tokens next := by
  induction pieces generalizing mode tokens with
  | nil => exact h
  | cons piece pieces ih =>
    cases piece with
    | single text =>
      cases mode with
      | between => exact (reads_singleQuote text).append (ih h)
      | word | quoted | escaped | operator => cases h
    | plain =>
      rw [readPieces] at h
      obtain ⟨⟨_, _⟩, hrun, h⟩ := Option.bind_eq_some_iff.mp h
      obtain ⟨⟨_, _⟩, hpieces, h⟩ := Option.bind_eq_some_iff.mp h
      cases h
      exact Reads.append hrun (ih hpieces)

/-- A line is read as its plain texts are, with each text in quotes as a word. -/
theorem tokenize_line {pieces : List Piece} (h : readPieces .between pieces = some (tokens, mode))
    (hlast : mode.last = some tokens') : tokenize (line pieces) = some (tokens ++ tokens') := by
  rw [tokenize, show run .between (line pieces) = _ from reads_line h]
  dsimp only [bind, Option.bind]
  rw [hlast]

end OxyMake.ShellWords

import OxyMake.SortedMap

/-!
# Wildcard patterns

A pattern is a list of literal and wildcard segments read from text with brace
escapes. Matching a path compiles the segments to an anchored regular
expression with one group for each wildcard occurrence, takes the leftmost
first match and reads the wildcard values off the groups; interpolation
writes values into the segments. Text is a list of characters.
-/

namespace OxyMake.Wildcard

open OxyMake

abbrev Text := List Char

/-- A parsed segment of a pattern. -/
inductive Segment
  | literal (text : Text)
  | wildcard (name : Text)
  deriving DecidableEq, Repr

structure Pattern where
  raw : Text
  segments : List Segment
  deriving DecidableEq, Repr

/-- Errors of patterns and of the search for producers. -/
inductive WildcardError
  | invalidPattern (pattern : Text) (reason : String)
  | unresolvableWildcard (name : Text)
  | noProducer (path : Text)
  | missingSource (path : Text)
  | ambiguousProducer (path : Text) (rules : List Text)
  | constraintViolation (name value pattern constraint : Text)
  | unknownConfigKey (key pattern : Text)
  deriving DecidableEq, Repr

abbrev Wildcards := List (Text × Text)

/-! ### Parsing -/

/-- The text up to a closing double brace and what follows it. -/
def scanEscaped : Text → Option (Text × Text)
  | [] => none
  | '}' :: '}' :: rest => some ([], rest)
  | c :: rest => (scanEscaped rest).map fun (inner, rest) => (c :: inner, rest)

/-- The text up to a closing brace and what follows it. -/
def scanName : Text → Option (Text × Text)
  | [] => none
  | '}' :: rest => some ([], rest)
  | c :: rest => (scanName rest).map fun (name, rest) => (c :: name, rest)

theorem scanEscaped_length {s inner rest : Text} (h : scanEscaped s = some (inner, rest)) :
    rest.length < s.length := by
  fun_induction scanEscaped s generalizing inner rest with
  | case1 => cases h
  | case2 =>
    cases h
    simp only [List.length_cons]
    omega
  | case3 c r _ ih =>
    obtain ⟨⟨_, _⟩, hrest, heq⟩ := Option.map_eq_some_iff.mp h
    cases heq
    have hlt := ih hrest
    simp only [List.length_cons]
    omega

theorem scanName_length {s name rest : Text} (h : scanName s = some (name, rest)) :
    rest.length < s.length := by
  fun_induction scanName s generalizing name rest with
  | case1 => cases h
  | case2 =>
    cases h
    simp only [List.length_cons]
    omega
  | case3 c r _ ih =>
    obtain ⟨⟨_, _⟩, hrest, heq⟩ := Option.map_eq_some_iff.mp h
    cases heq
    have hlt := ih hrest
    simp only [List.length_cons]
    omega

def flush (buf : Text) (segments : List Segment) : List Segment :=
  if buf = [] then segments else segments ++ [.literal buf]

def endsInWildcard (segments : List Segment) : Bool :=
  match segments.getLast? with
  | some (.wildcard _) => true
  | _ => false

/-- Read the rest of a pattern, with the current literal and the segments read so far. -/
def parseLoop (alphanumeric : Char → Bool) (raw : Text) :
    Text → Text → List Segment → Except WildcardError (List Segment)
  | [], buf, segments => .ok (flush buf segments)
  | '{' :: '{' :: rest, buf, segments =>
    match _h : scanEscaped rest with
    | none => .error (.invalidPattern raw "unmatched `\x7b\x7b` — expected `\x7d\x7d`")
    | some (inner, rest') =>
      parseLoop alphanumeric raw rest' (buf ++ '{' :: inner ++ ['}']) segments
  | '{' :: rest, buf, segments =>
    match _h : scanName rest with
    | none => .error (.invalidPattern raw "unmatched `\x7b` — expected `\x7d`")
    | some (name, rest') =>
      if name = [] then .error (.invalidPattern raw "empty wildcard name `\x7b\x7d`")
      else if ¬ name.all fun c => alphanumeric c || c = '_' then
        .error (.invalidPattern raw
          ("wildcard name `" ++ String.ofList name ++ "` contains invalid characters"))
      else if endsInWildcard (flush buf segments) then
        .error (.invalidPattern raw
          "adjacent wildcards are ambiguous — add a literal separator between them")
      else parseLoop alphanumeric raw rest' [] (flush buf segments ++ [.wildcard name])
  | '}' :: _, _, _ =>
    .error (.invalidPattern raw "unmatched `\x7d` without opening `\x7b`")
  | c :: rest, buf, segments => parseLoop alphanumeric raw rest (buf ++ [c]) segments
termination_by s => s.length
decreasing_by
  · have hlt := scanEscaped_length _h
    simp only [List.length_cons]
    omega
  · have hlt := scanName_length _h
    simp only [List.length_cons]
    omega
  · simp only [List.length_cons]
    omega

theorem parseLoop_wildcard {alphanumeric : Char → Bool} {raw buf name rest rest' : Text}
    {c : Char} {segments : List Segment} (hc : c ≠ '{') (h : scanName (c :: rest) = some (name, rest'))
    (hne : name ≠ []) (hvalid : (name.all fun c => alphanumeric c || c = '_') = true)
    (hadj : endsInWildcard (flush buf segments) = false) :
    parseLoop alphanumeric raw ('{' :: c :: rest) buf segments =
      parseLoop alphanumeric raw rest' [] (flush buf segments ++ [.wildcard name]) := by
  rw [parseLoop]
  · split
    · rename_i hnone
      rw [h] at hnone
      cases hnone
    · rename_i hsome
      rw [h] at hsome
      cases hsome
      rw [if_neg hne, if_neg (not_not.mpr hvalid), if_neg (by rw [hadj]; decide)]
  · intro r hr
    cases hr
    exact hc rfl

theorem parseLoop_literal {alphanumeric : Char → Bool} {raw buf rest : Text} {c : Char}
    {segments : List Segment} (hopen : c ≠ '{') (hclose : c ≠ '}') :
    parseLoop alphanumeric raw (c :: rest) buf segments =
      parseLoop alphanumeric raw rest (buf ++ [c]) segments := by
  rw [parseLoop]
  · exact fun r hr _ => hopen hr
  · exact fun hr => hopen hr
  · exact fun hr => hclose hr

/-- Parse a pattern; `alphanumeric` is the Unicode class of `char::is_alphanumeric`. -/
def parse (alphanumeric : Char → Bool) (raw : Text) : Except WildcardError Pattern :=
  (parseLoop alphanumeric raw raw [] []).map fun segments => ⟨raw, segments⟩

/-! ### Names and interpolation -/

/-- The wildcard names of segments, in order of appearance. -/
def segmentNames : List Segment → List Text
  | [] => []
  | .literal _ :: segments => segmentNames segments
  | .wildcard name :: segments => name :: segmentNames segments

/-- The wildcard names of a pattern, in order of appearance. -/
def Pattern.wildcardNames (p : Pattern) : List Text := segmentNames p.segments

def Pattern.hasWildcards (p : Pattern) : Bool :=
  p.segments.any fun | .wildcard _ => true | .literal _ => false

def interpolateSegments (wildcards : Wildcards) : List Segment → Except WildcardError Text
  | [] => .ok []
  | .literal text :: segments => do
    let rest ← interpolateSegments wildcards segments
    return text ++ rest
  | .wildcard name :: segments =>
    match wildcards.lookup name with
    | none => .error (.unresolvableWildcard name)
    | some value => do
      let rest ← interpolateSegments wildcards segments
      return value ++ rest

/-- Interpolate wildcard values into the pattern to produce a concrete path. -/
def Pattern.interpolate (p : Pattern) (wildcards : Wildcards) : Except WildcardError Text :=
  interpolateSegments wildcards p.segments

/-! ### Matching -/

def longestFirst {α : Type} (f : ℕ → Option α) : ℕ → Option α
  | 0 => none
  | n + 1 => (f (n + 1)).or (longestFirst f n)

/-- The leftmost-first match of `^ … $` where a literal stands for itself and a wildcard
occurrence for the greedy group `([^/]+)`, as the values of the groups. -/
def captures : List Segment → Text → Option (List Text)
  | [], path => if path = [] then some [] else none
  | .literal text :: segments, path =>
    if text <+: path then captures segments (path.drop text.length) else none
  | .wildcard _ :: segments, path =>
    longestFirst (fun n => (captures segments (path.drop n)).map (path.take n :: ·))
      (path.takeWhile (· ≠ '/')).length

/-- Read the wildcard values off the groups; occurrences of one name have to agree. -/
def extractWildcards : List Text → List Text → Wildcards → Option Wildcards
  | [], _, wildcards => some wildcards
  | name :: names, values, wildcards =>
    let value := values.headD []
    match wildcards.lookup name with
    | some previous =>
      if previous = value then
        extractWildcards names values.tail (SortedMap.insert name value wildcards)
      else none
    | none => extractWildcards names values.tail (SortedMap.insert name value wildcards)

/-- Match the pattern against a concrete path, extracting wildcard values. -/
def Pattern.resolve (p : Pattern) (path : Text) : Option Wildcards := do
  let caps ← captures p.segments path
  extractWildcards p.wildcardNames caps []

end OxyMake.Wildcard

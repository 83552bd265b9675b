import OxyMake.CommandInterpolation
import OxyMake.TemplateBraces

/-!
# Translated shell commands

A shell command of a Snakefile is a format string: doubled braces stand for braces,
and names in braces for values. The translation drops the namespace of wildcards and
undoubles the braces, whereupon the interpolation of commands can take braces that
were escaped for placeholders. The command keeps its meaning exactly when it does not.
-/

namespace OxyMake.SnakemakeCommands

open List
open Wildcard
open ConfigStages (replaceAll reference substituteRefs)
open ReferenceScanning
open RuleInstances (substituteConfigScalars)
open ConfigSubstitution (Plain substituteConfigScalars_closed)
open ResourceNormalization (ResourceValue)
open TemplatePieces TemplateBraces CommandInterpolation

/-- A match of `\{wildcards\.(\w+)\}` at the beginning: the name, and what follows. -/
def wildcardsReference (word : Char → Bool) (s : Text) : Option (Text × Text) :=
  let name := (s.drop 11).takeWhile word
  let after := (s.drop 11).dropWhile word
  if "\x7bwildcards.".toList <+: s ∧ name ≠ [] ∧ after.head? = some '\x7d' then
    some (name, after.tail)
  else none

theorem wildcardsReference_length {word : Char → Bool} {s name rest : Text}
    (h : wildcardsReference word s = some (name, rest)) : rest.length < s.length := by
  rw [wildcardsReference] at h
  split_ifs at h with hstart
  cases h
  have hle := hstart.1.length_le
  have hdrop := length_dropWhile_le word (s.drop 11)
  have heleven : "\x7bwildcards.".toList.length = 11 := rfl
  rw [length_drop] at hdrop
  rw [length_tail]
  omega

def replaceWildcards (word : Char → Bool) : Text → Text
  | [] => []
  | c :: rest =>
    match _h : wildcardsReference word (c :: rest) with
    | some (name, rest') => braced name ++ replaceWildcards word rest'
    | none => c :: replaceWildcards word rest
  termination_by s => s.length
  decreasing_by
    · exact wildcardsReference_length _h
    · exact Nat.lt_succ_self _

/-- Translate a shell command: drop the namespace of wildcards, and undouble the braces. -/
def translateShellCommand (word : Char → Bool) (cmd : Text) : Text :=
  replaceAll ['\x7d', '\x7d'] ['\x7d']
    (replaceAll ['\x7b', '\x7b'] ['\x7b'] (replaceWildcards word cmd))

/-! ### Format strings -/

def strFormat (value : Text → Option Text) : Text → Option Text
  | [] => some []
  | c :: rest =>
    if c = '\x7b' then
      if rest.head? = some '\x7b' then (strFormat value rest.tail).map ('\x7b' :: ·)
      else
        match _h : scanName rest with
        | none => none
        | some (name, rest') =>
          match value name, strFormat value rest' with
          | some text, some tail => some (text ++ tail)
          | _, _ => none
    else if c = '\x7d' then
      if rest.head? = some '\x7d' then (strFormat value rest.tail).map ('\x7d' :: ·) else none
    else (strFormat value rest).map (c :: ·)
  termination_by s => s.length
  decreasing_by
    · rw [length_tail, length_cons]
      omega
    · have := scanName_length _h
      rw [length_cons]
      omega
    · rw [length_tail, length_cons]
      omega
    · exact Nat.lt_succ_self _

/-- A token of a shell command. -/
inductive Token
  | char (c : Char)
  /-- The escape of an opening brace. -/
  | opening
  /-- The escape of a closing brace. -/
  | closing
  | field (name : Text)
  deriving DecidableEq, Repr

/-- Literal text has no braces, and no names of placeholders. -/
def Token.Proper : Token → Prop
  | .char c => c ≠ '\x7b' ∧ c ≠ '\x7d'
  | .field name => Plain name
  | _ => True

instance decidableProper : (token : Token) → Decidable token.Proper
  | .char c => inferInstanceAs (Decidable (c ≠ '\x7b' ∧ c ≠ '\x7d'))
  | .field name => inferInstanceAs (Decidable (Plain name))
  | .opening => inferInstanceAs (Decidable True)
  | .closing => inferInstanceAs (Decidable True)

def Token.text : Token → Text
  | .char c => [c]
  | .opening => ['\x7b', '\x7b']
  | .closing => ['\x7d', '\x7d']
  | .field name => braced name

def template (tokens : List Token) : Text := tokens.flatMap Token.text

/-- Values of the placeholders of a Snakefile, by name. -/
def snakemakeTable (ns : Namespaces) : List (Text × Text) :=
  [("input".toList, joinSpaces (ns.namedInputs.map Prod.fst)),
    ("output".toList, joinSpaces (ns.namedOutputs.map Prod.fst))] ++
  (groupByName ns.namedInputs).map (fun g => ("input.".toList ++ g.1, joinSpaces g.2)) ++
  (groupByName ns.namedOutputs).map (fun g => ("output.".toList ++ g.1, joinSpaces g.2)) ++
  ns.wildcards.map (fun e => ("wildcards.".toList ++ e.1, e.2)) ++
  ns.params.map (fun e => ("params.".toList ++ e.1, e.2)) ++
  ((threadsValue ns.resources).toList.map fun value =>
    ("threads".toList, value.display.toList)) ++
  ns.logStdout.toList.map fun path => ("log".toList, path)

def fieldValue (ns : Namespaces) (name : Text) : Option Text := (snakemakeTable ns).lookup name

/-- A translated command, interpolated, is the format string with the values of the job. -/
def Keeps (word : Char → Bool) (ns : Namespaces) (tokens : List Token) : Prop :=
  ∃ text, strFormat (fieldValue ns) (template tokens) = some text ∧
    interpolateFull (translateShellCommand word (template tokens)) ns = .ok text

/-! ### What the translation makes of the tokens -/

def bare (word : Char → Bool) (name : Text) : Text :=
  if "wildcards.".toList <+: name ∧ name.drop 10 ≠ [] ∧ (name.drop 10).all word then name.drop 10
  else name

def leading : List Token → Text × List Token
  | .char c :: rest => (c :: (leading rest).1, (leading rest).2)
  | tokens => ([], tokens)

/-- Escaped braces begin around a name in the namespace of wildcards. -/
def EscapedReference (word : Char → Bool) (rest : List Token) : Prop :=
  (leading rest).2.head? = some .closing ∧ bare word (leading rest).1 ≠ (leading rest).1

instance (word : Char → Bool) (rest : List Token) : Decidable (EscapedReference word rest) :=
  inferInstanceAs (Decidable (_ ∧ _))

/-- The tokens with the namespace of wildcards dropped; it is also dropped in escapes. -/
def dropNamespace (word : Char → Bool) : ℕ → List Token → List Token
  | _, [] => []
  | k + 1, _ :: rest => dropNamespace word k rest
  | 0, .opening :: rest =>
    .opening :: dropNamespace word (if EscapedReference word rest then 10 else 0) rest
  | 0, .field name :: rest => .field (bare word name) :: dropNamespace word 0 rest
  | 0, token :: rest => token :: dropNamespace word 0 rest

def Token.piece : Token → Piece
  | .char c => .kept [c]
  | .opening => .kept ['\x7b']
  | .closing => .kept ['\x7d']
  | .field name => .hole (braced name)

def translated (word : Char → Bool) (tokens : List Token) : List Piece :=
  (dropNamespace word 0 tokens).map Token.piece

/-- The text of a token in the format string, with values written in. -/
def Token.value (ns : Namespaces) : Token → Text
  | .char c => [c]
  | .opening => ['\x7b']
  | .closing => ['\x7d']
  | .field name => (fieldValue ns name).getD []

def formatted (ns : Namespaces) (tokens : List Token) : Text := tokens.flatMap (Token.value ns)

/-! ### The namespace of wildcards -/

/-- Names of wildcards have no braces and no dots. -/
def Words (word : Char → Bool) : Prop :=
  ∀ c, word c = true → c ≠ '\x7b' ∧ c ≠ '\x7d' ∧ c ≠ '.'

section Namespace

variable {word : Char → Bool}

theorem plain_of_words (hword : Words word) {name : Text} (h : ∀ c ∈ name, word c = true) :
    Plain name :=
  ⟨fun hmem => (hword _ (h _ hmem)).1 rfl, fun hmem => (hword _ (h _ hmem)).2.1 rfl⟩

theorem wildcardsReference_eq_some_iff (hword : Words word) {s name rest : Text} :
    wildcardsReference word s = some (name, rest) ↔
      s = braced ("wildcards.".toList ++ name) ++ rest ∧ name ≠ [] ∧ ∀ c ∈ name, word c = true := by
  have hopener : ∀ more : Text, "\x7bwildcards.".toList ++ more =
      '\x7b' :: ("wildcards.".toList ++ more) := fun _ => rfl
  have hbody : ∀ name rest : Text, braced ("wildcards.".toList ++ name) ++ rest =
      "\x7bwildcards.".toList ++ (name ++ '\x7d' :: rest) := by
    intro name rest
    rw [braced_append, hopener, append_assoc]
  rw [wildcardsReference]
  constructor
  · intro h
    split_ifs at h with hmatch
    cases h
    obtain ⟨⟨body, rfl⟩, hne, hhead⟩ := hmatch
    have hdrop : ("\x7bwildcards.".toList ++ body).drop 11 = body := drop_left' rfl
    rw [hdrop] at hne hhead ⊢
    refine ⟨?_, hne, fun c hc => ?_⟩
    · rw [hbody]
      refine congrArg _ ?_
      cases hafter : body.dropWhile word with
      | nil =>
        rw [hafter] at hhead
        cases hhead
      | cons =>
        rw [hafter] at hhead
        cases hhead
        rw [tail_cons, ← hafter]
        exact takeWhile_append_dropWhile.symm
    · exact mem_takeWhile_imp hc
  · rintro ⟨rfl, hne, hall⟩
    have hclose : word '\x7d' = false := by
      by_contra htrue
      exact (hword _ (Bool.not_eq_false _ ▸ htrue)).2.1 rfl
    rw [hbody]
    have hdrop : ("\x7bwildcards.".toList ++ (name ++ '\x7d' :: rest)).drop 11 =
        name ++ '\x7d' :: rest :=
      drop_left' rfl
    have htake : (name ++ '\x7d' :: rest).takeWhile word = name := by
      rw [takeWhile_append_of_pos hall, takeWhile_cons_of_neg (by rw [hclose]; decide),
        append_nil]
    have hskip : (name ++ '\x7d' :: rest).dropWhile word = '\x7d' :: rest := by
      rw [dropWhile_append_of_pos hall, dropWhile_cons_of_neg (by rw [hclose]; decide)]
    rw [hdrop, htake, hskip, if_pos ⟨prefix_append _ _, hne, rfl⟩]
    rfl

theorem replaceWildcards_char {c : Char} {rest : Text}
    (h : wildcardsReference word (c :: rest) = none) :
    replaceWildcards word (c :: rest) = c :: replaceWildcards word rest := by
  rw [replaceWildcards]
  split
  · rename_i hsome
    rw [h] at hsome
    cases hsome
  · rfl

theorem replaceWildcards_append {text : Text} (h : '\x7b' ∉ text) (rest : Text) :
    replaceWildcards word (text ++ rest) = text ++ replaceWildcards word rest := by
  induction text with
  | nil => rfl
  | cons c text ih =>
    have hnone : wildcardsReference word (c :: (text ++ rest)) = none := by
      rw [wildcardsReference, if_neg]
      rintro ⟨⟨_, hbody⟩, -⟩
      have hc : '\x7b' = c := (List.cons.inj hbody).1
      exact h (hc ▸ mem_cons_self)
    rw [cons_append, replaceWildcards_char hnone,
      ih fun hmem => h (.tail c hmem)]
    rfl

theorem bare_ne {name : Text} (h : bare word name ≠ name) :
    name = "wildcards.".toList ++ bare word name ∧ bare word name ≠ [] ∧
      ∀ c ∈ bare word name, word c = true := by
  rw [bare] at h ⊢
  split_ifs at h ⊢ with hname
  · obtain ⟨⟨body, rfl⟩, hne, hall⟩ := hname
    have hdrop : ("wildcards.".toList ++ body).drop 10 = body := drop_left' rfl
    rw [hdrop] at hne hall ⊢
    exact ⟨rfl, hne, all_eq_true.mp hall⟩
  · exact absurd rfl h

theorem bare_wildcards {name : Text} (hne : name ≠ []) (hall : ∀ c ∈ name, word c = true) :
    bare word ("wildcards.".toList ++ name) = name := by
  have hdrop : ("wildcards.".toList ++ name).drop 10 = name := drop_left' rfl
  rw [bare, hdrop, if_pos ⟨prefix_append _ _, hne, all_eq_true.mpr hall⟩]

theorem replaceWildcards_braced (hword : Words word) {name : Text} (hname : Plain name)
    (rest : Text) : replaceWildcards word (braced name ++ rest) =
      braced (bare word name) ++ replaceWildcards word rest := by
  by_cases hbare : bare word name = name
  · have hnone : wildcardsReference word (braced name ++ rest) = none := by
      cases hsome : wildcardsReference word (braced name ++ rest) with
      | none => rfl
      | some e =>
        obtain ⟨heq, hne, hall⟩ := (wildcardsReference_eq_some_iff hword).mp hsome
        have hwild : Plain ("wildcards.".toList ++ e.1) := by
          have hplain := plain_of_words hword hall
          have hnot : Plain "wildcards.".toList := by decide
          exact ⟨fun hmem => (mem_append.mp hmem).elim hnot.1 hplain.1,
            fun hmem => (mem_append.mp hmem).elim hnot.2 hplain.2⟩
        have hsame := braced_eq_of_append hname hwild heq
        rw [hsame, bare_wildcards hne hall] at hbare
        have hlength := congrArg List.length hbare
        have hten : "wildcards.".toList.length = 10 := rfl
        rw [length_append] at hlength
        omega
    have hbody : '\x7b' ∉ name ++ ['\x7d'] := by
      rw [mem_append, not_or]
      exact ⟨hname.1, by decide⟩
    have hsplit : braced name ++ rest = '\x7b' :: (name ++ ['\x7d'] ++ rest) := rfl
    rw [hsplit] at hnone ⊢
    rw [replaceWildcards_char hnone, replaceWildcards_append hbody, hbare]
    rfl
  · obtain ⟨hname', hne, hall⟩ := bare_ne hbare
    have hsome : wildcardsReference word (braced name ++ rest) = some (bare word name, rest) :=
      (wildcardsReference_eq_some_iff hword).mpr
        ⟨congrArg (fun text => braced text ++ rest) hname', hne, hall⟩
    have hsplit : braced name ++ rest = '\x7b' :: (name ++ ['\x7d'] ++ rest) := rfl
    rw [hsplit] at hsome ⊢
    rw [replaceWildcards]
    split
    · rename_i found rest' heq
      rw [hsome] at heq
      cases heq
      rfl
    · rename_i hnone
      rw [hsome] at hnone
      cases hnone

end Namespace

/-! ### The translated text -/

theorem template_cons (token : Token) (rest : List Token) :
    template (token :: rest) = token.text ++ template rest := flatMap_cons

theorem template_chars (text : Text) (rest : List Token) :
    template (text.map Token.char ++ rest) = text ++ template rest := by
  induction text with
  | nil => rfl
  | cons c text ih =>
    rw [map_cons, cons_append, template_cons, ih]
    rfl

theorem leading_append (tokens : List Token) :
    tokens = (leading tokens).1.map Token.char ++ (leading tokens).2 := by
  induction tokens with
  | nil => rfl
  | cons token rest ih =>
    cases token with
    | char c => exact congrArg (List.cons (Token.char c)) ih
    | opening | closing | field => rfl

theorem leading_ends (tokens : List Token) :
    (leading tokens).2.head? = some .closing ∨
      ∀ c ∈ (template (leading tokens).2).head?, c = '\x7b' := by
  induction tokens with
  | nil => exact Or.inr fun c hc => absurd hc (by nofun)
  | cons token rest ih =>
    cases token with
    | char => exact ih
    | closing => exact Or.inl rfl
    | opening =>
      refine Or.inr fun c hc => ?_
      have hhead : (template (leading (Token.opening :: rest)).2).head? = some '\x7b' := rfl
      rw [hhead] at hc
      exact (Option.mem_some.mp hc).symm
    | field name =>
      refine Or.inr fun c hc => ?_
      have hhead : (template (leading (Token.field name :: rest)).2).head? = some '\x7b' := rfl
      rw [hhead] at hc
      exact (Option.mem_some.mp hc).symm

theorem plain_leading {tokens : List Token} (hproper : ∀ token ∈ tokens, token.Proper) :
    Plain (leading tokens).1 := by
  induction tokens with
  | nil => exact ⟨not_mem_nil, not_mem_nil⟩
  | cons token rest ih =>
    have hrest := ih fun other hother => hproper other (.tail token hother)
    cases token with
    | char =>
      obtain ⟨hopen, hclose⟩ := hproper _ mem_cons_self
      exact ⟨not_mem_cons_of_ne_of_not_mem hopen.symm hrest.1,
        not_mem_cons_of_ne_of_not_mem hclose.symm hrest.2⟩
    | opening | closing | field => exact ⟨not_mem_nil, not_mem_nil⟩

section Translation

variable {word : Char → Bool}

theorem dropNamespace_chars (text : Text) (rest : List Token) :
    dropNamespace word 0 (text.map Token.char ++ rest) =
      text.map Token.char ++ dropNamespace word 0 rest := by
  induction text with
  | nil => rfl
  | cons c text ih => exact congrArg (List.cons (Token.char c)) ih

theorem dropNamespace_skip (text : Text) (rest : List Token) :
    dropNamespace word text.length (text.map Token.char ++ rest) = dropNamespace word 0 rest := by
  induction text with
  | nil => rfl
  | cons c text ih => exact ih

theorem dropNamespace_escape (text : Text) (rest : List Token) :
    dropNamespace word (if bare word text ≠ text then 10 else 0)
        (text.map Token.char ++ .closing :: rest) =
      (bare word text).map Token.char ++ .closing :: dropNamespace word 0 rest := by
  by_cases hbare : bare word text = text
  · rw [if_neg (not_not_intro hbare), dropNamespace_chars, hbare]
    rfl
  · obtain ⟨htext, -, -⟩ := bare_ne hbare
    have hmap : text.map Token.char =
        "wildcards.".toList.map Token.char ++ (bare word text).map Token.char := by
      rw [← map_append, ← htext]
    rw [if_pos hbare, hmap, append_assoc]
    refine (dropNamespace_skip "wildcards.".toList _).trans ?_
    rw [dropNamespace_chars]
    rfl

theorem dropNamespace_closed {rest later : List Token} {text : Text}
    (h : leading rest = (text, .closing :: later)) :
    dropNamespace word 0 (.opening :: rest) =
      .opening :: ((bare word text).map Token.char ++ .closing :: dropNamespace word 0 later) := by
  have hsplit := leading_append rest
  have hdrop : dropNamespace word 0 (.opening :: rest) = .opening ::
      dropNamespace word (if EscapedReference word rest then 10 else 0) rest := rfl
  have hiff : EscapedReference word rest ↔ bare word text ≠ text := by
    rw [EscapedReference, h]
    exact and_iff_right rfl
  have hsame : (if EscapedReference word rest then 10 else 0) =
      if bare word text ≠ text then 10 else 0 := if_congr hiff rfl rfl
  rw [h] at hsplit
  dsimp only at hsplit
  rw [hdrop, hsame, ← dropNamespace_escape, ← hsplit]

theorem dropNamespace_open {rest : List Token} (h : (leading rest).2.head? ≠ some .closing) :
    dropNamespace word 0 (.opening :: rest) = .opening :: dropNamespace word 0 rest := by
  have hdrop : dropNamespace word 0 (.opening :: rest) = .opening ::
      dropNamespace word (if EscapedReference word rest then 10 else 0) rest := rfl
  have hnot : ¬ EscapedReference word rest := fun hescaped => h hescaped.1
  rw [hdrop, if_neg hnot]

theorem wildcardsReference_open (hword : Words word) {text rest : Text} (htext : Plain text)
    (hrest : ∀ c ∈ rest.head?, c = '\x7b') :
    wildcardsReference word ('\x7b' :: (text ++ rest)) = none := by
  cases hsome : wildcardsReference word ('\x7b' :: (text ++ rest)) with
  | none => rfl
  | some =>
    obtain ⟨heq, -, hall⟩ := (wildcardsReference_eq_some_iff hword).mp hsome
    have hname := plain_of_words hword hall
    rw [braced_append, append_assoc] at heq
    have hbody := (List.cons.inj heq).2
    have hnone : ∀ {t : Text}, Plain t → t.find? (fun c => c == '\x7b' || c == '\x7d') = none := by
      intro t ht
      rw [find?_eq_none]
      intro c hc
      rw [Bool.or_eq_true, beq_iff_eq, beq_iff_eq, not_or]
      exact ⟨fun h => ht.1 (h ▸ hc), fun h => ht.2 (h ▸ hc)⟩
    have hfirst := congrArg (List.find? fun c => c == '\x7b' || c == '\x7d') hbody
    have hwild : Plain "wildcards.".toList := by decide
    rw [find?_append, find?_append, find?_append, hnone htext, hnone hwild,
      hnone hname] at hfirst
    cases rest with
    | nil =>
      have hno : (none : Option Char) = some '\x7d' := hfirst
      cases hno
    | cons c =>
      have hc := hrest c rfl
      subst hc
      have hno : some '\x7b' = some '\x7d' := hfirst
      exact absurd (Option.some.inj hno) (by decide)

theorem replaceWildcards_template (hword : Words word) (tokens : List Token)
    (hproper : ∀ token ∈ tokens, token.Proper) :
    replaceWildcards word (template tokens) = template (dropNamespace word 0 tokens) := by
  induction hsize : tokens.length using Nat.strong_induction_on generalizing tokens with
  | _ size ih =>
  cases tokens with
  | nil =>
    have hempty : template [] = [] := flatMap_nil
    rw [dropNamespace, hempty, replaceWildcards]
  | cons token rest =>
    rw [length_cons] at hsize
    have hrest := fun other hother => hproper other (.tail token hother)
    have htail := ih _ (by omega) rest hrest rfl
    rw [template_cons]
    cases token with
    | char c =>
      have hc : '\x7b' ∉ [c] := fun hmem =>
        (hproper _ mem_cons_self).1 (mem_singleton.mp hmem).symm
      have hdrop : dropNamespace word 0 (.char c :: rest) =
          .char c :: dropNamespace word 0 rest := rfl
      rw [hdrop, template_cons, Token.text, replaceWildcards_append hc, htail]
    | closing =>
      have hc : '\x7b' ∉ ['\x7d', '\x7d'] := by decide
      have hdrop : dropNamespace word 0 (.closing :: rest) =
          .closing :: dropNamespace word 0 rest := rfl
      rw [hdrop, template_cons, Token.text, replaceWildcards_append hc, htail]
    | field name =>
      have hdrop : dropNamespace word 0 (.field name :: rest) =
          .field (bare word name) :: dropNamespace word 0 rest := rfl
      rw [hdrop, template_cons, Token.text,
        replaceWildcards_braced hword (hproper _ mem_cons_self), htail]
      rfl
    | opening =>
      have hplain := plain_leading hrest
      have hsplit := leading_append rest
      have hends := leading_ends rest
      have hfirst : wildcardsReference word ('\x7b' :: ([] ++ '\x7b' :: template rest)) = none :=
        wildcardsReference_open hword ⟨not_mem_nil, not_mem_nil⟩
          fun c hc => (Option.mem_some.mp hc).symm
      rw [nil_append] at hfirst
      have hstart : Token.opening.text ++ template rest = '\x7b' :: '\x7b' :: template rest := rfl
      rw [hstart, replaceWildcards_char hfirst]
      by_cases hclosing : (leading rest).2.head? = some .closing
      · obtain ⟨later, hmore⟩ := head?_eq_some_iff.mp hclosing
        have hlead : leading rest = ((leading rest).1, .closing :: later) := by
          rw [← hmore]
        rw [hmore] at hsplit
        have hin : ∀ token ∈ later, token.Proper := by
          intro token htoken
          refine hrest token ?_
          rw [hsplit]
          exact mem_append_right _ (.tail _ htoken)
        have hlen : later.length < size := by
          have hlength := congrArg List.length hsplit
          rw [length_append, length_cons] at hlength
          omega
        have htext : '\x7b' :: template rest =
            braced (leading rest).1 ++ ('\x7d' :: template later) := by
          conv_lhs => rw [hsplit, template_chars, template_cons]
          rw [braced_append]
          rfl
        have hclose : '\x7b' ∉ ['\x7d'] := by decide
        have hafter : replaceWildcards word ('\x7d' :: template later) =
            '\x7d' :: template (dropNamespace word 0 later) := by
          rw [← ih _ hlen later hin rfl]
          exact replaceWildcards_append hclose _
        rw [htext, replaceWildcards_braced hword hplain, hafter, braced_append,
          dropNamespace_closed hlead, template_cons, template_chars, template_cons]
        rfl
      · have hnone := wildcardsReference_open hword hplain (hends.resolve_left hclosing)
        rw [← template_chars, ← hsplit] at hnone
        rw [replaceWildcards_char hnone, htail, dropNamespace_open hclosing, template_cons]
        rfl

theorem proper_dropNamespace (hword : Words word) (k : ℕ) {tokens : List Token}
    (hproper : ∀ token ∈ tokens, token.Proper) :
    ∀ token ∈ dropNamespace word k tokens, token.Proper := by
  induction tokens generalizing k with
  | nil =>
    cases k with
    | zero | succ => exact hproper
  | cons token rest ih =>
    have hlater := fun other hother => hproper other (.tail token hother)
    have hrest := fun k => ih k hlater
    have hfirst := hproper token mem_cons_self
    cases k with
    | succ k => exact hrest k
    | zero =>
      cases token with
      | char | closing => exact forall_mem_cons.mpr ⟨hfirst, hrest 0⟩
      | opening => exact forall_mem_cons.mpr ⟨hfirst, hrest _⟩
      | field name =>
        refine forall_mem_cons.mpr ⟨?_, hrest 0⟩
        by_cases hbare : bare word name = name
        · exact hbare.symm ▸ hfirst
        · exact plain_of_words hword (bare_ne hbare).2.2

/-- The text of a token with its opening braces undoubled. -/
def Token.half : Token → Text
  | .opening => ['\x7b']
  | token => token.text

theorem undouble_opening {tokens : List Token} (hproper : ∀ token ∈ tokens, token.Proper) :
    replaceAll ['\x7b', '\x7b'] ['\x7b'] (template tokens) = tokens.flatMap Token.half := by
  induction tokens with
  | nil =>
    have hempty : template [] = [] := flatMap_nil
    rw [hempty, replaceAll]
    rfl
  | cons token rest ih =>
    have htail := ih fun other hother => hproper other (.tail token hother)
    have hfirst := hproper token mem_cons_self
    rw [template_cons, flatMap_cons, ← htail]
    cases token with
    | char c =>
      have hc : '\x7b' ∉ [c] := fun h => hfirst.1 (mem_singleton.mp h).symm
      exact replaceAll_append (notWithin_of_notMem hc _)
    | opening => exact replaceAll_placeholder (cons_ne_nil _ _) _ _
    | closing => exact replaceAll_append (notWithin_of_notMem (by decide) _)
    | field name =>
      refine replaceAll_append fun s hs hne hstart => ?_
      rcases suffix_cons_iff.mp ((mem_tails _ _).mp hs) with heq | hin
      · subst heq
        obtain ⟨after, hafter⟩ := hstart
        have hnext : '\x7b' :: after = name ++ ['\x7d'] ++ template rest :=
          (List.cons.inj hafter).2
        cases name with
        | nil => exact absurd (List.cons.inj hnext).1 (by decide)
        | cons => exact hfirst.1 ((List.cons.inj hnext).1 ▸ mem_cons_self)
      · have htext : '\x7b' ∉ name ++ ['\x7d'] := by
          rw [mem_append, not_or]
          exact ⟨hfirst.1, by decide⟩
        exact notWithin_of_notMem htext _ s ((mem_tails _ _).mpr hin) hne hstart

theorem undouble_single {c : Char} (hc : c ≠ '\x7d') (rest : Text) :
    replaceAll ['\x7d', '\x7d'] ['\x7d'] ('\x7d' :: c :: rest) =
      '\x7d' :: replaceAll ['\x7d', '\x7d'] ['\x7d'] (c :: rest) := by
  have hstart : ¬ ['\x7d', '\x7d'] <+: '\x7d' :: c :: rest := by
    rintro ⟨_, hafter⟩
    exact hc (List.cons.inj (List.cons.inj hafter).2).1.symm
  conv_lhs => rw [replaceAll, if_neg hstart]

theorem undouble_closing {tokens : List Token} (hproper : ∀ token ∈ tokens, token.Proper) :
    replaceAll ['\x7d', '\x7d'] ['\x7d'] (tokens.flatMap Token.half) =
        render (tokens.map Token.piece) ∧
      replaceAll ['\x7d', '\x7d'] ['\x7d'] ('\x7d' :: tokens.flatMap Token.half) =
        '\x7d' :: render (tokens.map Token.piece) := by
  induction tokens with
  | nil =>
    have hempty : replaceAll ['\x7d', '\x7d'] ['\x7d'] [] = [] := by rw [replaceAll]
    refine ⟨hempty, ?_⟩
    have hstart : ¬ ['\x7d', '\x7d'] <+: ['\x7d'] := by decide
    rw [flatMap_nil, replaceAll, if_neg hstart, hempty]
    rfl
  | cons token rest ih =>
    have hlater := fun other hother => hproper other (.tail token hother)
    obtain ⟨htail, hafter⟩ := ih hlater
    have hfirst := hproper token mem_cons_self
    rw [flatMap_cons, map_cons, render_cons, ← htail]
    cases token with
    | char c =>
      have hc : '\x7d' ∉ [c] := fun h => hfirst.2 (mem_singleton.mp h).symm
      have hkept : replaceAll ['\x7d', '\x7d'] ['\x7d'] ([c] ++ rest.flatMap Token.half) =
          [c] ++ replaceAll ['\x7d', '\x7d'] ['\x7d'] (rest.flatMap Token.half) :=
        replaceAll_append (notWithin_of_notMem hc _)
      exact ⟨hkept, (undouble_single hfirst.2 _).trans (congrArg _ hkept)⟩
    | opening =>
      have hkept : replaceAll ['\x7d', '\x7d'] ['\x7d'] (['\x7b'] ++ rest.flatMap Token.half) =
          ['\x7b'] ++ replaceAll ['\x7d', '\x7d'] ['\x7d'] (rest.flatMap Token.half) :=
        replaceAll_append (notWithin_of_notMem (by decide) _)
      exact ⟨hkept, (undouble_single (by decide) _).trans (congrArg _ hkept)⟩
    | closing =>
      have hkept := replaceAll_placeholder (cons_ne_nil '\x7d' ['\x7d']) ['\x7d']
        (rest.flatMap Token.half)
      have hlater := replaceAll_placeholder (cons_ne_nil '\x7d' ['\x7d']) ['\x7d']
        ('\x7d' :: rest.flatMap Token.half)
      rw [hafter, ← htail] at hlater
      exact ⟨hkept, hlater⟩
    | field name =>
      have hname : '\x7d' ∉ '\x7b' :: name :=
        not_mem_cons_of_ne_of_not_mem (by decide) hfirst.2
      have hkept : replaceAll ['\x7d', '\x7d'] ['\x7d']
            ('\x7b' :: name ++ '\x7d' :: rest.flatMap Token.half) = '\x7b' :: name ++
          replaceAll ['\x7d', '\x7d'] ['\x7d'] ('\x7d' :: rest.flatMap Token.half) :=
        replaceAll_append (notWithin_of_notMem hname _)
      rw [hafter, ← htail] at hkept
      have hsplit : ∀ more : Text, '\x7b' :: name ++ '\x7d' :: more = braced name ++ more := by
        intro more
        rw [braced_append]
        rfl
      rw [hsplit, hsplit] at hkept
      exact ⟨hkept, (undouble_single (by decide) _).trans (congrArg _ hkept)⟩

theorem translateShellCommand_template (hword : Words word) {tokens : List Token}
    (hproper : ∀ token ∈ tokens, token.Proper) :
    translateShellCommand word (template tokens) = render (translated word tokens) := by
  have hdropped := proper_dropNamespace hword 0 hproper
  rw [translateShellCommand, replaceWildcards_template hword tokens hproper,
    undouble_opening hdropped, (undouble_closing hdropped).1, translated]

end Translation

end OxyMake.SnakemakeCommands

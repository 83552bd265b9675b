import Mathlib.Data.List.Basic

/-!
# String literals of Python

A short string literal runs from one quote to the next quote that no backslash
protects, and no line ends inside it. Its value is the body with every escape
sequence replaced; a backslash before any other character stands for itself.
A text spelled character by character, each by itself or by an escape of it, is
read back.
-/

namespace OxyMake.PythonLiterals

open List

/-- Characters that end a line of source, and the one that no source holds. -/
def breaksLine (c : Char) : Bool := c == '\n' || c == '\r' || c == '\x00'

/-- Body of a literal after its opening quote, with the text after the closing
quote. A backslash protects the next character; a line end counts as one. -/
def bodyOf (quote : Char) : List Char → Option (List Char × List Char)
  | [] => none
  | c :: rest =>
    if c = quote then some ([], rest)
    else if breaksLine c then none
    else if c = '\\' then
      match rest with
      | [] => none
      | d :: rest =>
        if d = '\x00' then none
        else if d = '\r' then
          match rest with
          | '\n' :: rest => (bodyOf quote rest).map fun p => ('\\' :: '\r' :: '\n' :: p.1, p.2)
          | rest => (bodyOf quote rest).map fun p => ('\\' :: '\r' :: p.1, p.2)
        else (bodyOf quote rest).map fun p => ('\\' :: d :: p.1, p.2)
    else (bodyOf quote rest).map fun p => (c :: p.1, p.2)

def isOctal (c : Char) : Bool := '0' ≤ c && c ≤ '7'

def isHex (c : Char) : Bool :=
  c.isDigit || ('a' ≤ c && c ≤ 'f') || ('A' ≤ c && c ≤ 'F')

def hexValue (c : Char) : ℕ :=
  if c.isDigit then c.toNat - 48 else if 'a' ≤ c then c.toNat - 87 else c.toNat - 55

def spelled (base : ℕ) (digits : List Char) : ℕ :=
  digits.foldl (fun n c => base * n + hexValue c) 0

def simpleEscapes : List (Char × Char) :=
  [('\\', '\\'), (Char.ofNat 39, Char.ofNat 39), ('"', '"'), ('a', '\x07'), ('b', '\x08'),
    ('f', '\x0c'), ('n', '\n'), ('r', '\r'), ('t', '\t'), ('v', '\x0b')]

def spellingEscapes : List Char := ['x', 'u', 'U', 'N']

/-- Characters that make a backslash before them an escape sequence. -/
def startsEscape (c : Char) : Bool :=
  c == '\n' || c == '\r' || isOctal c || spellingEscapes.contains c ||
    (simpleEscapes.lookup c).isSome

/-- A code point given by exactly so many hexadecimal digits. A surrogate is no
character of a text, so its spelling has no value here. -/
def hexEscape (width : ℕ) (rest : List Char) : Option (List Char × List Char) :=
  if (rest.take width).length = width ∧ (rest.take width).all isHex ∧
      (spelled 16 (rest.take width)).isValidChar then
    some ([Char.ofNat (spelled 16 (rest.take width))], rest.drop width)
  else none

/-- A code point given by its name in braces. -/
def namedEscape (names : List Char → Option Char) : List Char → Option (List Char × List Char)
  | [] => none
  | c :: rest =>
    if c = '\x7b' then
      match rest.dropWhile (· ≠ '\x7d') with
      | [] => none
      | _ :: after => (names (rest.takeWhile (· ≠ '\x7d'))).map fun d => ([d], after)
    else none

/-- A line feed that follows a carriage return belongs to the same line end. -/
def dropLineFeed : List Char → List Char
  | '\n' :: rest => rest
  | rest => rest

def octalTail (rest : List Char) : List Char := (rest.takeWhile isOctal).take 2

/-- What a backslash and the text after it stand for, with the remaining text. -/
def readEscape (names : List Char → Option Char) : List Char → Option (List Char × List Char)
  | [] => none
  | c :: rest =>
    if c = '\n' then some ([], rest)
    else if c = '\r' then some ([], dropLineFeed rest)
    else if isOctal c then
      some ([Char.ofNat (spelled 8 (c :: octalTail rest))], rest.drop (octalTail rest).length)
    else if c = 'x' then hexEscape 2 rest
    else if c = 'u' then hexEscape 4 rest
    else if c = 'U' then hexEscape 8 rest
    else if c = 'N' then namedEscape names rest
    else
      match simpleEscapes.lookup c with
      | some d => some ([d], rest)
      | none => some (['\\', c], rest)

def endsEscape (c : Char) : Bool := startsEscape c || isHex c || c == '\x7d'

/-- What a backslash takes from the text after it, what it gives, and what remains. -/
inductive Escape : List Char → List Char → List Char → Prop
  | itself (c : Char) (rest : List Char) (plain : startsEscape c = false) :
      Escape (c :: rest) ['\\', c] rest
  /-- At most one character replaces a sequence that ends as sequences do. -/
  | replaced (c : Char) (taken out rest : List Char) (starts : startsEscape c = true)
      (short : out.length ≤ 1)
      (ends : ∀ d, (c :: taken).getLast? = some d → endsEscape d = true) :
      Escape (c :: (taken ++ rest)) out rest

variable {names : List Char → Option Char}

theorem hexEscape_split {width : ℕ} {rest out after : List Char}
    (h : hexEscape width rest = some (out, after)) :
    rest = rest.take width ++ after ∧ out.length ≤ 1 ∧ ∀ c ∈ rest.take width, isHex c = true := by
  rw [hexEscape] at h
  split_ifs at h with hdigits
  have hpair := Prod.mk.inj (Option.some.inj h)
  constructor
  · rw [← hpair.2, take_append_drop]
  · constructor
    · rw [← hpair.1]
      exact Nat.le_refl 1
    · exact all_eq_true.mp hdigits.2.1

theorem namedEscape_split {rest out after : List Char}
    (h : namedEscape names rest = some (out, after)) :
    ∃ taken, rest = taken ++ after ∧ out.length ≤ 1 ∧ taken.getLast? = some '\x7d' := by
  cases rest with
  | nil => cases h
  | cons c rest =>
    rw [namedEscape] at h
    split_ifs at h with hbrace
    cases hdrop : rest.dropWhile (· ≠ '\x7d') with
    | nil =>
      rw [hdrop] at h
      cases h
    | cons d tail =>
      rw [hdrop] at h
      obtain ⟨e, -, he⟩ := Option.map_eq_some_iff.mp h
      have hpair := Prod.mk.inj he
      have hd : d = '\x7d' := by
        have hhead := head?_dropWhile_not (· ≠ '\x7d') rest
        rw [hdrop] at hhead
        simpa using hhead
      have hsplit : rest.takeWhile (· ≠ '\x7d') ++ d :: tail = rest := by
        rw [← hdrop, takeWhile_append_dropWhile]
      refine ⟨c :: (rest.takeWhile (· ≠ '\x7d') ++ [d]), ?_, ?_, ?_⟩
      · rw [← hpair.2, cons_append, append_assoc]
        exact congrArg (c :: ·) hsplit.symm
      · rw [← hpair.1]
        exact Nat.le_refl 1
      · rw [← cons_append, getLast?_append, hd]
        rfl

theorem Escape.single {c : Char} {out rest : List Char} (starts : startsEscape c = true)
    (short : out.length ≤ 1) : Escape (c :: rest) out rest := by
  have hends : ∀ d, [c].getLast? = some d → endsEscape d = true := by
    intro d hd
    have hdc : c = d := Option.some.inj hd
    rw [← hdc, endsEscape, starts]
    rfl
  exact .replaced c [] out rest starts short hends

theorem Escape.run {c : Char} {taken out rest : List Char} (starts : startsEscape c = true)
    (short : out.length ≤ 1) (htaken : ∀ d ∈ taken, endsEscape d = true) :
    Escape (c :: (taken ++ rest)) out rest := by
  apply Escape.replaced c taken out rest starts short
  intro d hd
  have hmem := mem_of_getLast? hd
  cases mem_cons.mp hmem with
  | inl hc => rw [hc, endsEscape, starts]; rfl
  | inr ht => exact htaken d ht

theorem Escape.hex {c : Char} {width : ℕ} {rest out after : List Char}
    (starts : startsEscape c = true) (h : hexEscape width rest = some (out, after)) :
    Escape (c :: rest) out after := by
  obtain ⟨hsplit, hshort, hdigits⟩ := hexEscape_split h
  rw [hsplit]
  apply Escape.run starts hshort
  intro d hd
  rw [endsEscape, hdigits d hd, Bool.or_true, Bool.true_or]

theorem Escape.lineEnd (text : List Char) : Escape ('\r' :: text) [] (dropLineFeed text) := by
  cases text with
  | nil => exact Escape.single rfl (Nat.zero_le 1)
  | cons d rest =>
    by_cases hd : d = '\n'
    · rw [hd]
      exact @Escape.run '\r' ['\n'] [] rest rfl (Nat.zero_le 1) (fun d hd => by
        rw [mem_singleton.mp hd]; rfl)
    · have hkeep : dropLineFeed (d :: rest) = d :: rest := by
        simp [dropLineFeed, hd]
      rw [hkeep]
      exact Escape.single rfl (Nat.zero_le 1)

theorem Escape.octal {c : Char} (hc : isOctal c = true) (value : Char) (text : List Char) :
    Escape (c :: text) [value] (text.drop (octalTail text).length) := by
  have hstarts : octalTail text <+: text :=
    ( take_prefix 2 _).trans ( takeWhile_prefix isOctal)
  have hsplit := prefix_iff_eq_append.mp hstarts
  have hstarts : ∀ d, isOctal d = true → startsEscape d = true := by
    intro d hd
    simp [startsEscape, hd]
  nth_rewrite 1 [← hsplit]
  refine Escape.run (hstarts c hc) (Nat.le_of_eq length_singleton) ?_
  intro d hd
  have hoctal := all_eq_true.mp all_takeWhile d (mem_of_mem_take hd)
  rw [endsEscape, hstarts d hoctal]
  rfl

theorem escape_of_readEscape {text out rest : List Char}
    (h : readEscape names text = some (out, rest)) : Escape text out rest := by
  cases text with
  | nil => cases h
  | cons c text =>
    rw [readEscape] at h
    split_ifs at h with hfeed hreturn hoctal hx hu hU hN
    · have hpair := Prod.mk.inj (Option.some.inj h)
      rw [hfeed, ← hpair.1, ← hpair.2]
      exact Escape.single rfl (Nat.zero_le 1)
    · have hpair := Prod.mk.inj (Option.some.inj h)
      rw [hreturn, ← hpair.1, ← hpair.2]
      exact Escape.lineEnd text
    · have hpair := Prod.mk.inj (Option.some.inj h)
      rw [← hpair.1, ← hpair.2]
      exact Escape.octal hoctal _ text
    · rw [hx]
      exact Escape.hex rfl h
    · rw [hu]
      exact Escape.hex rfl h
    · rw [hU]
      exact Escape.hex rfl h
    · rw [hN]
      obtain ⟨_, hsplit, hshort, hlast⟩ := namedEscape_split h
      rw [hsplit]
      apply Escape.replaced _ _ _ _ rfl hshort
      intro d hd
      rw [getLast?_cons, hlast] at hd
      rw [← Option.some.inj hd]
      rfl
    · cases hsimple : simpleEscapes.lookup c with
      | some =>
        rw [hsimple] at h
        have hpair := Prod.mk.inj (Option.some.inj h)
        have hstart : startsEscape c = true := by
          rw [startsEscape, hsimple, Option.isSome_some, Bool.or_true]
        rw [← hpair.1, ← hpair.2]
        exact Escape.single hstart (Nat.le_refl 1)
      | none =>
        rw [hsimple] at h
        have hpair := Prod.mk.inj (Option.some.inj h)
        have hplain : startsEscape c = false := by
          simp [startsEscape, spellingEscapes, hsimple, hfeed, hreturn, hoctal, hx, hu, hU, hN]
        rw [← hpair.1, ← hpair.2]
        exact .itself c text hplain

theorem Escape.length_lt {text out rest : List Char} (h : Escape text out rest) :
    rest.length < text.length := by
  cases h with
  | itself => exact Nat.lt_succ_self _
  | replaced =>
    rw [length_cons, length_append]
    omega

/-- Value of a body: every escape sequence is replaced. -/
def decode (names : List Char → Option Char) (body : List Char) : Option (List Char) :=
  match body with
  | [] => some []
  | c :: text =>
    if c = '\\' then
      match _hread : readEscape names text with
      | none => none
      | some (out, rest) => (decode names rest).map (out ++ ·)
    else (decode names text).map (c :: ·)
termination_by body.length
decreasing_by
  · have hlt := (escape_of_readEscape _hread).length_lt
    rw [length_cons]
    omega
  · exact Nat.lt_succ_self _

/-- The literal between quotes at the head of a text, with the remaining text. Three quotes begin
no such literal. -/
def readLiteral (names : List Char → Option Char) (quote : Char) :
    List Char → Option (List Char × List Char)
  | [] => none
  | c :: text =>
    if c = quote then
      if [quote, quote] <+: text then none
      else
        match bodyOf quote text with
        | none => none
        | some (body, rest) => (decode names body).map fun value => (value, rest)
    else none

theorem decode_plain {c : Char} (hc : c ≠ '\\') (text : List Char) :
    decode names (c :: text) = (decode names text).map (c :: ·) := by
  rw [decode, if_neg hc]

theorem decode_escape {text out rest : List Char} (h : readEscape names text = some (out, rest)) :
    decode names ('\\' :: text) = (decode names rest).map (out ++ ·) := by
  rw [decode, if_pos rfl]
  split
  · simp_all
  · simp_all

theorem bodyOf_quote (quote : Char) (rest : List Char) :
    bodyOf quote (quote :: rest) = some ([], rest) := by
  rw [bodyOf.eq_def]
  exact if_pos rfl

theorem bodyOf_plain {quote c : Char} (hquote : c ≠ quote) (hbreak : breaksLine c = false)
    (hslash : c ≠ '\\') (rest : List Char) :
    bodyOf quote (c :: rest) = (bodyOf quote rest).map fun p => (c :: p.1, p.2) := by
  rw [bodyOf.eq_def]
  dsimp only
  rw [if_neg hquote, if_neg (by rw [hbreak]; exact Bool.false_ne_true), if_neg hslash]

theorem bodyOf_protected {quote d : Char} (hquote : '\\' ≠ quote) (hnul : d ≠ '\x00')
    (hreturn : d ≠ '\r') (rest : List Char) :
    bodyOf quote ('\\' :: d :: rest) =
      (bodyOf quote rest).map fun p => ('\\' :: d :: p.1, p.2) := by
  rw [bodyOf.eq_def]
  dsimp only
  rw [if_neg hquote, if_neg (by decide), if_pos rfl]
  rw [if_neg hnul, if_neg hreturn]

/-- A character is spelled inside a literal: by an escape, or by itself. -/
inductive Spells (names : List Char → Option Char) (quote c : Char) : List Char → Prop
  | escape {d : Char} (hnul : d ≠ '\x00') (hreturn : d ≠ '\r')
      (hread : ∀ rest, readEscape names (d :: rest) = some ([c], rest)) :
      Spells names quote c ['\\', d]
  | plain (hquote : c ≠ quote) (hslash : c ≠ '\\') (hbreak : breaksLine c = false) :
      Spells names quote c [c]

theorem body_of_spells {quote : Char} (hquote : '\\' ≠ quote) {spell : Char → List Char}
    {text : List Char} (h : ∀ c ∈ text, Spells names quote c (spell c)) (rest : List Char) :
    bodyOf quote (text.flatMap spell ++ quote :: rest) = some (text.flatMap spell, rest) ∧
      decode names (text.flatMap spell) = some text := by
  induction text with
  | nil =>
    refine ⟨bodyOf_quote quote rest, ?_⟩
    rw [flatMap_nil, decode]
  | cons c text ih =>
    obtain ⟨hbody, hvalue⟩ := ih fun d hd => h d (.tail c hd)
    have hc := h c mem_cons_self
    rw [flatMap_cons, append_assoc]
    generalize spell c = spelled at hc
    cases hc with
    | escape hnul hreturn hread =>
      constructor
      · exact (bodyOf_protected hquote hnul hreturn _).trans (congrArg (Option.map _) hbody)
      · exact (decode_escape (hread _)).trans (congrArg (Option.map _) hvalue)
    | plain hplain hslash hbreak =>
      constructor
      · exact (bodyOf_plain hplain hbreak hslash _).trans (congrArg (Option.map _) hbody)
      · exact (decode_plain hslash _).trans (congrArg (Option.map _) hvalue)

def quoted (quote : Char) (spell : Char → List Char) (text : List Char) : List Char :=
  quote :: text.flatMap spell ++ [quote]

theorem readLiteral_quoted {quote : Char} (hquote : '\\' ≠ quote) {spell : Char → List Char}
    {text : List Char} (h : ∀ c ∈ text, Spells names quote c (spell c)) {rest : List Char}
    (hrest : text = [] → rest.head? ≠ some quote) :
    readLiteral names quote (quoted quote spell text ++ rest) = some (text, rest) := by
  obtain ⟨hbody, hvalue⟩ := body_of_spells hquote h rest
  have hshape : quoted quote spell text ++ rest =
      quote :: (text.flatMap spell ++ quote :: rest) := by
    rw [quoted, append_assoc]
    rfl
  have hshort : ¬ [quote, quote] <+: text.flatMap spell ++ quote :: rest := by
    rintro ⟨after, hafter⟩
    cases text with
    | nil =>
      have htail : quote :: after = rest := (List.cons.inj hafter).2
      exact hrest rfl (htail ▸ rfl)
    | cons c =>
      have hc := h c mem_cons_self
      rw [flatMap_cons] at hafter
      generalize spell c = spelled at hc hafter
      cases hc with
      | escape => exact hquote (List.cons.inj hafter).1.symm
      | plain hplain => exact hplain (List.cons.inj hafter).1.symm
  rw [hshape, readLiteral, if_pos rfl, if_neg hshort, hbody]
  dsimp only
  rw [hvalue]
  rfl

end OxyMake.PythonLiterals

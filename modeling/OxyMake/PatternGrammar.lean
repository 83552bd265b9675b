import Mathlib.Data.List.Chain
import OxyMake.PatternText

/-!
# The grammar of patterns

A pattern is a sequence of characters, escapes and names in braces in which no
two names are adjacent. The parser accepts the texts that are spelled so, and
the segments it makes are the sequence with the characters and escapes between
two names joined.
-/

namespace OxyMake.PatternGrammar

open List
open Wildcard PatternText
open ConfigSubstitution (parseLoop_escape)
open ReferenceScanning (eq_of_scanEscaped eq_of_scanName scanName_append)

/-! ### Symbols -/

/-- What a pattern is made of. -/
inductive Symbol
  | character (c : Char)
  | escape (text : Text)
  | name (n : Text)

def Symbol.spelling : Symbol → Text
  | .character c => [c]
  | .escape text => ['{', '{'] ++ text ++ ['}', '}']
  | .name n => ['{'] ++ n ++ ['}']

def Symbol.isName : Symbol → Bool
  | .name _ => true
  | _ => false

def symbolNames (symbols : List Symbol) : List Text :=
  symbols.filterMap fun
    | .name n => some n
    | _ => none

/-- What a symbol stands for when names have values. -/
def Symbol.meaning (value : Text → Text) : Symbol → Text
  | .character c => [c]
  | .escape text => ['{'] ++ text ++ ['}']
  | .name n => value n

variable (alphanumeric : Char → Bool)

/-- Characters are no braces, the text of an escape ends at the first double brace, and a name
is not empty and has alphanumeric characters and underscores only. -/
def Symbol.Valid : Symbol → Prop
  | .character c => c ≠ '{' ∧ c ≠ '}'
  | .escape text => ¬ ['}', '}'] <:+: text ++ ['}']
  | .name n => n ≠ [] ∧ ∀ c ∈ n, alphanumeric c = true ∨ c = '_'

/-- A text is spelled by symbols of the grammar. -/
structure Spells (symbols : List Symbol) (s : Text) : Prop where
  valid : ∀ symbol ∈ symbols, symbol.Valid alphanumeric
  apart : symbols.IsChain fun a b => ¬ (a.isName = true ∧ b.isName = true)
  spelling : symbols.flatMap Symbol.spelling = s

def isWildcard : Segment → Bool
  | .wildcard _ => true
  | .literal _ => false

/-- No literal is empty, and no two literals and no two wildcards are adjacent. -/
structure Joined (segments : List Segment) : Prop where
  nonempty : Segment.literal [] ∉ segments
  alternate : segments.IsChain fun a b => isWildcard a ≠ isWildcard b

/-! ### Scanning -/

theorem scanEscaped_iff {s text rest : Text} :
    scanEscaped s = some (text, rest) ↔
      s = text ++ '}' :: '}' :: rest ∧ ¬ ['}', '}'] <:+: text ++ ['}'] := by
  constructor
  · intro h
    refine ⟨eq_of_scanEscaped h, ?_⟩
    fun_induction scanEscaped s generalizing text rest with
    | case1 => cases h
    | case2 =>
      cases h
      decide
    | case3 c r hpair ih =>
      obtain ⟨⟨text', _⟩, hrest, heq⟩ := Option.map_eq_some_iff.mp h
      cases heq
      intro hinfix
      rw [cons_append, infix_cons_iff] at hinfix
      rcases hinfix with hprefix | hinfix
      · obtain ⟨hc, htail⟩ := cons_prefix_cons.mp hprefix
        obtain ⟨tail, htail⟩ := htail
        have hr := eq_of_scanEscaped hrest
        cases text' with
        | nil => exact hpair _ hc.symm hr
        | cons d =>
          have hd : d = '}' := (List.cons.inj htail).1.symm
          rw [hd, cons_append] at hr
          exact hpair _ hc.symm hr
      · exact ih hrest hinfix
  · rintro ⟨rfl, hfirst⟩
    induction text with
    | nil => rfl
    | cons c text ih =>
      have hrest := ih fun h => hfirst (infix_cons h)
      rw [cons_append, scanEscaped]
      · rw [hrest]
        rfl
      · rintro tail rfl htail
        apply hfirst
        cases text with
        | nil => exact infix_rfl
        | cons d text =>
          rw [cons_append, List.cons.injEq] at htail
          rw [htail.1]
          exact (prefix_append ['}', '}'] (text ++ ['}'])).isInfix

theorem endsInWildcard_flush {buf : Text} (h : buf ≠ []) (segments : List Segment) :
    endsInWildcard (flush buf segments) = false := by
  rw [flush, if_neg h, endsInWildcard, getLast?_concat]

theorem endsInWildcard_concat (segments : List Segment) (n : Text) :
    endsInWildcard (flush [] (segments ++ [.wildcard n])) = true := by
  rw [flush, if_pos rfl, endsInWildcard, getLast?_concat]

/-! ### Parsing -/

/-- Segments of symbols, with the current literal and the segments in front. -/
def assembled : Text → List Segment → List Symbol → List Segment
  | buf, segments, [] => flush buf segments
  | buf, segments, .character c :: rest => assembled (buf ++ [c]) segments rest
  | buf, segments, .escape text :: rest => assembled (buf ++ '{' :: text ++ ['}']) segments rest
  | buf, segments, .name n :: rest => assembled [] (flush buf segments ++ [.wildcard n]) rest

variable {alphanumeric}

section

variable (hopen : alphanumeric '{' = false) (hclose : alphanumeric '}' = false)

include hopen hclose in
theorem notMem_of_valid {n : Text} (h : (Symbol.name n).Valid alphanumeric) :
    '{' ∉ n ∧ '}' ∉ n := by
  constructor
  · intro hmem
    rcases h.2 _ hmem with halnum | hunderscore
    · rw [hopen] at halnum
      cases halnum
    · exact absurd hunderscore (by decide)
  · intro hmem
    rcases h.2 _ hmem with halnum | hunderscore
    · rw [hclose] at halnum
      cases halnum
    · exact absurd hunderscore (by decide)

include hopen hclose in
theorem parseLoop_symbols (raw : Text) {symbols : List Symbol}
    (hvalid : ∀ symbol ∈ symbols, symbol.Valid alphanumeric)
    (hapart : symbols.IsChain fun a b => ¬ (a.isName = true ∧ b.isName = true)) :
    ∀ (buf : Text) (segments : List Segment),
      (∀ n rest, symbols = .name n :: rest → endsInWildcard (flush buf segments) = false) →
      parseLoop alphanumeric raw (symbols.flatMap Symbol.spelling) buf segments =
        .ok (assembled buf segments symbols) := by
  induction symbols with
  | nil =>
    intro buf segments _
    rw [flatMap_nil, parseLoop, assembled]
  | cons symbol rest ih =>
    intro buf segments hfirst
    obtain ⟨hsymbol, hrest⟩ := forall_mem_cons.mp hvalid
    have hread := ih hrest hapart.of_cons
    rw [flatMap_cons]
    cases symbol with
    | character c =>
      rw [Symbol.spelling, singleton_append, parseLoop_literal hsymbol.1 hsymbol.2, assembled]
      apply hread
      intro n rest' _
      exact endsInWildcard_flush (concat_ne_nil c buf) segments
    | escape text =>
      have hscan : scanEscaped (text ++ '}' :: '}' :: rest.flatMap Symbol.spelling) =
          some (text, rest.flatMap Symbol.spelling) := scanEscaped_iff.mpr ⟨rfl, hsymbol⟩
      have hspelling : (Symbol.escape text).spelling ++ rest.flatMap Symbol.spelling =
          '{' :: '{' :: (text ++ '}' :: '}' :: rest.flatMap Symbol.spelling) := by
        simp only [Symbol.spelling, cons_append, nil_append, append_assoc]
      rw [hspelling, parseLoop_escape hscan, assembled]
      apply hread
      intro n rest' _
      exact endsInWildcard_flush (concat_ne_nil _ _) segments
    | name n =>
      obtain ⟨hnotOpen, hnotClose⟩ := notMem_of_valid hopen hclose hsymbol
      cases n with
      | nil => exact absurd rfl hsymbol.1
      | cons c n =>
        have hscan : scanName (c :: (n ++ '}' :: rest.flatMap Symbol.spelling)) =
            some (c :: n, rest.flatMap Symbol.spelling) := scanName_append hnotClose
        have hspelling : (Symbol.name (c :: n)).spelling ++ rest.flatMap Symbol.spelling =
            '{' :: c :: (n ++ '}' :: rest.flatMap Symbol.spelling) := by
          simp only [Symbol.spelling, cons_append, nil_append, append_assoc]
        have hc : c ≠ '{' := fun h => hnotOpen (h ▸ mem_cons_self)
        have hall : ((c :: n).all fun c => alphanumeric c || c = '_') = true := by
          rw [all_eq_true]
          intro d hd
          rw [Bool.or_eq_true, decide_eq_true_eq]
          exact hsymbol.2 d hd
        rw [hspelling, parseLoop_wildcard hc hscan (cons_ne_nil c n) hall
          (hfirst _ _ rfl), assembled]
        apply hread
        rintro n' rest' rfl
        obtain ⟨hpair, -⟩ := isChain_cons_cons.mp hapart
        exact absurd ⟨rfl, rfl⟩ hpair

end

theorem exists_symbols {raw s buf : Text} {segments out : List Segment}
    (h : parseLoop alphanumeric raw s buf segments = .ok out) :
    ∃ symbols, Spells alphanumeric symbols s ∧ out = assembled buf segments symbols ∧
      ∀ n rest, symbols = .name n :: rest → endsInWildcard (flush buf segments) = false := by
  fun_induction parseLoop alphanumeric raw s buf segments with
  | case1 =>
    cases h
    exact ⟨[], ⟨forall_mem_nil _, .nil, rfl⟩, rfl, fun _ _ h => by cases h⟩
  | case2 | case4 | case5 | case6 | case7 | case9 => cases h
  | case3 buf segments rest text rest' hscan ih =>
    obtain ⟨symbols, hspells, hout, -⟩ := ih h
    obtain ⟨hrest, hfirst⟩ := scanEscaped_iff.mp hscan
    refine ⟨.escape text :: symbols, ⟨?_, ?_, ?_⟩, hout, fun _ _ h => by cases h⟩
    · exact forall_mem_cons.mpr ⟨hfirst, hspells.valid⟩
    · refine isChain_cons.mpr ⟨?_, hspells.apart⟩
      rintro symbol - ⟨hname, -⟩
      cases hname
    · rw [flatMap_cons, hspells.spelling, hrest]
      simp only [Symbol.spelling, cons_append, nil_append, append_assoc]
  | case8 buf segments rest _ n rest' hscan hne hvalid hadjacent ih =>
    obtain ⟨symbols, hspells, hout, hnext⟩ := ih h
    obtain ⟨hrest, -⟩ := eq_of_scanName hscan
    refine ⟨.name n :: symbols, ⟨?_, ?_, ?_⟩, hout, ?_⟩
    · refine forall_mem_cons.mpr ⟨⟨hne, ?_⟩, hspells.valid⟩
      intro c hc
      have hall := all_eq_true.mp (not_not.mp hvalid) c hc
      rw [Bool.or_eq_true, decide_eq_true_eq] at hall
      exact hall
    · refine isChain_cons.mpr ⟨?_, hspells.apart⟩
      rintro symbol hsymbol ⟨-, hname⟩
      cases symbol with
      | character | escape => cases hname
      | name m =>
        obtain ⟨more, rfl⟩ : ∃ more, symbols = .name m :: more :=
          head?_eq_some_iff.mp (Option.mem_def.mp hsymbol)
        have hnot := hnext m more rfl
        rw [endsInWildcard_concat] at hnot
        cases hnot
    · rw [flatMap_cons, hspells.spelling, hrest]
      simp only [Symbol.spelling, cons_append, nil_append, append_assoc]
    · intro _ _ _
      exact Bool.eq_false_iff.mpr hadjacent
  | case10 c rest buf segments _ hopen hclose ih =>
    obtain ⟨symbols, hspells, hout, -⟩ := ih h
    refine ⟨.character c :: symbols, ⟨?_, ?_, ?_⟩, hout, fun _ _ h => by cases h⟩
    · exact forall_mem_cons.mpr ⟨⟨hopen, hclose⟩, hspells.valid⟩
    · refine isChain_cons.mpr ⟨?_, hspells.apart⟩
      rintro symbol - ⟨hname, -⟩
      cases hname
    · rw [flatMap_cons, hspells.spelling]
      rfl

/-! ### The segments -/

theorem joined_flush {buf : Text} {segments : List Segment} (h : Joined segments)
    (hlast : ∀ text, segments.getLast? ≠ some (.literal text)) : Joined (flush buf segments) := by
  rw [flush]
  by_cases hbuf : buf = []
  · rw [if_pos hbuf]
    exact h
  · rw [if_neg hbuf]
    refine ⟨?_, ?_⟩
    · rw [mem_append, mem_singleton, not_or]
      exact ⟨h.nonempty, fun heq => hbuf (Segment.literal.inj heq).symm⟩
    · rw [isChain_append]
      refine ⟨h.alternate, .singleton _, ?_⟩
      intro segment hsegment next hnext
      cases hnext
      cases segment with
      | literal text => exact absurd (Option.mem_def.mp hsegment) (hlast text)
      | wildcard => exact Bool.noConfusion

theorem joined_concat {segments : List Segment} {n : Text} (h : Joined segments)
    (hlast : endsInWildcard segments = false) : Joined (segments ++ [.wildcard n]) := by
  refine ⟨?_, ?_⟩
  · rw [mem_append, mem_singleton, not_or]
    exact ⟨h.nonempty, Segment.noConfusion⟩
  · rw [isChain_append]
    refine ⟨h.alternate, .singleton _, ?_⟩
    intro segment hsegment next hnext
    cases hnext
    cases segment with
    | literal => exact Bool.noConfusion
    | wildcard =>
      rw [endsInWildcard, Option.mem_def.mp hsegment] at hlast
      cases hlast

theorem joined_assembled {symbols : List Symbol}
    (hapart : symbols.IsChain fun a b => ¬ (a.isName = true ∧ b.isName = true)) :
    ∀ (buf : Text) (segments : List Segment), Joined segments →
      (∀ text, segments.getLast? ≠ some (.literal text)) →
      (∀ n rest, symbols = .name n :: rest → endsInWildcard (flush buf segments) = false) →
      Joined (assembled buf segments symbols) := by
  induction symbols with
  | nil =>
    intro buf segments hjoined hlast _
    exact joined_flush hjoined hlast
  | cons symbol rest ih =>
    intro buf segments hjoined hlast hfirst
    have hrest := ih hapart.of_cons
    cases symbol with
    | character c =>
      apply hrest _ _ hjoined hlast
      intro _ _ _
      exact endsInWildcard_flush (concat_ne_nil c buf) segments
    | escape =>
      apply hrest _ _ hjoined hlast
      intro _ _ _
      exact endsInWildcard_flush (concat_ne_nil _ _) segments
    | name =>
      apply hrest _ _ (joined_concat (joined_flush hjoined hlast) (hfirst _ _ rfl))
      · intro text
        rw [getLast?_concat]
        exact nofun
      · rintro m rest' rfl
        obtain ⟨hpair, -⟩ := isChain_cons_cons.mp hapart
        exact absurd ⟨rfl, rfl⟩ hpair

theorem segmentNames_assembled (symbols : List Symbol) : ∀ (buf : Text) (segments : List Segment),
    segmentNames (assembled buf segments symbols) =
      segmentNames segments ++ symbolNames symbols := by
  induction symbols with
  | nil =>
    intro buf segments
    rw [assembled, segmentNames_flush]
    exact (append_nil _).symm
  | cons symbol rest ih =>
    intro buf segments
    cases symbol with
    | character | escape => exact ih _ segments
    | name =>
      rw [assembled, ih, segmentNames_append, segmentNames_flush, append_assoc]
      rfl

theorem written_assembled (value : Text → Text) (symbols : List Symbol) :
    ∀ (buf : Text) (segments : List Segment),
      written value (assembled buf segments symbols) =
        written value segments ++ buf ++ symbols.flatMap (Symbol.meaning value) := by
  induction symbols with
  | nil =>
    intro buf segments
    rw [assembled, written_flush, flatMap_nil, append_nil]
  | cons symbol rest ih =>
    intro buf segments
    rw [flatMap_cons]
    cases symbol with
    | character =>
      rw [assembled, ih]
      simp only [Symbol.meaning, append_assoc]
    | escape =>
      rw [assembled, ih]
      simp only [Symbol.meaning, append_assoc, cons_append, nil_append]
    | name n =>
      have hsingle : written value [.wildcard n] = value n := append_nil _
      rw [assembled, ih, written_append, written_flush, hsingle, append_nil, Symbol.meaning,
        append_assoc]

theorem parse_eq_ok {raw : Text} {p : Pattern} (h : parse alphanumeric raw = .ok p) :
    parseLoop alphanumeric raw raw [] [] = .ok p.segments := by
  rw [parse] at h
  cases hloop : parseLoop alphanumeric raw raw [] [] with
  | error =>
    rw [hloop] at h
    cases h
  | ok =>
    rw [hloop] at h
    cases h
    rfl

/-- The parser accepts the texts of the grammar. The segments are joined, the wildcards are the
names in order, and interpolation writes the value of each name and the inner text of each escape
in single braces. -/
theorem parse_grammar (hopen : alphanumeric '{' = false) (hclose : alphanumeric '}' = false)
    (raw : Text) :
    ((∃ p, parse alphanumeric raw = .ok p) ↔ ∃ symbols, Spells alphanumeric symbols raw) ∧
      ∀ p symbols, parse alphanumeric raw = .ok p → Spells alphanumeric symbols raw →
        Joined p.segments ∧ p.wildcardNames = symbolNames symbols ∧
          ∀ (wildcards : Wildcards) (value : Text → Text),
            (∀ n ∈ p.wildcardNames, wildcards.lookup n = some (value n)) →
            p.interpolate wildcards = .ok (symbols.flatMap (Symbol.meaning value)) := by
  have hread : ∀ symbols, Spells alphanumeric symbols raw →
      parseLoop alphanumeric raw raw [] [] = .ok (assembled [] [] symbols) := by
    intro symbols hspells
    have hloop := parseLoop_symbols hopen hclose raw hspells.valid hspells.apart [] []
      fun _ _ _ => rfl
    rw [hspells.spelling] at hloop
    exact hloop
  refine ⟨⟨?_, ?_⟩, ?_⟩
  · rintro ⟨p, hp⟩
    obtain ⟨symbols, hspells, -, -⟩ := exists_symbols (parse_eq_ok hp)
    exact ⟨symbols, hspells⟩
  · rintro ⟨symbols, hspells⟩
    refine ⟨⟨raw, assembled [] [] symbols⟩, ?_⟩
    rw [parse, hread symbols hspells]
    rfl
  · intro p symbols hp hspells
    have hsegments := parse_eq_ok hp
    rw [hread symbols hspells] at hsegments
    have hassembled : p.segments = assembled [] [] symbols := (Except.ok.inj hsegments).symm
    refine ⟨?_, ?_, ?_⟩
    · rw [hassembled]
      exact joined_assembled hspells.apart [] [] ⟨not_mem_nil, .nil⟩ nofun fun _ _ _ => rfl
    · rw [Pattern.wildcardNames, hassembled, segmentNames_assembled]
      rfl
    · intro wildcards value hvalue
      rw [Pattern.wildcardNames] at hvalue
      have hsome : ∀ n ∈ segmentNames p.segments, (wildcards.lookup n).isSome = true := by
        intro n hn
        rw [hvalue n hn]
        rfl
      have hsame : ∀ n ∈ segmentNames p.segments, (wildcards.lookup n).getD [] = value n := by
        intro n hn
        rw [hvalue n hn]
        rfl
      rw [Pattern.interpolate, interpolateSegments_eq hsome, written_congr hsame, hassembled,
        written_assembled]
      rfl

/-- A pattern with an escape between two names. -/
theorem parse_grammar_between :
    ((∃ p, parse Char.isAlphanum "{a}{{}}{b}".toList = .ok p) ↔
      ∃ symbols, Spells Char.isAlphanum symbols
        "{a}{{}}{b}".toList) ∧
      ∀ p symbols, parse Char.isAlphanum "{a}{{}}{b}".toList = .ok p →
        Spells Char.isAlphanum symbols "{a}{{}}{b}".toList →
        Joined p.segments ∧ p.wildcardNames = symbolNames symbols ∧
          ∀ (wildcards : Wildcards) (value : Text → Text),
            (∀ n ∈ p.wildcardNames, wildcards.lookup n = some (value n)) →
            p.interpolate wildcards = .ok (symbols.flatMap (Symbol.meaning value)) :=
  parse_grammar (by decide) (by decide) _

end OxyMake.PatternGrammar

import OxyMake.ReferenceScanning

/-!
# Substitution of the configuration in patterns

References to the configuration are replaced in the text of a pattern before the
pattern is parsed. The reading of a pattern in which references stand for literal
text is compared with the parse of the replaced text. They agree when no value
contains a brace and no escape contains a reference; where the values have no
braces and are not empty, an escape that contains a reference is always misread.
-/

namespace OxyMake.ConfigSubstitution

open List Option
open Wildcard RuleInstances
open ConfigStages (substituteRefs substituteConfigRefs)
open ConfigOverrides (configRefs)
open ReferenceScanning

/-! ### The reading -/

/-- What a pattern is made of. -/
inductive Token
  | char (c : Char)
  | escape (inner : Text)
  | reference (key : Text)
  | wildcard (name : Text)
  deriving DecidableEq, Repr

/-- A name in braces is a reference or a wildcard. -/
def Token.ofName (name : Text) : Token :=
  if "config.".toList <+: name then .reference (name.drop 7) else .wildcard name

def tokenize : Text → Option (List Token)
  | [] => some []
  | '{' :: '{' :: rest =>
    match _h : scanEscaped rest with
    | none => none
    | some (inner, rest') => (tokenize rest').map (.escape inner :: ·)
  | '{' :: rest =>
    match _h : scanName rest with
    | none => none
    | some (name, rest') => (tokenize rest').map (.ofName name :: ·)
  | '}' :: _ => none
  | c :: rest => (tokenize rest).map (.char c :: ·)
termination_by s => s.length
decreasing_by
  · have hlt := scanEscaped_length _h
    simp only [length_cons]
    omega
  · have hlt := scanName_length _h
    simp only [length_cons]
    omega
  · simp only [length_cons]
    omega

def escapeText (inner : Text) : Text := '{' :: '{' :: inner ++ ['}', '}']

def Token.text : Token → Text
  | .char c => [c]
  | .escape inner => escapeText inner
  | .reference key => opening ++ key ++ ['}']
  | .wildcard name => '{' :: name ++ ['}']

section Reading

variable (alphanumeric : Char → Bool) (scalars : List (Text × Text))

/-- The literal and the segments after one more token, where a reference stands for the literal text
of its value. -/
def next (buf : Text) (segments : List Segment) : Token → Option (Text × List Segment)
  | .char c => some (buf ++ [c], segments)
  | .escape inner => some (buf ++ '{' :: inner ++ ['}'], segments)
  | .reference key => (scalars.lookup key).map fun value => (buf ++ value, segments)
  | .wildcard name =>
    if name = [] then none
    else if ¬ name.all fun c => alphanumeric c || c = '_' then none
    else if endsInWildcard (flush buf segments) then none
    else some ([], flush buf segments ++ [.wildcard name])

def assemble : List Token → Text → List Segment → Option (List Segment)
  | [], buf, segments => some (flush buf segments)
  | token :: tokens, buf, segments =>
    match next alphanumeric scalars buf segments token with
    | none => none
    | some (buf', segments') => assemble tokens buf' segments'

/-- The segments of a pattern in which references stand for literal text. -/
def reading (pattern : Text) : Option (List Segment) :=
  (tokenize pattern).bind fun tokens => assemble alphanumeric scalars tokens [] []

/-- The references are replaced and the rest is kept, the two substitutions agree, and the parse of
the result is the reading of the pattern. -/
def SubstitutesLiterally (pattern : Text) : Prop :=
  ∃ out, substituteConfigScalars scalars pattern = .ok out ∧ Replaced scalars pattern out ∧
    out = substituteConfigRefs pattern scalars ∧
    ∀ segments, reading alphanumeric scalars pattern = some segments →
      parse alphanumeric out = .ok ⟨out, segments⟩

def Values (condition : Text → Prop) (pattern : Text) : Prop :=
  ∀ key ∈ configRefs pattern, ∀ value, scalars.lookup key = some value → condition value

def Plain (value : Text) : Prop := '{' ∉ value ∧ '}' ∉ value

def PlainEscapes (tokens : List Token) : Prop :=
  ∀ inner, Token.escape inner ∈ tokens → ¬ opening <:+: escapeText inner

/-- Every reference is closed; in a pattern, no value has a brace and no escape a reference. -/
structure Harmless (pattern : Text) : Prop where
  closed : Closed pattern
  values : ∀ segments, reading alphanumeric scalars pattern = some segments →
    Values scalars Plain pattern
  escapes : ∀ segments, reading alphanumeric scalars pattern = some segments →
    ∀ tokens, tokenize pattern = some tokens → PlainEscapes tokens

end Reading

/-! ### Tokens -/

def Token.WellFormed : Token → Prop
  | .char c => c ≠ '{' ∧ c ≠ '}'
  | .escape inner => ∀ rest, scanEscaped (inner ++ '}' :: '}' :: rest) = some (inner, rest)
  | .reference key => '}' ∉ key
  | .wildcard name => '}' ∉ name ∧ ¬ "config.".toList <+: name

theorem scanEscaped_append {s inner rest : Text} (h : scanEscaped s = some (inner, rest))
    (other : Text) : scanEscaped (inner ++ '}' :: '}' :: other) = some (inner, other) := by
  fun_induction scanEscaped s generalizing inner with
  | case1 => cases h
  | case2 =>
    cases h
    rfl
  | case3 c r hpair ih =>
    obtain ⟨⟨inner', _⟩, hrest, heq⟩ := map_eq_some_iff.mp h
    cases heq
    have hinner := ih hrest
    rw [cons_append, scanEscaped]
    · rw [hinner]
      rfl
    · intro tail hc htail
      have hr := eq_of_scanEscaped hrest
      cases inner' with
      | nil => exact hpair _ hc hr
      | cons =>
        rw [cons_append] at hr
        rw [cons_append, List.cons.injEq] at htail
        exact hpair _ hc (by rw [hr, htail.1])

theorem Token.text_ofName (name : Text) : (Token.ofName name).text = '{' :: name ++ ['}'] := by
  unfold Token.ofName
  split_ifs with hstarts
  · obtain ⟨_, rfl⟩ := hstarts
    rfl
  · rfl

theorem Token.wellFormed_ofName {name : Text} (h : '}' ∉ name) :
    (Token.ofName name).WellFormed := by
  unfold Token.ofName
  split_ifs with hstarts
  · exact fun hmem => h (mem_of_mem_drop hmem)
  · exact ⟨h, hstarts⟩

theorem tokenize_spec {s : Text} {tokens : List Token} (h : tokenize s = some tokens) :
    s = tokens.flatMap Token.text ∧ ∀ token ∈ tokens, token.WellFormed := by
  fun_induction tokenize s generalizing tokens with
  | case1 =>
    cases h
    exact ⟨rfl, forall_mem_nil _⟩
  | case2 | case4 | case6 => cases h
  | case3 rest inner rest' hscan ih =>
    obtain ⟨tail, htail, rfl⟩ := map_eq_some_iff.mp h
    obtain ⟨htext, hwell⟩ := ih htail
    refine ⟨?_, forall_mem_cons.mpr ⟨scanEscaped_append hscan, hwell⟩⟩
    rw [flatMap_cons, ← htext, eq_of_scanEscaped hscan]
    simp only [Token.text, escapeText, cons_append, append_assoc, nil_append]
  | case5 rest hescape name rest' hscan ih =>
    obtain ⟨tail, htail, rfl⟩ := map_eq_some_iff.mp h
    obtain ⟨htext, hwell⟩ := ih htail
    obtain ⟨hrest, hname⟩ := eq_of_scanName hscan
    refine ⟨?_, forall_mem_cons.mpr ⟨Token.wellFormed_ofName hname, hwell⟩⟩
    rw [flatMap_cons, ← htext, Token.text_ofName, hrest]
    simp only [cons_append, append_assoc, nil_append]
  | case7 c rest _ hopen hclose ih =>
    obtain ⟨tail, htail, rfl⟩ := map_eq_some_iff.mp h
    obtain ⟨htext, hwell⟩ := ih htail
    refine ⟨?_, forall_mem_cons.mpr ⟨⟨hopen, hclose⟩, hwell⟩⟩
    rw [flatMap_cons, ← htext]
    rfl

/-! ### Harmless patterns -/

variable {alphanumeric : Char → Bool} {scalars : List (Text × Text)}

theorem parseLoop_plain {raw value rest buf : Text} {segments : List Segment}
    (h : Plain value) :
    parseLoop alphanumeric raw (value ++ rest) buf segments =
      parseLoop alphanumeric raw rest (buf ++ value) segments := by
  induction value generalizing buf with
  | nil => rw [nil_append, append_nil]
  | cons c value ih =>
    have hopen : c ≠ '{' := fun heq => h.1 (heq ▸ mem_cons_self)
    have hclose : c ≠ '}' := fun heq => h.2 (heq ▸ mem_cons_self)
    have hvalue : Plain value :=
      ⟨fun hmem => h.1 (.tail c hmem), fun hmem => h.2 (.tail c hmem)⟩
    rw [cons_append, parseLoop_literal hopen hclose, ih hvalue, append_assoc]
    rfl

theorem parseLoop_escape {raw rest inner rest' buf : Text} {segments : List Segment}
    (h : scanEscaped rest = some (inner, rest')) :
    parseLoop alphanumeric raw ('{' :: '{' :: rest) buf segments =
      parseLoop alphanumeric raw rest' (buf ++ '{' :: inner ++ ['}']) segments := by
  rw [parseLoop]
  split
  · rename_i hnone
    rw [h] at hnone
    cases hnone
  · rename_i hsome
    rw [h] at hsome
    cases hsome
    rfl

theorem not_opening_wildcard (halnum : alphanumeric '{' = false) {name : Text}
    (hvalid : (name.all fun c => alphanumeric c || c = '_') = true)
    (hstarts : ¬ "config.".toList <+: name) : ¬ opening <:+: '{' :: name ++ ['}'] := by
  have hbrace : '{' ∉ name := by
    intro hmem
    have hc := List.all_eq_true.mp hvalid _ hmem
    rw [halnum] at hc
    exact absurd hc (by decide)
  rintro ⟨before, after, heq⟩
  cases before with
  | nil =>
    have hname : "config.".toList ++ after = name ++ ['}'] := List.cons.inj heq |>.2
    refine hstarts ?_
    obtain ⟨middle, hn, -⟩ | ⟨middle, hconfig, htail⟩ := append_eq_append_iff.mp hname
    · exact ⟨middle, hn.symm⟩
    · cases middle with
      | nil => exact ⟨[], by rw [hconfig, append_nil, append_nil]⟩
      | cons =>
        rw [cons_append, List.cons.injEq] at htail
        have hmem : '}' ∈ "config.".toList := by
          rw [hconfig, ← htail.1]
          exact mem_append_right _ mem_cons_self
        exact absurd hmem (by decide)
  | cons c before =>
    have hname : before ++ opening ++ after = name ++ ['}'] := List.cons.inj heq |>.2
    have hmem : '{' ∈ name ++ ['}'] := by
      rw [← hname, append_assoc]
      exact mem_append_right _ mem_cons_self
    cases mem_append.mp hmem with
    | inl hin => exact hbrace hin
    | inr hin => exact absurd hin (by decide)

theorem escapeText_append (inner rest : Text) :
    escapeText inner ++ rest = ('{' :: '{' :: inner ++ ['}']) ++ '}' :: rest := by
  rw [escapeText]
  simp only [cons_append, append_assoc, nil_append]

theorem not_startsClosed {c : Char} (hc : c ≠ '{') (rest : Text) : ¬ StartsClosed (c :: rest) := by
  rintro ⟨_, _, -, heq⟩
  exact hc (List.cons.inj heq).1

theorem substituteRefs_token (scalars : List (Text × Text)) {token : Token}
    (hwell : token.WellFormed) (rest : Text) :
    substituteRefs scalars (token.text ++ rest) =
        substituteRefs scalars token.text ++ substituteRefs scalars rest ∧
      configRefs (token.text ++ rest) = configRefs token.text ++ configRefs rest := by
  have hbrace : ∀ front : Text, token.text = front ++ ['}'] →
      substituteRefs scalars (token.text ++ rest) =
          substituteRefs scalars token.text ++ substituteRefs scalars rest ∧
        configRefs (token.text ++ rest) = configRefs token.text ++ configRefs rest := by
    intro front htext
    rw [htext, append_assoc]
    exact substituteRefs_split scalars front rest
  cases token with
  | char c =>
    obtain ⟨hnil, hnilRefs⟩ := substituteRefs_nil scalars
    obtain ⟨hsub, hrefs⟩ := substituteRefs_char scalars (not_startsClosed hwell.1 rest)
    obtain ⟨hsub', hrefs'⟩ := substituteRefs_char scalars (not_startsClosed hwell.1 [])
    have htext : Token.text (.char c) = [c] := rfl
    rw [htext, singleton_append, hsub, hrefs, hsub', hrefs', hnil, hnilRefs]
    exact ⟨rfl, rfl⟩
  | escape inner =>
    refine hbrace ('{' :: '{' :: inner ++ ['}']) ?_
    rw [← escapeText_append, append_nil]
    rfl
  | reference key => exact hbrace (opening ++ key) rfl
  | wildcard name => exact hbrace ('{' :: name) rfl

theorem parseLoop_token (halnum : alphanumeric '{' = false) (raw rest : Text) {token : Token}
    (hwell : token.WellFormed)
    (hplain : ∀ inner, token = .escape inner → ¬ opening <:+: escapeText inner)
    (hvalues : Values scalars Plain token.text) {buf buf' : Text}
    {segments segments' : List Segment}
    (h : next alphanumeric scalars buf segments token = some (buf', segments')) :
    parseLoop alphanumeric raw (substituteRefs scalars token.text ++ rest) buf segments =
      parseLoop alphanumeric raw rest buf' segments' := by
  cases token with
  | char c =>
    cases h
    have hsub := (substituteRefs_char scalars (not_startsClosed hwell.1 [])).1
    rw [(substituteRefs_nil scalars).1] at hsub
    have htext : Token.text (.char c) = [c] := rfl
    rw [htext, hsub]
    exact parseLoop_literal hwell.1 hwell.2
  | escape inner =>
    cases h
    have hfree : ¬ opening <:+: Token.text (.escape inner) := hplain inner rfl
    have hshape : Token.text (.escape inner) ++ rest =
        '{' :: '{' :: (inner ++ '}' :: '}' :: rest) := by
      rw [Token.text, escapeText]
      simp only [cons_append, append_assoc, nil_append]
    rw [(substituteRefs_of_free scalars hfree).1, hshape]
    exact parseLoop_escape (hwell rest)
  | reference key =>
    have hkey : '}' ∉ key := hwell
    have htext : Token.text (.reference key) = opening ++ key ++ '}' :: [] := rfl
    unfold Values at hvalues
    rw [htext, configRefs_reference hkey] at hvalues
    obtain ⟨value, hlookup, heq⟩ := map_eq_some_iff.mp h
    cases heq
    have hvalue := hvalues key mem_cons_self value hlookup
    rw [htext, substituteRefs_reference scalars hkey, hlookup, getD_some,
      (substituteRefs_nil scalars).1, append_nil]
    exact parseLoop_plain hvalue
  | wildcard name =>
    obtain ⟨hclose, hstarts⟩ := hwell
    rw [next] at h
    split_ifs at h with hname hvalid hadjacent
    cases h
    have hfree : ¬ opening <:+: Token.text (.wildcard name) :=
      not_opening_wildcard halnum hvalid hstarts
    have hshape : Token.text (.wildcard name) ++ rest = '{' :: (name ++ '}' :: rest) := by
      rw [Token.text, cons_append, cons_append, append_assoc]
      rfl
    have hadj : endsInWildcard (flush buf segments) = false := by
      rw [Bool.not_eq_true] at hadjacent
      exact hadjacent
    rw [(substituteRefs_of_free scalars hfree).1, hshape]
    cases name with
    | nil => exact absurd rfl hname
    | cons c =>
      have hc : c ≠ '{' := by
        rintro rfl
        have hin := List.all_eq_true.mp hvalid '{' mem_cons_self
        rw [halnum] at hin
        exact absurd hin (by decide)
      exact parseLoop_wildcard hc (scanName_append hclose) hname hvalid hadj

theorem Values.split {condition : Text → Prop} {token : Token} {rest : Text}
    (hwell : token.WellFormed) (h : Values scalars condition (token.text ++ rest)) :
    Values scalars condition token.text ∧ Values scalars condition rest := by
  unfold Values at h
  rw [(substituteRefs_token scalars hwell rest).2] at h
  exact ⟨fun k hk => h k (mem_append_left _ hk), fun k hk => h k (mem_append_right _ hk)⟩

theorem parseLoop_of_assemble (halnum : alphanumeric '{' = false) (raw : Text)
    {tokens : List Token} {buf : Text} {segments out : List Segment}
    (hwell : ∀ token ∈ tokens, token.WellFormed) (hplain : PlainEscapes tokens)
    (hvalues : Values scalars Plain (tokens.flatMap Token.text))
    (h : assemble alphanumeric scalars tokens buf segments = some out) :
    parseLoop alphanumeric raw (substituteRefs scalars (tokens.flatMap Token.text)) buf segments =
      .ok out := by
  induction tokens generalizing buf segments with
  | nil =>
    cases h
    rw [flatMap_nil, (substituteRefs_nil scalars).1, parseLoop]
  | cons token tokens ih =>
    have htoken := hwell token mem_cons_self
    have hescape : ∀ inner, token = .escape inner → ¬ opening <:+: escapeText inner :=
      fun inner heq => hplain inner (heq ▸ mem_cons_self)
    rw [flatMap_cons] at hvalues ⊢
    obtain ⟨hvalue, hvalues⟩ := hvalues.split htoken
    rw [assemble] at h
    cases hnext : next alphanumeric scalars buf segments token with
    | none =>
      rw [hnext] at h
      cases h
    | some =>
      rw [hnext] at h
      rw [(substituteRefs_token scalars htoken _).1,
        parseLoop_token halnum raw _ htoken hescape hvalue hnext]
      exact ih (fun t ht => hwell t (.tail token ht))
        (fun i hi => hplain i (.tail token hi)) hvalues h

/-! ### Escapes with references -/

/-- The segments begin with those read so far and, where a literal has begun, with that literal. -/
def Continues (buf : Text) (segments out : List Segment) : Prop :=
  segments <+: out ∧ (buf ≠ [] → ∃ rest more, out = segments ++ .literal (buf ++ rest) :: more)

theorem continues_flush (buf : Text) (segments : List Segment) :
    Continues buf segments (flush buf segments) := by
  unfold flush
  split_ifs with hbuf
  · exact ⟨prefix_rfl, fun hne => absurd hbuf hne⟩
  · exact ⟨prefix_append _ _, fun _ => ⟨[], [], by rw [append_nil]⟩⟩

theorem Continues.grow {buf more : Text} {segments out : List Segment}
    (h : Continues (buf ++ more) segments out) : Continues buf segments out := by
  refine ⟨h.1, fun hne => ?_⟩
  obtain ⟨rest, tail, heq⟩ := h.2 (append_ne_nil_of_left_ne_nil hne more)
  exact ⟨more ++ rest, tail, by rw [heq, append_assoc]⟩

theorem Continues.flushed {buf : Text} {segments out : List Segment} {segment : Segment}
    (h : flush buf segments ++ [segment] <+: out) : Continues buf segments out := by
  obtain ⟨more, rfl⟩ := h
  obtain ⟨hsegments, hliteral⟩ := continues_flush buf segments
  refine ⟨?_, fun hne => ?_⟩
  · exact hsegments.trans ((prefix_append _ _).trans (prefix_append _ _))
  · obtain ⟨rest, tail, heq⟩ := hliteral hne
    refine ⟨rest, tail ++ segment :: more, ?_⟩
    rw [heq, append_assoc, append_assoc, singleton_append]
    rfl

theorem continues_parseLoop {raw s buf : Text} {segments out : List Segment}
    (h : parseLoop alphanumeric raw s buf segments = .ok out) : Continues buf segments out := by
  fun_induction parseLoop alphanumeric raw s buf segments with
  | case1 buf segments =>
    cases h
    exact continues_flush buf segments
  | case2 | case4 | case5 | case6 | case7 | case9 => cases h
  | case3 buf segments rest inner rest' hscan ih =>
    have hgrow := ih h
    rw [append_assoc] at hgrow
    exact hgrow.grow
  | case8 buf segments rest _ name rest' hscan hname hvalid hadjacent ih =>
    exact Continues.flushed (ih h).1
  | case10 buf segments c rest _ hopen _ ih => exact (ih h).grow

theorem Continues.next {token : Token} {buf buf' : Text} {segments segments' out : List Segment}
    (h : next alphanumeric scalars buf segments token = some (buf', segments'))
    (hout : Continues buf' segments' out) : Continues buf segments out := by
  cases token with
  | char =>
    cases h
    exact hout.grow
  | escape =>
    cases h
    rw [append_assoc] at hout
    exact hout.grow
  | reference =>
    obtain ⟨_, -, heq⟩ := map_eq_some_iff.mp h
    cases heq
    exact hout.grow
  | wildcard =>
    rw [ConfigSubstitution.next] at h
    split_ifs at h
    cases h
    exact Continues.flushed hout.1

theorem continues_assemble {tokens : List Token} {buf : Text} {segments out : List Segment}
    (h : assemble alphanumeric scalars tokens buf segments = some out) :
    Continues buf segments out := by
  induction tokens generalizing buf segments with
  | nil =>
    cases h
    exact continues_flush buf segments
  | cons token tokens ih =>
    rw [assemble] at h
    cases hnext : ConfigSubstitution.next alphanumeric scalars buf segments token with
    | none =>
      rw [hnext] at h
      cases h
    | some =>
      rw [hnext] at h
      exact (ih h).next hnext

theorem wildcard_of_parseLoop {raw rest buf : Text} {c : Char} {segments out : List Segment}
    (hc : c ≠ '{') (h : parseLoop alphanumeric raw ('{' :: c :: rest) buf segments = .ok out) :
    ∃ name more, out = flush buf segments ++ .wildcard name :: more := by
  rw [parseLoop] at h
  · split at h
    · cases h
    · rename_i name rest' hscan
      split_ifs at h
      obtain ⟨more, hmore⟩ := (continues_parseLoop h).1
      refine ⟨name, more, ?_⟩
      rw [← hmore, append_assoc]
      rfl
  · intro r hr
    exact absurd (List.cons.inj hr).1 hc

theorem wildcard_ne_literal {buf rest name : Text} {segments more more' : List Segment} {c : Char}
    (h : flush buf segments ++ .wildcard name :: more =
      segments ++ .literal (buf ++ c :: rest) :: more') : False := by
  unfold flush at h
  split_ifs at h with hbuf
  · have hhead := append_cancel_left h
    cases hhead
  · rw [append_assoc] at h
    have hhead := append_cancel_left h
    rw [singleton_append, List.cons.injEq, Segment.literal.injEq] at hhead
    have hlen := congrArg List.length hhead.1
    simp only [length_append, length_cons] at hlen
    omega

theorem scanEscaped_front {front inner after rest : Text} {c : Char}
    (h : scanEscaped (front ++ '{' :: after) = some (front ++ '{' :: inner, rest))
    (hc : c ≠ '}') (other : Text) :
    scanEscaped (front ++ c :: other) =
      (scanEscaped (c :: other)).map fun e => (front ++ e.1, e.2) := by
  induction front with
  | nil =>
    rw [nil_append]
    cases scanEscaped (c :: other) with
    | none | some => rfl
  | cons d front ih =>
    rw [cons_append, cons_append] at h
    have hpair : ∀ tail, d = '}' → front ++ '{' :: after = '}' :: tail → False := by
      intro tail hd htail
      rw [hd, htail, scanEscaped] at h
      cases h
    rw [scanEscaped] at h
    · obtain ⟨⟨_, _⟩, hscan, heq⟩ := map_eq_some_iff.mp h
      cases heq
      rw [cons_append, scanEscaped]
      · rw [ih hscan, Option.map_map]
        rfl
      · intro tail hd htail
        cases front with
        | nil => exact hc (List.cons.inj htail).1
        | cons d' front =>
          rw [cons_append, List.cons.injEq] at htail
          refine hpair (front ++ '{' :: after) hd ?_
          rw [htail.1]
          rfl
    · exact hpair

theorem reference_in_escape {inner front after : Text}
    (h : escapeText inner = front ++ opening ++ after) :
    front = ['{'] ∨ ∃ start rest, front = '{' :: '{' :: start ∧ inner = start ++ '{' :: rest := by
  have hshape : opening = '{' :: "config.".toList := rfl
  rw [escapeText, hshape] at h
  cases front with
  | nil => exact absurd (List.cons.inj (List.cons.inj h).2).1 (by decide)
  | cons c front =>
    cases front with
    | nil =>
      have hc : '{' = c := (List.cons.inj h).1
      exact Or.inl (by rw [← hc])
    | cons d start =>
      have hc : '{' = c := (List.cons.inj h).1
      have hd : '{' = d := (List.cons.inj (List.cons.inj h).2).1
      have hrest : inner ++ ['}', '}'] = start ++ ('{' :: "config.".toList) ++ after :=
        (List.cons.inj (List.cons.inj h).2).2
      rw [append_assoc] at hrest
      refine Or.inr ?_
      obtain ⟨middle, -, hmiddle⟩ | ⟨middle, hinner, hmiddle⟩ :=
        append_eq_append_iff.mp hrest
      · have hmem : '{' ∈ ['}', '}'] := by
          rw [hmiddle]
          exact mem_append_right _ mem_cons_self
        exact absurd hmem (by decide)
      · cases middle with
        | nil => exact absurd (List.cons.inj hmiddle).1 (by decide)
        | cons e rest =>
          have he : '{' = e := (List.cons.inj hmiddle).1
          exact ⟨start, rest, by rw [← hc, ← hd], by rw [hinner, ← he]⟩

theorem substituteRefs_of_infix (scalars : List (Text × Text)) {s : Text}
    (hclosed : Closed s) (h : opening <:+: s) :
    ∃ front key rest, s = front ++ opening ++ (key ++ '}' :: rest) ∧ key ∈ configRefs s ∧
      substituteRefs scalars s =
        front ++ (scalars.lookup key).getD (ConfigStages.reference key) ++
          substituteRefs scalars rest := by
  cases hfind : findConfig s with
  | none => exact absurd h (findConfig_eq_none_iff.mp hfind)
  | some e =>
    obtain ⟨front, after⟩ := e
    have heq := eq_of_findConfig hfind
    obtain ⟨key, rest, rfl, hkey⟩ := eq_append_cons_of_mem (hclosed front after heq)
    refine ⟨front, key, rest, heq, ?_, ?_⟩
    · rw [configRefs, hfind]
      dsimp only
      rw [scanName_append hkey]
      exact mem_cons_self
    · rw [substituteRefs, hfind]
      dsimp only
      rw [scanName_append hkey]

theorem closed_escapeText (inner : Text) : Closed (escapeText inner) := by
  intro before after heq
  by_contra hnot
  have hopen : '}' ∉ opening ++ after := by
    rw [mem_append]
    exact fun hmem => hmem.elim (by decide) hnot
  have hsplit : ('{' :: '{' :: inner ++ ['}']) ++ '}' :: [] = before ++ (opening ++ after) := by
    rw [← append_assoc before, ← heq, escapeText]
    simp only [cons_append, append_assoc, nil_append]
  obtain ⟨_, hnil, -⟩ := suffix_after_brace hopen hsplit
  have hlen := congrArg List.length hnil
  have hopening : opening.length = 8 := rfl
  simp only [length_nil, length_append] at hlen
  omega

theorem misread_of_reference {raw inner rest buf : Text} {tokens : List Token}
    {segments out : List Segment} (hwell : (Token.escape inner).WellFormed)
    (hvalues : Values scalars (fun value => value ≠ [] ∧ Plain value) (escapeText inner))
    (hdefined : Defined scalars (escapeText inner))
    (hreference : opening <:+: escapeText inner)
    (hreading : assemble alphanumeric scalars tokens (buf ++ '{' :: inner ++ ['}']) segments =
      some out)
    (hparse : parseLoop alphanumeric raw (substituteRefs scalars (escapeText inner) ++ rest) buf
      segments = .ok out) : False := by
  obtain ⟨front, key, tail, heq, hkey, hsub⟩ :=
    substituteRefs_of_infix scalars (closed_escapeText inner) hreference
  obtain ⟨value, hlookup⟩ := isSome_iff_exists.mp (hdefined key hkey)
  obtain ⟨hne, hplain⟩ := hvalues key hkey value hlookup
  rw [hsub, hlookup, getD_some] at hparse
  cases value with
  | nil => exact hne rfl
  | cons c value =>
    have hopen : c ≠ '{' := fun h => hplain.1 (h ▸ mem_cons_self)
    have hclose : c ≠ '}' := fun h => hplain.2 (h ▸ mem_cons_self)
    have hliteral := (continues_assemble hreading).2 (by simp)
    obtain ⟨z, more, hout⟩ := hliteral
    cases reference_in_escape heq with
    | inl hfront =>
      rw [hfront] at hparse
      have hbrace : parseLoop alphanumeric raw
          ('{' :: c :: (value ++ (substituteRefs scalars tail ++ rest))) buf segments = .ok out := by
        simpa only [cons_append, append_assoc, nil_append] using hparse
      obtain ⟨_, more', hwildcard⟩ := wildcard_of_parseLoop hopen hbrace
      have hout' : out = segments ++ .literal (buf ++ '{' :: (inner ++ ['}'] ++ z)) :: more := by
        rw [hout]
        simp only [cons_append, append_assoc]
      exact wildcard_ne_literal (hwildcard.symm.trans hout')
    | inr hinside =>
      obtain ⟨start, inner', hfront, hinner⟩ := hinside
      have hscanned : scanEscaped (start ++ '{' :: (inner' ++ '}' :: '}' :: [])) =
          some (start ++ '{' :: inner', []) := by
        have h := hwell []
        rw [hinner] at h
        simpa only [cons_append, append_assoc] using h
      have hfrontScan := scanEscaped_front hscanned hclose
        (value ++ substituteRefs scalars tail ++ rest)
      have hshape : front ++ c :: value ++ substituteRefs scalars tail ++ rest =
          '{' :: '{' :: (start ++ c :: (value ++ substituteRefs scalars tail ++ rest)) := by
        rw [hfront]
        simp only [cons_append, append_assoc]
      rw [hshape] at hparse
      cases hinnerScan : scanEscaped (value ++ substituteRefs scalars tail ++ rest) with
      | none =>
        rw [scanEscaped, hinnerScan] at hfrontScan
        · rw [parseLoop] at hparse
          split at hparse
          · cases hparse
          · rename_i hsome
            rw [hfrontScan] at hsome
            cases hsome
        · exact fun _ h _ => hclose h
      | some e =>
        obtain ⟨i, r⟩ := e
        rw [scanEscaped, hinnerScan] at hfrontScan
        · rw [parseLoop_escape hfrontScan] at hparse
          obtain ⟨_, more', hout'⟩ := (continues_parseLoop hparse).2 (by simp)
          rw [hout'] at hout
          have hsame := append_cancel_left hout
          rw [List.cons.injEq, Segment.literal.injEq] at hsame
          have htext := hsame.1
          rw [hinner] at htext
          simp only [append_assoc, cons_append] at htext
          have hcancel := append_cancel_left (List.cons.inj (append_cancel_left htext)).2
          exact hopen (List.cons.inj hcancel).1
        · exact fun _ h _ => hclose h

theorem plainEscapes_of_parseLoop (halnum : alphanumeric '{' = false) {raw : Text}
    {tokens : List Token} {buf : Text} {segments out : List Segment}
    (hwell : ∀ token ∈ tokens, token.WellFormed)
    (hvalues : Values scalars (fun value => value ≠ [] ∧ Plain value)
      (tokens.flatMap Token.text))
    (hdefined : Defined scalars (tokens.flatMap Token.text))
    (h : assemble alphanumeric scalars tokens buf segments = some out)
    (hparse : parseLoop alphanumeric raw (substituteRefs scalars (tokens.flatMap Token.text)) buf
      segments = .ok out) : PlainEscapes tokens := by
  induction tokens generalizing buf segments with
  | nil => exact fun inner hinner => absurd hinner not_mem_nil
  | cons token tokens ih =>
    have htoken := hwell token mem_cons_self
    rw [flatMap_cons] at hvalues hdefined hparse
    obtain ⟨hsub, hrefs⟩ := substituteRefs_token scalars htoken
      (tokens.flatMap Token.text)
    obtain ⟨hvalue, hvalues⟩ := hvalues.split htoken
    unfold Defined at hdefined
    rw [hrefs] at hdefined
    rw [hsub] at hparse
    rw [assemble] at h
    cases hnext : next alphanumeric scalars buf segments token with
    | none =>
      rw [hnext] at h
      cases h
    | some =>
      rw [hnext] at h
      have hfree : ∀ inner, token = .escape inner → ¬ opening <:+: escapeText inner := by
        rintro inner rfl hreference
        cases hnext
        exact misread_of_reference htoken hvalue
          (fun k hk => hdefined k (mem_append_left _ hk)) hreference h hparse
      rw [parseLoop_token halnum raw _ htoken hfree
        (fun k hk v hv => (hvalue k hk v hv).2) hnext] at hparse
      have hplain := ih (fun t ht => hwell t (.tail token ht)) hvalues
        (fun k hk => hdefined k (mem_append_right _ hk)) h hparse
      intro inner hinner
      cases mem_cons.mp hinner with
      | inl heq => exact hfree inner heq.symm
      | inr hmem => exact hplain inner hmem

/-! ### Literal substitution -/

theorem substituteConfigScalars_closed {pattern : Text} (hdefined : Defined scalars pattern)
    (hclosed : Closed pattern) :
    substituteConfigScalars scalars pattern = .ok (substituteRefs scalars pattern) := by
  obtain ⟨_, hout⟩ := substituteConfigScalars_ok hdefined
  have heq := substituteConfigScalars_eq hout
  have htail := ((repeatedTail_spec pattern).resolve_right fun hopen => hopen.1 hclosed).2
  rw [htail, append_nil, substituteConfigRefs_eq] at heq
  rw [hout, heq]

theorem closed_of_substitutesLiterally {pattern : Text}
    (h : SubstitutesLiterally alphanumeric scalars pattern) : Closed pattern := by
  obtain ⟨_, hout, -, hsame, -⟩ := h
  have heq := substituteConfigScalars_eq hout
  refine ((repeatedTail_spec pattern).resolve_right ?_).1
  rintro ⟨-, _, _, htail, -⟩
  have hlen := congrArg List.length (hsame.symm.trans heq)
  have hopening : opening.length = 8 := rfl
  rw [htail] at hlen
  simp only [length_append] at hlen
  omega

theorem parse_eq_iff {pattern out : Text} {segments : List Segment} :
    parse alphanumeric out = .ok ⟨pattern, segments⟩ ↔
      out = pattern ∧ parseLoop alphanumeric out out [] [] = .ok segments := by
  unfold parse
  cases parseLoop alphanumeric out out [] [] with
  | error => exact ⟨nofun, fun h => nomatch h.2⟩
  | ok =>
    constructor
    · intro h
      cases h
      exact ⟨rfl, rfl⟩
    · rintro ⟨rfl, h⟩
      cases h
      rfl

theorem reading_eq_some_iff {pattern : Text} {segments : List Segment} :
    reading alphanumeric scalars pattern = some segments ↔
      ∃ tokens, tokenize pattern = some tokens ∧
        assemble alphanumeric scalars tokens [] [] = some segments :=
  bind_eq_some_iff

theorem substitutesLiterally_of_harmless (halnum : alphanumeric '{' = false) {pattern : Text}
    (hdefined : Defined scalars pattern) (h : Harmless alphanumeric scalars pattern) :
    SubstitutesLiterally alphanumeric scalars pattern := by
  refine ⟨substituteRefs scalars pattern, substituteConfigScalars_closed hdefined h.closed,
    replaced_substituteRefs hdefined, (substituteConfigRefs_eq scalars pattern).symm, ?_⟩
  intro segments hreading
  obtain ⟨tokens, htokens, hassemble⟩ := reading_eq_some_iff.mp hreading
  obtain ⟨htext, hwell⟩ := tokenize_spec htokens
  have hvalues := h.values segments hreading
  have hplain := h.escapes segments hreading tokens htokens
  refine parse_eq_iff.mpr ⟨rfl, ?_⟩
  rw [htext] at hvalues ⊢
  exact parseLoop_of_assemble halnum _ hwell hplain hvalues hassemble

theorem harmless_of_substitutesLiterally (halnum : alphanumeric '{' = false) {pattern : Text}
    (hdefined : Defined scalars pattern)
    (hvalues : Values scalars (fun value => value ≠ [] ∧ Plain value) pattern)
    (h : SubstitutesLiterally alphanumeric scalars pattern) :
    Harmless alphanumeric scalars pattern := by
  have hclosed := closed_of_substitutesLiterally h
  refine ⟨hclosed, fun _ _ key hkey value hvalue => (hvalues key hkey value hvalue).2, ?_⟩
  intro segments hreading tokens htokens
  obtain ⟨_, htokens', hassemble⟩ := reading_eq_some_iff.mp hreading
  rw [htokens] at htokens'
  cases htokens'
  obtain ⟨_, hout, -, -, hparse⟩ := h
  rw [substituteConfigScalars_closed hdefined hclosed] at hout
  cases hout
  obtain ⟨-, hloop⟩ := parse_eq_iff.mp (hparse segments hreading)
  obtain ⟨htext, hwell⟩ := tokenize_spec htokens
  have hparsed : parseLoop alphanumeric (substituteRefs scalars pattern)
      (substituteRefs scalars (tokens.flatMap Token.text)) [] [] = .ok segments := by
    rw [← htext]
    exact hloop
  rw [htext] at hvalues hdefined
  exact plainEscapes_of_parseLoop halnum hwell hvalues hdefined hassemble hparsed

/-- Harmless patterns are substituted literally; no pattern with an open reference is; and where the
values have no braces and are not empty, only harmless patterns are. -/
theorem substitution_literal (halnum : alphanumeric '{' = false) {pattern : Text}
    (hdefined : Defined scalars pattern) :
    (Harmless alphanumeric scalars pattern → SubstitutesLiterally alphanumeric scalars pattern) ∧
      (SubstitutesLiterally alphanumeric scalars pattern → Closed pattern) ∧
      (Values scalars (fun value => value ≠ [] ∧ Plain value) pattern →
        (SubstitutesLiterally alphanumeric scalars pattern ↔
          Harmless alphanumeric scalars pattern)) :=
  ⟨substitutesLiterally_of_harmless halnum hdefined, closed_of_substitutesLiterally,
    fun hvalues => ⟨harmless_of_substitutesLiterally halnum hdefined hvalues,
      substitutesLiterally_of_harmless halnum hdefined⟩⟩

def inDirectory : Text := "\x7bconfig.d\x7d/x".toList

theorem configRefs_inDirectory : configRefs inDirectory = [['d']] := by
  have htext : inDirectory = opening ++ ['d'] ++ '}' :: ['/', 'x'] := rfl
  have hrest : '}' ∉ ['/', 'x'] := by decide
  rw [htext, configRefs_reference (by decide), (substituteRefs_of_notMem [] hrest).2]

theorem closed_inDirectory : Closed inDirectory := by
  intro before after heq
  by_contra hnot
  have hsplit : (opening ++ ['d']) ++ '}' :: ['/', 'x'] = before ++ (opening ++ after) := by
    rw [← append_assoc before, ← heq]
    rfl
  have hopen : '}' ∉ opening ++ after := by
    rw [mem_append]
    exact fun hmem => hmem.elim (by decide) hnot
  obtain ⟨_, hrest, -⟩ := suffix_after_brace hopen hsplit
  have hlen := congrArg List.length hrest
  have hopening : opening.length = 8 := rfl
  simp only [length_append, length_cons, length_nil] at hlen
  omega

/-- With the directory `out` the pattern is substituted literally. -/
theorem substitution_literal_inDirectory :
    SubstitutesLiterally Char.isAlphanum [(['d'], ['o', 'u', 't'])] inDirectory := by
  have hdefined : Defined [(['d'], ['o', 'u', 't'])] inDirectory := by
    unfold Defined
    rw [configRefs_inDirectory]
    decide
  have hvalues : Values [(['d'], ['o', 'u', 't'])] Plain inDirectory := by
    unfold Values
    rw [configRefs_inDirectory]
    intro key hkey value hvalue
    cases mem_singleton.mp hkey
    cases hvalue
    exact ⟨by decide, by decide⟩
  have htokens : tokenize inDirectory = some [.reference ['d'], .char '/', .char 'x'] := by
    with_unfolding_all decide
  refine (substitution_literal (by decide) hdefined).1
    ⟨closed_inDirectory, fun _ _ => hvalues, fun _ _ tokens h => ?_⟩
  rw [htokens] at h
  cases h
  exact fun inner hinner => absurd hinner (by simp)

/-- A value in braces becomes a wildcard, an escaped reference is replaced, and the text with an
open reference is repeated. -/
theorem not_substitution_literal :
    (Defined [(['d'], ['{', 's', '}'])] "\x7bconfig.d\x7d".toList ∧
      ¬ SubstitutesLiterally Char.isAlphanum [(['d'], ['{', 's', '}'])]
        "\x7bconfig.d\x7d".toList) ∧
      (Defined [(['d'], ['s'])] (escapeText "config.d".toList) ∧
        ¬ SubstitutesLiterally Char.isAlphanum [(['d'], ['s'])] (escapeText "config.d".toList)) ∧
      Defined [] "a\x7bconfig.".toList ∧
        ¬ SubstitutesLiterally Char.isAlphanum [] "a\x7bconfig.".toList := by
  refine ⟨⟨?_, ?_⟩, ⟨?_, ?_⟩, ?_, ?_⟩
  · unfold Defined
    with_unfolding_all decide
  · rintro ⟨_, hout, -, -, hparse⟩
    have hreplaced : substituteConfigScalars [(['d'], ['{', 's', '}'])]
        "\x7bconfig.d\x7d".toList = .ok ['{', 's', '}'] := by
      with_unfolding_all decide
    rw [hreplaced] at hout
    cases hout
    have hreading : reading Char.isAlphanum [(['d'], ['{', 's', '}'])]
        "\x7bconfig.d\x7d".toList = some [.literal ['{', 's', '}']] := by
      with_unfolding_all decide
    have hliteral := (parse_eq_iff.mp (hparse _ hreading)).2
    rw [parseLoop_wildcard (by decide) rfl (by decide) (by decide) rfl, parseLoop] at hliteral
    cases hliteral
  · unfold Defined
    with_unfolding_all decide
  · intro h
    have hdefined : Defined [(['d'], ['s'])] (escapeText "config.d".toList) := by
      unfold Defined
      with_unfolding_all decide
    have hrefs : configRefs (escapeText "config.d".toList) = [['d']] := by
      with_unfolding_all decide
    have hvalues : Values [(['d'], ['s'])] (fun value => value ≠ [] ∧ Plain value)
        (escapeText "config.d".toList) := by
      unfold Values
      rw [hrefs]
      intro key hkey value hvalue
      cases mem_singleton.mp hkey
      cases hvalue
      exact ⟨by decide, by decide, by decide⟩
    have htokens : tokenize (escapeText "config.d".toList) =
        some [.escape "config.d".toList] := by
      with_unfolding_all decide
    have hreading : reading Char.isAlphanum [(['d'], ['s'])] (escapeText "config.d".toList) =
        some [.literal ('{' :: "config.d".toList ++ ['}'])] := by
      with_unfolding_all decide
    have hharmless := harmless_of_substitutesLiterally (by decide) hdefined hvalues h
    have hfree := hharmless.escapes _ hreading _ htokens _ mem_cons_self
    exact hfree ⟨['{'], ['d', '}', '}'], rfl⟩
  · unfold Defined
    with_unfolding_all decide
  · intro h
    have hclosed := closed_of_substitutesLiterally h ['a'] [] rfl
    exact absurd hclosed not_mem_nil

end OxyMake.ConfigSubstitution

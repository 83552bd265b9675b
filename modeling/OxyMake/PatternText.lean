import OxyMake.ConfigSubstitution

/-!
# The text of a pattern

The text of a parsed pattern is a sequence of characters, escapes and wildcards.
Interpolation writes the values of the wildcards and the inner part of the
escapes. The scan for wildcard names that the targets use finds every wildcard,
and it also takes what begins an escape for a name.
-/

namespace OxyMake.PatternText

open List
open Wildcard
open ConfigStages (scanWildcards)
open ConfigSubstitution (Token escapeText)
open ReferenceScanning (eq_of_scanEscaped eq_of_scanName)

def written (env : Text → Text) (segments : List Segment) : Text :=
  segments.flatMap fun
    | .literal text => text
    | .wildcard name => env name

def Readable : Token → Prop
  | .char c => c ≠ '{' ∧ c ≠ '}'
  | .escape _ => True
  | .reference _ => False
  | .wildcard name => name ≠ [] ∧ '{' ∉ name ∧ '}' ∉ name

def names : Token → List Text
  | .wildcard name => [name]
  | _ => []

def shown (env : Text → Text) : Token → Text
  | .char c => [c]
  | .escape inner => '{' :: inner ++ ['}']
  | .reference _ => []
  | .wildcard name => env name

def addNames (names more : List Text) : List Text :=
  more.foldl (fun names name => if names.contains name then names else names ++ [name]) names

/-! ### Interpolation -/

theorem segmentNames_append (segments more : List Segment) :
    segmentNames (segments ++ more) = segmentNames segments ++ segmentNames more := by
  induction segments with
  | nil => rfl
  | cons segment segments ih =>
    cases segment with
    | literal => exact ih
    | wildcard =>
      rw [cons_append, segmentNames, ih]
      rfl

theorem segmentNames_flush (buf : Text) (segments : List Segment) :
    segmentNames (flush buf segments) = segmentNames segments := by
  rw [flush]
  split_ifs with hbuf
  · rfl
  · rw [segmentNames_append]
    exact append_nil _

theorem written_append (env : Text → Text) (segments more : List Segment) :
    written env (segments ++ more) = written env segments ++ written env more :=
  flatMap_append

theorem written_flush (env : Text → Text) (buf : Text) (segments : List Segment) :
    written env (flush buf segments) = written env segments ++ buf := by
  rw [flush]
  split_ifs with hbuf
  · rw [hbuf, append_nil]
  · rw [written_append]
    exact congrArg (written env segments ++ ·) (append_nil buf)

theorem written_congr {env env' : Text → Text} {segments : List Segment}
    (h : ∀ n ∈ segmentNames segments, env n = env' n) :
    written env segments = written env' segments := by
  induction segments with
  | nil => rfl
  | cons segment segments ih =>
    cases segment with
    | literal text => exact congrArg (text ++ ·) (ih h)
    | wildcard name =>
      have hname := h name mem_cons_self
      have hrest := ih fun n hn => h n (.tail name hn)
      have hcons : ∀ env : Text → Text, written env (.wildcard name :: segments) =
          env name ++ written env segments := fun env => flatMap_cons
      rw [hcons, hcons, hname, hrest]

theorem interpolateSegments_eq {w : Wildcards} {segments : List Segment}
    (h : ∀ n ∈ segmentNames segments, (w.lookup n).isSome = true) :
    interpolateSegments w segments = .ok (written (fun n => (w.lookup n).getD []) segments) := by
  induction segments with
  | nil => rfl
  | cons segment segments ih =>
    cases segment with
    | literal =>
      rw [interpolateSegments, ih h]
      rfl
    | wildcard name =>
      obtain ⟨_, hvalue⟩ := Option.isSome_iff_exists.mp (h name mem_cons_self)
      have hcons : written (fun n => (w.lookup n).getD []) (.wildcard name :: segments) =
          (w.lookup name).getD [] ++ written (fun n => (w.lookup n).getD []) segments :=
        flatMap_cons
      rw [interpolateSegments, hvalue, hcons, hvalue]
      dsimp only
      rw [ih fun n hn => h n (.tail name hn)]
      rfl

theorem interpolateSegments_unbound {w : Wildcards} {segments : List Segment}
    (hne : segmentNames segments ≠ []) (h : ∀ n ∈ segmentNames segments, w.lookup n = none) :
    ∃ n, interpolateSegments w segments = .error (.unresolvableWildcard n) := by
  induction segments with
  | nil => exact absurd rfl hne
  | cons segment segments ih =>
    cases segment with
    | literal =>
      obtain ⟨n, hn⟩ := ih hne h
      refine ⟨n, ?_⟩
      rw [interpolateSegments, hn]
      rfl
    | wildcard name =>
      refine ⟨name, ?_⟩
      rw [interpolateSegments, h name mem_cons_self]

/-! ### The tokens of a pattern -/

theorem exists_tokens {alphanumeric : Char → Bool} (halnum : alphanumeric '{' = false)
    {raw s buf : Text} {segments out : List Segment}
    (h : parseLoop alphanumeric raw s buf segments = .ok out) :
    ∃ tokens : List Token, (∀ token ∈ tokens, Readable token) ∧ s = tokens.flatMap Token.text ∧
      segmentNames out = segmentNames segments ++ tokens.flatMap names ∧
      ∀ env, written env out = written env segments ++ buf ++ tokens.flatMap (shown env) := by
  fun_induction parseLoop alphanumeric raw s buf segments with
  | case1 =>
    cases h
    refine ⟨[], forall_mem_nil _, rfl, ?_, fun env => ?_⟩
    · rw [segmentNames_flush]
      exact (append_nil _).symm
    · rw [written_flush]
      exact (append_nil _).symm
  | case2 | case4 | case5 | case6 | case7 | case9 => cases h
  | case3 buf segments rest inner rest' hscan ih =>
    obtain ⟨tokens, hread, htext, hnames, hshown⟩ := ih h
    refine ⟨.escape inner :: tokens, forall_mem_cons.mpr ⟨trivial, hread⟩, ?_, ?_, ?_⟩
    · rw [flatMap_cons, ← htext, eq_of_scanEscaped hscan]
      simp only [Token.text, escapeText, cons_append, append_assoc, nil_append]
    · rw [hnames]
      rfl
    · intro env
      rw [hshown env, flatMap_cons]
      simp only [shown, cons_append, append_assoc, nil_append]
  | case8 buf segments rest _ name rest' hscan hname hvalid hadjacent ih =>
    obtain ⟨tokens, hread, htext, hnames, hshown⟩ := ih h
    obtain ⟨hrest, hclose⟩ := eq_of_scanName hscan
    have hopen : '{' ∉ name := by
      intro hmem
      have hc := all_eq_true.mp (not_not.mp hvalid) _ hmem
      rw [halnum] at hc
      exact absurd hc (by decide)
    refine ⟨.wildcard name :: tokens, forall_mem_cons.mpr ⟨⟨hname, hopen, hclose⟩, hread⟩,
      ?_, ?_, ?_⟩
    · rw [flatMap_cons, ← htext, hrest]
      simp only [Token.text, cons_append, append_assoc, nil_append]
    · rw [hnames, segmentNames_append, segmentNames_flush, flatMap_cons, append_assoc]
      rfl
    · intro env
      have hsingle : written env [.wildcard name] = env name := append_nil _
      rw [hshown env, written_append, written_flush, hsingle, flatMap_cons, append_nil,
        append_assoc]
      rfl
  | case10 c rest buf segments _ hopen hclose ih =>
    obtain ⟨tokens, hread, htext, hnames, hshown⟩ := ih h
    refine ⟨.char c :: tokens, forall_mem_cons.mpr ⟨⟨hopen, hclose⟩, hread⟩, ?_, ?_, ?_⟩
    · rw [flatMap_cons, ← htext]
      rfl
    · rw [hnames]
      rfl
    · intro env
      rw [hshown env, flatMap_cons]
      simp only [shown, append_assoc, cons_append, nil_append]

/-! ### The scan for names -/

theorem addNames_cons (acc : List Text) (name : Text) (more : List Text) :
    addNames acc (name :: more) =
      addNames (if acc.contains name then acc else acc ++ [name]) more := rfl

theorem addNames_eq (acc more : List Text) :
    addNames acc more = acc ++ (more.filter fun n => !acc.contains n).eraseDups := by
  induction more generalizing acc with
  | nil => exact (append_nil acc).symm
  | cons name more ih =>
    rw [addNames_cons]
    by_cases hin : acc.contains name = true
    · rw [if_pos hin, ih, filter_cons_of_neg (by rw [hin]; decide)]
    · have hnot : acc.contains name = false := Bool.eq_false_iff.mpr hin
      have hkeep : (name :: more).filter (fun n => !acc.contains n) =
          name :: more.filter fun n => !acc.contains n :=
        filter_cons_of_pos (by rw [hnot]; rfl)
      have hrest : more.filter (fun n => !(acc ++ [name]).contains n) =
          (more.filter fun n => !acc.contains n).filter fun n => !n == name := by
        rw [filter_filter]
        refine filter_congr fun n _ => ?_
        have hsingle : [name].contains n = (n == name) := by
          rw [contains_cons, contains_nil, Bool.or_false]
        rw [contains_append, hsingle, Bool.not_or, Bool.and_comm]
      rw [if_neg hin, ih, hkeep, eraseDups_cons, hrest, append_assoc]
      rfl

theorem addNames_nil (more : List Text) : addNames [] more = more.eraseDups := by
  rw [addNames_eq, nil_append]
  exact congrArg List.eraseDups (filter_eq_self.mpr fun _ _ => rfl)

theorem scanWildcards_char {c : Char} (hc : c ≠ '{') (rest : Text) (acc : List Text) :
    scanWildcards (c :: rest) acc = scanWildcards rest acc := by
  rw [scanWildcards, if_neg hc]

theorem scanWildcards_name {name : Text} (hne : name ≠ []) (hclose : '}' ∉ name) (rest : Text)
    (acc : List Text) :
    scanWildcards ('{' :: name ++ '}' :: rest) acc = scanWildcards rest (addNames acc [name]) := by
  have hkeep : ∀ c ∈ name, decide (c ≠ '}') = true := by
    intro c hc
    exact decide_eq_true fun heq => hclose (heq ▸ hc)
  have htake : (name ++ '}' :: rest).takeWhile (· ≠ '}') = name := by
    rw [takeWhile_append_of_pos hkeep, takeWhile_cons_of_neg (by decide),
      append_nil]
  have hdrop : (name ++ '}' :: rest).dropWhile (· ≠ '}') = '}' :: rest := by
    rw [dropWhile_append_of_pos hkeep, dropWhile_cons_of_neg (by decide)]
  have hempty : name.isEmpty = false := isEmpty_eq_false_iff.mpr hne
  rw [cons_append, scanWildcards, if_pos rfl]
  dsimp only
  rw [htake, hdrop, hempty, Bool.false_or]
  rfl

theorem subset_addNames (acc more : List Text) : acc ⊆ addNames acc more := by
  rw [addNames_eq]
  exact subset_append_left acc _

theorem mem_addNames (acc : List Text) (name : Text) : name ∈ addNames acc [name] := by
  rw [addNames_cons]
  by_cases hin : acc.contains name = true
  · rw [if_pos hin]
    exact contains_iff_mem.mp hin
  · rw [if_neg hin]
    exact mem_append_right acc mem_cons_self

theorem scanWildcards_open {name : Text} (hclose : '}' ∉ name) (rest : Text) (acc : List Text) :
    ∃ acc', acc ⊆ acc' ∧ (name ≠ [] → name ∈ acc') ∧
      scanWildcards ('{' :: name ++ '}' :: rest) acc = scanWildcards rest acc' := by
  by_cases hne : name = []
  · subst hne
    refine ⟨acc, List.Subset.refl acc, fun h => absurd rfl h, ?_⟩
    rw [singleton_append, scanWildcards, if_pos rfl]
    rfl
  · exact ⟨addNames acc [name], subset_addNames acc [name], fun _ => mem_addNames acc name,
      scanWildcards_name hne hclose rest acc⟩

theorem scanWildcards_closed (u rest : Text) (acc : List Text) :
    ∃ acc', acc ⊆ acc' ∧ scanWildcards (u ++ '}' :: rest) acc = scanWildcards rest acc' := by
  induction hlen : u.length using Nat.strongRecOn generalizing u acc with
  | ind len ih =>
    cases u with
    | nil => exact ⟨acc, List.Subset.refl acc, scanWildcards_char (by decide) rest acc⟩
    | cons c u =>
      rw [length_cons] at hlen
      by_cases hc : c = '{'
      · subst hc
        by_cases hmem : '}' ∈ u
        · obtain ⟨_, after, rfl, hclose⟩ := eq_append_cons_of_mem hmem
          obtain ⟨acc₁, hsub₁, -, heq₁⟩ :=
            scanWildcards_open hclose (after ++ '}' :: rest) acc
          rw [length_append, length_cons] at hlen
          obtain ⟨acc₂, hsub₂, heq₂⟩ := ih after.length (by omega) after acc₁ rfl
          refine ⟨acc₂, List.Subset.trans hsub₁ hsub₂, ?_⟩
          rw [← heq₂, ← heq₁]
          simp only [cons_append, append_assoc]
        · obtain ⟨acc', hsub, -, heq⟩ := scanWildcards_open hmem rest acc
          exact ⟨acc', hsub, heq⟩
      · obtain ⟨acc', hsub, heq⟩ := ih u.length (by omega) u acc rfl
        refine ⟨acc', hsub, ?_⟩
        rw [cons_append, scanWildcards_char hc, heq]

theorem scanWildcards_escape (inner rest : Text) (acc : List Text) :
    ∃ acc', acc ⊆ acc' ∧ (∃ name, '{' :: name ∈ acc') ∧
      scanWildcards (escapeText inner ++ rest) acc = scanWildcards rest acc' := by
  have hmem : '}' ∈ '{' :: inner ++ ['}'] := by
    rw [mem_append]
    exact Or.inr mem_cons_self
  obtain ⟨name, after, hsplit, hclose⟩ := eq_append_cons_of_mem hmem
  obtain ⟨acc₁, hsub₁, hin, heq₁⟩ := scanWildcards_open hclose (after ++ '}' :: rest) acc
  obtain ⟨acc₂, hsub₂, heq₂⟩ := scanWildcards_closed after rest acc₁
  have htext : escapeText inner ++ rest = '{' :: name ++ '}' :: (after ++ '}' :: rest) := by
    have hinner : escapeText inner = '{' :: ('{' :: inner ++ ['}']) ++ ['}'] := by
      simp only [escapeText, cons_append, append_assoc, nil_append]
    rw [hinner, hsplit]
    simp only [cons_append, append_assoc, nil_append]
  cases name with
  | nil =>
    rw [nil_append, cons_append, List.cons.injEq] at hsplit
    exact absurd hsplit.1 (by decide)
  | cons c name =>
    rw [cons_append, cons_append, List.cons.injEq] at hsplit
    have hfound := hin (cons_ne_nil c name)
    rw [← hsplit.1] at hfound
    exact ⟨acc₂, List.Subset.trans hsub₁ hsub₂, ⟨name, hsub₂ hfound⟩, by rw [htext, heq₁, heq₂]⟩

theorem scanWildcards_tokens {tokens : List Token} (hread : ∀ token ∈ tokens, Readable token)
    (acc : List Text) :
    acc ⊆ scanWildcards (tokens.flatMap Token.text) acc ∧
      tokens.flatMap names ⊆ scanWildcards (tokens.flatMap Token.text) acc ∧
      ∀ inner, Token.escape inner ∈ tokens →
        ∃ name, '{' :: name ∈ scanWildcards (tokens.flatMap Token.text) acc := by
  induction tokens generalizing acc with
  | nil =>
    have hscan : scanWildcards [] acc = acc := by rw [scanWildcards]
    rw [flatMap_nil, flatMap_nil, hscan]
    exact ⟨List.Subset.refl acc, nil_subset acc, fun inner h => by cases h⟩
  | cons token tokens ih =>
    have hrest := fun acc => ih (fun t ht => hread t (.tail token ht)) acc
    rw [flatMap_cons, flatMap_cons]
    cases token with
    | char c =>
      obtain ⟨hopen, -⟩ := hread _ mem_cons_self
      obtain ⟨hacc, hnames, hescape⟩ := hrest acc
      have hscan : scanWildcards (Token.text (.char c) ++ tokens.flatMap Token.text) acc =
          scanWildcards (tokens.flatMap Token.text) acc := scanWildcards_char hopen _ acc
      rw [hscan]
      refine ⟨hacc, hnames, fun inner hin => ?_⟩
      exact hescape inner ((mem_cons.mp hin).resolve_left fun h => by cases h)
    | escape inner =>
      obtain ⟨acc', hsub, ⟨name, hname⟩, hscan⟩ :=
        scanWildcards_escape inner (tokens.flatMap Token.text) acc
      obtain ⟨hacc, hnames, -⟩ := hrest acc'
      have htext : Token.text (.escape inner) = escapeText inner := rfl
      rw [htext, hscan]
      exact ⟨List.Subset.trans hsub hacc, hnames, fun _ _ => ⟨name, hacc hname⟩⟩
    | reference => exact absurd (hread _ mem_cons_self) (fun h => h)
    | wildcard name =>
      obtain ⟨hne, -, hclose⟩ := hread _ mem_cons_self
      obtain ⟨hacc, hnames, hescape⟩ := hrest (addNames acc [name])
      have hscan : scanWildcards (Token.text (.wildcard name) ++ tokens.flatMap Token.text) acc =
          scanWildcards (tokens.flatMap Token.text) (addNames acc [name]) := by
        rw [← scanWildcards_name hne hclose]
        simp only [Token.text, cons_append, append_assoc, nil_append]
      rw [hscan]
      refine ⟨List.Subset.trans (subset_addNames acc [name]) hacc, ?_, fun inner hin => ?_⟩
      · intro n hn
        cases mem_append.mp hn with
        | inl hfirst =>
          rw [mem_singleton.mp hfirst]
          exact hacc (mem_addNames acc name)
        | inr hlater => exact hnames hlater
      · exact hescape inner ((mem_cons.mp hin).resolve_left fun h => by cases h)

theorem scanWildcards_plain {tokens : List Token} (hread : ∀ token ∈ tokens, Readable token)
    (hplain : ∀ inner, Token.escape inner ∉ tokens) (acc : List Text) :
    scanWildcards (tokens.flatMap Token.text) acc = addNames acc (tokens.flatMap names) := by
  induction tokens generalizing acc with
  | nil =>
    rw [flatMap_nil, flatMap_nil, scanWildcards]
    rfl
  | cons token tokens ih =>
    have hrest := fun acc => ih (fun t ht => hread t (.tail token ht))
      (fun inner hin => hplain inner (.tail token hin)) acc
    rw [flatMap_cons, flatMap_cons]
    cases token with
    | char =>
      obtain ⟨hopen, -⟩ := hread _ mem_cons_self
      exact (scanWildcards_char hopen _ acc).trans (hrest acc)
    | escape inner => exact absurd mem_cons_self (hplain inner)
    | reference => exact absurd (hread _ mem_cons_self) (fun h => h)
    | wildcard name =>
      obtain ⟨hne, -, hclose⟩ := hread _ mem_cons_self
      have hscan : scanWildcards (Token.text (.wildcard name) ++ tokens.flatMap Token.text) acc =
          scanWildcards (tokens.flatMap Token.text) (addNames acc [name]) := by
        rw [← scanWildcards_name hne hclose]
        simp only [Token.text, cons_append, append_assoc, nil_append]
      rw [hscan, hrest]
      rfl

/-! ### Escapes -/

theorem infix_of_append {u rest : Text} (hu : '{' ∉ u) (h : ['{', '{'] <:+: u ++ rest) :
    ['{', '{'] <:+: rest := by
  induction u with
  | nil => exact h
  | cons c u ih =>
    have htail : '{' ∉ u := fun hmem => hu (.tail c hmem)
    cases infix_cons_iff.mp h with
    | inl hstarts =>
      obtain ⟨t, ht⟩ := hstarts
      have hc : '{' = c := (List.cons.inj ht).1
      exact absurd mem_cons_self (hc ▸ hu)
    | inr hinfix => exact ih htail hinfix

theorem exists_escape_iff {tokens : List Token} (hread : ∀ token ∈ tokens, Readable token) :
    (∃ inner, Token.escape inner ∈ tokens) ↔
      ['{', '{'] <:+: tokens.flatMap Token.text := by
  induction tokens with
  | nil => simp
  | cons token tokens ih =>
    have hrest := ih fun t ht => hread t (.tail token ht)
    have hlater : (∃ inner, Token.escape inner ∈ tokens) →
        ['{', '{'] <:+: (token :: tokens).flatMap Token.text := by
      intro h
      rw [flatMap_cons]
      exact (hrest.mp h).trans (suffix_append _ _).isInfix
    constructor
    · rintro ⟨inner, hin⟩
      cases mem_cons.mp hin with
      | inl heq =>
        rw [flatMap_cons, ← heq]
        exact ⟨[], inner ++ ['}', '}'] ++ tokens.flatMap Token.text, by
          simp only [Token.text, escapeText, cons_append, append_assoc,
            nil_append]⟩
      | inr hin => exact hlater ⟨inner, hin⟩
    · intro h
      rw [flatMap_cons] at h
      have hgoal : ['{', '{'] <:+: tokens.flatMap Token.text →
          ∃ inner, Token.escape inner ∈ token :: tokens := by
        intro hin
        obtain ⟨inner, hmem⟩ := hrest.mpr hin
        exact ⟨inner, mem_cons_of_mem token hmem⟩
      cases token with
      | char c =>
        obtain ⟨hopen, -⟩ := hread _ mem_cons_self
        exact hgoal (infix_of_append (u := [c]) (by simpa using hopen.symm) h)
      | escape inner => exact ⟨inner, mem_cons_self⟩
      | reference => exact absurd (hread _ mem_cons_self) (fun h => h)
      | wildcard name =>
        obtain ⟨hne, hopen, -⟩ := hread _ mem_cons_self
        have hclosed : '{' ∉ name ++ ['}'] := by
          rw [mem_append]
          exact fun hmem => hmem.elim hopen (by decide)
        have hcons : Token.text (.wildcard name) ++ tokens.flatMap Token.text =
            '{' :: ((name ++ ['}']) ++ tokens.flatMap Token.text) := by
          simp only [Token.text, cons_append]
        rw [hcons] at h
        cases infix_cons_iff.mp h with
        | inl hstarts =>
          cases name with
          | nil => exact absurd rfl hne
          | cons c =>
            obtain ⟨t, ht⟩ := hstarts
            have hc : '{' = c := (List.cons.inj (List.cons.inj ht).2).1
            exact absurd mem_cons_self (hc ▸ hopen)
        | inr hinfix => exact hgoal (infix_of_append hclosed hinfix)

end OxyMake.PatternText

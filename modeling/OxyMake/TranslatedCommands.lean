import OxyMake.SnakemakeCommands

/-!
# The meaning of translated commands

For plain values a translated command, interpolated, is the format string with the
values of the job exactly when no literal braces are taken for a placeholder or a
reference to the configuration, and the names that the translation uses have the
values of the names it replaced. What is taken for a placeholder costs a literal
brace, and the format string has them all.
-/

namespace OxyMake.TranslatedCommands

open List
open Wildcard
open ConfigStages (reference substituteRefs)
open ReferenceScanning
open ConfigOverrides (configRefs)
open RuleInstances (substituteConfigScalars)
open ConfigSubstitution (Plain substituteConfigScalars_closed)
open ResourceNormalization (ResourceValue)
open TemplatePieces TemplateBraces CommandInterpolation SnakemakeCommands

/-- The names and values of a job have no braces. -/
structure PlainNamespaces (ns : Namespaces) : Prop where
  wildcards : ∀ e ∈ ns.wildcards, Plain e.1 ∧ Plain e.2
  inputs : ∀ e ∈ ns.namedInputs, Plain e.1 ∧ ∀ name ∈ e.2, Plain name
  outputs : ∀ e ∈ ns.namedOutputs, Plain e.1 ∧ ∀ name ∈ e.2, Plain name
  params : ∀ e ∈ ns.params, Plain e.1 ∧ Plain e.2
  log : ∀ path ∈ ns.logStdout, Plain path
  resources : ∀ e ∈ ns.resources, Plain e.1.toList ∧ Plain e.2.display.toList
  config : ∀ e ∈ ns.configScalars, Plain e.1 ∧ Plain e.2

/-! ### Plain tables -/

theorem plain_append {text more : Text} (htext : Plain text) (hmore : Plain more) :
    Plain (text ++ more) :=
  ⟨fun h => (mem_append.mp h).elim htext.1 hmore.1,
    fun h => (mem_append.mp h).elim htext.2 hmore.2⟩

theorem plain_joinSpaces {texts : List Text} (h : ∀ text ∈ texts, Plain text) :
    Plain (joinSpaces texts) := by
  induction texts with
  | nil => exact ⟨not_mem_nil, not_mem_nil⟩
  | cons text texts ih =>
    have hfirst := h text mem_cons_self
    have hrest := ih fun other hother => h other (.tail text hother)
    by_cases hnil : texts = []
    · rw [hnil, joinSpaces, intercalate_singleton]
      exact hfirst
    · have hspace : Plain [' '] := by decide
      rw [joinSpaces, intercalate_cons_of_ne_nil hnil]
      exact plain_append (plain_append hfirst hspace) hrest

theorem mem_insertGroup {name path : Text} {groups : List (Text × List Text)}
    {group : Text × List Text} (h : group ∈ insertGroup name path groups) {text : Text}
    (htext : text ∈ group.1 :: group.2) :
    text = name ∨ text = path ∨ ∃ other ∈ groups, text ∈ other.1 :: other.2 := by
  induction groups with
  | nil =>
    rw [insertGroup, mem_singleton] at h
    subst h
    rcases mem_cons.mp htext with rfl | hin
    · exact Or.inl rfl
    · exact Or.inr (Or.inl (mem_singleton.mp hin))
  | cons first groups ih =>
    rw [insertGroup] at h
    split_ifs at h with hsame hless
    · rcases mem_cons.mp h with rfl | hin
      · rcases mem_cons.mp htext with rfl | hin
        · exact Or.inr (Or.inr ⟨first, mem_cons_self, mem_cons_self⟩)
        · rcases mem_append.mp hin with hin | hin
          · exact Or.inr (Or.inr ⟨first, mem_cons_self, mem_cons_of_mem _ hin⟩)
          · exact Or.inr (Or.inl (mem_singleton.mp hin))
      · exact Or.inr (Or.inr ⟨group, mem_cons_of_mem _ hin, htext⟩)
    · rcases mem_cons.mp h with rfl | hin
      · rcases mem_cons.mp htext with rfl | hin
        · exact Or.inl rfl
        · exact Or.inr (Or.inl (mem_singleton.mp hin))
      · exact Or.inr (Or.inr ⟨group, hin, htext⟩)
    · rcases mem_cons.mp h with rfl | hin
      · exact Or.inr (Or.inr ⟨_, mem_cons_self, htext⟩)
      · rcases ih hin with hname | hpath | ⟨other, hother, hmem⟩
        · exact Or.inl hname
        · exact Or.inr (Or.inl hpath)
        · exact Or.inr (Or.inr ⟨other, mem_cons_of_mem _ hother, hmem⟩)

theorem plain_groupByName {entries : List (Text × Option Text)}
    (h : ∀ e ∈ entries, Plain e.1 ∧ ∀ name ∈ e.2, Plain name) :
    ∀ group ∈ groupByName entries, Plain group.1 ∧ Plain (joinSpaces group.2) := by
  have hall : ∀ group ∈ groupByName entries, ∀ text ∈ group.1 :: group.2, Plain text := by
    unfold groupByName
    refine List.foldlRecOn (motive := fun groups : List (Text × List Text) =>
      ∀ group ∈ groups, ∀ text ∈ group.1 :: group.2, Plain text) entries _
      (fun group hmem => absurd hmem not_mem_nil) ?_
    intro groups hgroups e he
    obtain ⟨hpath, hnames⟩ := h e he
    cases hname : e.2 with
    | none => exact hgroups
    | some =>
      intro group hgroup text htext
      rcases mem_insertGroup hgroup htext with rfl | rfl | ⟨other, hother, hmem⟩
      · exact hnames _ hname
      · exact hpath
      · exact hgroups other hother text hmem
  intro group hgroup
  have hgroup' := hall group hgroup
  exact ⟨hgroup' _ mem_cons_self,
    plain_joinSpaces fun text htext => hgroup' text (.tail _ htext)⟩

theorem plain_index (n : ℕ) : Plain (toString n).toList := by
  have hdigits : ∀ c ∈ (toString n).toList, c.isDigit = true := by
    intro c hc
    have hlist : (toString n).toList = Nat.toDigits 10 n := Nat.toList_repr
    rw [hlist] at hc
    exact Nat.isDigit_of_mem_toDigits (by decide) (by decide) hc
  exact ⟨fun h => absurd (hdigits _ h) (by decide), fun h => absurd (hdigits _ h) (by decide)⟩

theorem plain_member {kind name : Text} (hkind : Plain kind) (hname : Plain name) :
    Plain (kind ++ '.' :: name) :=
  plain_append hkind (plain_append (by decide : Plain ['.']) hname)

theorem plain_indexed {kind : Text} (hkind : Plain kind) (n : ℕ) :
    Plain (kind ++ '[' :: (toString n).toList ++ [']']) :=
  plain_append (plain_append hkind (plain_append (by decide : Plain ['[']) (plain_index n)))
    (by decide : Plain [']'])

theorem mem_of_mem_zipIdx {α : Type} {entries : List α} {e : α × ℕ} (h : e ∈ entries.zipIdx) :
    e.1 ∈ entries :=
  mem_of_getElem? (mem_zipIdx_iff_getElem?.mp h)

section Tables

variable {ns : Namespaces}

theorem plainTable_before (h : PlainNamespaces ns) : PlainTable (tableBefore ns) := by
  intro e he
  simp only [tableBefore, namedTable, indexedTable, memberTable, mem_append,
    mem_map] at he
  have hinput : Plain "input".toList := by decide
  have houtput : Plain "output".toList := by decide
  rcases he with ((((⟨g, hg, rfl⟩ | ⟨g, hg, rfl⟩) | ⟨g, hg, rfl⟩) | ⟨g, hg, rfl⟩) | ⟨g, hg, rfl⟩) |
    ⟨g, hg, rfl⟩
  · obtain ⟨hname, hpaths⟩ := plain_groupByName h.inputs g hg
    exact ⟨⟨_, rfl, plain_member hinput hname⟩, hpaths⟩
  · obtain ⟨hname, hpaths⟩ := plain_groupByName h.outputs g hg
    exact ⟨⟨_, rfl, plain_member houtput hname⟩, hpaths⟩
  · exact ⟨⟨_, rfl, plain_indexed hinput g.2⟩, (h.inputs _ (mem_of_mem_zipIdx hg)).1⟩
  · exact ⟨⟨_, rfl, plain_indexed houtput g.2⟩, (h.outputs _ (mem_of_mem_zipIdx hg)).1⟩
  · exact ⟨⟨_, rfl, plain_member (by decide) (h.wildcards g hg).1⟩, (h.wildcards g hg).2⟩
  · exact ⟨⟨_, rfl, plain_member (by decide) (h.params g hg).1⟩, (h.params g hg).2⟩

theorem mem_resources_of_threadsValue {resources : List (String × ResourceValue)}
    {value : ResourceValue} (h : threadsValue resources = some value) :
    ∃ key, (key, value) ∈ resources := by
  obtain ⟨e, he, hvalue⟩ := exists_of_findSome?_eq_some h
  split at hvalue
  · cases hvalue
    exact ⟨e.1, he⟩
  · cases hvalue

theorem plainTable_after (h : PlainNamespaces ns) : PlainTable (tableAfter ns) := by
  intro e he
  simp only [tableAfter, memberTable, mem_append, mem_map, mem_cons,
    not_mem_nil, or_false, Option.mem_toList] at he
  rcases he with (((⟨path, hpath, rfl⟩ | ⟨value, hvalue, rfl⟩) | ⟨g, ⟨r, hr, rfl⟩, rfl⟩) | rfl |
    rfl) | ⟨g, hg, rfl⟩
  · exact ⟨⟨_, rfl, by decide⟩, h.log path hpath⟩
  · obtain ⟨_, hkey⟩ := mem_resources_of_threadsValue hvalue
    exact ⟨⟨_, rfl, by decide⟩, (h.resources _ hkey).2⟩
  · exact ⟨⟨_, rfl, plain_member (by decide) (h.resources r hr).1⟩, (h.resources r hr).2⟩
  · refine ⟨⟨_, rfl, by decide⟩, plain_joinSpaces fun text htext => ?_⟩
    obtain ⟨e, he, rfl⟩ := mem_map.mp htext
    exact (h.inputs e he).1
  · refine ⟨⟨_, rfl, by decide⟩, plain_joinSpaces fun text htext => ?_⟩
    obtain ⟨e, he, rfl⟩ := mem_map.mp htext
    exact (h.outputs e he).1
  · exact ⟨⟨_, rfl, (h.wildcards g hg).1⟩, (h.wildcards g hg).2⟩

theorem plain_fieldValue (h : PlainNamespaces ns) {name value : Text}
    (hvalue : fieldValue ns name = some value) : Plain value := by
  have hmem : (name, value) ∈ snakemakeTable ns := by
    obtain ⟨_, _, hsplit, -⟩ := lookup_eq_some_iff.mp hvalue
    rw [hsplit]
    exact mem_append_right _ mem_cons_self
  simp only [snakemakeTable, mem_append, mem_map, mem_cons,
    not_mem_nil, or_false, Option.mem_toList, Prod.mk.injEq] at hmem
  rcases hmem with ((((((⟨-, rfl⟩ | ⟨-, rfl⟩) | ⟨g, hg, -, rfl⟩) | ⟨g, hg, -, rfl⟩) |
    ⟨g, hg, -, rfl⟩) | ⟨g, hg, -, rfl⟩) | ⟨r, hr, -, rfl⟩) | ⟨path, hpath, -, rfl⟩
  · refine plain_joinSpaces fun text htext => ?_
    obtain ⟨e, he, rfl⟩ := mem_map.mp htext
    exact (h.inputs e he).1
  · refine plain_joinSpaces fun text htext => ?_
    obtain ⟨e, he, rfl⟩ := mem_map.mp htext
    exact (h.outputs e he).1
  · exact (plain_groupByName h.inputs g hg).2
  · exact (plain_groupByName h.outputs g hg).2
  · exact (h.wildcards g hg).2
  · exact (h.params g hg).2
  · obtain ⟨_, hkey⟩ := mem_resources_of_threadsValue hr
    exact (h.resources _ hkey).2
  · exact h.log path hpath

end Tables

/-! ### The format string -/

section Format

variable {ns : Namespaces} {tokens : List Token}

theorem strFormat_template (hproper : ∀ token ∈ tokens, token.Proper)
    (hfields : ∀ name, Token.field name ∈ tokens → (fieldValue ns name).isSome = true) :
    strFormat (fieldValue ns) (template tokens) = some (formatted ns tokens) := by
  induction tokens with
  | nil =>
    have hempty : template [] = [] := flatMap_nil
    rw [hempty, strFormat]
    rfl
  | cons token rest ih =>
    have htail := ih (fun other hother => hproper other (.tail token hother))
      (fun name hname => hfields name (.tail token hname))
    have hfirst := hproper token mem_cons_self
    have hformatted : formatted ns (token :: rest) = token.value ns ++ formatted ns rest :=
      flatMap_cons
    rw [template_cons, hformatted]
    cases token with
    | char c =>
      have htext : (Token.char c).text ++ template rest = c :: template rest := rfl
      rw [htext, strFormat, if_neg hfirst.1, if_neg hfirst.2, htail]
      rfl
    | opening =>
      have htext : Token.opening.text ++ template rest = '\x7b' :: '\x7b' :: template rest := rfl
      rw [htext, strFormat, if_pos rfl, head?_cons, if_pos rfl, tail_cons, htail]
      rfl
    | closing =>
      have htext : Token.closing.text ++ template rest = '\x7d' :: '\x7d' :: template rest := rfl
      have hne : ('\x7d' : Char) ≠ '\x7b' := by decide
      rw [htext, strFormat, if_neg hne, if_pos rfl, head?_cons, if_pos rfl, tail_cons,
        htail]
      rfl
    | field name =>
      have hhead : (name ++ '\x7d' :: template rest).head? ≠ some '\x7b' := by
        cases name with
        | nil => exact fun heq => absurd (Option.some.inj heq) (by decide)
        | cons =>
          exact fun heq => hfirst.1 (Option.some.inj heq ▸ mem_cons_self)
      obtain ⟨_, hvalue⟩ :=
        Option.isSome_iff_exists.mp (hfields name mem_cons_self)
      have hscan : scanName (name ++ '\x7d' :: template rest) = some (name, template rest) :=
        scanName_append hfirst.2
      rw [Token.text, braced_append, strFormat, if_pos rfl, if_neg hhead]
      split
      · rename_i hnone
        rw [hscan] at hnone
        cases hnone
      · rename_i name' rest' hsome
        rw [hscan] at hsome
        cases hsome
        rw [hvalue, htail, Token.value, hvalue]
        rfl

def openings (tokens : List Token) : ℕ := tokens.count .opening

theorem count_formatted (hns : PlainNamespaces ns) (hproper : ∀ token ∈ tokens, token.Proper) :
    (formatted ns tokens).count '\x7b' = openings tokens := by
  induction tokens with
  | nil => rfl
  | cons token rest ih =>
    have htail := ih fun other hother => hproper other (.tail token hother)
    have hfirst := hproper token mem_cons_self
    have hformatted : formatted ns (token :: rest) = token.value ns ++ formatted ns rest :=
      flatMap_cons
    rw [hformatted, count_append, htail, openings, openings, count_cons, Nat.add_comm]
    refine congrArg _ ?_
    cases token with
    | char =>
      rw [if_neg (by rw [beq_iff_eq]; nofun)]
      exact count_eq_zero.mpr fun h => hfirst.1 (mem_singleton.mp h).symm
    | opening | closing => rfl
    | field name =>
      rw [if_neg (by rw [beq_iff_eq]; nofun), count_eq_zero, Token.value]
      cases hvalue : fieldValue ns name with
      | none => exact not_mem_nil
      | some => exact (plain_fieldValue hns hvalue).1

theorem skipped_chars {word : Char → Bool} {rest : List Token} (h : EscapedReference word rest) :
    Token.opening ∉ rest.take 10 := by
  obtain ⟨htext, -, -⟩ := bare_ne h.2
  have hsplit : rest = "wildcards.".toList.map Token.char ++
      ((bare word (leading rest).1).map Token.char ++ (leading rest).2) := by
    conv_lhs => rw [leading_append rest, htext]
    rw [map_append, append_assoc]
  have htake : ("wildcards.".toList.map Token.char ++
      ((bare word (leading rest).1).map Token.char ++ (leading rest).2)).take 10 =
      "wildcards.".toList.map Token.char := take_left' rfl
  rw [hsplit, htake]
  decide

theorem openings_dropNamespace {word : Char → Bool} (k : ℕ) {tokens : List Token}
    (h : Token.opening ∉ tokens.take k) :
    openings (dropNamespace word k tokens) = openings tokens := by
  induction tokens generalizing k with
  | nil =>
    cases k with
    | zero | succ => rfl
  | cons token rest ih =>
    cases k with
    | succ k =>
      rw [take_succ_cons, mem_cons, not_or] at h
      rw [openings, openings, count_cons_of_ne fun heq => h.1 heq.symm]
      exact ih k h.2
    | zero =>
      have hnone : Token.opening ∉ rest.take 0 := not_mem_nil
      cases token with
      | char | closing | field => exact (ih 0 hnone)
      | opening =>
        have hdrop : dropNamespace word 0 (.opening :: rest) = .opening ::
            dropNamespace word (if EscapedReference word rest then 10 else 0) rest := rfl
        rw [hdrop, openings, openings, count_cons_self, count_cons_self]
        refine congrArg (· + 1) (ih _ ?_)
        by_cases hescaped : EscapedReference word rest
        · rw [if_pos hescaped]
          exact skipped_chars hescaped
        · rw [if_neg hescaped]
          exact hnone

theorem literalBraces_piece (tokens : List Token) (hproper : ∀ token ∈ tokens, token.Proper) :
    literalBraces (tokens.map Token.piece) = openings tokens := by
  induction tokens with
  | nil => rfl
  | cons token rest ih =>
    have htail := ih fun other hother => hproper other (.tail token hother)
    have hfirst := hproper token mem_cons_self
    rw [map_cons, literalBraces_cons, htail, openings, openings, count_cons, Nat.add_comm]
    refine congrArg _ ?_
    cases token with
    | char =>
      rw [if_neg (by rw [beq_iff_eq]; nofun)]
      exact count_eq_zero.mpr fun h => hfirst.1 (mem_singleton.mp h).symm
    | opening | closing | field => rfl

end Format

/-! ### The configuration -/

theorem infix_of_notWithin {placeholder text rest : Text} (h : NotWithin placeholder text rest)
    (hin : placeholder <:+: text ++ rest) : placeholder <:+: rest := by
  obtain ⟨before, after, heq⟩ := hin
  rw [append_assoc] at heq
  rcases append_eq_append_iff.mp heq with ⟨more, htext, hrest⟩ | ⟨more, _, hrest⟩
  · by_cases hempty : more = []
    · subst hempty
      exact ⟨[], after, by rw [nil_append]; exact hrest⟩
    · exact absurd ⟨after, hrest⟩
        (h more ((mem_tails _ _).mpr ⟨before, htext.symm⟩) hempty)
  · exact ⟨more, after, by rw [append_assoc, hrest]⟩

theorem closed_of_append (text : Text) {rest : Text} (h : Closed (text ++ rest)) : Closed rest := by
  intro before after heq
  refine h (text ++ before) after ?_
  rw [heq, append_assoc, append_assoc, append_assoc]

theorem notWithin_opening {name : Text} (hname : Plain name) (hnot : ¬ opening <+: braced name)
    (rest : Text) : NotWithin opening (braced name) rest := by
  intro s hs hne hstart
  rcases suffix_cons_iff.mp ((mem_tails _ _).mp hs) with heq | hin
  · have hs' : s = braced name := heq
    subst hs'
    rcases prefix_or_prefix_of_prefix hstart (prefix_append _ rest) with hpre | hpre
    · exact hnot hpre
    · have hmem : '\x7d' ∈ opening := hpre.subset (mem_append_right _ mem_cons_self)
      exact absurd hmem (by decide)
  · have htext : '\x7b' ∉ name ++ ['\x7d'] := by
      rw [mem_append, not_or]
      exact ⟨hname.1, by decide⟩
    exact notWithin_of_notMem htext _ s ((mem_tails _ _).mpr hin) hne hstart

section References

variable {scalars : List (Text × Text)}

/-- The references in the text of a template are substituted: each takes a literal brace with it,
and the placeholders are left as they are. -/
def AccountedRefs (scalars : List (Text × Text)) (pieces : List Piece) : Prop :=
  ∃ out, substituteRefs scalars (render pieces) = render out ∧
    Reduced pieces out (holes pieces) ∧
    (opening <:+: render pieces → literalBraces out < literalBraces pieces)

theorem AccountedRefs.hole {name : Text} {back : List Piece} (hname : Plain name)
    (hnot : ¬ opening <+: braced name) (h : AccountedRefs scalars back) :
    AccountedRefs scalars (.hole (braced name) :: back) := by
  obtain ⟨out, hout, hreduced, hless⟩ := h
  have hwithin := notWithin_opening hname hnot (render back)
  have hbraces : ∀ pieces,
      literalBraces (.hole (braced name) :: pieces) = literalBraces pieces := by
    intro pieces
    rw [literalBraces_cons]
    exact Nat.zero_add _
  refine ⟨.hole (braced name) :: out, ?_, ⟨?_, ?_, ?_⟩, fun hin => ?_⟩
  · rw [render_cons, render_cons]
    dsimp only [Piece.text]
    rw [(substituteRefs_append scalars hwithin).1, hout]
  · exact forall_mem_cons.mpr ⟨⟨name, rfl, hname⟩, hreduced.proper⟩
  · exact congrArg (List.cons (braced name)) hreduced.holes_eq
  · rw [hbraces, hbraces]
    exact hreduced.braces_le
  · rw [hbraces, hbraces]
    rw [render_cons] at hin
    exact hless (infix_of_notWithin hwithin hin)

theorem AccountedRefs.empty {back : List Piece} (h : AccountedRefs scalars back) :
    AccountedRefs scalars (.kept [] :: back) := by
  obtain ⟨out, hout, hreduced, hless⟩ := h
  have hbraces : literalBraces (.kept [] :: back) = literalBraces back := by
    rw [literalBraces_cons]
    exact Nat.zero_add _
  refine ⟨out, hout, ⟨hreduced.proper, hreduced.holes_eq, ?_⟩, fun hin => ?_⟩
  · rw [hbraces]
    exact hreduced.braces_le
  · rw [hbraces]
    exact hless hin

theorem AccountedRefs.char {c : Char} {text : Text} {back : List Piece}
    (hstart : ¬ opening <+: c :: render (.kept text :: back))
    (h : AccountedRefs scalars (.kept text :: back)) :
    AccountedRefs scalars (.kept (c :: text) :: back) := by
  obtain ⟨out, hout, hreduced, hless⟩ := h
  have hsum := literalBraces_cons (.kept [c]) out
  have hnot : ¬ StartsClosed (c :: render (.kept text :: back)) := by
    rintro ⟨key, after, -, heq⟩
    exact hstart ⟨key ++ '\x7d' :: after, by rw [heq, append_assoc]⟩
  refine ⟨.kept [c] :: out, ?_, ⟨?_, hreduced.holes_eq, ?_⟩, fun hin => ?_⟩
  · rw [render_char, (substituteRefs_char scalars hnot).1, hout, render_cons]
    rfl
  · exact forall_mem_cons.mpr ⟨trivial, hreduced.proper⟩
  · rw [hsum, literalBraces_char]
    exact Nat.add_le_add_left hreduced.braces_le _
  · rw [hsum, literalBraces_char]
    rw [render_char] at hin
    rcases infix_cons_iff.mp hin with hpre | hin
    · exact absurd hpre hstart
    · exact Nat.add_lt_add_left (hless hin) _

theorem AccountedRefs.reference {key value text rest : Text} {c : Char} {back later : List Piece}
    (hkey : '\x7d' ∉ key) (hlookup : scalars.lookup key = some value) (hvalue : Plain value)
    (hstart : c :: render (.kept text :: back) = opening ++ key ++ '\x7d' :: rest)
    (hlater : render later = rest) (hsame : SameLeft (.kept text :: back) later)
    (h : AccountedRefs scalars later) : AccountedRefs scalars (.kept (c :: text) :: back) := by
  obtain ⟨out, hout, hreduced, -⟩ := h
  have hopening : opening = '\x7b' :: "config.".toList := rfl
  have hc : c = '\x7b' := by
    rw [hopening] at hstart
    exact (List.cons.inj hstart).1
  have hsum : literalBraces (.kept value :: out) = literalBraces out := by
    rw [literalBraces_cons, keptBraces_plain hvalue.1, Nat.zero_add]
  have hless : literalBraces (.kept value :: out) < literalBraces (.kept (c :: text) :: back) := by
    have hle := hreduced.braces_le
    have hone : keptBraces (.kept [c]) = 1 := by
      rw [hc]
      rfl
    rw [hsum, literalBraces_char, hone, ← hsame.braces_eq]
    omega
  refine ⟨.kept value :: out, ?_, ⟨?_, ?_, hless.le⟩, fun _ => hless⟩
  · rw [render_char, hstart, substituteRefs_reference scalars hkey, hlookup, ← hlater, hout,
      render_cons]
    rfl
  · exact forall_mem_cons.mpr ⟨trivial, hreduced.proper⟩
  · have hholes := hreduced.holes_eq
    rw [hsame.holes_eq] at hholes
    exact hholes

theorem tail_of_reference {c : Char} {s key rest : Text}
    (h : c :: s = opening ++ key ++ '\x7d' :: rest) :
    s = "config.".toList ++ key ++ ['\x7d'] ++ rest := by
  have hopening : opening = '\x7b' :: "config.".toList := rfl
  rw [hopening, cons_append, cons_append] at h
  obtain ⟨-, hs⟩ := List.cons.inj h
  rw [hs, append_assoc _ ['\x7d']]
  rfl

theorem notMem_reference {key : Text} (hkey : Plain key) :
    '\x7b' ∉ "config.".toList ++ key ++ ['\x7d'] :=
  fun hmem => (mem_append.mp hmem).elim
    (plain_append (by decide : Plain "config.".toList) hkey).1 (by decide)

theorem accountedRefs (hscalars : ∀ e ∈ scalars, Plain e.1 ∧ Plain e.2) (pieces : List Piece)
    (hproper : ∀ piece ∈ pieces, Proper piece) (hholes : ∀ p ∈ holes pieces, ¬ opening <+: p)
    (hdefined : Defined scalars (render pieces)) (hclosed : Closed (render pieces)) :
    AccountedRefs scalars pieces := by
  induction hsize : (render pieces).length + pieces.length using Nat.strong_induction_on
    generalizing pieces with
  | _ size ih =>
  cases pieces with
  | nil =>
    refine ⟨[], (substituteRefs_nil scalars).1, ⟨hproper, rfl, le_refl _⟩, fun hin => ?_⟩
    exact absurd (eq_nil_of_infix_nil hin) (cons_ne_nil _ _)
  | cons piece back =>
    have hback := fun other hother => hproper other (.tail piece hother)
    have hlength : (render (piece :: back)).length = piece.text.length + (render back).length := by
      rw [render_cons, length_append]
    rw [length_cons] at hsize
    cases piece with
    | hole =>
      obtain ⟨name, rfl, hname⟩ := hproper _ mem_cons_self
      have hnot := hholes (braced name) mem_cons_self
      have hwithin := notWithin_opening hname hnot (render back)
      rw [render_cons] at hdefined hclosed
      have hrest := (substituteRefs_append scalars hwithin).2.mp hdefined
      refine AccountedRefs.hole hname hnot (ih _ (by omega) back hback ?_ hrest
        (closed_of_append _ hclosed) rfl)
      exact fun p hp => hholes p (.tail _ hp)
    | kept text =>
      cases text with
      | nil => exact (ih _ (by omega) back hback hholes hdefined hclosed rfl).empty
      | cons c text =>
        have hshort := congrArg List.length (render_char c text back)
        rw [length_cons] at hshort
        rw [render_char] at hdefined hclosed
        have hlater : ∀ other ∈ Piece.kept text :: back, Proper other :=
          forall_mem_cons.mpr ⟨trivial, hback⟩
        by_cases hstart : opening <+: c :: render (.kept text :: back)
        · obtain ⟨after, hafter⟩ := hstart
          have hclosing := hclosed [] after hafter.symm
          obtain ⟨key, _, hkey, hrest⟩ := startsClosed_iff.mpr ⟨after, hafter.symm, hclosing⟩
          rw [hrest] at hdefined hclosed
          obtain ⟨⟨value, hvalue⟩, hdefined'⟩ := hdefined.reference hkey
          obtain ⟨_, _, hsplit, -⟩ := lookup_eq_some_iff.mp hvalue
          have hmem : (key, value) ∈ scalars := by
            rw [hsplit]
            exact mem_append_right _ mem_cons_self
          have hbody := tail_of_reference hrest
          obtain ⟨later, hlater', hsame⟩ :=
            exists_back_of_append hlater (notMem_reference (hscalars _ hmem).1) hbody
          have hdrop := congrArg List.length hbody
          rw [length_append] at hdrop
          have hlen := hsame.length_le
          rw [length_cons] at hlen
          refine AccountedRefs.reference hkey hvalue (hscalars _ hmem).2 hrest hlater' hsame
            (ih _ ?_ later hsame.proper ?_ ?_ ?_ rfl)
          · rw [hlater']
            omega
          · rw [hsame.holes_eq]
            exact hholes
          · rw [hlater']
            exact hdefined'
          · rw [hlater']
            refine closed_of_append (opening ++ key ++ ['\x7d']) ?_
            rw [append_assoc _ ['\x7d']]
            exact hclosed
        · have hnot : ¬ StartsClosed (c :: render (.kept text :: back)) := by
            rintro ⟨key, after, -, heq⟩
            exact hstart ⟨key ++ '\x7d' :: after, by rw [heq, append_assoc]⟩
          refine AccountedRefs.char hstart (ih _ ?_ _ hlater hholes (hdefined.char hnot)
            (closed_of_append [c] hclosed) rfl)
          rw [length_cons]
          omega

end References

theorem configClean_of_free {scalars : List (Text × Text)} {pieces : List Piece}
    (h : ¬ opening <:+: render pieces) : ConfigClean scalars pieces := by
  induction pieces with
  | nil => trivial
  | cons piece back ih =>
    rw [render_cons] at h
    refine ⟨Or.inr fun s hs hne hstart => h ?_, ih fun hin => h ?_⟩
    · obtain ⟨before, hbefore⟩ := (mem_tails _ _).mp hs
      obtain ⟨after, hafter⟩ := hstart
      exact ⟨before, after, by rw [append_assoc, hafter, ← append_assoc, hbefore]⟩
    · obtain ⟨before, after, heq⟩ := hin
      exact ⟨piece.text ++ before, after, by rw [← heq, append_assoc, append_assoc,
        append_assoc]⟩

theorem fillAll_configTable (scalars : List (Text × Text)) {pieces : List Piece}
    (h : ∀ p ∈ holes pieces, ¬ opening <+: p) : fillAll (configTable scalars) pieces = pieces := by
  rw [fillAll_eq]
  induction pieces with
  | nil => rfl
  | cons piece back ih =>
    rw [map_cons]
    cases piece with
    | kept text => exact congrArg (List.cons (Piece.kept text)) (ih h)
    | hole p =>
      have hsettle : Piece.settle (configTable scalars) (.hole p) = .hole p := by
        rw [Piece.settle, lookup_configTable_none (h p mem_cons_self)]
      rw [hsettle, ih fun q hq => h q (.tail p hq)]

/-! ### What is filled in -/

section Kept

variable {word : Char → Bool} {ns : Namespaces} {tokens : List Token}

theorem field_of_dropNamespace (k : ℕ) {name : Text}
    (h : Token.field name ∈ dropNamespace word k tokens) :
    ∃ before, Token.field before ∈ tokens ∧ name = bare word before := by
  induction tokens generalizing k with
  | nil =>
    cases k with
    | zero | succ => cases h
  | cons token rest ih =>
    have hlater : ∀ k, Token.field name ∈ dropNamespace word k rest →
        ∃ before, Token.field before ∈ token :: rest ∧ name = bare word before := by
      intro k hin
      obtain ⟨before, hbefore, hname⟩ := ih k hin
      exact ⟨before, mem_cons_of_mem token hbefore, hname⟩
    cases k with
    | succ k => exact hlater k h
    | zero =>
      cases token with
      | char | closing => exact hlater 0 ((mem_cons.mp h).resolve_left (by nofun))
      | opening => exact hlater _ ((mem_cons.mp h).resolve_left (by nofun))
      | field before =>
        rcases mem_cons.mp h with heq | hin
        · cases heq
          exact ⟨before, mem_cons_self, rfl⟩
        · exact hlater 0 hin

theorem proper_translated (hword : Words word) (hproper : ∀ token ∈ tokens, token.Proper) :
    ∀ piece ∈ translated word tokens, Proper piece := by
  intro piece hpiece
  obtain ⟨token, htoken, rfl⟩ := mem_map.mp hpiece
  have hfirst := proper_dropNamespace hword 0 hproper token htoken
  cases token with
  | field name => exact ⟨name, rfl, hfirst⟩
  | char | opening | closing => trivial

theorem hole_of_translated {p : Text} (h : p ∈ holes (translated word tokens)) :
    ∃ name, Token.field name ∈ tokens ∧ p = braced (bare word name) := by
  obtain ⟨_, hpiece, hhole⟩ := mem_filterMap.mp h
  obtain ⟨token, htoken, rfl⟩ := mem_map.mp hpiece
  cases token with
  | field =>
    obtain ⟨before, hbefore, rfl⟩ := field_of_dropNamespace 0 htoken
    exact ⟨before, hbefore, (Option.some.inj hhole).symm⟩
  | char | opening | closing => cases hhole

theorem not_opening {c : Char} (hc : c ≠ 'c') (name : Text) : ¬ opening <+: braced (c :: name) := by
  rintro ⟨_, hafter⟩
  have hopening : opening = '\x7b' :: 'c' :: "onfig.".toList := rfl
  rw [hopening] at hafter
  exact hc (List.cons.inj (List.cons.inj hafter).2).1.symm

theorem not_opening_word (hword : Words word) {name : Text} (h : ∀ c ∈ name, word c = true) :
    ¬ opening <+: braced name := by
  intro hstart
  have hopening : opening = '\x7b' :: "config.".toList := rfl
  rw [hopening] at hstart
  have htail : "config.".toList <+: name ++ ['\x7d'] := (cons_prefix_cons.mp hstart).2
  have hdot : '.' ∈ name ++ ['\x7d'] := htail.subset (by decide)
  rcases mem_append.mp hdot with hin | hin
  · exact (hword _ (h _ hin)).2.2 rfl
  · exact absurd hin (by decide)

theorem isSome_of_mem {table : List (Text × Text)} {key : Text} (value : Text)
    (h : (key, value) ∈ table) :
    (table.lookup key).isSome = true := by
  rw [lookup_isSome_iff]
  exact ⟨_, h, beq_self_eq_true _⟩

/-- A name in a namespace has its value before the configuration, or after it. -/
def Valued (ns : Namespaces) (p : Text) : Prop :=
  (((tableBefore ns).lookup p).isSome = true ∨ ((tableAfter ns).lookup p).isSome = true) ∧
    ¬ opening <+: p

theorem valued_bare (hword : Words word) {name : Text} (h : (fieldValue ns name).isSome = true) :
    Valued ns (braced (bare word name)) := by
  obtain ⟨value, hvalue⟩ := Option.isSome_iff_exists.mp h
  have hmem : (name, value) ∈ snakemakeTable ns := by
    obtain ⟨_, _, hsplit, -⟩ := lookup_eq_some_iff.mp hvalue
    rw [hsplit]
    exact mem_append_right _ mem_cons_self
  simp only [snakemakeTable, mem_append, mem_map, mem_cons,
    not_mem_nil, or_false, Option.mem_toList, Prod.mk.injEq] at hmem
  by_cases hbare : bare word name = name
  · rw [hbare]
    rcases hmem with ((((((⟨rfl, rfl⟩ | ⟨rfl, rfl⟩) | ⟨g, hg, rfl, rfl⟩) | ⟨g, hg, rfl, rfl⟩) |
      ⟨g, hg, rfl, rfl⟩) | ⟨g, hg, rfl, rfl⟩) | ⟨r, hr, rfl, rfl⟩) | ⟨path, hpath, rfl, rfl⟩
    · refine ⟨Or.inr (isSome_of_mem (joinSpaces (ns.namedInputs.map Prod.fst)) ?_),
        not_opening (by decide) _⟩
      simp only [tableAfter, mem_append, mem_cons, true_or, or_true]
    · refine ⟨Or.inr (isSome_of_mem (joinSpaces (ns.namedOutputs.map Prod.fst)) ?_),
        not_opening (by decide) _⟩
      simp only [tableAfter, mem_append, mem_cons, true_or, or_true]
    · refine ⟨Or.inl (isSome_of_mem (joinSpaces g.2) ?_), not_opening (by decide) _⟩
      simp only [tableBefore, mem_append]
      exact Or.inl (Or.inl (Or.inl (Or.inl (Or.inl (mem_map.mpr ⟨g, hg, rfl⟩)))))
    · refine ⟨Or.inl (isSome_of_mem (joinSpaces g.2) ?_), not_opening (by decide) _⟩
      simp only [tableBefore, mem_append]
      exact Or.inl (Or.inl (Or.inl (Or.inl (Or.inr (mem_map.mpr ⟨g, hg, rfl⟩)))))
    · refine ⟨Or.inl (isSome_of_mem g.2 ?_), not_opening (by decide) _⟩
      simp only [tableBefore, mem_append]
      exact Or.inl (Or.inr (mem_map.mpr ⟨g, hg, rfl⟩))
    · refine ⟨Or.inl (isSome_of_mem g.2 ?_), not_opening (by decide) _⟩
      simp only [tableBefore, mem_append]
      exact Or.inr (mem_map.mpr ⟨g, hg, rfl⟩)
    · refine ⟨Or.inr (isSome_of_mem r.display.toList ?_), not_opening (by decide) _⟩
      simp only [tableAfter, mem_append]
      refine Or.inl (Or.inl (Or.inl (Or.inr (mem_map.mpr ⟨r, ?_, rfl⟩))))
      exact Option.mem_toList.mpr hr
    · refine ⟨Or.inr (isSome_of_mem path ?_), not_opening (by decide) _⟩
      simp only [tableAfter, mem_append]
      refine Or.inl (Or.inl (Or.inl (Or.inl (mem_map.mpr ⟨path, ?_, rfl⟩))))
      exact Option.mem_toList.mpr hpath
  · obtain ⟨hname, -, hall⟩ := bare_ne hbare
    refine ⟨Or.inr ?_, not_opening_word hword hall⟩
    have hfirst : name.head? = some 'w' := by
      rw [hname]
      rfl
    generalize bare word name = short at hname
    rcases hmem with ((((((⟨rfl, rfl⟩ | ⟨rfl, rfl⟩) | ⟨g, hg, rfl, rfl⟩) | ⟨g, hg, rfl, rfl⟩) |
      ⟨g, hg, rfl, rfl⟩) | ⟨g, hg, rfl, rfl⟩) | ⟨r, hr, rfl, rfl⟩) | ⟨path, hpath, rfl, rfl⟩
    · exact absurd (Option.some.inj (hfirst : some 'i' = some 'w')) (by decide)
    · exact absurd (Option.some.inj (hfirst : some 'o' = some 'w')) (by decide)
    · exact absurd (Option.some.inj (hfirst : some 'i' = some 'w')) (by decide)
    · exact absurd (Option.some.inj (hfirst : some 'o' = some 'w')) (by decide)
    · have hshort : g.1 = short := append_cancel_left hname
      refine isSome_of_mem g.2 ?_
      simp only [tableAfter, mem_append]
      exact Or.inr (mem_map.mpr ⟨g, hg, by rw [hshort]⟩)
    · exact absurd (Option.some.inj (hfirst : some 'p' = some 'w')) (by decide)
    · exact absurd (Option.some.inj (hfirst : some 't' = some 'w')) (by decide)
    · exact absurd (Option.some.inj (hfirst : some 'l' = some 'w')) (by decide)

theorem free_of_rest (hns : PlainNamespaces ns) {pieces : List Piece}
    (hproper : ∀ piece ∈ pieces, Proper piece)
    (hholes : ∀ p ∈ holes pieces, ((tableAfter ns).lookup p).isSome = true ∧ ¬ opening <+: p)
    (hclosed : Closed (render pieces)) {mid : Text}
    (hmid : substituteConfigScalars ns.configScalars (render pieces) = .ok mid) :
    (replaceEach (tableAfter ns) mid).count '\x7b' ≤ literalBraces pieces ∧
      ((replaceEach (tableAfter ns) mid).count '\x7b' = literalBraces pieces →
        ¬ opening <:+: render pieces ∧ Undisturbed (tableAfter ns) pieces) := by
  have hdefined := defined_of_substituteConfigScalars hmid
  have hsub := substituteConfigScalars_closed hdefined hclosed
  rw [hmid] at hsub
  cases hsub
  obtain ⟨_, hout, hreduced, hless⟩ := accountedRefs hns.config pieces hproper
    (fun p hp => (hholes p hp).2) hdefined hclosed
  have hfilled : ∀ {q : List Piece}, holes q = holes pieces →
      holes (fillAll (tableAfter ns) q) = [] := by
    intro q hq
    rw [holes_fillAll, filter_eq_nil_iff]
    intro p hp
    have hsome := (hholes p (hq ▸ hp)).1
    rw [Option.isNone_iff_eq_none]
    intro hnone
    rw [hnone] at hsome
    cases hsome
  have htable := plainTable_after hns
  by_cases hin : opening <:+: render pieces
  · obtain ⟨last, hlast, hreduced', -⟩ := replaceEach_reduced htable hreduced.proper
    have hcount := count_render (hreduced'.holes_eq.trans (hfilled hreduced.holes_eq))
    have hlt := Nat.lt_of_le_of_lt hreduced'.braces_le (hless hin)
    rw [hout, hlast, hcount]
    exact ⟨hlt.le, fun heq => absurd heq hlt.ne⟩
  · have hsame : substituteRefs ns.configScalars (render pieces) = render pieces := by
      have hwithin : NotWithin opening (render pieces) [] := by
        intro s hs hne hstart
        rw [append_nil] at hstart
        exact hin (hstart.isInfix.trans ((mem_tails _ _).mp hs).isInfix)
      have hkept := (substituteRefs_append ns.configScalars hwithin).1
      rw [append_nil, (substituteRefs_nil ns.configScalars).1, append_nil] at hkept
      exact hkept
    obtain ⟨last, hlast, hreduced', hless'⟩ := replaceEach_reduced htable hproper
    have hcount := count_render (hreduced'.holes_eq.trans (hfilled rfl))
    rw [hsame, hlast, hcount]
    refine ⟨hreduced'.braces_le, fun heq => ⟨hin, ?_⟩⟩
    by_contra hnot
    exact absurd heq (hless' hnot).ne

/-- Nothing in a translated command is mistaken for a placeholder or a reference at its turn, and
with all placeholders filled in at once it is the format string with the values. -/
structure Faithful (word : Char → Bool) (ns : Namespaces) (tokens : List Token) : Prop where
  /-- Each placeholder occurs only where the command has it. -/
  steady : Steady ns (translated word tokens)
  /-- The translated names have the values of the names of the command. -/
  same : substituted ns (translated word tokens) = formatted ns tokens

theorem keeps_of_faithful (hword : Words word) (hproper : ∀ token ∈ tokens, token.Proper)
    (hfields : ∀ name, Token.field name ∈ tokens → (fieldValue ns name).isSome = true)
    (h : Faithful word ns tokens) : Keeps word ns tokens := by
  refine ⟨formatted ns tokens, strFormat_template hproper hfields, ?_⟩
  rw [translateShellCommand_template hword hproper, interpolation_simultaneous h.steady, h.same]

theorem faithful_of_keeps (hword : Words word) (hns : PlainNamespaces ns)
    (hproper : ∀ token ∈ tokens, token.Proper)
    (hfields : ∀ name, Token.field name ∈ tokens → (fieldValue ns name).isSome = true)
    (hclosed : Closed (replaceEach (tableBefore ns) (translateShellCommand word (template tokens))))
    (h : Keeps word ns tokens) : Faithful word ns tokens := by
  obtain ⟨_, htext, hrun⟩ := h
  rw [strFormat_template hproper hfields] at htext
  cases htext
  rw [translateShellCommand_template hword hproper] at hclosed hrun
  have hpieces := proper_translated hword hproper
  have hvalued : ∀ p ∈ holes (translated word tokens), Valued ns p := by
    intro p hp
    obtain ⟨name, hname, rfl⟩ := hole_of_translated hp
    exact valued_bare hword (hfields name hname)
  have hlater : ∀ p ∈ holes (fillAll (tableBefore ns) (translated word tokens)),
      ((tableAfter ns).lookup p).isSome = true ∧ ¬ opening <+: p := by
    intro p hp
    rw [holes_fillAll, mem_filter, Option.isNone_iff_eq_none] at hp
    obtain ⟨hvalue, hnot⟩ := hvalued p hp.1
    rw [hp.2] at hvalue
    exact ⟨hvalue.resolve_left (by decide), hnot⟩
  have hcount := count_formatted hns hproper
  have hbraces : literalBraces (translated word tokens) = openings tokens := by
    rw [translated, literalBraces_piece _ (proper_dropNamespace hword 0 hproper)]
    exact openings_dropNamespace 0 not_mem_nil
  have hbefore := plainTable_before hns
  have hmid : ∃ mid, substituteConfigScalars ns.configScalars
      (replaceEach (tableBefore ns) (render (translated word tokens))) = .ok mid ∧
      replaceEach (tableAfter ns) mid = formatted ns tokens := by
    rw [interpolateFull] at hrun
    generalize substituteConfigScalars ns.configScalars
      (replaceEach (tableBefore ns) (render (translated word tokens))) = result at hrun
    cases result with
    | error => cases hrun
    | ok mid => exact ⟨mid, rfl, Except.ok.inj hrun⟩
  obtain ⟨mid, hmid, hformatted⟩ := hmid
  rw [← hformatted] at hcount
  have hundisturbed : Undisturbed (tableBefore ns) (translated word tokens) := by
    by_contra hnot
    obtain ⟨_, hout, hreduced, hless⟩ := replaceEach_reduced hbefore hpieces
    rw [hout] at hclosed hmid
    rw [← hreduced.holes_eq] at hlater
    have hle := (free_of_rest hns hreduced.proper hlater hclosed hmid).1
    have hlt := hless hnot
    omega
  have hnonempty : ∀ e ∈ tableBefore ns, e.1 ≠ [] := by
    intro e he
    obtain ⟨⟨name, hname, -⟩, -⟩ := hbefore e he
    rw [hname]
    exact cons_ne_nil _ _
  rw [replaceEach_render hnonempty hundisturbed] at hclosed hmid
  have hfilled := literalBraces_fillAll hbefore (translated word tokens)
  obtain ⟨hfree, hafter⟩ := (free_of_rest hns (proper_fillAll _ hpieces) hlater hclosed hmid).2
    (by rw [hcount, hfilled, hbraces])
  have hsteady : Steady ns (translated word tokens) := by
    refine ⟨hundisturbed, configClean_of_free hfree, ?_⟩
    rw [fillAll_configTable _ fun p hp => (hlater p hp).2]
    exact hafter
  refine ⟨hsteady, ?_⟩
  rw [interpolation_simultaneous hsteady] at hrun
  exact Except.ok.inj hrun

/-- A translated command keeps its meaning when the translation is faithful, and only then when its
references to the configuration are closed. -/
theorem command_kept_iff (hword : Words word) (hns : PlainNamespaces ns)
    (hproper : ∀ token ∈ tokens, token.Proper)
    (hfields : ∀ name, Token.field name ∈ tokens → (fieldValue ns name).isSome = true) :
    (Faithful word ns tokens → Keeps word ns tokens) ∧
      (Closed (replaceEach (tableBefore ns) (translateShellCommand word (template tokens))) →
        (Keeps word ns tokens ↔ Faithful word ns tokens)) :=
  ⟨keeps_of_faithful hword hproper hfields, fun hclosed =>
    ⟨faithful_of_keeps hword hns hproper hfields hclosed,
      keeps_of_faithful hword hproper hfields⟩⟩

end Kept

def letters (c : Char) : Bool := c.isAlphanum || c == '_'

theorem words_letters : Words letters := by
  intro c hc
  have hno : letters '\x7b' = false ∧ letters '\x7d' = false ∧ letters '.' = false := by decide
  refine ⟨?_, ?_, ?_⟩
  · rintro rfl
    rw [hno.1] at hc
    cases hc
  · rintro rfl
    rw [hno.2.1] at hc
    cases hc
  · rintro rfl
    rw [hno.2.2] at hc
    cases hc

def sampleInBraces : List Token := [.opening, .field "wildcards.sample".toList, .closing]

def escapedInput : List Token := .opening :: "input".toList.map Token.char ++ [.closing]

theorem plainNamespaces_sorting : PlainNamespaces (sorting "id".toList) where
  wildcards := by decide
  inputs := by decide
  outputs := by decide
  params := by decide
  log := fun path hpath => absurd hpath (by nofun)
  resources := fun e he => absurd he not_mem_nil
  config := by decide

theorem command_kept_iff_sampleInBraces :
    Keeps letters (sorting "id".toList) sampleInBraces := by
  refine (command_kept_iff words_letters plainNamespaces_sorting ?_ ?_).1 ⟨⟨?_, ?_, ?_⟩, ?_⟩
  · decide
  · intro name hname
    simp only [sampleInBraces, mem_cons, not_mem_nil, or_false] at hname
    rcases hname with heq | heq | heq
    · cases heq
    · cases heq
      rfl
    · cases heq
  · decide
  · refine configClean_of_free ?_
    decide
  · decide
  · rfl

/-- An escaped name of all inputs is replaced by the inputs. -/
theorem not_command_kept :
    ¬ ∀ (word : Char → Bool) (ns : Namespaces) (tokens : List Token), Words word →
      PlainNamespaces ns → (∀ token ∈ tokens, token.Proper) →
      (∀ name, Token.field name ∈ tokens → (fieldValue ns name).isSome = true) →
      Keeps word ns tokens := by
  intro h
  have hproper : ∀ token ∈ escapedInput, token.Proper := by decide
  have hfields : ∀ name, Token.field name ∈ escapedInput →
      (fieldValue (sorting "id".toList) name).isSome = true := by
    intro name hname
    rcases mem_cons.mp hname with heq | hin
    · cases heq
    · rcases mem_append.mp hin with hin | hin
      · obtain ⟨c, -, heq⟩ := mem_map.mp hin
        cases heq
      · cases mem_singleton.mp hin
  obtain ⟨_, htext, hrun⟩ := h letters (sorting "id".toList) escapedInput words_letters
    plainNamespaces_sorting hproper hfields
  rw [strFormat_template hproper hfields] at htext
  rw [translateShellCommand_template words_letters hproper] at hrun
  have hpaths : interpolateFull (render (translated letters escapedInput))
      (sorting "id".toList) = .ok "a.csv".toList := by
    with_unfolding_all rfl
  rw [hpaths] at hrun
  rw [← Except.ok.inj hrun] at htext
  exact absurd (Option.some.inj htext) (by decide)

end OxyMake.TranslatedCommands

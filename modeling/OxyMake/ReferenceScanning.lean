import OxyMake.ConfigOverrides

/-!
# References to the configuration in a text

A reference opens with `{config.` and ends at the next closing brace. Both
substitutions replace the closed references from left to right and keep every
other character; the one of the resolver appends the text that begins with an
open reference once more. A pattern with an open brace is never parsed, so the
two agree wherever the result is a pattern.
-/

namespace OxyMake.ReferenceScanning

open List Option
open Wildcard RuleInstances
open ConfigStages (substituteRefs substituteConfigRefs reference)
open ConfigOverrides (configRefs)

def opening : Text := "\x7bconfig.".toList

def StartsClosed (s : Text) : Prop :=
  ∃ key rest, '}' ∉ key ∧ s = opening ++ key ++ '}' :: rest

def Closed (s : Text) : Prop := ∀ before after, s = before ++ opening ++ after → '}' ∈ after

def Defined (scalars : List (Text × Text)) (s : Text) : Prop :=
  ∀ key ∈ configRefs s, (scalars.lookup key).isSome = true

/-- The text with each closed reference replaced by its value, from left to right, and every other
character kept once. -/
inductive Replaced (scalars : List (Text × Text)) : Text → Text → Prop
  | nil : Replaced scalars [] []
  /-- A closed reference is replaced by its value. -/
  | reference {key value rest out : Text} : '}' ∉ key → scalars.lookup key = some value →
      Replaced scalars rest out →
      Replaced scalars (opening ++ key ++ '}' :: rest) (value ++ out)
  | char {c : Char} {rest out : Text} : ¬ StartsClosed (c :: rest) → Replaced scalars rest out →
      Replaced scalars (c :: rest) (c :: out)

/-- The text that the resolver appends once more: what begins with the part after the last closed
reference, where an open reference follows. -/
def repeatedTail (rest : Text) : Text :=
  match _h : findConfig rest with
  | none => []
  | some (_, after) =>
    match _h' : scanName after with
    | none => rest
    | some (_, rest') => repeatedTail rest'
  termination_by rest.length
  decreasing_by
    have h₁ := findConfig_length _h
    have h₂ := scanName_length _h'
    omega

/-! ### Scanning -/

/-- A name ends at the first closing brace. -/
theorem scanName_append {name rest : Text} (h : '}' ∉ name) :
    scanName (name ++ '}' :: rest) = some (name, rest) := by
  induction name with
  | nil => rfl
  | cons c name ih =>
    have hc : c ≠ '}' := fun heq => h (heq ▸ mem_cons_self)
    have hname : '}' ∉ name := fun hmem => h (.tail c hmem)
    rw [cons_append, scanName]
    · rw [ih hname]
      rfl
    · exact hc

theorem scanName_eq_none {s : Text} (h : '}' ∉ s) : scanName s = none := by
  induction s with
  | nil => rfl
  | cons c s ih =>
    have hc : c ≠ '}' := fun heq => h (heq ▸ mem_cons_self)
    have hs : '}' ∉ s := fun hmem => h (.tail c hmem)
    rw [scanName]
    · rw [ih hs]
      rfl
    · exact hc

/-- What a name and the text after it are. -/
theorem eq_of_scanName {s name rest : Text} (h : scanName s = some (name, rest)) :
    s = name ++ '}' :: rest ∧ '}' ∉ name := by
  by_cases hmem : '}' ∈ s
  · obtain ⟨_, after, heq, hnot⟩ := eq_append_cons_of_mem hmem
    rw [heq, scanName_append hnot] at h
    cases h
    exact ⟨heq, hnot⟩
  · rw [scanName_eq_none hmem] at h
    cases h

theorem eq_of_findConfig {s before after : Text} (h : findConfig s = some (before, after)) :
    s = before ++ opening ++ after := by
  induction s generalizing before with
  | nil => cases h
  | cons c rest ih =>
    rw [findConfig] at h
    split_ifs at h with hstart
    · cases h
      obtain ⟨_, htail⟩ := hstart
      rw [← htail]
      rfl
    · obtain ⟨⟨_, _⟩, hrest, heq⟩ := map_eq_some_iff.mp h
      cases heq
      rw [ih hrest]
      rfl

theorem findConfig_opening (after : Text) : findConfig (opening ++ after) = some ([], after) := by
  have hstart : "\x7bconfig.".toList <+: '\x7b' :: ("config.".toList ++ after) := ⟨after, rfl⟩
  exact if_pos hstart

theorem findConfig_char {c : Char} {rest : Text} (h : ¬ opening <+: c :: rest) :
    findConfig (c :: rest) = (findConfig rest).map fun e => (c :: e.1, e.2) :=
  if_neg h

theorem findConfig_eq_none_iff {s : Text} : findConfig s = none ↔ ¬ opening <:+: s := by
  induction s with
  | nil => exact ⟨fun _ h => absurd (infix_nil.mp h) (by decide), fun _ => rfl⟩
  | cons c rest ih =>
    by_cases hstart : opening <+: c :: rest
    · obtain ⟨_, hafter⟩ := hstart
      rw [← hafter, findConfig_opening]
      exact ⟨nofun, fun h => absurd (prefix_append _ _).isInfix h⟩
    · rw [findConfig_char hstart, map_eq_none_iff, ih, infix_cons_iff]
      exact ⟨fun h => fun hin => hin.elim hstart h, fun h hin => h (Or.inr hin)⟩

theorem startsClosed_iff {s : Text} :
    StartsClosed s ↔ ∃ after, s = opening ++ after ∧ '}' ∈ after := by
  constructor
  · rintro ⟨key, rest, -, rfl⟩
    refine ⟨key ++ '}' :: rest, append_assoc _ _ _, ?_⟩
    exact mem_append_right _ mem_cons_self
  · rintro ⟨after, rfl, hmem⟩
    obtain ⟨key, rest, rfl, hnot⟩ := eq_append_cons_of_mem hmem
    exact ⟨key, rest, hnot, (append_assoc _ _ _).symm⟩

/-- A text cut into closed references and single characters. -/
inductive Cut : Text → Prop
  | nil : Cut []
  | reference {key rest : Text} : '}' ∉ key → Cut rest → Cut (opening ++ key ++ '}' :: rest)
  | char {c : Char} {rest : Text} : ¬ StartsClosed (c :: rest) → Cut rest → Cut (c :: rest)

theorem cut (s : Text) : Cut s := by
  induction hn : s.length using Nat.strongRecOn generalizing s with
  | ind n ih =>
    cases s with
    | nil => exact .nil
    | cons c rest =>
      by_cases hstart : StartsClosed (c :: rest)
      · obtain ⟨_, rest', hkey, heq⟩ := hstart
        rw [heq] at hn ⊢
        refine .reference hkey (ih rest'.length ?_ rest' rfl)
        simp only [length_append, length_cons] at hn
        omega
      · refine .char hstart (ih rest.length ?_ rest rfl)
        simp only [length_cons] at hn
        omega

/-! ### What is substituted -/

theorem find_reference {key : Text} (rest : Text) (hkey : '}' ∉ key) :
    findConfig (opening ++ key ++ '}' :: rest) = some ([], key ++ '}' :: rest) ∧
      scanName (key ++ '}' :: rest) = some (key, rest) := by
  rw [append_assoc]
  exact ⟨findConfig_opening _, scanName_append hkey⟩

/-- A reference is substituted. -/
theorem substituteRefs_reference (scalars : List (Text × Text)) {key rest : Text}
    (hkey : '}' ∉ key) :
    substituteRefs scalars (opening ++ key ++ '}' :: rest) =
      (scalars.lookup key).getD (reference key) ++ substituteRefs scalars rest := by
  obtain ⟨hfind, hscan⟩ := find_reference rest hkey
  rw [substituteRefs, hfind]
  dsimp only
  rw [hscan]
  rfl

/-- A reference is a reference of the text. -/
theorem configRefs_reference {key rest : Text} (hkey : '}' ∉ key) :
    configRefs (opening ++ key ++ '}' :: rest) = key :: configRefs rest := by
  obtain ⟨hfind, hscan⟩ := find_reference rest hkey
  rw [configRefs, hfind]
  dsimp only
  rw [hscan]

theorem substituteRefs_of_notMem (scalars : List (Text × Text)) {s : Text} (h : '}' ∉ s) :
    substituteRefs scalars s = s ∧ configRefs s = [] := by
  rw [substituteRefs, configRefs]
  cases hfind : findConfig s with
  | none => exact ⟨rfl, rfl⟩
  | some e =>
    obtain ⟨_, after⟩ := e
    have heq := eq_of_findConfig hfind
    have hafter : '}' ∉ after := fun hmem => h (heq ▸ mem_append_right _ hmem)
    dsimp only
    rw [scanName_eq_none hafter]
    exact ⟨heq.symm, rfl⟩

/-- A character that does not begin a closed reference is kept. -/
theorem substituteRefs_char (scalars : List (Text × Text)) {c : Char} {rest : Text}
    (h : ¬ StartsClosed (c :: rest)) :
    substituteRefs scalars (c :: rest) = c :: substituteRefs scalars rest ∧
      configRefs (c :: rest) = configRefs rest := by
  by_cases hstart : opening <+: c :: rest
  · obtain ⟨after, hafter⟩ := hstart
    have hopen : '}' ∉ after := fun hmem => h (startsClosed_iff.mpr ⟨after, hafter.symm, hmem⟩)
    have hall : '}' ∉ c :: rest := by
      rw [← hafter, mem_append]
      exact fun hmem => hmem.elim (by decide) hopen
    have hrest : '}' ∉ rest := fun hmem => hall (.tail c hmem)
    obtain ⟨hsub, hrefs⟩ := substituteRefs_of_notMem scalars hall
    obtain ⟨hsub', hrefs'⟩ := substituteRefs_of_notMem scalars hrest
    exact ⟨by rw [hsub, hsub'], by rw [hrefs, hrefs']⟩
  · constructor
    · rw [substituteRefs, findConfig_char hstart]
      conv_rhs => rw [substituteRefs]
      cases findConfig rest with
      | none => rfl
      | some e =>
        obtain ⟨_, after⟩ := e
        dsimp only [map_some]
        cases scanName after with
        | none | some => rfl
    · rw [configRefs, findConfig_char hstart]
      conv_rhs => rw [configRefs]
      cases findConfig rest with
      | none | some => rfl

/-- Nothing is substituted in the empty text. -/
theorem substituteRefs_nil (scalars : List (Text × Text)) :
    substituteRefs scalars [] = [] ∧ configRefs [] = [] :=
  substituteRefs_of_notMem scalars not_mem_nil

theorem startsClosed_split {front rest : Text} (h : StartsClosed (front ++ '}' :: rest)) :
    ∃ key, '}' ∉ key ∧
      (front = opening ++ key ∨ ∃ between, front = opening ++ key ++ '}' :: between) := by
  obtain ⟨key, _, hkey, heq⟩ := h
  have hnot : '}' ∉ opening ++ key := by
    rw [mem_append]
    exact fun hmem => hmem.elim (by decide) hkey
  refine ⟨key, hkey, ?_⟩
  obtain ⟨middle, hfront, hmiddle⟩ | ⟨middle, hmiddle, hrest⟩ := append_eq_append_iff.mp heq
  · cases middle with
    | nil => exact Or.inl (by rw [hfront, append_nil])
    | cons =>
      rw [cons_append, List.cons.injEq] at hmiddle
      refine absurd ?_ hnot
      rw [hfront, ← hmiddle.1]
      exact mem_append_right _ mem_cons_self
  · cases middle with
    | nil => exact Or.inl (by rw [hmiddle, append_nil])
    | cons c middle =>
      rw [cons_append, List.cons.injEq] at hrest
      exact Or.inr ⟨middle, by rw [hmiddle, ← hrest.1]⟩

theorem substituteRefs_split (scalars : List (Text × Text)) (front rest : Text) :
    substituteRefs scalars (front ++ '}' :: rest) =
        substituteRefs scalars (front ++ ['}']) ++ substituteRefs scalars rest ∧
      configRefs (front ++ '}' :: rest) = configRefs (front ++ ['}']) ++ configRefs rest := by
  obtain ⟨hnil, hnilRefs⟩ := substituteRefs_nil scalars
  induction hn : front.length using Nat.strongRecOn generalizing front with
  | ind n ih =>
    by_cases hstart : StartsClosed (front ++ '}' :: rest)
    · obtain ⟨key, hkey, hfront | ⟨between, hfront⟩⟩ := startsClosed_split hstart
      · rw [hfront, substituteRefs_reference scalars hkey, substituteRefs_reference scalars hkey,
          configRefs_reference hkey, configRefs_reference hkey, hnil, hnilRefs, append_nil]
        exact ⟨rfl, rfl⟩
      · have hlt : between.length < n := by
          rw [← hn, hfront]
          simp only [length_append, length_cons]
          omega
        obtain ⟨hsub, hrefs⟩ := ih between.length hlt between rfl
        have hshift : ∀ tail : Text, opening ++ key ++ '}' :: between ++ '}' :: tail =
            opening ++ key ++ '}' :: (between ++ '}' :: tail) := fun tail => by
          rw [append_assoc, cons_append]
        rw [hfront, hshift, hshift, substituteRefs_reference scalars hkey,
          substituteRefs_reference scalars hkey, configRefs_reference hkey,
          configRefs_reference hkey, hsub, hrefs, append_assoc, cons_append]
        exact ⟨rfl, rfl⟩
    · have hstart' : ¬ StartsClosed (front ++ ['}']) := by
        intro h
        obtain ⟨key, hkey, hfront | ⟨between, hfront⟩⟩ := startsClosed_split h
        · exact hstart ⟨key, rest, hkey, by rw [hfront]⟩
        · refine hstart ⟨key, between ++ '}' :: rest, hkey, ?_⟩
          rw [hfront, append_assoc, cons_append]
      cases front with
      | nil =>
        rw [nil_append] at hstart hstart'
        obtain ⟨hsub, hrefs⟩ := substituteRefs_char scalars hstart
        obtain ⟨hsub', hrefs'⟩ := substituteRefs_char scalars hstart'
        rw [nil_append, nil_append, hsub, hrefs, hsub', hrefs', hnil, hnilRefs]
        exact ⟨rfl, rfl⟩
      | cons c front =>
        rw [cons_append] at hstart hstart'
        obtain ⟨hsub, hrefs⟩ := substituteRefs_char scalars hstart
        obtain ⟨hsub', hrefs'⟩ := substituteRefs_char scalars hstart'
        have hlt : front.length < n := by
          rw [← hn, length_cons]
          omega
        obtain ⟨ihsub, ihrefs⟩ := ih front.length hlt front rfl
        rw [cons_append, cons_append, hsub, hrefs, hsub', hrefs', ihsub, ihrefs]
        exact ⟨rfl, rfl⟩

theorem substituteRefs_of_free (scalars : List (Text × Text)) {s : Text}
    (h : ¬ opening <:+: s) : substituteRefs scalars s = s ∧ configRefs s = [] := by
  have hnone := findConfig_eq_none_iff.mpr h
  rw [substituteRefs, configRefs, hnone]
  exact ⟨rfl, rfl⟩

theorem Defined.char {scalars : List (Text × Text)} {c : Char} {rest : Text}
    (hdefined : Defined scalars (c :: rest)) (h : ¬ StartsClosed (c :: rest)) :
    Defined scalars rest := by
  unfold Defined at hdefined
  rw [(substituteRefs_char scalars h).2] at hdefined
  exact hdefined

theorem Defined.reference {scalars : List (Text × Text)} {key rest : Text} (hkey : '}' ∉ key)
    (hdefined : Defined scalars (opening ++ key ++ '}' :: rest)) :
    (∃ value, scalars.lookup key = some value) ∧ Defined scalars rest := by
  unfold Defined at hdefined
  rw [configRefs_reference hkey] at hdefined
  refine ⟨isSome_iff_exists.mp (hdefined key mem_cons_self), ?_⟩
  exact fun k hk => hdefined k (.tail key hk)

theorem replaced_substituteRefs {scalars : List (Text × Text)} {s : Text}
    (hdefined : Defined scalars s) : Replaced scalars s (substituteRefs scalars s) := by
  induction cut s with
  | nil =>
    rw [(substituteRefs_nil scalars).1]
    exact .nil
  | reference hkey _ ih =>
    obtain ⟨⟨_, hvalue⟩, hrest⟩ := hdefined.reference hkey
    rw [substituteRefs_reference scalars hkey, hvalue]
    exact .reference hkey hvalue (ih hrest)
  | char hstart _ ih =>
    rw [(substituteRefs_char scalars hstart).1]
    exact .char hstart (ih (hdefined.char hstart))

/-! ### Open references -/

theorem suffix_after_brace {front rest before tail : Text} (htail : '}' ∉ tail)
    (h : front ++ '}' :: rest = before ++ tail) :
    ∃ between, rest = between ++ tail ∧ before = front ++ '}' :: between := by
  obtain ⟨middle, hbefore, hmiddle⟩ | ⟨middle, _, hmiddle⟩ := append_eq_append_iff.mp h
  · cases middle with
    | nil =>
      rw [nil_append] at hmiddle
      exact absurd (hmiddle ▸ mem_cons_self) htail
    | cons c between =>
      rw [cons_append, List.cons.injEq] at hmiddle
      obtain ⟨rfl, hrest⟩ := hmiddle
      exact ⟨between, hrest, hbefore⟩
  · refine absurd ?_ htail
    rw [hmiddle]
    exact mem_append_right _ mem_cons_self

/-- Nothing is appended exactly when every reference is closed; otherwise it ends in an open
reference. -/
theorem repeatedTail_spec (s : Text) :
    (Closed s ∧ repeatedTail s = []) ∨
      (¬ Closed s ∧ ∃ before after, repeatedTail s = before ++ opening ++ after ∧ '}' ∉ after) := by
  fun_induction repeatedTail s with
  | case1 s hnone =>
    left
    refine ⟨fun before after heq => ?_, rfl⟩
    refine absurd ?_ (findConfig_eq_none_iff.mp hnone)
    exact ⟨before, after, heq.symm⟩
  | case2 s before after hfind hscan =>
    have heq := eq_of_findConfig hfind
    have hopen : '}' ∉ after := by
      intro hmem
      obtain ⟨key, rest, rfl, hkey⟩ := eq_append_cons_of_mem hmem
      rw [scanName_append hkey] at hscan
      cases hscan
    right
    exact ⟨fun h => hopen (h before after heq), before, after, heq, hopen⟩
  | case3 s before after hfind key rest hscan ih =>
    have heq := eq_of_findConfig hfind
    obtain ⟨hafter, hkey⟩ := eq_of_scanName hscan
    rw [hafter] at heq
    have hclosed : Closed s ↔ Closed rest := by
      constructor
      · intro h front tail htail
        refine h (before ++ opening ++ key ++ '}' :: front) tail ?_
        rw [heq, htail]
        simp only [append_assoc, cons_append]
      · intro h front tail htail
        by_contra hopen
        have hsplit : (before ++ opening ++ key) ++ '}' :: rest = front ++ (opening ++ tail) := by
          rw [← append_assoc front, ← htail, heq]
          simp only [append_assoc]
        have hnot : '}' ∉ opening ++ tail := by
          rw [mem_append]
          exact fun hmem => hmem.elim (by decide) hopen
        obtain ⟨between, hrest, -⟩ := suffix_after_brace hnot hsplit
        exact hopen (h between tail (by rw [hrest, append_assoc]))
    rw [hclosed]
    exact ih

theorem substituteLoop_eq {scalars : List (Text × Text)} {pattern result rest out : Text}
    (h : substituteLoop scalars pattern result rest = .ok out) :
    out = result ++ substituteRefs scalars rest ++ repeatedTail rest := by
  fun_induction substituteLoop scalars pattern result rest with
  | case1 result rest hnone =>
    cases h
    rw [substituteRefs, repeatedTail, hnone]
    dsimp only
    rw [append_nil]
  | case2 result rest before after hfind hscan =>
    cases h
    rw [substituteRefs, repeatedTail, hfind]
    dsimp only
    rw [hscan]
    simp only [append_assoc]
  | case3 => cases h
  | case4 result rest before after hfind key rest' hscan value hvalue ih =>
    rw [ih h]
    conv_rhs => rw [substituteRefs, repeatedTail, hfind]
    dsimp only
    rw [hscan]
    dsimp only
    rw [hvalue]
    simp only [getD_some, append_assoc]

theorem substituteLoop_ok {scalars : List (Text × Text)} (pattern result : Text) {rest : Text}
    (hdefined : Defined scalars rest) :
    ∃ out, substituteLoop scalars pattern result rest = .ok out := by
  fun_induction substituteLoop scalars pattern result rest with
  | case1 | case2 => exact ⟨_, rfl⟩
  | case3 result rest before after hfind key rest' hscan hnone =>
    have hrefs : configRefs rest = key :: configRefs rest' := by
      rw [configRefs, hfind]
      dsimp only
      rw [hscan]
    have hsome := hdefined key (hrefs ▸ mem_cons_self)
    rw [hnone] at hsome
    cases hsome
  | case4 result rest before after hfind key rest' hscan value hvalue ih =>
    refine ih fun k hk => hdefined k ?_
    rw [configRefs, hfind]
    dsimp only
    rw [hscan]
    exact mem_cons_of_mem key hk

theorem substituteConfigRefs_eq (scalars : List (Text × Text)) (pattern : Text) :
    substituteConfigRefs pattern scalars = substituteRefs scalars pattern := by
  rw [substituteConfigRefs]
  split_ifs with hnone
  · rw [substituteRefs, isNone_iff_eq_none.mp hnone]
  · rfl

theorem substituteConfigScalars_eq {scalars : List (Text × Text)} {pattern out : Text}
    (h : substituteConfigScalars scalars pattern = .ok out) :
    out = substituteConfigRefs pattern scalars ++ repeatedTail pattern := by
  rw [substituteConfigRefs_eq]
  rw [substituteConfigScalars] at h
  split_ifs at h with hnone
  · cases h
    rw [substituteRefs, repeatedTail, isNone_iff_eq_none.mp hnone]
    dsimp only
    rw [append_nil]
  · exact substituteLoop_eq h

theorem substituteConfigScalars_ok {scalars : List (Text × Text)} {pattern : Text}
    (hdefined : Defined scalars pattern) :
    ∃ out, substituteConfigScalars scalars pattern = .ok out := by
  rw [substituteConfigScalars]
  split_ifs with hnone
  · exact ⟨_, rfl⟩
  · exact substituteLoop_ok pattern [] hdefined

theorem defined_of_substituteLoop {scalars : List (Text × Text)} {pattern result rest out : Text}
    (h : substituteLoop scalars pattern result rest = .ok out) : Defined scalars rest := by
  fun_induction substituteLoop scalars pattern result rest with
  | case1 result rest hnone =>
    intro key hkey
    rw [configRefs, hnone] at hkey
    cases hkey
  | case2 result rest before after hfind hscan =>
    intro key hkey
    rw [configRefs, hfind] at hkey
    dsimp only at hkey
    rw [hscan] at hkey
    cases hkey
  | case3 => cases h
  | case4 result rest before after hfind key rest' hscan value hvalue ih =>
    intro key' hkey'
    rw [configRefs, hfind] at hkey'
    dsimp only at hkey'
    rw [hscan] at hkey'
    rcases mem_cons.mp hkey' with rfl | hin
    · rw [hvalue]
      rfl
    · exact ih h key' hin

theorem defined_of_substituteConfigScalars {scalars : List (Text × Text)} {pattern out : Text}
    (h : substituteConfigScalars scalars pattern = .ok out) : Defined scalars pattern := by
  rw [substituteConfigScalars] at h
  split_ifs at h with hnone
  · intro key hkey
    rw [configRefs, isNone_iff_eq_none.mp hnone] at hkey
    cases hkey
  · exact defined_of_substituteLoop h

/-! ### Braces of a pattern -/

theorem brace_split {front rest before after : Text}
    (h : front ++ '}' :: rest = before ++ '\x7b' :: after) :
    '}' ∈ after ∨ ∃ between, rest = between ++ '\x7b' :: after := by
  by_cases hmem : '}' ∈ after
  · exact Or.inl hmem
  · have hnot : '}' ∉ '\x7b' :: after := by
      rw [mem_cons]
      exact fun h => h.elim (by decide) hmem
    obtain ⟨between, hrest, -⟩ := suffix_after_brace hnot h
    exact Or.inr ⟨between, hrest⟩

/-- The text of an escape and what follows it. -/
theorem eq_of_scanEscaped {s inner rest : Text} (h : scanEscaped s = some (inner, rest)) :
    s = inner ++ '}' :: '}' :: rest := by
  fun_induction scanEscaped s generalizing inner with
  | case1 => cases h
  | case2 =>
    cases h
    rfl
  | case3 c r _ ih =>
    obtain ⟨⟨_, _⟩, hrest, heq⟩ := map_eq_some_iff.mp h
    cases heq
    rw [ih hrest]
    rfl

theorem brace_closed_of_parseLoop {alphanumeric : Char → Bool} {raw s buf : Text}
    {segments out : List Segment} (h : parseLoop alphanumeric raw s buf segments = .ok out)
    {before after : Text} (heq : s = before ++ '\x7b' :: after) : '}' ∈ after := by
  fun_induction parseLoop alphanumeric raw s buf segments generalizing before with
  | case1 => exact absurd heq.symm (by simp)
  | case2 | case4 | case5 | case6 | case7 | case9 => cases h
  | case3 buf segments rest inner rest' hscan ih =>
    rw [eq_of_scanEscaped hscan] at heq
    have hsplit : ('\x7b' :: '\x7b' :: inner ++ ['}']) ++ '}' :: rest' =
        before ++ '\x7b' :: after := by
      rw [← heq]
      simp only [cons_append, append_assoc, nil_append]
    cases brace_split hsplit with
    | inl hmem => exact hmem
    | inr hrest =>
      obtain ⟨between, hbetween⟩ := hrest
      exact ih h hbetween
  | case8 buf segments rest _ name rest' hscan hname hvalid hadjacent ih =>
    rw [(eq_of_scanName hscan).1] at heq
    have hsplit : ('\x7b' :: name) ++ '}' :: rest' = before ++ '\x7b' :: after := heq
    cases brace_split hsplit with
    | inl hmem => exact hmem
    | inr hrest =>
      obtain ⟨between, hbetween⟩ := hrest
      exact ih h hbetween
  | case10 buf segments c rest _ hopen _ ih =>
    cases before with
    | nil =>
      rw [nil_append, List.cons.injEq] at heq
      exact absurd heq.1 hopen
    | cons =>
      rw [cons_append, List.cons.injEq] at heq
      exact ih h heq.2

/-- The two substitutions agree where the result is a pattern. -/
theorem eq_substituteConfigRefs_of_parse {alphanumeric : Char → Bool}
    {scalars : List (Text × Text)} {pattern out : Text} {p : Pattern}
    (h : substituteConfigScalars scalars pattern = .ok out)
    (hparse : parse alphanumeric out = .ok p) : out = substituteConfigRefs pattern scalars := by
  have heq := substituteConfigScalars_eq h
  cases repeatedTail_spec pattern with
  | inl hclosed =>
    rw [hclosed.2, append_nil] at heq
    exact heq
  | inr hopen =>
    obtain ⟨-, before, after, htail, hnot⟩ := hopen
    unfold parse at hparse
    cases hloop : parseLoop alphanumeric out out [] [] with
    | error =>
      rw [hloop] at hparse
      cases hparse
    | ok =>
      have hbrace : out = (substituteConfigRefs pattern scalars ++ before) ++
          '\x7b' :: ("config.".toList ++ after) := by
        rw [heq, htail]
        simp only [append_assoc]
        rfl
      have hmem := brace_closed_of_parseLoop hloop hbrace
      cases mem_append.mp hmem with
      | inl hin => exact absurd hin (by decide)
      | inr hin => exact absurd hin hnot

end OxyMake.ReferenceScanning

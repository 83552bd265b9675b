import OxyMake.ConfigSubstitution
import OxyMake.TemplatePieces

/-!
# Interpolation of commands

The placeholders of a command are replaced namespace after namespace, each in the
whole text: named and indexed paths, wildcards and parameters in their namespaces,
the configuration, the log, the threads, the resources, all paths, and last the bare
wildcards. The result is that of filling in all placeholders at once when each, at
its turn, occurs only where the template has it.
-/

namespace OxyMake.CommandInterpolation

open List
open Wildcard RuleInstances
open ResourceNormalization (ResourceValue canonicalizeResourceKey)
open ConfigStages (replaceAll reference substituteRefs)
open ReferenceScanning
open ConfigSubstitution (substituteConfigScalars_closed)
open TemplatePieces

/-- The values of a job. -/
structure Namespaces where
  wildcards : List (Text × Text)
  namedInputs : List (Text × Option Text)
  namedOutputs : List (Text × Option Text)
  params : List (Text × Text)
  logStdout : Option Text
  resources : List (String × ResourceValue)
  configScalars : List (Text × Text)

def joinSpaces (texts : List Text) : Text := [' '].intercalate texts

/-- Add a path to the group of its name; the groups are sorted by name. -/
def insertGroup (name path : Text) : List (Text × List Text) → List (Text × List Text)
  | [] => [(name, [path])]
  | (other, paths) :: groups =>
    if name = other then (other, paths ++ [path]) :: groups
    else if name < other then (name, [path]) :: (other, paths) :: groups
    else (other, paths) :: insertGroup name path groups

def groupByName (entries : List (Text × Option Text)) : List (Text × List Text) :=
  entries.foldl (fun groups e =>
    match e.2 with
    | none => groups
    | some name => insertGroup name e.1 groups) []

def namedTable (kind : Text) (entries : List (Text × Option Text)) : List (Text × Text) :=
  (groupByName entries).map fun group => (braced (kind ++ '.' :: group.1), joinSpaces group.2)

def indexedTable (kind : Text) (entries : List (Text × Option Text)) : List (Text × Text) :=
  entries.zipIdx.map fun e => (braced (kind ++ '[' :: (toString e.2).toList ++ [']']), e.1.1)

def memberTable (kind : Text) (entries : List (Text × Text)) : List (Text × Text) :=
  entries.map fun e => (braced (kind ++ '.' :: e.1), e.2)

def threadsValue (resources : List (String × ResourceValue)) : Option ResourceValue :=
  resources.findSome? fun e =>
    match canonicalizeResourceKey e.1 with
    | .ok .cpu => some e.2
    | _ => none

def tableBefore (ns : Namespaces) : List (Text × Text) :=
  namedTable "input".toList ns.namedInputs ++ namedTable "output".toList ns.namedOutputs ++
    indexedTable "input".toList ns.namedInputs ++ indexedTable "output".toList ns.namedOutputs ++
    memberTable "wildcards".toList ns.wildcards ++ memberTable "params".toList ns.params

def tableAfter (ns : Namespaces) : List (Text × Text) :=
  (ns.logStdout.toList.map fun path => (braced "log".toList, path)) ++
    ((threadsValue ns.resources).toList.map fun value =>
      (braced "threads".toList, value.display.toList)) ++
    memberTable "resources".toList
      (ns.resources.map fun e => (e.1.toList, e.2.display.toList)) ++
    [(braced "input".toList, joinSpaces (ns.namedInputs.map Prod.fst)),
      (braced "output".toList, joinSpaces (ns.namedOutputs.map Prod.fst))] ++
    ns.wildcards.map fun e => (braced e.1, e.2)

def interpolateFull (template : Text) (ns : Namespaces) : Except WildcardError Text :=
  match substituteConfigScalars ns.configScalars (replaceEach (tableBefore ns) template) with
  | .error e => .error e
  | .ok text => .ok (replaceEach (tableAfter ns) text)

/-! ### All at once -/

def configTable (scalars : List (Text × Text)) : List (Text × Text) :=
  scalars.map fun e => (reference e.1, e.2)

/-- All placeholders; where one is given twice, the first value counts. -/
def fullTable (ns : Namespaces) : List (Text × Text) :=
  tableBefore ns ++ configTable ns.configScalars ++ tableAfter ns

/-- All placeholders of a template are filled in at once, and the rest is kept. -/
def substituted (ns : Namespaces) (pieces : List Piece) : Text :=
  render (pieces.map (Piece.settle (fullTable ns)))

/-- The configuration is referenced only where the template has a reference to a key with a
value. -/
def ConfigClean (scalars : List (Text × Text)) : List Piece → Prop
  | [] => True
  | piece :: back =>
    ((∃ e ∈ scalars, piece = .hole (reference e.1) ∧ '\x7d' ∉ e.1) ∨
      NotWithin opening piece.text (render back)) ∧ ConfigClean scalars back

/-- At its turn each placeholder occurs only where the template has it. -/
structure Steady (ns : Namespaces) (pieces : List Piece) : Prop where
  before : Undisturbed (tableBefore ns) pieces
  config : ConfigClean ns.configScalars (fillAll (tableBefore ns) pieces)
  after : Undisturbed (tableAfter ns)
    (fillAll (configTable ns.configScalars) (fillAll (tableBefore ns) pieces))

/-! ### References in a template -/

theorem reference_inj {key key' : Text} (h : reference key = reference key') : key = key' := by
  have hsame : opening ++ key ++ ['\x7d'] = opening ++ key' ++ ['\x7d'] := h
  exact append_cancel_left (append_cancel_right hsame)

theorem lookup_configTable (scalars : List (Text × Text)) (key : Text) :
    (configTable scalars).lookup (reference key) = scalars.lookup key := by
  induction scalars with
  | nil => rfl
  | cons e scalars ih =>
    rw [configTable, map_cons, lookup_cons, lookup_cons]
    by_cases hkey : key = e.1
    · rw [hkey, beq_self_eq_true, beq_self_eq_true]
    · have hne : reference key ≠ reference e.1 := fun heq => hkey (reference_inj heq)
      rw [beq_eq_false_iff_ne.mpr hkey, beq_eq_false_iff_ne.mpr hne]
      exact ih

theorem lookup_configTable_none {scalars : List (Text × Text)} {placeholder : Text}
    (h : ¬ opening <+: placeholder) : (configTable scalars).lookup placeholder = none := by
  rw [lookup_eq_none_iff]
  intro e he
  obtain ⟨e', -, rfl⟩ := mem_map.mp he
  rw [bne_iff_ne]
  rintro rfl
  exact h ⟨e'.1 ++ ['\x7d'], (append_assoc _ _ _).symm⟩

section Scalars

variable {scalars : List (Text × Text)}

variable (scalars) in
theorem substituteRefs_append {text rest : Text} (h : NotWithin opening text rest) :
    substituteRefs scalars (text ++ rest) = text ++ substituteRefs scalars rest ∧
      (Defined scalars (text ++ rest) ↔ Defined scalars rest) := by
  induction text with
  | nil => exact ⟨rfl, Iff.rfl⟩
  | cons c text ih =>
    have hhead : ¬ opening <+: c :: (text ++ rest) :=
      h (c :: text) ((mem_tails _ _).mpr suffix_rfl) (cons_ne_nil _ _)
    have htail : NotWithin opening text rest := by
      intro s hs
      have hsuffix : s <:+ c :: text := ((mem_tails _ _).mp hs).trans (suffix_cons c text)
      exact h s ((mem_tails _ _).mpr hsuffix)
    have hstarts : ¬ StartsClosed (c :: (text ++ rest)) := by
      rintro ⟨key, after, -, heq⟩
      exact hhead ⟨key ++ '\x7d' :: after, by rw [heq, append_assoc]⟩
    obtain ⟨hsub, hrefs⟩ := substituteRefs_char scalars hstarts
    obtain ⟨hrest, hdefined⟩ := ih htail
    constructor
    · rw [cons_append, hsub, hrest, cons_append]
    · rw [cons_append, Defined, hrefs]
      exact hdefined

theorem closed_append {text rest : Text} (h : NotWithin opening text rest) (hrest : Closed rest) :
    Closed (text ++ rest) := by
  intro before after heq
  rw [append_assoc, append_eq_append_iff] at heq
  rcases heq with ⟨between, -, hsplit⟩ | ⟨between, htext, hsplit⟩
  · exact hrest between after (by rw [hsplit, append_assoc])
  · by_cases hempty : between = []
    · subst hempty
      exact hrest [] after hsplit.symm
    · have hin : between ∈ text.tails := (mem_tails _ _).mpr ⟨before, htext.symm⟩
      exact absurd ⟨after, hsplit⟩ (h between hin hempty)

theorem closed_reference {rest : Text} (key : Text) (hrest : Closed rest) :
    Closed (reference key ++ rest) := by
  intro before after heq
  rw [append_assoc, append_eq_append_iff] at heq
  rcases heq with ⟨between, -, hsplit⟩ | ⟨between, htext, hsplit⟩
  · exact hrest between after (by rw [hsplit, append_assoc])
  · by_cases hempty : between = []
    · subst hempty
      exact hrest [] after hsplit.symm
    · have hlast : between.getLast? = some '\x7d' := by
        rw [← getLast?_append_of_ne_nil before hempty, ← htext]
        exact getLast?_concat ..
      have hmem := mem_of_getLast? hlast
      have hopening : '\x7d' ∉ opening := by decide
      rcases append_eq_append_iff.mp hsplit with ⟨tail, hbetween, hafter⟩ | ⟨tail, hopen, -⟩
      · rw [hbetween, mem_append] at hmem
        rw [hafter]
        exact mem_append_left rest (hmem.resolve_left hopening)
      · exact absurd (hopen ▸ mem_append_left tail hmem) hopening

theorem substituteRefs_render {pieces : List Piece} (h : ConfigClean scalars pieces) :
    substituteRefs scalars (render pieces) =
        render (pieces.map (Piece.settle (configTable scalars))) ∧
      Defined scalars (render pieces) ∧ Closed (render pieces) := by
  induction pieces with
  | nil =>
    have hnil := substituteRefs_nil scalars
    refine ⟨hnil.1, ?_, ?_⟩
    · change ∀ key ∈ ConfigOverrides.configRefs [], _
      rw [hnil.2]
      exact fun key hkey => absurd hkey not_mem_nil
    · intro before after heq
      have hlength := congrArg List.length heq
      have hopening : opening.length = 8 := rfl
      simp only [length_append, length_nil, render, flatMap_nil] at hlength
      omega
  | cons piece back ih =>
    obtain ⟨hpiece, hback⟩ := h
    obtain ⟨hsub, hdefined, hclosed⟩ := ih hback
    have htext : render (piece :: back) = piece.text ++ render back := flatMap_cons
    have hsettled : render ((piece :: back).map (Piece.settle (configTable scalars))) =
        (piece.settle (configTable scalars)).text ++
          render (back.map (Piece.settle (configTable scalars))) := flatMap_cons
    rw [htext, hsettled, ← hsub]
    rcases hpiece with ⟨e, he, rfl, hkey⟩ | hwithin
    · have hreference : reference e.1 ++ render back = opening ++ e.1 ++ '\x7d' :: render back :=
        append_assoc (opening ++ e.1) ['\x7d'] (render back)
      have hsome : (scalars.lookup e.1).isSome = true := by
        rw [lookup_isSome_iff]
        exact ⟨e, he, beq_self_eq_true _⟩
      obtain ⟨_, hvalue⟩ := Option.isSome_iff_exists.mp hsome
      dsimp only [Piece.text, Piece.settle]
      rw [lookup_configTable, hvalue]
      refine ⟨?_, ?_, closed_reference e.1 hclosed⟩
      · rw [hreference, substituteRefs_reference scalars hkey, hvalue]
        rfl
      · rw [hreference]
        change ∀ key ∈ ConfigOverrides.configRefs _, _
        rw [configRefs_reference hkey]
        exact forall_mem_cons.mpr ⟨hsome, hdefined⟩
    · obtain ⟨happend, hkeys⟩ := substituteRefs_append scalars hwithin
      refine ⟨?_, hkeys.mpr hdefined, closed_append hwithin hclosed⟩
      rw [happend]
      cases piece with
      | kept => rfl
      | hole placeholder =>
        have hnot : ¬ opening <+: placeholder := by
          intro hstart
          have hne : placeholder ≠ [] := by
            rintro rfl
            exact absurd (prefix_nil.mp hstart) (cons_ne_nil _ _)
          refine hwithin placeholder ((mem_tails _ _).mpr suffix_rfl) hne ?_
          exact hstart.trans (prefix_append _ _)
        dsimp only [Piece.text, Piece.settle]
        rw [lookup_configTable_none hnot]

end Scalars

/-! ### The whole command -/

theorem braced_of_before {ns : Namespaces} {e : Text × Text} (h : e ∈ tableBefore ns) :
    ∃ name, e.1 = braced name := by
  simp only [tableBefore, namedTable, indexedTable, memberTable, mem_append, mem_map] at h
  rcases h with ((((⟨g, -, rfl⟩ | ⟨g, -, rfl⟩) | ⟨g, -, rfl⟩) | ⟨g, -, rfl⟩) | ⟨g, -, rfl⟩) |
    ⟨g, -, rfl⟩
  all_goals exact ⟨_, rfl⟩

theorem braced_of_after {ns : Namespaces} {e : Text × Text} (h : e ∈ tableAfter ns) :
    ∃ name, e.1 = braced name := by
  simp only [tableAfter, memberTable, mem_append, mem_map, mem_cons,
    not_mem_nil, or_false] at h
  rcases h with (((⟨g, -, rfl⟩ | ⟨g, -, rfl⟩) | ⟨g, -, rfl⟩) | rfl | rfl) | ⟨g, -, rfl⟩
  all_goals exact ⟨_, rfl⟩

/-- All placeholders of a template are replaced at once by their values, and all other text is kept,
when each occurs at its turn only where the template has it. -/
theorem interpolation_simultaneous {ns : Namespaces} {pieces : List Piece} (h : Steady ns pieces) :
    interpolateFull (render pieces) ns = .ok (substituted ns pieces) := by
  have hbefore : ∀ e ∈ tableBefore ns, e.1 ≠ [] := by
    intro e he
    obtain ⟨name, hname⟩ := braced_of_before he
    rw [hname]
    exact cons_ne_nil _ _
  have hafter : ∀ e ∈ tableAfter ns, e.1 ≠ [] := by
    intro e he
    obtain ⟨name, hname⟩ := braced_of_after he
    rw [hname]
    exact cons_ne_nil _ _
  obtain ⟨hsub, hdefined, hclosed⟩ := substituteRefs_render h.config
  have hconfig := substituteConfigScalars_closed hdefined hclosed
  rw [hsub, ← fillAll_eq, ← replaceEach_render hbefore h.before] at hconfig
  rw [interpolateFull, hconfig]
  dsimp only
  rw [replaceEach_render hafter h.after, fillAll_eq, fillAll_eq, fillAll_eq, map_map,
    map_map, substituted]
  have hsettle : (Piece.settle (tableAfter ns) ∘ Piece.settle (configTable ns.configScalars)) ∘
      Piece.settle (tableBefore ns) = Piece.settle (fullTable ns) := by
    funext piece
    dsimp only [Function.comp_apply]
    rw [Piece.settle_settle, Piece.settle_settle, fullTable, append_assoc]
  rw [hsettle]

/-- A job with an input, an output, a wildcard, and a key of the configuration. -/
def sorting (key : Text) : Namespaces where
  wildcards := [("sample".toList, "a".toList)]
  namedInputs := [("a.csv".toList, none)]
  namedOutputs := [("a.out".toList, some "table".toList)]
  params := [("key".toList, key)]
  logStdout := none
  resources := []
  configScalars := [("note".toList, "by id".toList)]

theorem interpolation_simultaneous_sorting :
    interpolateFull (render [.kept "sort -k ".toList, .hole (braced "params.key".toList),
        .kept " ".toList, .hole (braced "input".toList), .kept " # ".toList,
        .hole (reference "note".toList)]) (sorting "id".toList) =
      .ok (substituted (sorting "id".toList) [.kept "sort -k ".toList,
        .hole (braced "params.key".toList), .kept " ".toList, .hole (braced "input".toList),
        .kept " # ".toList, .hole (reference "note".toList)]) := by
  refine interpolation_simultaneous ⟨by decide, ?_, by decide⟩
  exact ⟨Or.inr (by decide), Or.inr (by decide), Or.inr (by decide), Or.inr (by decide),
    Or.inr (by decide), Or.inl ⟨_, mem_cons_self, rfl, by decide⟩, trivial⟩

/-- A value of a parameter is read as a placeholder. -/
theorem not_interpolation_simultaneous :
    ¬ ∀ (ns : Namespaces) (pieces : List Piece),
      (∀ placeholder, .hole placeholder ∈ pieces →
        ((fullTable ns).lookup placeholder).isSome = true) →
      (∀ e ∈ fullTable ns, Clean e.1 pieces) →
      interpolateFull (render pieces) ns = .ok (substituted ns pieces) := by
  intro h
  have hall := h (sorting "\x7binput\x7d".toList)
    [.kept "echo ".toList, .hole (braced "params.key".toList)] ?_ (by decide)
  · have hpath : substituted (sorting "\x7binput\x7d".toList)
        [.kept "echo ".toList, .hole (braced "params.key".toList)] =
        "echo \x7binput\x7d".toList := rfl
    have hrun : interpolateFull (render [.kept "echo ".toList, .hole (braced "params.key".toList)])
        (sorting "\x7binput\x7d".toList) = .ok "echo a.csv".toList := by
      with_unfolding_all rfl
    rw [hrun, hpath] at hall
    exact absurd (Except.ok.inj hall) (by decide)
  · intro placeholder hmem
    rcases mem_cons.mp hmem with heq | hmem
    · exact absurd heq (by nofun)
    · rw [mem_singleton] at hmem
      cases hmem
      decide

end OxyMake.CommandInterpolation

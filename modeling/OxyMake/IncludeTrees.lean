import OxyMake.IncludeGraph

/-!
# The tree of included files

Without the texts it keeps, the first traversal unfolds the include graph to a
tree, or stops at the first error. It ends because a branch never comes to a
canonical path twice and there are finitely many files. A branch that comes back
to one of its own files is reported as a cycle or keeps the tree from being
unfolded for an earlier error.
-/

namespace OxyMake.IncludeTrees

open List
open Wildcard LinkedTree
open RuleFields (Value)
open IncludeGraph IncludeGraph.World

variable {T E : Type} {K : Kinds}

/-- A file with the files it includes. -/
inductive IncludeTree (T : Type)
  | node (path : Path Text) (text : T) (children : List (IncludeTree T))

variable (w : World T E K)

/-! ### Unfolding -/

def unfoldIncludes
    (child : Path Text → T → Option (Except (ParseError E) (IncludeTree T)))
    (path : Path Text) : List Value → Option (Except (ParseError E) (List (IncludeTree T)))
  | [] => some (.ok [])
  | item :: rest =>
    match item.asStr with
    | none => some (.error (.toml path "include must contain string paths"))
    | some inc =>
      let childPath := join (collectBase path) (w.includePath inc)
      match w.read childPath with
      | none => some (.error (.includeNotFound childPath))
      | some text =>
        match child childPath text with
        | none => none
        | some (.error e) => some (.error e)
        | some (.ok tree) =>
          match unfoldIncludes child path rest with
          | none => none
          | some (.error e) => some (.error e)
          | some (.ok trees) => some (.ok (tree :: trees))

/-- Unfold a file while the files of the stack are being unfolded. -/
def unfold : ℕ → List (Path Text) → Path Text → T →
    Option (Except (ParseError E) (IncludeTree T))
  | 0, _, _, _ => none
  | n + 1, active, path, text =>
    let id := w.canonId path
    if id ∈ active then some (.error (.circularInclude (active ++ [id])))
    else
      match w.toml text with
      | .error message => some (.error (.toml path message))
      | .ok table =>
        match w.check table path with
        | .error e => some (.error (.other e))
        | .ok () =>
          match includeItems path table with
          | .error e => some (.error e)
          | .ok items =>
            match unfoldIncludes w (unfold n (active ++ [id])) path items with
            | none => none
            | some (.error e) => some (.error e)
            | some (.ok trees) => some (.ok (.node path text trees))

/-- What the included files are unfolded to. -/
inductive Unfolded (child : Path Text → T → Option (Except (ParseError E) (IncludeTree T)))
    (path : Path Text) : List Value → Option (Except (ParseError E) (List (IncludeTree T))) → Prop
  | nil : Unfolded child path [] (some (.ok []))
  | malformed {item rest} : item.asStr = none →
      Unfolded child path (item :: rest)
        (some (.error (.toml path "include must contain string paths")))
  | notFound {inc rest} : w.read (join (collectBase path) (w.includePath inc)) = none →
      Unfolded child path (.string inc :: rest)
        (some (.error (.includeNotFound (join (collectBase path) (w.includePath inc)))))
  /-- The fuel of a file runs out. -/
  | starved {inc rest text} : w.read (join (collectBase path) (w.includePath inc)) = some text →
      child (join (collectBase path) (w.includePath inc)) text = none →
      Unfolded child path (.string inc :: rest) none
  | error {inc rest text e} : w.read (join (collectBase path) (w.includePath inc)) = some text →
      child (join (collectBase path) (w.includePath inc)) text = some (.error e) →
      Unfolded child path (.string inc :: rest) (some (.error e))
  /-- A file is unfolded, and then the others. -/
  | cons {inc rest text tree outcome} :
      w.read (join (collectBase path) (w.includePath inc)) = some text →
      child (join (collectBase path) (w.includePath inc)) text = some (.ok tree) →
      Unfolded child path rest outcome →
      Unfolded child path (.string inc :: rest) (outcome.map fun r => r.map (tree :: ·))

theorem unfolded_unfoldIncludes
    (child : Path Text → T → Option (Except (ParseError E) (IncludeTree T))) (path : Path Text)
    (items : List Value) : Unfolded w child path items (unfoldIncludes w child path items) := by
  induction items with
  | nil => exact .nil
  | cons item rest ih =>
    rw [unfoldIncludes]
    cases hitem : item.asStr with
    | none => exact .malformed hitem
    | some inc =>
      have hstring : item = .string inc := by
        cases item with
        | string =>
          cases hitem
          rfl
        | integer | float | boolean | datetime | array | table => cases hitem
      subst hstring
      dsimp only
      cases hread : w.read (join (collectBase path) (w.includePath inc)) with
      | none => exact .notFound hread
      | some text =>
        dsimp only
        cases hchild : child (join (collectBase path) (w.includePath inc)) text with
        | none => exact .starved hread hchild
        | some r =>
          cases r with
          | error => exact .error hread hchild
          | ok =>
            have hcons := Unfolded.cons hread hchild ih
            dsimp only
            cases hrest : unfoldIncludes w child path rest with
            | none =>
              rw [hrest] at hcons
              exact hcons
            | some r =>
              rw [hrest] at hcons
              cases r with
              | error | ok => exact hcons

/-- What a file is unfolded to under a stack that does not have it. -/
inductive Opened (child : Path Text → T → Option (Except (ParseError E) (IncludeTree T)))
    (path : Path Text) (text : T) : Option (Except (ParseError E) (IncludeTree T)) → Prop
  | toml {message} : w.toml text = .error message →
      Opened child path text (some (.error (.toml path message)))
  | rejected {table e} : w.toml text = .ok table → w.check table path = .error e →
      Opened child path text (some (.error (.other e)))
  | notArray {table e} : w.toml text = .ok table → w.check table path = .ok () →
      includeItems path table = .error e → Opened child path text (some (.error e))
  | document {table items outcome} : w.toml text = .ok table → w.check table path = .ok () →
      includeItems (E := E) path table = .ok items → Unfolded w child path items outcome →
      Opened child path text (outcome.map fun r => r.map (.node path text))

theorem unfold_succ (n : ℕ) (active : List (Path Text)) (path : Path Text) (text : T) :
    (w.canonId path ∈ active ∧ unfold w (n + 1) active path text =
      some (.error (.circularInclude (active ++ [w.canonId path])))) ∨
    (w.canonId path ∉ active ∧
      Opened w (unfold w n (active ++ [w.canonId path])) path text
        (unfold w (n + 1) active path text)) := by
  rw [unfold]
  by_cases hid : w.canonId path ∈ active
  · rw [if_pos hid]
    exact .inl ⟨hid, rfl⟩
  · rw [if_neg hid]
    refine .inr ⟨hid, ?_⟩
    cases htoml : w.toml text with
    | error => exact .toml htoml
    | ok table =>
      dsimp only
      cases hcheck : w.check table path with
      | error => exact .rejected htoml hcheck
      | ok =>
        dsimp only
        cases hitems : includeItems (E := E) path table with
        | error => exact .notArray htoml hcheck hitems
        | ok items =>
          have hunfolded := unfolded_unfoldIncludes w (unfold w n (active ++ [w.canonId path]))
            path items
          have hdocument := Opened.document htoml hcheck hitems hunfolded
          dsimp only
          cases houtcome : unfoldIncludes w (unfold w n (active ++ [w.canonId path])) path
            items with
          | none =>
            rw [houtcome] at hdocument
            exact hdocument
          | some r =>
            rw [houtcome] at hdocument
            cases r with
            | error | ok => exact hdocument

/-! ### Files that can be read -/

theorem exists_of_read {path : Path Text} {text : T} (h : w.read path = some text) :
    path ≠ [] ∧ ∃ loc, w.fs.resolve path = .ok loc ∧ w.fs.node loc = some .file ∧
      w.text loc = some text := by
  rw [World.read] at h
  by_cases hnil : path = []
  · rw [if_pos hnil] at h
    cases h
  · rw [if_neg hnil] at h
    refine ⟨hnil, ?_⟩
    cases hresolve : w.fs.resolve path with
    | error =>
      rw [hresolve] at h
      cases h
    | ok loc =>
      rw [hresolve] at h
      dsimp only at h
      by_cases hfile : w.fs.node loc = some .file
      · rw [if_pos hfile] at h
        exact ⟨loc, rfl, hfile, h⟩
      · rw [if_neg hfile] at h
        cases h

theorem canonicalize_of_resolve {path : Path Text} {loc : Location Text} (hne : path ≠ [])
    (h : w.fs.resolve path = .ok loc) : w.fs.canonicalize path = .ok (locationPath loc) := by
  rw [FileSystem.canonicalize, if_neg hne, h]
  rfl

theorem canonId_of_read {path : Path Text} {text : T} (h : w.read path = some text) :
    ∃ loc, w.canonId path = locationPath loc ∧ loc ∈ w.files ∧ w.text loc = some text ∧
      w.fs.canonicalize path = .ok (locationPath loc) := by
  obtain ⟨hne, loc, hresolve, hfile, htext⟩ := exists_of_read w h
  have hcanonical := canonicalize_of_resolve w hne hresolve
  refine ⟨loc, ?_, w.mem_files loc hfile, htext, hcanonical⟩
  rw [World.canonId, hcanonical]

theorem locationPath_injective : Function.Injective (locationPath : Location Text → Path Text) := by
  intro a b h
  have hmap := tail_eq_of_cons_eq h
  exact map_injective_iff.mpr (fun c d hcd => Component.normal.inj hcd) hmap

theorem read_unique {p q : Path Text} {t u : T} (hp : w.read p = some t) (hq : w.read q = some u)
    (hid : w.canonId p = w.canonId q) : t = u := by
  obtain ⟨_, hloc, -, htext, -⟩ := canonId_of_read w hp
  obtain ⟨_, hloc', -, htext', -⟩ := canonId_of_read w hq
  rw [hloc, hloc'] at hid
  rw [locationPath_injective hid, htext'] at htext
  exact (Option.some.inj htext).symm

/-! ### The traversal ends -/

/-- Number of the paths that are not on the stack. -/
def waiting (ids active : List (Path Text)) : ℕ := (ids.filter (· ∉ active)).length

theorem waiting_lt {ids active : List (Path Text)} {id : Path Text} (hmem : id ∈ ids)
    (hnot : id ∉ active) : waiting ids (active ++ [id]) < waiting ids active := by
  have htwice : ids.filter (· ∉ active ++ [id]) =
      (ids.filter (· ∉ active)).filter (· ∉ active ++ [id]) := by
    rw [filter_filter]
    apply filter_congr
    intro l _
    rw [eq_comm, Bool.and_eq_left_iff_imp]
    intro hl
    rw [decide_eq_true_eq] at hl ⊢
    exact fun h => hl (mem_append_left _ h)
  rw [waiting, waiting, htwice, length_filter_lt_length_iff_exists]
  refine ⟨id, mem_filter.mpr ⟨hmem, decide_eq_true hnot⟩, ?_⟩
  rw [decide_eq_true_eq, not_not]
  exact mem_append_right _ mem_cons_self

theorem waiting_le (ids active : List (Path Text)) : waiting ids active ≤ ids.length :=
  length_filter_le _ _

theorem unfolded_ne_none {child : Path Text → T → Option (Except (ParseError E) (IncludeTree T))}
    {path : Path Text} {items : List Value}
    {outcome : Option (Except (ParseError E) (List (IncludeTree T)))}
    (h : Unfolded w child path items outcome)
    (hchild : ∀ p t, w.read p = some t → child p t ≠ none) : outcome ≠ none := by
  induction h with
  | nil | malformed | notFound | error => exact nofun
  | starved hread hnone => exact absurd hnone (hchild _ _ hread)
  | cons _ _ _ ih =>
    intro hnone
    exact ih (Option.map_eq_none_iff.mp hnone)

theorem opened_ne_none {child : Path Text → T → Option (Except (ParseError E) (IncludeTree T))}
    {path : Path Text} {text : T} {outcome : Option (Except (ParseError E) (IncludeTree T))}
    (h : Opened w child path text outcome)
    (hchild : ∀ p t, w.read p = some t → child p t ≠ none) : outcome ≠ none := by
  cases h with
  | toml | rejected | notArray => exact nofun
  | document _ _ _ hitems =>
    intro hnone
    exact unfolded_ne_none w hitems hchild (Option.map_eq_none_iff.mp hnone)

theorem unfold_ne_none_of_read (n : ℕ) :
    ∀ (active : List (Path Text)) (path : Path Text) (text : T),
    w.read path = some text → waiting (w.files.map locationPath) active < n →
    unfold w n active path text ≠ none := by
  induction n with
  | zero =>
    intro active path text _ hlt
    exact absurd hlt (Nat.not_lt_zero _)
  | succ n ih =>
    intro active path text hread hlt
    rcases unfold_succ w n active path text with ⟨-, hcycle⟩ | ⟨hnot, hopened⟩
    · rw [hcycle]
      exact nofun
    · apply opened_ne_none w hopened
      intro p t hp
      apply ih _ p t hp
      obtain ⟨_, hid, hmem, -, -⟩ := canonId_of_read w hread
      rw [hid] at hnot ⊢
      have hless := waiting_lt (mem_map_of_mem hmem) hnot
      omega

theorem unfold_ne_none {n : ℕ} (active : List (Path Text)) (path : Path Text) (text : T)
    (hn : w.files.length + 2 ≤ n) : unfold w n active path text ≠ none := by
  obtain ⟨m, rfl⟩ := Nat.exists_eq_add_of_le' (Nat.le_of_add_left_le hn : 1 ≤ n)
  rcases unfold_succ w m active path text with ⟨-, hcycle⟩ | ⟨-, hopened⟩
  · rw [hcycle]
    exact nofun
  · apply opened_ne_none w hopened
    intro p t hp
    apply unfold_ne_none_of_read w m _ p t hp
    have hle := waiting_le (w.files.map locationPath) (active ++ [w.canonId path])
    rw [length_map] at hle
    omega

/-! ### Cycles and other errors -/

def Includes (path : Path Text) (text : T) (child : Path Text) : Prop :=
  ∃ table items inc, w.toml text = .ok table ∧
    includeItems (E := E) path table = .ok items ∧ .string inc ∈ items ∧
      child = join (collectBase path) (w.includePath inc)

/-- A chain of includes from a file to another one, with the canonical paths of the files in
front of the last one. -/
inductive Route : Path Text → T → List (Path Text) → Path Text → T → Prop
  | here (path : Path Text) (text : T) : Route path text [] path text
  | step {path child last : Path Text} {text text' lastText : T} {ids : List (Path Text)} :
      Includes w path text child → w.read child = some text' →
      Route child text' ids last lastText →
      Route path text (w.canonId path :: ids) last lastText

/-- Some chain of includes comes back to one of its files. -/
def Revisits (path : Path Text) (text : T) : Prop :=
  ∃ ids last lastText, Route w path text ids last lastText ∧ w.canonId last ∈ ids

/-- A file is no document, is rejected by the check of the schema, includes something else than
paths, or includes a file that cannot be read. -/
def Defect (path : Path Text) (text : T) : Prop :=
  (∃ message, w.toml text = .error message) ∨
    ∃ table, w.toml text = .ok table ∧ ((∃ e, w.check table path = .error e) ∨
      (∃ e, includeItems (E := E) path table = .error e) ∨
      (∃ items, includeItems (E := E) path table = .ok items ∧
        ∃ item ∈ items, item.asStr = none) ∨
      ∃ child, Includes w path text child ∧ w.read child = none)

/-- Some chain of includes comes to a file with a defect. -/
def Defective (path : Path Text) (text : T) : Prop :=
  ∃ ids last lastText, Route w path text ids last lastText ∧ Defect w last lastText

/-- No chain of includes comes to a file of the stack, back to one of its own files or to a
file with a defect. -/
def Faultless (active : List (Path Text)) (path : Path Text) (text : T) : Prop :=
  ∀ ids last lastText, Route w path text ids last lastText →
    w.canonId last ∉ active ++ ids ∧ ¬ Defect w last lastText

/-- A file that is none of the stack passes the check, and the files it includes first have no
fault. -/
structure Passed (active : List (Path Text)) (path : Path Text) (text : T) (before : List String)
    (rest : List Value) : Prop where
  notMem : w.canonId path ∉ active
  document : ∃ table, w.toml text = .ok table ∧ w.check table path = .ok () ∧
    includeItems (E := E) path table = .ok (before.map .string ++ rest)
  earlier : ∀ inc ∈ before, ∃ text',
    w.read (join (collectBase path) (w.includePath inc)) = some text' ∧
    Faultless w (active ++ [w.canonId path]) (join (collectBase path) (w.includePath inc)) text'

/-- The first error in depth-first order, of a file that is included by those of a stack. -/
inductive FirstError : List (Path Text) → Path Text → T → ParseError E → Prop
  /-- The file is one of the stack. -/
  | circular {active path text} : w.canonId path ∈ active →
      FirstError active path text (.circularInclude (active ++ [w.canonId path]))
  | toml {active path text message} : w.canonId path ∉ active → w.toml text = .error message →
      FirstError active path text (.toml path message)
  | rejected {active path text table e} : w.canonId path ∉ active → w.toml text = .ok table →
      w.check table path = .error e → FirstError active path text (.other e)
  | notArray {active path text table e} : w.canonId path ∉ active → w.toml text = .ok table →
      w.check table path = .ok () → includeItems path table = .error e →
      FirstError active path text e
  | malformed {active path text before item after} :
      Passed w active path text before (item :: after) → item.asStr = none →
      FirstError active path text (.toml path "include must contain string paths")
  | notFound {active path text before inc after} :
      Passed w active path text before (.string inc :: after) →
      w.read (join (collectBase path) (w.includePath inc)) = none →
      FirstError active path text
        (.includeNotFound (join (collectBase path) (w.includePath inc)))
  /-- It is that of the first included file with a fault. -/
  | included {active path text before inc after text' e} :
      Passed w active path text before (.string inc :: after) →
      w.read (join (collectBase path) (w.includePath inc)) = some text' →
      FirstError (active ++ [w.canonId path]) (join (collectBase path) (w.includePath inc))
        text' e → FirstError active path text e

theorem Passed.defective {active : List (Path Text)} {path : Path Text} {text : T}
    {before : List String} {item : Value} {after : List Value}
    (h : Passed w active path text before (item :: after)) (hitem : item.asStr = none) :
    Defective w path text := by
  obtain ⟨table, htoml, -, hitems⟩ := h.document
  exact ⟨[], path, text, .here path text, .inr ⟨table, htoml, .inr (.inr (.inl
    ⟨_, hitems, item, mem_append_right _ mem_cons_self, hitem⟩))⟩⟩

theorem Passed.includes {active : List (Path Text)} {path : Path Text} {text : T}
    {before : List String} {inc : String} {after : List Value}
    (h : Passed w active path text before (.string inc :: after)) :
    Includes w path text (join (collectBase path) (w.includePath inc)) := by
  obtain ⟨table, htoml, -, hitems⟩ := h.document
  exact ⟨table, _, inc, htoml, hitems, mem_append_right _ mem_cons_self, rfl⟩

theorem includeItems_error {path : Path Text} {table : RuleFields.Table} {e : ParseError E}
    (h : includeItems path table = .error e) : e = .toml path "include must be an array of paths" := by
  unfold includeItems at h
  split at h
  · cases h
  · split at h
    · cases h
    · cases h
      rfl

/-- The first error is a cycle along a chain of includes, or a chain comes to a defect. -/
theorem route_of_firstError {active : List (Path Text)} {path : Path Text} {text : T}
    {e : ParseError E} (h : FirstError w active path text e) :
    (∃ ids last lastText, Route w path text ids last lastText ∧
      w.canonId last ∈ active ++ ids ∧
      e = .circularInclude (active ++ ids ++ [w.canonId last])) ∨
    ((∀ chain, e ≠ .circularInclude chain) ∧ Defective w path text) := by
  induction h with
  | @circular active path text hmem =>
    refine .inl ⟨[], path, text, .here path text, ?_, ?_⟩
    · rw [append_nil]
      exact hmem
    · rw [append_nil]
  | @toml active path text message _ htoml =>
    exact .inr ⟨nofun, [], path, text, .here path text, .inl ⟨message, htoml⟩⟩
  | @rejected active path text table e _ htoml hcheck =>
    exact .inr ⟨nofun, [], path, text, .here path text, .inr ⟨table, htoml, .inl ⟨e, hcheck⟩⟩⟩
  | @notArray active path text table e _ htoml _ hitems =>
    refine .inr ⟨?_, [], path, text, .here path text,
      .inr ⟨table, htoml, .inr (.inl ⟨e, hitems⟩)⟩⟩
    rw [includeItems_error hitems]
    exact nofun
  | malformed hpassed hitem => exact .inr ⟨nofun, hpassed.defective w hitem⟩
  | @notFound active path text before inc after hpassed hread =>
    obtain ⟨table, htoml, -, -⟩ := hpassed.document
    exact .inr ⟨nofun, [], path, text, .here path text, .inr ⟨table, htoml,
      .inr (.inr (.inr ⟨_, hpassed.includes w, hread⟩))⟩⟩
  | @included active path text before inc after text' e hpassed hread _ ih =>
    rcases ih with ⟨ids, last, lastText, hroute, hmem, heq⟩ |
      ⟨hne, ids, last, lastText, hroute, hdefect⟩
    · refine .inl ⟨w.canonId path :: ids, last, lastText, .step (hpassed.includes w) hread hroute,
        ?_, ?_⟩
      · rw [append_assoc] at hmem
        exact hmem
      · rw [heq, append_assoc active]
        rfl
    · exact .inr ⟨hne, _, last, lastText, .step (hpassed.includes w) hread hroute, hdefect⟩

theorem unfolded_ok {child : Path Text → T → Option (Except (ParseError E) (IncludeTree T))}
    {path : Path Text} {items : List Value}
    {outcome : Option (Except (ParseError E) (List (IncludeTree T)))}
    (h : Unfolded w child path items outcome) {trees : List (IncludeTree T)}
    (hok : outcome = some (.ok trees)) :
    ∃ incs : List String, items = incs.map .string ∧
      List.Forall₂ (fun inc tree => ∃ text,
        w.read (join (collectBase path) (w.includePath inc)) = some text ∧
        child (join (collectBase path) (w.includePath inc)) text = some (.ok tree)) incs trees := by
  induction h generalizing trees with
  | nil =>
    cases hok
    exact ⟨[], rfl, .nil⟩
  | malformed | notFound | starved | error => cases hok
  | @cons inc rest text tree outcome hread hchild hrest ih =>
    cases outcome with
    | none => cases hok
    | some r =>
      cases r with
      | error => cases hok
      | ok =>
        cases hok
        obtain ⟨incs, rfl, hall⟩ := ih rfl
        exact ⟨inc :: incs, rfl, .cons ⟨text, hread, hchild⟩ hall⟩

/-- What an unfolded file has. -/
structure OpenedAt (n : ℕ) (active : List (Path Text)) (path : Path Text) (text : T)
    (trees : List (IncludeTree T)) (table : RuleFields.Table) (incs : List String) : Prop where
  notMem : w.canonId path ∉ active
  toml : w.toml text = .ok table
  check : w.check table path = .ok ()
  items : includeItems (E := E) path table = .ok (incs.map .string)
  /-- Each of them is that of a file, which is unfolded. -/
  children : List.Forall₂ (fun inc tree => ∃ text,
    w.read (join (collectBase path) (w.includePath inc)) = some text ∧
    unfold w n (active ++ [w.canonId path]) (join (collectBase path) (w.includePath inc)) text =
      some (.ok tree)) incs trees

theorem openedAt_of_unfold {n : ℕ} {active : List (Path Text)} {path : Path Text} {text : T}
    {tree : IncludeTree T} (h : unfold w (n + 1) active path text = some (.ok tree)) :
    ∃ trees table incs, tree = .node path text trees ∧
      OpenedAt w n active path text trees table incs := by
  rcases unfold_succ w n active path text with ⟨-, hcycle⟩ | ⟨hnot, hopened⟩
  · rw [hcycle] at h
    cases h
  · generalize hout : unfold w (n + 1) active path text = out at hopened h
    cases hopened with
    | toml | rejected | notArray => cases h
    | @document table items outcome htoml hcheck hitems hunfolded =>
      cases outcome with
      | none => cases h
      | some r =>
        cases r with
        | error => cases h
        | ok trees =>
          cases h
          obtain ⟨incs, rfl, hall⟩ := unfolded_ok w hunfolded rfl
          exact ⟨trees, table, incs, rfl, hnot, htoml, hcheck, hitems, hall⟩

theorem exists_of_forall₂ {α β : Type} {R : α → β → Prop} {l : List α} {u : List β}
    (h : List.Forall₂ R l u) {a : α} (ha : a ∈ l) : ∃ b ∈ u, R a b := by
  induction h with
  | nil => cases ha
  | @cons a' b l u hab _ ih =>
    rcases mem_cons.mp ha with rfl | ha
    · exact ⟨b, mem_cons_self, hab⟩
    · obtain ⟨b', hb', hab'⟩ := ih ha
      exact ⟨b', mem_cons_of_mem _ hb', hab'⟩

theorem OpenedAt.not_defect {n : ℕ} {active : List (Path Text)} {path : Path Text} {text : T}
    {trees : List (IncludeTree T)} {table : RuleFields.Table} {incs : List String}
    (h : OpenedAt w n active path text trees table incs) : ¬ Defect w path text := by
  rintro (⟨_, htoml⟩ | ⟨table', htoml, hdefect⟩)
  · rw [h.toml] at htoml
    cases htoml
  · rw [h.toml] at htoml
    cases htoml
    rcases hdefect with ⟨e, hcheck⟩ | ⟨e, hitems⟩ | ⟨items, hitems, _, hmem, hitem⟩ |
      ⟨_, ⟨table', items, inc, htoml, hitems, hmem, rfl⟩, hread⟩
    · rw [h.check] at hcheck
      cases hcheck
    · rw [h.items] at hitems
      cases hitems
    · rw [h.items] at hitems
      cases hitems
      obtain ⟨inc, -, rfl⟩ := mem_map.mp hmem
      cases hitem
    · rw [h.toml] at htoml
      cases htoml
      rw [h.items] at hitems
      cases hitems
      obtain ⟨_, hinc, heq⟩ := mem_map.mp hmem
      cases heq
      obtain ⟨_, -, _, hread', -⟩ := exists_of_forall₂ h.children hinc
      rw [hread] at hread'
      cases hread'

/-- A file that is unfolded has no fault. -/
theorem faultless_of_unfold {n : ℕ} {active : List (Path Text)} {path : Path Text} {text : T}
    {tree : IncludeTree T} (h : unfold w n active path text = some (.ok tree)) :
    Faultless w active path text := by
  intro ids last lastText hroute
  induction hroute generalizing n active tree with
  | here =>
    cases n with
    | zero => cases h
    | succ =>
      obtain ⟨trees, table, incs, -, hopened⟩ := openedAt_of_unfold w h
      rw [append_nil]
      exact ⟨hopened.notMem, hopened.not_defect⟩
  | @step path child last text text' lastText ids hincludes hread _ ih =>
    cases n with
    | zero => cases h
    | succ =>
      obtain ⟨trees, table, incs, -, hopened⟩ := openedAt_of_unfold w h
      obtain ⟨_, _, _, htoml, hitems, hmem, rfl⟩ := hincludes
      rw [hopened.toml] at htoml
      cases htoml
      rw [hopened.items] at hitems
      cases hitems
      obtain ⟨_, hinc, heq⟩ := mem_map.mp hmem
      cases heq
      obtain ⟨_, -, _, hread', hunfold⟩ := exists_of_forall₂ hopened.children hinc
      rw [hread] at hread'
      cases hread'
      have hnot := ih hunfold
      rw [append_assoc] at hnot
      exact hnot

/-! ### The first error -/

/-- Where the included files are not unfolded, one of them is at fault and those in front of it
are unfolded. -/
theorem unfolded_error {child : Path Text → T → Option (Except (ParseError E) (IncludeTree T))}
    {path : Path Text} {items : List Value}
    {outcome : Option (Except (ParseError E) (List (IncludeTree T)))}
    (h : Unfolded w child path items outcome) {e : ParseError E} (he : outcome = some (.error e)) :
    ∃ (before : List String) (item : Value) (after : List Value),
      items = before.map .string ++ item :: after ∧
      (∀ inc ∈ before, ∃ text tree,
        w.read (join (collectBase path) (w.includePath inc)) = some text ∧
        child (join (collectBase path) (w.includePath inc)) text = some (.ok tree)) ∧
      ((item.asStr = none ∧ e = .toml path "include must contain string paths") ∨
        ∃ inc, item = .string inc ∧
          ((w.read (join (collectBase path) (w.includePath inc)) = none ∧
              e = .includeNotFound (join (collectBase path) (w.includePath inc))) ∨
            ∃ text, w.read (join (collectBase path) (w.includePath inc)) = some text ∧
              child (join (collectBase path) (w.includePath inc)) text = some (.error e))) := by
  induction h with
  | nil | starved => cases he
  | @malformed item rest hitem =>
    cases he
    exact ⟨[], item, rest, rfl, forall_mem_nil _, .inl ⟨hitem, rfl⟩⟩
  | @notFound inc rest hread =>
    cases he
    exact ⟨[], .string inc, rest, rfl, forall_mem_nil _, .inr ⟨inc, rfl, .inl ⟨hread, rfl⟩⟩⟩
  | @error inc rest text e' hread hchild =>
    cases he
    exact ⟨[], .string inc, rest, rfl, forall_mem_nil _,
      .inr ⟨inc, rfl, .inr ⟨text, hread, hchild⟩⟩⟩
  | @cons inc rest text tree outcome hread hchild hrest ih =>
    have herror : outcome = some (.error e) := by
      cases outcome with
      | none => cases he
      | some r =>
        cases r with
        | error =>
          cases he
          rfl
        | ok => cases he
    obtain ⟨before, item, after, rfl, hbefore, hfault⟩ := ih herror
    refine ⟨inc :: before, item, after, rfl, ?_, hfault⟩
    intro inc' hinc
    rcases mem_cons.mp hinc with rfl | hinc
    · exact ⟨text, tree, hread, hchild⟩
    · exact hbefore inc' hinc

/-- A file that is not unfolded is rejected with its first error. -/
theorem firstError_of_unfold (n : ℕ) : ∀ {active : List (Path Text)} {path : Path Text} {text : T}
    {e : ParseError E}, unfold w n active path text = some (.error e) →
      FirstError w active path text e := by
  induction n with
  | zero =>
    intro active path text e h
    cases h
  | succ n ih =>
    intro active path text e h
    rcases unfold_succ w n active path text with ⟨hmem, hcycle⟩ | ⟨hnot, hopened⟩
    · rw [hcycle] at h
      cases h
      exact .circular hmem
    · generalize hout : unfold w (n + 1) active path text = out at hopened h
      cases hopened with
      | toml htoml =>
        cases h
        exact .toml hnot htoml
      | rejected htoml hcheck =>
        cases h
        exact .rejected hnot htoml hcheck
      | notArray htoml hcheck hitems =>
        cases h
        exact .notArray hnot htoml hcheck hitems
      | @document table items outcome htoml hcheck hitems hunfolded =>
        have herror : outcome = some (.error e) := by
          cases outcome with
          | none => cases h
          | some r =>
            cases r with
            | error =>
              cases h
              rfl
            | ok => cases h
        obtain ⟨before, item, after, rfl, hbefore, hfault⟩ := unfolded_error w hunfolded herror
        have hpassed : Passed w active path text before (item :: after) := by
          refine ⟨hnot, ⟨table, htoml, hcheck, hitems⟩, ?_⟩
          intro inc hinc
          obtain ⟨text', _, hread, hchild⟩ := hbefore inc hinc
          exact ⟨text', hread, faultless_of_unfold w hchild⟩
        rcases hfault with ⟨hitem, rfl⟩ | ⟨inc, rfl, ⟨hread, rfl⟩ | ⟨text', hread, hchild⟩⟩
        · exact .malformed hpassed hitem
        · exact .notFound hpassed hread
        · exact .included hpassed hread (ih hchild)

end OxyMake.IncludeTrees

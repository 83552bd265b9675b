import OxyMake.CollectedSources
import OxyMake.IncludePaths

/-!
# Merging the included files

The second traversal merges the files from the leaves to the root. What it makes
of a file is read off the tree of the file: a value of the configuration is that
of the first file that has it, and a variable of a rule is that of the rule, of
its file or of the nearest file around it. From the texts that the first
traversal collected it comes to the same files, so it misses none and finds no
cycle.
-/

namespace OxyMake.IncludeMerging

open List
open Wildcard LinkedTree
open RuleFields (Value)
open IncludeGraph IncludeGraph.World IncludeTrees CollectedSources IncludePaths

variable {T E : Type} {K : Kinds}

/-! ### What the files of a tree define -/

/-- What a file defines, with the files it includes. -/
inductive Tree (K : Kinds)
  | node (own : Own K) (children : List (Tree K))

mutual

/-- What the files of a tree define, each file before the files it includes. -/
def owns : Tree K → List (Own K)
  | .node own children => own :: ownsAll children

def ownsAll : List (Tree K) → List (Own K)
  | [] => []
  | tree :: rest => owns tree ++ ownsAll rest

end

mutual

/-- The rules of a tree, each with the variables of its file and of the files around it, from
the nearest one outwards. -/
def rulesOf (outer : List Env) : Tree K → List (Rule K × List Env)
  | .node own children =>
    own.rules.map (fun rule => (rule, own.globalEnv :: outer)) ++
      rulesAll (own.globalEnv :: outer) children

def rulesAll (outer : List Env) : List (Tree K) → List (Rule K × List Env)
  | [] => []
  | tree :: rest => rulesOf outer tree ++ rulesAll outer rest

end

mutual

/-- A tree is that of a file: its text says what it defines and which files it includes, and
these are read from the file system. -/
inductive IsTree (w : World T E K) : Path Text → T → Tree K → Prop
  /-- The file and the files it includes. -/
  | node {path text table incs own children} : w.toml text = .ok table →
      rawIncludes table = .ok incs → w.own path table = .ok own →
      AreTrees w path incs children → IsTree w path text (.node own children)

/-- Trees are those of the files that a file includes. -/
inductive AreTrees (w : World T E K) : Path Text → List String → List (Tree K) → Prop
  | nil {path} : AreTrees w path [] []
  | cons {path inc incs text tree trees} :
      w.read (join (expandBase path) (w.includePath inc)) = some text →
      IsTree w (join (expandBase path) (w.includePath inc)) text tree →
      AreTrees w path incs trees → AreTrees w path (inc :: incs) (tree :: trees)

end

/-- The value of a variable in the nearest of some places that has it. -/
def nearest (envs : List Env) (name : String) : Option String := envs.findSome? (·.get name)

/-- A rule of the workflow is that of a file, and each of its variables has the nearest
value. -/
structure Inherits (rule : Rule K) (entry : Rule K × List Env) : Prop where
  /-- It has the name of the rule. -/
  name : rule.name = entry.1.name
  /-- It has the other fields of the rule. -/
  body : rule.body = entry.1.body
  /-- A variable is that of the rule, or of the nearest file that has it. -/
  env : ∀ name, rule.env.get name = nearest (entry.1.env :: entry.2) name

/-- A workflow is what the files of a tree define. -/
structure Merges (tree : Tree K) (workflow : Workflow K) : Prop where
  /-- A value of the configuration is that of the first file that has it. -/
  config : ∀ key, workflow.config.lookup key = (owns tree).findSome? (·.config.lookup key)
  rules : List.Forall₂ Inherits workflow.rules (rulesOf [] tree)
  nodup_names : (workflow.rules.map Rule.name).Nodup

/-! ### One more included file -/

theorem ownsAll_concat (trees : List (Tree K)) (tree : Tree K) :
    ownsAll (trees ++ [tree]) = ownsAll trees ++ owns tree := by
  induction trees with
  | nil => exact append_nil _
  | cons first rest ih =>
    rw [cons_append, ownsAll, ownsAll, ih, append_assoc]

theorem rulesAll_concat (outer : List Env) (trees : List (Tree K)) (tree : Tree K) :
    rulesAll outer (trees ++ [tree]) = rulesAll outer trees ++ rulesOf outer tree := by
  induction trees with
  | nil => exact append_nil _
  | cons first rest ih =>
    rw [cons_append, rulesAll, rulesAll, ih, append_assoc]

mutual

theorem rulesOf_append (inner outer : List Env) : ∀ tree : Tree K,
    rulesOf (inner ++ outer) tree = (rulesOf inner tree).map fun e => (e.1, e.2 ++ outer)
  | .node own children => by
    have hrest := rulesAll_append (own.globalEnv :: inner) outer children
    rw [rulesOf, rulesOf, map_append, map_map, ← hrest]
    rfl

theorem rulesAll_append (inner outer : List Env) : ∀ trees : List (Tree K),
    rulesAll (inner ++ outer) trees = (rulesAll inner trees).map fun e => (e.1, e.2 ++ outer)
  | [] => rfl
  | tree :: rest => by
    rw [rulesAll, rulesAll, map_append, rulesOf_append inner outer tree,
      rulesAll_append inner outer rest]

end

theorem get_extend (env others : Env) (name : String) :
    (env.extend others).get name = (others.get name).or (env.get name) :=
  SortedMap.lookup_extend others.sorted.nodup env.entries name

theorem nearest_cons (env : Env) (envs : List Env) (name : String) :
    nearest (env :: envs) name = (env.get name).or (nearest envs name) := by
  rw [nearest, findSome?_cons]
  cases env.get name <;> rfl

theorem nearest_concat (envs : List Env) (env : Env) (name : String) :
    nearest (envs ++ [env]) name = (nearest envs name).or (env.get name) := by
  rw [nearest, findSome?_append, nearest, findSome?_singleton]

theorem addRules_ok {globalEnv : Env} {filePath incPath : Path Text} {added : List (Rule K)} :
    ∀ {rules out : List (Rule K)},
      addRules (E := E) globalEnv filePath incPath added rules = .ok out →
      (rules.map Rule.name).Nodup →
        out = rules ++ added.map (fun rule => { rule with env := globalEnv.extend rule.env }) ∧
        (out.map Rule.name).Nodup := by
  induction added with
  | nil =>
    intro rules out h hnodup
    cases h
    exact ⟨(append_nil _).symm, hnodup⟩
  | cons rule rest ih =>
    intro rules out h hnodup
    rw [addRules] at h
    by_cases hany : rules.any (·.name = rule.name) = true
    · rw [if_pos hany] at h
      cases h
    · rw [if_neg hany] at h
      have hfresh : rule.name ∉ rules.map Rule.name := by
        intro hmem
        obtain ⟨r, hr, hname⟩ := mem_map.mp hmem
        exact hany (any_eq_true.mpr ⟨r, hr, decide_eq_true hname⟩)
      have hnodup' : ((rules ++ [{ rule with env := globalEnv.extend rule.env }]).map
          Rule.name).Nodup := by
        rw [map_append, map_singleton]
        exact List.Nodup.append hnodup (nodup_singleton _)
          (disjoint_singleton.mpr hfresh)
      obtain ⟨hout, hnames⟩ := ih h hnodup'
      refine ⟨?_, hnames⟩
      rw [hout, append_assoc, map_cons]
      rfl

theorem addRules_error {globalEnv : Env} {filePath incPath : Path Text} {added : List (Rule K)} :
    ∀ {rules : List (Rule K)} {e : ParseError E},
      addRules globalEnv filePath incPath added rules = .error e →
        ∃ name, e = .duplicateRule name filePath incPath := by
  induction added with
  | nil =>
    intro rules e h
    cases h
  | cons rule rest ih =>
    intro rules e h
    rw [addRules] at h
    by_cases hany : rules.any (·.name = rule.name) = true
    · rw [if_pos hany] at h
      cases h
      exact ⟨rule.name, rfl⟩
    · rw [if_neg hany] at h
      exact ih h

theorem addClasses_error {incPath : Path Text} {origins : List (String × Path Text)}
    {added : List (String × K.Class)} :
    ∀ {acc : List (String × K.Class) × List (String × Path Text)} {e : ParseError E},
      addClasses incPath origins added acc = .error e →
        ∃ name first second, e = .duplicateResourceClass name first second := by
  induction added with
  | nil =>
    intro acc e h
    cases h
  | cons entry rest ih =>
    intro acc e h
    rw [addClasses] at h
    cases hlookup : acc.2.lookup entry.1 with
    | some =>
      rw [hlookup] at h
      cases h
      exact ⟨_, _, _, rfl⟩
    | none =>
      rw [hlookup] at h
      exact ih h

/-- An error is neither a missing file nor a cycle. -/
def Elsewhere (e : ParseError E) : Prop :=
  (∀ path, e ≠ .includeNotFound path) ∧ ∀ chain, e ≠ .circularInclude chain

variable (w : World T E K)

theorem merge_error {filePath incPath : Path Text} {workflow inc : Workflow K}
    {e : ParseError E} (h : w.merge filePath incPath workflow inc = .error e) : Elsewhere e := by
  rw [World.merge] at h
  by_cases hprofiles : inc.profiles.isEmpty = false
  · rw [if_pos hprofiles] at h
    cases h
    exact ⟨nofun, nofun⟩
  · rw [if_neg hprofiles] at h
    by_cases hexecutor : w.isDefault inc.executor = false
    · rw [if_pos hexecutor] at h
      cases h
      exact ⟨nofun, nofun⟩
    · rw [if_neg hexecutor] at h
      cases hrules : addRules (E := E) workflow.globalEnv filePath incPath inc.rules
          workflow.rules with
      | error e' =>
        rw [hrules] at h
        obtain ⟨name, rfl⟩ := addRules_error hrules
        cases h
        exact ⟨nofun, nofun⟩
      | ok rules =>
        rw [hrules] at h
        cases hclasses : addClasses (E := E) incPath inc.resourceClassOrigins inc.resourceClasses
            (workflow.resourceClasses, workflow.resourceClassOrigins) with
        | error e' =>
          rw [hclasses] at h
          obtain ⟨name, _, _, rfl⟩ := addClasses_error hclasses
          cases h
          exact ⟨nofun, nofun⟩
        | ok classes =>
          rw [hclasses] at h
          cases h

theorem merge_ok {filePath incPath : Path Text} {workflow inc out : Workflow K}
    (h : w.merge filePath incPath workflow inc = .ok out) :
    out.config = SortedMap.fill workflow.config inc.config ∧
      out.globalEnv = workflow.globalEnv ∧
      addRules (E := E) workflow.globalEnv filePath incPath inc.rules workflow.rules =
        .ok out.rules := by
  rw [World.merge] at h
  by_cases hprofiles : inc.profiles.isEmpty = false
  · rw [if_pos hprofiles] at h
    cases h
  · rw [if_neg hprofiles] at h
    by_cases hexecutor : w.isDefault inc.executor = false
    · rw [if_pos hexecutor] at h
      cases h
    · rw [if_neg hexecutor] at h
      obtain ⟨_, hrules, h⟩ := ResourceNormalization.bind_eq_ok h
      obtain ⟨_, -, h⟩ := ResourceNormalization.bind_eq_ok h
      cases h
      exact ⟨rfl, rfl, hrules⟩

theorem merges_ownWorkflow (path : Path Text) (own : Own K) :
    Merges (.node own []) (ownWorkflow path own) := by
  refine ⟨?_, ?_, ?_⟩
  · intro key
    rw [owns, ownsAll, findSome?_singleton]
    rfl
  · rw [rulesOf, rulesAll, append_nil, ownWorkflow, forall₂_map_left_iff,
      forall₂_map_right_iff, forall₂_same]
    intro rule _
    refine ⟨rfl, rfl, ?_⟩
    intro name
    rw [get_extend, nearest_cons, nearest, findSome?_singleton]
  · rw [ownWorkflow, map_map]
    exact own.nodup_names

theorem inherits_extend {rule : Rule K} {entry : Rule K × List Env} (h : Inherits rule entry)
    (env : Env) :
    Inherits { rule with env := env.extend rule.env } (entry.1, entry.2 ++ [env]) := by
  refine ⟨h.name, h.body, ?_⟩
  intro name
  dsimp only
  rw [get_extend, h.env, ← cons_append, nearest_concat]

theorem merges_merge {filePath incPath : Path Text} {workflow inc out : Workflow K} {own : Own K}
    {children : List (Tree K)} {tree : Tree K} (hworkflow : Merges (.node own children) workflow)
    (henv : workflow.globalEnv = own.globalEnv) (hinc : Merges tree inc)
    (h : w.merge filePath incPath workflow inc = .ok out) :
    Merges (.node own (children ++ [tree])) out ∧ out.globalEnv = own.globalEnv := by
  obtain ⟨hconfig, hglobal, hrules⟩ := merge_ok w h
  obtain ⟨hadded, hnames⟩ := addRules_ok hrules hworkflow.nodup_names
  refine ⟨⟨?_, ?_, hnames⟩, hglobal.trans henv⟩
  · intro key
    rw [hconfig, SortedMap.lookup_fill, hworkflow.config, hinc.config, owns, owns, ownsAll_concat,
      ← cons_append, findSome?_append]
  · have houter := rulesOf_append [] [own.globalEnv] tree
    rw [nil_append] at houter
    rw [hadded, rulesOf, rulesAll_concat, ← append_assoc, ← rulesOf, houter, henv]
    apply rel_append hworkflow.rules
    rw [forall₂_map_left_iff, forall₂_map_right_iff]
    exact hinc.rules.imp fun rule entry hinherits => inherits_extend hinherits own.globalEnv

/-! ### Parsing from the collected texts -/

/-- What parsing a file may give: what the files of its tree define, or an error that is neither
a missing file nor a cycle. -/
def Sound (path : Path Text) (text : T) : Except (ParseError E) (Workflow K) → Prop
  | .error e => Elsewhere e
  | .ok workflow => ∃ tree, IsTree w path text tree ∧ Merges tree workflow

def Ready (child : List (Path Text) → Path Text → T →
      Option (Except (ParseError E) (Workflow K)))
    (sources : Sources T) (visited : List (Path Text)) (incPath : Path Text) : Prop :=
  ∃ canon text, w.fs.canonicalize incPath = .ok canon ∧ canon ∉ visited ∧
    sources.get canon = some text ∧ w.read incPath = some text ∧
    ∀ r, child (visited ++ [canon]) incPath text = some r → Sound w incPath text r

theorem expandIncludes_sound
    {child : List (Path Text) → Path Text → T → Option (Except (ParseError E) (Workflow K))}
    {sources : Sources T} {visited : List (Path Text)} {path : Path Text} {own : Own K}
    {incs : List String} :
    ∀ {children : List (Tree K)} {workflow : Workflow K}
      {r : Except (ParseError E) (Workflow K)},
      (∀ inc ∈ incs, Ready w child sources visited
        (join (expandBase path) (w.includePath inc))) →
      Merges (.node own children) workflow → workflow.globalEnv = own.globalEnv →
      w.expandIncludes child sources visited path incs workflow = some r →
      match r with
      | .error e => Elsewhere e
      | .ok out => ∃ trees, AreTrees w path incs trees ∧
          Merges (.node own (children ++ trees)) out := by
  induction incs with
  | nil =>
    intro children workflow r _ hworkflow _ h
    cases h
    refine ⟨[], .nil, ?_⟩
    rw [append_nil]
    exact hworkflow
  | cons inc rest ih =>
    intro children workflow r hready hworkflow henv h
    obtain ⟨canon, text, hcanon, hnot, hget, hread, hchild⟩ := hready inc mem_cons_self
    rw [expandIncludes, hcanon] at h
    dsimp only at h
    rw [if_neg hnot, hget] at h
    dsimp only at h
    cases hout : child (visited ++ [canon]) (join (expandBase path) (w.includePath inc)) text with
    | none =>
      rw [hout] at h
      cases h
    | some outcome =>
      rw [hout] at h
      have hsound := hchild outcome hout
      cases outcome with
      | error =>
        cases h
        exact hsound
      | ok incWorkflow =>
        obtain ⟨tree, htree, hmerges⟩ := hsound
        dsimp only at h
        cases hmerge : w.merge path (join (expandBase path) (w.includePath inc)) workflow
            incWorkflow with
        | error e =>
          rw [hmerge] at h
          cases h
          exact merge_error w hmerge
        | ok out =>
          rw [hmerge] at h
          obtain ⟨hmerged, henv'⟩ := merges_merge w hworkflow henv hmerges hmerge
          have hrest := ih (fun inc' hinc => hready inc' (.tail _ hinc)) hmerged
            henv' h
          cases r with
          | error => exact hrest
          | ok =>
            obtain ⟨trees, htrees, hall⟩ := hrest
            refine ⟨tree :: trees, .cons hread htree htrees, ?_⟩
            rw [append_assoc] at hall
            exact hall

theorem rawIncludes_of_items {path : Path Text} {table : RuleFields.Table} {incs : List String}
    (h : includeItems (E := E) path table = .ok (incs.map .string)) :
    rawIncludes table = .ok incs := by
  have hstrings : ∀ l : List String, (l.map Value.string).mapM Value.asStr = some l := by
    intro l
    induction l with
    | nil => rfl
    | cons inc rest ih =>
      rw [map_cons, mapM_cons, ih]
      rfl
  unfold includeItems at h
  unfold rawIncludes
  cases hlookup : table.lookup "include" with
  | none =>
    rw [hlookup] at h
    cases incs with
    | nil => rfl
    | cons => cases h
  | some value =>
    rw [hlookup] at h
    cases value with
    | array =>
      cases h
      dsimp only
      rw [hstrings]
    | string | integer | float | boolean | datetime | table => cases h

theorem parseWorkflowInner_sound (n : ℕ) : ∀ {active : List (Path Text)} {p q : Path Text}
    {text : T} {trees : List (IncludeTree T)} {sources : Sources T} {m : ℕ}
    {r : Except (ParseError E) (Workflow K)},
    unfold w n active p text = some (.ok (.node p text trees)) → strip p = strip q →
    (∀ f ∈ filesOfAll trees, sources.get (w.canonId f.1) = some f.2) →
    w.parseWorkflowInner sources m (active ++ [w.canonId p]) q text = some r →
      Sound w q text r := by
  induction n with
  | zero =>
    intro active p q text trees sources m r h
    cases h
  | succ n ih =>
    intro active p q text trees sources m r h hstrip hstored hparse
    obtain ⟨_, table, incs, heq, hopened⟩ := openedAt_of_unfold w h
    cases heq
    cases m with
    | zero => cases hparse
    | succ m =>
      have hincludes := rawIncludes_of_items hopened.items
      rw [parseWorkflowInner, hopened.toml] at hparse
      dsimp only at hparse
      rw [hincludes] at hparse
      dsimp only at hparse
      cases hown : w.own q table with
      | error =>
        rw [hown] at hparse
        cases hparse
        exact ⟨nofun, nofun⟩
      | ok own =>
        rw [hown] at hparse
        have hready : ∀ inc ∈ incs, Ready w (w.parseWorkflowInner sources m) sources
            (active ++ [w.canonId p]) (join (expandBase q) (w.includePath inc)) := by
          intro inc hinc
          obtain ⟨_, htree, text', hread, hunfold⟩ := exists_of_forall₂ hopened.children hinc
          cases n with
          | zero => cases hunfold
          | succ =>
            obtain ⟨trees'', _, _, rfl, hchild⟩ := openedAt_of_unfold w hunfold
            have hsame := strip_join (strip_base hstrip) (expandTilde w.home inc.toList)
            obtain ⟨hcanon, hread'⟩ := canonicalize_of_strip w hsame hread
            have hfiles : ∀ f ∈ filesOf (.node (join (collectBase p) (w.includePath inc)) text'
                trees''), sources.get (w.canonId f.1) = some f.2 := by
              intro f hf
              exact hstored f (mem_filesOfAll.mpr ⟨_, htree, hf⟩)
            refine ⟨_, text', hcanon, hchild.notMem, hfiles _ mem_cons_self, hread', ?_⟩
            intro r' hr'
            exact ih hunfold hsame (fun f hf => hfiles f (.tail _ hf)) hr'
        have hexpanded := expandIncludes_sound w hready (merges_ownWorkflow q own) rfl hparse
        cases r with
        | error => exact hexpanded
        | ok =>
          obtain ⟨children, hchildren, hmerges⟩ := hexpanded
          exact ⟨.node own children, .node hopened.toml hincludes hown hchildren, hmerges⟩

/-! ### Parsing ends -/

theorem expandIncludes_ne_none
    {child : List (Path Text) → Path Text → T → Option (Except (ParseError E) (Workflow K))}
    {sources : Sources T} {visited : List (Path Text)} (path : Path Text)
    (hchild : ∀ canon incPath text, canon ∉ visited → sources.get canon = some text →
      child (visited ++ [canon]) incPath text ≠ none) (incs : List String) :
    ∀ workflow, w.expandIncludes child sources visited path incs workflow ≠ none := by
  induction incs with
  | nil => exact fun _ => nofun
  | cons inc rest ih =>
    intro workflow
    rw [expandIncludes]
    cases w.fs.canonicalize (join (expandBase path) (w.includePath inc)) with
    | error => exact nofun
    | ok canon =>
      dsimp only
      by_cases hmem : canon ∈ visited
      · rw [if_pos hmem]
        exact nofun
      · rw [if_neg hmem]
        cases hget : sources.get canon with
        | none => exact nofun
        | some text =>
          have hne := hchild canon (join (expandBase path) (w.includePath inc)) text hmem hget
          dsimp only
          cases hout : child (visited ++ [canon]) (join (expandBase path) (w.includePath inc))
              text with
          | none => exact absurd hout hne
          | some outcome =>
            cases outcome with
            | error => exact nofun
            | ok incWorkflow =>
              dsimp only
              cases w.merge path (join (expandBase path) (w.includePath inc)) workflow
                  incWorkflow with
              | error e => exact nofun
              | ok out => exact ih out

def keys (sources : Sources T) : List (Path Text) := sources.rows.map Prod.fst

theorem parseWorkflowInner_ne_none (sources : Sources T) (n : ℕ) :
    ∀ (visited : List (Path Text)) (path : Path Text) (text : T),
      waiting (keys sources) visited < n →
      w.parseWorkflowInner sources n visited path text ≠ none := by
  induction n with
  | zero =>
    intro visited path text hlt
    exact absurd hlt (Nat.not_lt_zero _)
  | succ n ih =>
    intro visited path text hlt
    rw [parseWorkflowInner]
    cases w.toml text with
    | error => exact nofun
    | ok table =>
      dsimp only
      cases rawIncludes table with
      | error => exact nofun
      | ok =>
        dsimp only
        cases w.own path table with
        | error => exact nofun
        | ok =>
          apply expandIncludes_ne_none
          intro canon incPath text' hnot hget
          have hkey : canon ∈ keys sources := (sources.mem_keys_iff canon).mpr ⟨text', hget⟩
          have hless := waiting_lt hkey hnot
          apply ih
          omega

theorem expandIncludes_mono
    {child child' : List (Path Text) → Path Text → T →
      Option (Except (ParseError E) (Workflow K))}
    (h : ∀ visited p t r, child visited p t = some r → child' visited p t = some r)
    (sources : Sources T) (visited : List (Path Text)) (path : Path Text) (incs : List String) :
    ∀ {workflow r}, w.expandIncludes child sources visited path incs workflow = some r →
      w.expandIncludes child' sources visited path incs workflow = some r := by
  induction incs with
  | nil =>
    intro workflow r hr
    exact hr
  | cons inc rest ih =>
    intro workflow r hr
    rw [expandIncludes] at hr ⊢
    cases hcanon : w.fs.canonicalize (join (expandBase path) (w.includePath inc)) with
    | error =>
      rw [hcanon] at hr
      exact hr
    | ok canon =>
      rw [hcanon] at hr
      dsimp only at hr ⊢
      by_cases hmem : canon ∈ visited
      · rw [if_pos hmem] at hr ⊢
        exact hr
      · rw [if_neg hmem] at hr ⊢
        cases hget : sources.get canon with
        | none =>
          rw [hget] at hr
          exact hr
        | some text =>
          rw [hget] at hr
          dsimp only at hr ⊢
          cases hchild : child (visited ++ [canon])
              (join (expandBase path) (w.includePath inc)) text with
          | none =>
            rw [hchild] at hr
            cases hr
          | some outcome =>
            rw [hchild] at hr
            rw [h _ _ _ outcome hchild]
            cases outcome with
            | error => exact hr
            | ok incWorkflow =>
              dsimp only at hr ⊢
              cases hmerge : w.merge path (join (expandBase path) (w.includePath inc)) workflow
                  incWorkflow with
              | error e =>
                rw [hmerge] at hr
                exact hr
              | ok out =>
                rw [hmerge] at hr
                exact ih hr

theorem parseWorkflowInner_mono (sources : Sources T) (n : ℕ) :
    ∀ {visited : List (Path Text)} {path : Path Text} {text : T} {r},
      w.parseWorkflowInner sources n visited path text = some r →
      w.parseWorkflowInner sources (n + 1) visited path text = some r := by
  induction n with
  | zero =>
    intro visited path text r h
    cases h
  | succ n ih =>
    intro visited path text r h
    rw [parseWorkflowInner] at h ⊢
    cases htoml : w.toml text with
    | error =>
      rw [htoml] at h
      exact h
    | ok table =>
      rw [htoml] at h
      dsimp only at h ⊢
      cases hincludes : rawIncludes table with
      | error =>
        rw [hincludes] at h
        exact h
      | ok includes =>
        rw [hincludes] at h
        dsimp only at h ⊢
        cases hown : w.own path table with
        | error =>
          rw [hown] at h
          exact h
        | ok =>
          rw [hown] at h
          exact expandIncludes_mono w (fun visited p t r hr => ih hr) sources visited path
            includes h

theorem parseSources_ends (text : T) (path : Path Text) (sources : Sources T) :
    ∃ r n, ∀ m, n ≤ m → w.parseSources m text path sources = some r := by
  have hne := parseWorkflowInner_ne_none w sources _ [w.canonId path] path text
    (Nat.lt_succ_self _)
  obtain ⟨r, hr⟩ := Option.ne_none_iff_exists'.mp hne
  refine ⟨r, waiting (keys sources) [w.canonId path] + 1, ?_⟩
  intro m hm
  induction m, hm using Nat.le_induction with
  | base => exact hr
  | succ m _ ih => exact parseWorkflowInner_mono w sources m ih

/-! ### Collecting and parsing -/

/-- A chain of includes whose last file is one of the files in front of it, with the canonical
paths of all its files. -/
def Cycle (path : Path Text) (text : T) (chain : List (Path Text)) : Prop :=
  ∃ ids last lastText, Route w path text ids last lastText ∧ w.canonId last ∈ ids ∧
    chain = ids ++ [w.canonId last]

/-- Both traversals end. A reported cycle is one. Where there is one the workflow is rejected
while the texts are collected, as a cycle if no chain of includes comes to a file with a defect.
The reported error is the first one in depth-first order.
From the collected texts no file is missing and no cycle is found, and the merged workflow is
what the files of the tree define. -/
theorem expansion (path : Path Text) (text : T) :
    (∃ r n, ∀ m, n ≤ m → w.collectSources m text path = some r) ∧
    (∀ sources, ∃ r n, ∀ m, n ≤ m → w.parseSources m text path sources = some r) ∧
    (∀ n chain, w.collectSources n text path = some (.error (.circularInclude chain)) →
      Cycle w path text chain) ∧
    (Revisits w path text → ∀ n r, w.collectSources n text path = some r →
      ∃ e, r = .error e ∧ ((∃ chain, e = .circularInclude chain) ∨ Defective w path text)) ∧
    (∀ n e, w.collectSources n text path = some (.error e) → FirstError w [] path text e) ∧
    ∀ n sources, w.collectSources n text path = some (.ok sources) →
      ∀ m r, w.parseSources m text path sources = some r → Sound w path text r := by
  refine ⟨collectSources_ends w text path, parseSources_ends w text path, ?_, ?_, ?_, ?_⟩
  · intro n chain h
    have hagrees := collectSources_agrees w n text path
    rw [h] at hagrees
    generalize hu : unfold w n [] path text = u at hagrees
    cases hagrees
    rcases route_of_firstError w (firstError_of_unfold w n hu) with
      ⟨ids, last, lastText, hroute, hmem, hchain⟩ | ⟨hne, -⟩
    · exact ⟨ids, last, lastText, hroute, hmem, ParseError.circularInclude.inj hchain⟩
    · exact absurd rfl (hne chain)
  · intro hrevisits n r h
    have hagrees := collectSources_agrees w n text path
    rw [h] at hagrees
    generalize hu : unfold w n [] path text = u at hagrees
    cases hagrees with
    | error e =>
      refine ⟨e, rfl, ?_⟩
      rcases route_of_firstError w (firstError_of_unfold w n hu) with
        ⟨ids, last, lastText, -, -, hchain⟩ | ⟨-, hdefective⟩
      · exact .inl ⟨_, hchain⟩
      · exact .inr hdefective
    | ok =>
      obtain ⟨ids, last, lastText, hroute, hmem⟩ := hrevisits
      exact absurd hmem (faultless_of_unfold w hu ids last lastText hroute).1
  · intro n e h
    have hagrees := collectSources_agrees w n text path
    rw [h] at hagrees
    generalize hu : unfold w n [] path text = u at hagrees
    cases hagrees
    exact firstError_of_unfold w n hu
  · intro n sources h m r hparse
    obtain ⟨_, hunfold, hstored⟩ := stored_of_collectSources w h
    exact parseWorkflowInner_sound w n hunfold rfl hstored hparse

/-! ### A cycle behind a missing file -/

def noKinds : Kinds where
  Value := Unit
  Body := Unit
  Gate := Unit
  Profile := Unit
  Executor := Unit
  Class := Unit
  Warning := Unit

/-- The working directory is the root and has one file. -/
def oneFile : FileSystem Text where
  node loc := if loc = [] then some .dir else if loc = [['a']] then some .file else none
  cwd := []
  maxLinks := 0
  refuses _ := false
  root_dir := rfl
  cwd_dir := rfl
  parent_dir := by
    intro loc name h
    have hroot : loc ++ [name] ≠ [] := concat_ne_nil name loc
    by_cases hfile : loc ++ [name] = [['a']]
    · have hparts : loc ++ [name] = [] ++ [['a']] := hfile
      rw [(append_inj' hparts rfl).1]
      rfl
    · rw [if_neg hroot, if_neg hfile] at h
      cases h

/-- The file includes a missing file, and then itself. -/
def missingFirst : World RuleFields.Table Unit noKinds where
  fs := oneFile
  files := [[['a']]]
  mem_files := by
    intro loc h
    by_cases hroot : loc = []
    · rw [hroot] at h
      cases h
    · by_cases hfile : loc = [['a']]
      · exact mem_singleton.mpr hfile
      · have hnone : oneFile.node loc = none := (if_neg hroot).trans (if_neg hfile)
        rw [hnone] at h
        cases h
  text _ := some [("include", .array [.string "b", .string "a"])]
  home := none
  toml := .ok
  check _ _ := .ok ()
  own _ _ := .error ()
  isDefault _ := true
  display _ := ""

/-- A chain of includes that comes back to a file is not always reported as a cycle. -/
theorem not_reported : ¬ ∀ (w : World RuleFields.Table Unit noKinds) (path : Path Text)
    (text : RuleFields.Table),
    ((∃ n chain, w.collectSources n text path = some (.error (.circularInclude chain))) ↔
      Revisits w path text) := by
  intro h
  have hrevisits : Revisits missingFirst [.normal ['a']]
      [("include", .array [.string "b", .string "a"])] := by
    have hincludes : Includes missingFirst [.normal ['a']]
        [("include", .array [.string "b", .string "a"])] [.normal ['a']] :=
      ⟨_, _, "a", rfl, rfl, mem_cons_of_mem _ mem_cons_self, rfl⟩
    exact ⟨_, _, _, .step hincludes rfl (.here _ _), mem_cons_self⟩
  obtain ⟨n, chain, hchain⟩ := (h _ _ _).mpr hrevisits
  cases n with
  | zero => cases hchain
  | succ n =>
    have hmissing : missingFirst.collectSources (n + 1)
        [("include", .array [.string "b", .string "a"])] [.normal ['a']] =
          some (.error (.includeNotFound [.normal ['b']])) := rfl
    rw [hmissing] at hchain
    cases hchain

end OxyMake.IncludeMerging

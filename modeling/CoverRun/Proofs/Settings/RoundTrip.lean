import CoverRun.Plan.Load
import CoverRun.Proofs.FileTree.Location
import CoverRun.Proofs.FileTree.Written
import CoverRun.Proofs.OrderedMap
import CoverRun.Proofs.Outcome
import CoverRun.Proofs.Path.Text
import CoverRun.Proofs.Toml.Document
import CoverRun.Proofs.Toml.Draft

/-!
# Settings read back

Settings are written as lines, the lines make up a document, and from the document the settings are
taken (`Settings.parse_write`), if the paths are texts. What is left out of the text is what a
missing member stands for: an empty skip list, no time limit, no variables and no command. Lists
that have other defaults are written also when they are empty.
-/

namespace CoverRun

namespace Settings

open Toml

/-! ## The document of settings -/

/-- A list of texts as a value. -/
def textsValue (ss : List String) : Value := .array (ss.map .text)

/-- The members of a root. -/
def rootFields (r : RootSettings) : Members :=
  ("path", .text r.path.text) :: if r.skip = [] then [] else [("skip", textsValue r.skip)]

/-- The roots: rows, or an array if there are none. -/
def rootsValue (roots : List RootSettings) : Value :=
  if roots = [] then textsValue [] else .rows (roots.map rootFields)

/-- The members of the stages but for their variables. -/
def stageFields (s : StageSettings) : Members :=
  [("generate", textsValue s.generate), ("test", textsValue s.test)] ++
    (s.timeout.map fun n => [("timeout_secs", .integer n.toNat)]).getD []

/-- The variables of the stages. -/
def environmentFields (s : StageSettings) : Members :=
  s.environment.entries.map fun e => (e.1, .text e.2)

/-- The members of the stages. -/
def stageMembers (s : StageSettings) : Members :=
  stageFields s ++
    if s.environment.entries = [] then [] else [("env", .table .header (environmentFields s))]

/-- The members of the coverage settings. -/
def coverageFields (c : CoverageSettings) : Members :=
  [("env_var", .text c.flag), ("sentinel", .text c.sentinel), ("output", .text c.output.text)]

/-- The members of the instrumenter settings. -/
def instrumenterFields (i : InstrumenterSettings) : Members :=
  (i.command.map fun command => [("command", .text command)]).getD [] ++
    [("extensions", textsValue i.extensions), ("timeout_secs", .integer i.timeout.toNat)]

/-- The document of settings. -/
def members (s : Settings) : Members :=
  [("roots", rootsValue s.roots), ("stages", .table .header (stageMembers s.stages)),
    ("coverage", .table .header (coverageFields s.coverage)),
    ("instrumenter", .table .header (instrumenterFields s.instrumenter))]

/-! ## Fields -/

section

variable {name : String} {v : Value} {ms : Members} {place : Nat}

theorem namedFields?_known {names : List String} (h : ∀ m ∈ ms, m.1 ∈ names) :
    namedFields? names ms = some (.named ms) := by
  have hKnown : (ms.all fun m => names.contains m.1 || m.2.isReadable) = true := by
    rw [List.all_eq_true]
    intro m hm
    simp [h m hm]
  rw [namedFields?, if_pos hKnown]

@[simp] theorem find?_nil : (Fields.named []).find? place name = none := rfl

@[simp] theorem find?_here : (Fields.named ((name, v) :: ms)).find? place name = some v := by
  rw [Fields.find?, List.lookup_cons_self]

@[simp] theorem find?_further {k : String} (h : name ≠ k) :
    (Fields.named ((k, v) :: ms)).find? place name = (Fields.named ms).find? place name := by
  rw [Fields.find?, Fields.find?, List.lookup_cons, beq_false_of_ne h]

end

/-! ## Reading the document -/

@[simp] theorem texts?_textsValue (ss : List String) : texts? (textsValue ss) = some ss := by
  have hText (s : String) : text? (.text s) = some s := rfl
  exact Outcome.mapM_map_eq_some fun s _ => hText s

@[simp] theorem word?_toNat (n : UInt64) : word? (.integer n.toNat) = some n := by
  have hWord : n.toNat < 2 ^ 64 := n.toNat_lt
  have hRange : (0 : Int) ≤ n.toNat ∧ (n.toNat : Int) ≤ Json.wordLimit := by
    rw [Json.wordLimit]
    omega
  rw [word?, if_pos hRange, Int.toNat_natCast, UInt64.ofNat_toNat]

theorem root?_rootFields {r : RootSettings} (h : r.path.text?.isSome = true) :
    root? (.table .header (rootFields r)) = some r := by
  have hFields : fields? ["path", "skip"] (.table .header (rootFields r)) =
      some (.named (rootFields r)) := by
    apply namedFields?_known
    unfold rootFields
    split <;> simp
  rw [root?, hFields]
  obtain ⟨path, skip⟩ := r
  have hPath := Path.ofText_text h
  by_cases hSkip : skip = []
  · simp [rootFields, Fields.read, hSkip, text?, hPath]
  · simp [rootFields, Fields.read, hSkip, text?, hPath]

theorem roots?_rootsValue {roots : List RootSettings}
    (h : ∀ r ∈ roots, r.path.text?.isSome = true) : roots? (rootsValue roots) = some roots := by
  rw [rootsValue]
  split
  · next hEmpty =>
    subst hEmpty
    rfl
  · rw [roots?, items?, Option.bind_eq_bind, Option.bind_some, List.map_map]
    exact Outcome.mapM_map_eq_some fun r hr => root?_rootFields (h r hr)

theorem textTable?_environmentFields (s : StageSettings) :
    textTable? (.table .header (environmentFields s)) = some s.environment := by
  have hAll (es : List (String × String)) (done : OrderedMap String String) :
      (es.map fun e => (e.1, Value.text e.2)).foldlM
        (fun (done : OrderedMap String String) m => do
          let s ← text? m.2
          return done.insert m.1 s) done =
        some (es.foldl (fun done e => done.insert e.1 e.2) done) := by
    induction es generalizing done with
    | nil => rfl
    | cons e es ih =>
        rw [List.map_cons, List.foldlM_cons]
        exact ih _
  rw [textTable?, environmentFields, hAll]
  exact congrArg some (OrderedMap.ofList_of_perm (List.Perm.refl s.environment.entries))

theorem stages?_stageMembers (s : StageSettings) :
    stages? (.table .header (stageMembers s)) = some s := by
  have hFields : fields? ["generate", "test", "timeout_secs", "env"]
      (.table .header (stageMembers s)) = some (.named (stageMembers s)) := by
    apply namedFields?_known
    unfold stageMembers stageFields
    cases s.timeout <;> split <;> simp
  have hEnvironment := textTable?_environmentFields s
  rw [stages?, hFields]
  obtain ⟨generate, test, timeout, environment⟩ := s
  by_cases hEmpty : environment.entries = []
  · have hNone : OrderedMap.empty = environment := OrderedMap.ext hEmpty.symm
    cases timeout with
    | none => simp [stageMembers, stageFields, Fields.read, hEmpty, hNone]
    | some n => simp [stageMembers, stageFields, Fields.read, hEmpty, hNone]
  · cases timeout with
    | none => simp [stageMembers, stageFields, Fields.read, hEmpty, hEnvironment]
    | some n => simp [stageMembers, stageFields, Fields.read, hEmpty, hEnvironment]

theorem coverage?_coverageFields {c : CoverageSettings} (h : c.output.text?.isSome = true) :
    coverage? (.table .header (coverageFields c)) = some c := by
  have hFields : fields? ["env_var", "sentinel", "output"] (.table .header (coverageFields c)) =
      some (.named (coverageFields c)) := by
    apply namedFields?_known
    simp [coverageFields]
  rw [coverage?, hFields]
  simp [coverageFields, Fields.read, text?, Path.ofText_text h]

theorem instrumenter?_instrumenterFields (i : InstrumenterSettings) :
    instrumenter? (.table .header (instrumenterFields i)) = some i := by
  have hFields : fields? ["command", "extensions", "timeout_secs"]
      (.table .header (instrumenterFields i)) = some (.named (instrumenterFields i)) := by
    apply namedFields?_known
    unfold instrumenterFields
    cases i.command <;> simp
  rw [instrumenter?, hFields]
  obtain ⟨command, extensions, timeout⟩ := i
  cases command with
  | none => simp [instrumenterFields, Fields.read]
  | some command => simp [instrumenterFields, Fields.read, text?]

/-- **Settings are taken from their document.** -/
theorem ofMembers?_members {s : Settings} (h : s.isWritable = true) :
    ofMembers? (members s) = some s := by
  obtain ⟨hRoots, hOutput⟩ := Bool.and_eq_true_iff.1 h
  have hFields : namedFields? ["roots", "stages", "coverage", "instrumenter"] (members s) =
      some (.named (members s)) := namedFields?_known (by simp [members])
  rw [ofMembers?, hFields]
  simp [members, Fields.read, roots?_rootsValue (List.all_eq_true.1 hRoots), stages?_stageMembers,
    coverage?_coverageFields hOutput, instrumenter?_instrumenterFields]

/-! ## Reading the text -/

theorem says_textLine (name value : String) :
    Says (textLine name value) (assignments [(name, .text value)]) :=
  says_line name (writes_text value)

theorem says_textsLine (name : String) (values : List String) :
    Says (textsLine name values) (assignments [(name, textsValue values)]) :=
  says_line name (writes_texts values)

theorem says_wordLine (name : String) (n : UInt64) :
    Says (wordLine name n) (assignments [(name, .integer n.toNat)]) :=
  says_line name (writes_natural n)

/-- The statements of the roots, block by block. -/
def rootStatements (roots : List RootSettings) : List (List Statement) :=
  if roots = [] then [assignments [("roots", textsValue [])]]
  else roots.map fun r => .row ["roots"] :: assignments (rootFields r)

/-- The statements of the stages, block by block. -/
def stageStatements (s : StageSettings) : List (List Statement) :=
  (.table ["stages"] :: assignments (stageFields s)) ::
    if s.environment.entries = [] then []
    else [.table ["stages", "env"] :: assignments (environmentFields s)]

/-- The statements of settings, block by block. -/
def statements (s : Settings) : List (List Statement) :=
  rootStatements s.roots ++ stageStatements s.stages ++
    [.table ["coverage"] :: assignments (coverageFields s.coverage),
      .table ["instrumenter"] :: assignments (instrumenterFields s.instrumenter)]

theorem says_rootBlock (r : RootSettings) :
    Says (rootBlock r) (.row ["roots"] :: assignments (rootFields r)) := by
  have hHeader := says_rowHeader (List.cons_ne_nil "roots" []) (by decide)
  have hPath := hHeader.append (says_textLine "path" r.path.text)
  rw [rootBlock, rootFields]
  split
  · exact hPath.append says_nil
  · exact hPath.append (says_textsLine "skip" r.skip)

theorem says_rootBlocks (roots : List RootSettings) :
    List.Forall₂ Says (rootBlocks roots) (rootStatements roots) := by
  rw [rootBlocks, rootStatements]
  split
  · exact .cons (says_textsLine "roots" []) .nil
  · rw [List.forall₂_map_left_iff, List.forall₂_map_right_iff, List.forall₂_same]
    intro r _
    exact says_rootBlock r

theorem says_environment (es : List (String × String)) :
    Says (es.flatMap fun e => textLine e.1 e.2)
      (assignments (es.map fun e => (e.1, .text e.2))) := by
  induction es with
  | nil => exact says_nil
  | cons e es ih =>
      rw [List.flatMap_cons]
      exact (says_textLine e.1 e.2).append ih

theorem says_stageBlocks (s : StageSettings) :
    List.Forall₂ Says (stageBlocks s) (stageStatements s) := by
  have hHeader := says_header (List.cons_ne_nil "stages" []) (by decide)
  have hCommands := (hHeader.append (says_textsLine "generate" s.generate)).append
    (says_textsLine "test" s.test)
  rw [stageBlocks, stageStatements, stageFields]
  refine .cons ?_ ?_
  · cases s.timeout with
    | none => exact hCommands.append says_nil
    | some n => exact hCommands.append (says_wordLine "timeout_secs" n)
  · split
    · exact .nil
    · have hInner := says_header (List.cons_ne_nil "stages" ["env"]) (by decide)
      exact .cons (hInner.append (says_environment s.environment.entries)) .nil

theorem says_coverageBlock (c : CoverageSettings) :
    Says (coverageBlock c) (.table ["coverage"] :: assignments (coverageFields c)) := by
  have hHeader := says_header (List.cons_ne_nil "coverage" []) (by decide)
  exact ((hHeader.append (says_textLine "env_var" c.flag)).append
    (says_textLine "sentinel" c.sentinel)).append (says_textLine "output" c.output.text)

theorem says_instrumenterBlock (i : InstrumenterSettings) :
    Says (instrumenterBlock i) (.table ["instrumenter"] :: assignments (instrumenterFields i)) := by
  have hHeader := says_header (List.cons_ne_nil "instrumenter" []) (by decide)
  rw [instrumenterBlock, instrumenterFields]
  cases i.command with
  | none =>
      exact ((hHeader.append says_nil).append (says_textsLine "extensions" i.extensions)).append
        (says_wordLine "timeout_secs" i.timeout)
  | some command =>
      exact ((hHeader.append (says_textLine "command" command)).append
        (says_textsLine "extensions" i.extensions)).append (says_wordLine "timeout_secs" i.timeout)

/-- **Written settings say their statements.** -/
theorem says_writeBlocks (s : Settings) :
    Says (writeBlocks s.blocks) ([Statement.blank].intercalate (statements s)) := by
  apply says_blocks
  refine List.rel_append (List.rel_append (says_rootBlocks s.roots) (says_stageBlocks s.stages)) ?_
  exact .cons (says_coverageBlock s.coverage) (.cons (says_instrumenterBlock s.instrumenter) .nil)

/-! ## Making the document -/

/-- Adds the statements of blocks to a draft. -/
def addBlocks (d : Draft) (sss : List (List Statement)) : Option Draft :=
  sss.foldlM (fun d ss => ss.foldlM Draft.add? d) d

theorem addBlocks_cons {d d' : Draft} {ss : List Statement} (h : ss.foldlM Draft.add? d = some d')
    (sss : List (List Statement)) : addBlocks d (ss :: sss) = addBlocks d' sss := by
  rw [addBlocks, List.foldlM_cons, h]
  rfl

theorem addBlocks_append {d d' : Draft} {sss : List (List Statement)}
    (h : addBlocks d sss = some d') (sss' : List (List Statement)) :
    addBlocks d (sss ++ sss') = addBlocks d' sss' := by
  rw [addBlocks] at h
  rw [addBlocks, List.foldlM_append, h]
  rfl

theorem nodup_rootFields (r : RootSettings) : ((rootFields r).map (·.1)).Nodup := by
  rw [rootFields]
  split <;> simp

theorem addBlocks_rows (tables : List Members) (roots : List RootSettings) :
    addBlocks ⟨[("roots", .rows tables)], ["roots"]⟩
        (roots.map fun r => .row ["roots"] :: assignments (rootFields r)) =
      some ⟨[("roots", .rows (tables ++ roots.map rootFields))], ["roots"]⟩ := by
  induction roots generalizing tables with
  | nil => rw [List.map_nil, List.map_nil, List.append_nil]; rfl
  | cons r rs ih =>
      have hHere : (Statement.row ["roots"] :: assignments (rootFields r)).foldlM Draft.add?
          ⟨[("roots", .rows tables)], ["roots"]⟩ =
            some ⟨[("roots", .rows (tables ++ [rootFields r]))], ["roots"]⟩ :=
        @foldlM_nextRow "roots" [] List.not_mem_nil tables ["roots"] _ (nodup_rootFields r)
      rw [List.map_cons, addBlocks_cons hHere, ih, List.map_cons, List.append_assoc]
      rfl

theorem addBlocks_roots (roots : List RootSettings) :
    ∃ header, addBlocks ⟨[], []⟩ (rootStatements roots) =
      some ⟨[("roots", rootsValue roots)], header⟩ := by
  rw [rootStatements, rootsValue]
  cases roots with
  | nil => exact ⟨[], rfl⟩
  | cons r rs =>
      have hHere : (Statement.row ["roots"] :: assignments (rootFields r)).foldlM Draft.add?
          ⟨[], []⟩ = some ⟨[("roots", .rows [rootFields r])], ["roots"]⟩ :=
        foldlM_firstRow List.not_mem_nil [] (nodup_rootFields r)
      refine ⟨["roots"], ?_⟩
      rw [if_neg (List.cons_ne_nil r rs), if_neg (List.cons_ne_nil r rs), List.map_cons,
        addBlocks_cons hHere, addBlocks_rows]
      rfl

theorem nodup_stageFields (s : StageSettings) : ((stageFields s).map (·.1)).Nodup := by
  rw [stageFields]
  cases s.timeout <;> simp

theorem env_not_mem_stageFields (s : StageSettings) : "env" ∉ (stageFields s).map (·.1) := by
  rw [stageFields]
  cases s.timeout <;> simp

theorem nodup_instrumenterFields (i : InstrumenterSettings) :
    ((instrumenterFields i).map (·.1)).Nodup := by
  rw [instrumenterFields]
  cases i.command <;> simp

theorem addBlocks_stages {ms : Members} (h : "stages" ∉ ms.map (·.1)) (header : Key)
    (s : StageSettings) :
    ∃ header', addBlocks ⟨ms, header⟩ (stageStatements s) =
      some ⟨ms ++ [("stages", .table .header (stageMembers s))], header'⟩ := by
  have hStages := foldlM_table h header (nodup_stageFields s)
  rw [stageStatements, stageMembers]
  split
  · refine ⟨["stages"], ?_⟩
    rw [addBlocks_cons hStages, List.append_nil]
    rfl
  · have hNodup : ((environmentFields s).map (·.1)).Nodup := by
      rw [environmentFields, List.map_map]
      exact s.environment.nodup_keys
    have hInner := foldlM_innerTable h (env_not_mem_stageFields s) ["stages"] hNodup
    refine ⟨["stages", "env"], ?_⟩
    rw [addBlocks_cons hStages, addBlocks_cons hInner]
    rfl

/-- **The statements of settings make up their document.** -/
theorem addBlocks_statements (s : Settings) :
    ∃ header, addBlocks ⟨[], []⟩ (statements s) = some ⟨members s, header⟩ := by
  obtain ⟨afterRoots, hRoots⟩ := addBlocks_roots s.roots
  let roots : Members := [("roots", rootsValue s.roots)]
  let upToStages : Members := roots ++ [("stages", .table .header (stageMembers s.stages))]
  let upToCoverage : Members :=
    upToStages ++ [("coverage", .table .header (coverageFields s.coverage))]
  have hNoStages : "stages" ∉ roots.map (·.1) := by simp [roots]
  obtain ⟨afterStages, hStages⟩ := addBlocks_stages hNoStages afterRoots s.stages
  have hNoCoverage : "coverage" ∉ upToStages.map (·.1) := by simp [upToStages, roots]
  have hNodup : ((coverageFields s.coverage).map (·.1)).Nodup := by simp [coverageFields]
  have hCoverage := foldlM_table hNoCoverage afterStages hNodup
  have hNoInstrumenter : "instrumenter" ∉ upToCoverage.map (·.1) := by
    simp [upToCoverage, upToStages, roots]
  have hInstrumenter :=
    foldlM_table hNoInstrumenter ["coverage"] (nodup_instrumenterFields s.instrumenter)
  refine ⟨["instrumenter"], ?_⟩
  rw [statements, List.append_assoc, addBlocks_append hRoots, addBlocks_append hStages,
    addBlocks_cons hCoverage, addBlocks_cons hInstrumenter]
  rfl

/-! ## The text and its file -/

theorem head?_writeBlocks {block : List Char} {c : Char} (h : block.head? = some c)
    (blocks : List (List Char)) : (writeBlocks (block :: blocks)).head? = some c := by
  rw [writeBlocks]
  cases blocks with
  | nil => simpa [List.intercalate] using h
  | cons next blocks => simp [List.intercalate, h]

theorem not_marked_writeBlocks (s : Settings) :
    (writeBlocks s.blocks).head? ≠ some '\uFEFF' := by
  rw [blocks, rootBlocks]
  cases s.roots with
  | nil =>
      have hFirst : (textsLine "roots" []).head? = some 'r' := by decide
      rw [if_pos rfl, List.append_assoc, List.singleton_append, head?_writeBlocks hFirst]
      decide
  | cons r rs =>
      have hFirst : (rootBlock r).head? = some '[' := rfl
      rw [if_neg (List.cons_ne_nil r rs), List.map_cons, List.append_assoc, List.cons_append,
        head?_writeBlocks hFirst]
      decide

theorem isWritable_iff {s : Settings} : s.isWritable = true ↔
    (∀ r ∈ s.roots, ∃ text, r.path = Path.ofText text) ∧
      ∃ text, s.coverage.output = Path.ofText text := by
  rw [isWritable, Bool.and_eq_true, List.all_eq_true, Path.isSome_text?_iff]
  simp only [Path.isSome_text?_iff]

theorem write?_eq_some_iff {s : Settings} {text : String} : s.write? = some text ↔
    s.isWritable = true ∧ String.ofList (writeBlocks s.blocks) = text := by
  rw [write?, Option.ite_none_right_eq_some, Option.some.injEq]

section

variable {s : Settings} {text : String} (hText : s.write? = some text)

include hText

/-- **What is written is a text of the document.** -/
theorem document?_write : document? text = some (members s) := by
  obtain ⟨header, hDraft⟩ := addBlocks_statements s
  rw [addBlocks] at hDraft
  have hDocument := document?_of_says (says_writeBlocks s) (not_marked_writeBlocks s)
  rw [(write?_eq_some_iff.1 hText).2, foldlM_blocks, hDraft] at hDocument
  exact hDocument

theorem parse_of_document? {other : String} (h : document? other = some (members s)) :
    parse other = .ok s := by
  have hRead : read? other = some s := by
    rw [read?, h]
    exact ofMembers?_members (write?_eq_some_iff.1 hText).1
  rw [parse, hRead]

theorem load_of_readText {t : FileTree} {cwd : Location} {p : Path}
    (h : t.readText cwd p = .ok text) : load t cwd p = .ok s := by
  simp only [load, h]
  exact parse_of_document? hText (document?_write hText)

end

/-- **Settings are the same after they were written and parsed**, whatever their texts, names, lists
and numbers are. They can be written exactly if their paths are texts. Any other text of their
document is parsed as them too, and a file to which they were written is loaded as them. -/
theorem parse_write (s : Settings) :
    ((∃ text, s.write? = some text) ↔ (∀ r ∈ s.roots, ∃ text, r.path = Path.ofText text) ∧
        ∃ text, s.coverage.output = Path.ofText text) ∧
      ∀ text, s.write? = some text →
        parse text = .ok s ∧
          (∀ other, document? other = some (members s) → parse other = .ok s) ∧
          ∀ (t t' : FileTree) (cwd : Location) (p : Path),
            t.write cwd p (Utf8.encode text) = .ok t' → load t' cwd p = .ok s := by
  refine ⟨?_, fun text hText => ⟨?_, ?_, ?_⟩⟩
  · rw [← isWritable_iff]
    simp [write?_eq_some_iff]
  · exact parse_of_document? hText (document?_write hText)
  · intro other hOther
    exact parse_of_document? hText hOther
  · intro t t' cwd p hWrite
    exact load_of_readText hText (FileTree.readText_write hWrite)

/-- No roots, empty lists, the longest time limit, an empty command and an empty name, and texts in
each of the four styles. -/
theorem parse_write_styles :
    let environment := (OrderedMap.empty.insert "" "\t").insert "a\"\n" "\\"
    let s : Settings := ⟨[], ⟨[], ["\"\"", "'''\n\\", "\x01'", "'\n\\"], some 0xffffffffffffffff,
      environment⟩, ⟨"A", "", "é.json"⟩, ⟨some "", [], 0⟩⟩
    let text := "roots = []\n\n[stages]\ngenerate = []\ntest = [\n    '\"\"',\n" ++
      "    \"\"\"\n'''\n\\\\\"\"\",\n    \"\\u0001'\",\n    '''\n'\n\\''',\n]\n" ++
      "timeout_secs = 18446744073709551615\n\n" ++
      "[stages.env]\n\"\" = \"\\t\"\n\"a\\\"\\n\" = '\\'\n\n" ++
      "[coverage]\nenv_var = \"A\"\nsentinel = \"\"\noutput = \"é.json\"\n\n" ++
      "[instrumenter]\ncommand = \"\"\nextensions = []\ntimeout_secs = 0\n"
    let place : Location := [fileName]
    let t := FileTree.empty.place place (.file (Utf8.encode text))
    s.write? = some text ∧ document? text = some (members s) ∧ parse text = .ok s ∧
      FileTree.empty.write [] place.path (Utf8.encode text) = .ok t ∧
      load t [] place.path = .ok s := by
  intro environment s text place t
  have hText : s.write? = some text := by decide +kernel
  have hRooted : FileTree.empty.Rooted := by
    intro e he
    cases he
  have hSpelled : FileTree.IsSpelled ([] ++ [FileName.ofText fileName]) := by decide +kernel
  have hWrite : FileTree.empty.write [] place.path (Utf8.encode text) = .ok t :=
    FileTree.write_path hRooted [] hSpelled rfl (Or.inl rfl) (Utf8.encode text)
  obtain ⟨-, hAll⟩ := parse_write s
  obtain ⟨hParse, -, hLoad⟩ := hAll text hText
  exact ⟨hText, document?_write hText, hParse, hWrite, hLoad FileTree.empty t [] place.path hWrite⟩

end Settings

end CoverRun

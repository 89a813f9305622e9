import CoverRun.Proofs.Instrumentation
import CoverRun.Proofs.Json.Pretty

/-!
# A request as its own response

A request lists each target with what a response needs of it, its path and its text, so it can be
read as a response (`Exchange.response?_request`). The path from the root is a member that the
response does not know, and the sites that it does not have are none. So an engine that hands back
what it reads instruments its targets with their own texts and without sites
(`Engine.instrument_echo`), whatever characters the texts and paths hold.
-/

namespace CoverRun

open Json

namespace Exchange

/-! ## Reading a request -/

/-- A target as a request lists it. -/
def listing (f : SourceFile) : Value :=
  .record [("path", .string (requestPath f)), ("relativePath", .string f.relative.text),
    ("source", .string f.source)]

/-- What a listed target is when it is read as a returned file. -/
def echoed (f : SourceFile) : ReturnedFile := ⟨requestPath f, f.source, OrderedMap.empty⟩

theorem requestValue_eq (targets : List SourceFile) :
    requestValue targets = .record [("files", .list (targets.map listing))] := rfl

/-- **A listed target reads as a returned file**: path and text are found, the path from the root is
skipped. -/
theorem readFile_listing (f : SourceFile) : readFile (listing f).node = some (echoed f) := by
  have hPath : readField ⟨none, none, none⟩ (Units.ofText "path")
      (.string (Units.ofText (requestPath f))) = some ⟨some (requestPath f), none, none⟩ := by
    simp [readField, Units.text?_ofText, Node.text?, fill]
  have hRelative : readField ⟨some (requestPath f), none, none⟩ (Units.ofText "relativePath")
      (.string (Units.ofText f.relative.text)) = some ⟨some (requestPath f), none, none⟩ := by
    simp [readField, Units.text?_ofText]
  have hSource : readField ⟨some (requestPath f), none, none⟩ (Units.ofText "source")
      (.string (Units.ofText f.source)) = some ⟨some (requestPath f), some f.source, none⟩ := by
    simp [readField, Units.text?_ofText, Node.text?, fill]
  simp [listing, Value.node, Value.memberNodes, readFile, hPath, hRelative, hSource, echoed]

theorem mapM_readFile (targets : List SourceFile) :
    (Value.nodes (targets.map listing)).mapM readFile = some (targets.map echoed) := by
  induction targets with
  | nil => rfl
  | cons f fs ih =>
      rw [List.map_cons, Value.nodes, List.mapM_cons, readFile_listing, ih]
      rfl

/-- **A request reads as a response** that returns every target as it is. -/
theorem response?_request (targets : List SourceFile) :
    response? (request targets) = some (targets.map echoed) := by
  have hRead : Node.read (Utf8.units (request targets)) = some (requestValue targets).node := by
    rw [request, Utf8.encode, Utf8.units_encode]
    exact Value.read_compact (requestValue targets)
  have hFiles : readMember none (Units.ofText "files") (.list (Value.nodes (targets.map listing))) =
      some (some (targets.map echoed)) := by
    simp [readMember, Units.text?_ofText, files?, mapM_readFile, fill]
  rw [response?, hRead, requestValue_eq]
  simp [Value.node, Value.memberNodes, hFiles]

/-! ## Taking echoed files -/

theorem lastReturned_echoed {targets : List SourceFile} (h : (targets.map requestPath).Nodup)
    {f : SourceFile} (hf : f ∈ targets) :
    lastReturned (targets.map echoed) (requestPath f) = some (echoed f) := by
  induction targets using List.reverseRecOn with
  | nil => exact absurd hf List.not_mem_nil
  | append_singleton targets last ih =>
      rw [List.map_append, List.nodup_append] at h
      obtain ⟨hNodup, -, hApart⟩ := h
      rw [List.map_append]
      show lastReturned (targets.map echoed ++ [echoed last]) _ = _
      rw [lastReturned_concat]
      rcases List.mem_append.1 hf with hEarlier | hLast
      · have hNe : requestPath f ≠ (echoed last).path :=
          hApart _ (List.mem_map_of_mem hEarlier) _ (by simp [echoed])
        rw [if_neg hNe]
        exact ih hNodup hEarlier
      · obtain rfl := List.mem_singleton.1 hLast
        exact if_pos rfl

theorem forall₂_becomesBy_map {find? : String → Option ReturnedFile} {targets : List SourceFile}
    {returned : SourceFile → ReturnedFile}
    (h : ∀ f ∈ targets, find? (requestPath f) = some (returned f)) :
    List.Forall₂ (BecomesBy find?) targets
      (targets.map fun f => instrumentedBy f (returned f)) := by
  rw [List.forall₂_map_right_iff, List.forall₂_same]
  intro f hf
  exact ⟨returned f, h f hf, rfl⟩

end Exchange

namespace Instrumentation

theorem foldl_registerFile_empty {files : List InstrumentedFile}
    (h : ∀ f ∈ files, f.sites = OrderedMap.empty) (t : SiteTable) :
    files.foldl registerFile t = t := by
  induction files generalizing t with
  | nil => rfl
  | cons f fs ih =>
      have hHere : registerFile t f = t := by
        rw [registerFile, h f List.mem_cons_self]
        rfl
      rw [List.foldl_cons, hHere]
      exact ih (fun g hg => h g (List.mem_cons_of_mem f hg)) t

end Instrumentation

/-! ## Engines that echo -/

namespace Engine

open Exchange

/-- **An engine that hands back the request instruments each target with its own text.** If no path
comes twice, the response is read, each target is served in its place, and no site becomes known. -/
theorem instrument_echo {engine : Engine} {machine : Machine} {targets : List SourceFile}
    {w : World} {x : Execution} (hTargets : targets ≠ []) (hNodup : (targets.map requestPath).Nodup)
    (hStarts : machine (engine.launch targets) w.tree = .ok x) (hExits : x.ending = .exited 0)
    (hEcho : x.output = (engine.launch targets).input) :
    let unchanged : Instrumentation :=
      ⟨targets.map fun f => ⟨f, f.source, OrderedMap.empty⟩, SiteTable.empty⟩
    (∃ returned, response? x.output = some returned ∧ assemble targets returned = .ok unchanged) ∧
      engine.instrument machine targets w =
        ({ w.record [.instrumenterStarted] with tree := x.tree }, .ok unchanged) := by
  intro unchanged
  have hReads : response? x.output = some (targets.map echoed) := by
    rw [hEcho]
    exact response?_request targets
  have hTakes : List.Forall₂ (BecomesBy (lastReturned (targets.map echoed))) targets
      unchanged.files :=
    forall₂_becomesBy_map fun f hf => lastReturned_echoed hNodup hf
  have hUnchanged : unchanged = Instrumentation.ofFiles unchanged.files := by
    have hTable : unchanged.files.foldl Instrumentation.registerFile SiteTable.empty =
        SiteTable.empty :=
      Instrumentation.foldl_registerFile_empty (by simp [unchanged]) SiteTable.empty
    rw [Instrumentation.ofFiles, hTable]
  refine ⟨⟨_, hReads, assemble_eq_ok_iff.2 ⟨_, hNodup, hTakes, hUnchanged⟩⟩, ?_⟩
  exact instrument_eq_ok_iff.2
    ⟨_, .served hTargets hStarts hExits hReads hNodup hTakes, hUnchanged⟩

/-- Quotes, backslashes, control characters and characters outside of the basic plane, in paths and
in texts. -/
theorem instrument_echo_escapes :
    let engine : Engine := ⟨"cat", "/p", 1000⟩
    let cat : Machine := fun launch tree => .ok ⟨tree, launch.input, [], .exited 0⟩
    let a : SourceFile := ⟨"/p/\"q\"", "a\\n.sol", "say \"\\u0041\" \x00\x1f\n\t\r"⟩
    let b : SourceFile := ⟨"/p", "\x08é😀.sol", "😀\u2028\ufffe\x7f"⟩
    let w := World.start FileTree.empty []
    a.path.text = "/p/\"q\"/a\\n.sol" ∧
      engine.instrument cat [a, b] w = (w.record [.instrumenterStarted],
        .ok ⟨[⟨a, a.source, OrderedMap.empty⟩, ⟨b, b.source, OrderedMap.empty⟩],
          SiteTable.empty⟩) := by
  intro engine cat a b w
  let x : Execution := ⟨w.tree, (engine.launch [a, b]).input, [], .exited 0⟩
  have hNodup : ([a, b].map requestPath).Nodup := by decide +kernel
  -- not by `rfl`, which would write out the request
  have hEcho : x.output = (engine.launch [a, b]).input := by simp only [x]
  have hStarts : cat (engine.launch [a, b]) w.tree = .ok x := by simp only [cat, x]
  obtain ⟨-, hInstrument⟩ :=
    instrument_echo (List.cons_ne_nil a [b]) hNodup hStarts (by rfl) hEcho
  exact ⟨by decide +kernel, hInstrument⟩

end Engine

end CoverRun

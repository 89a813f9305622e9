import CoverRun.Stage

/-!
# What a stage does

A stage succeeds exactly if its process starts and exits with zero. All lines of the process were
then ingested and forwarded, and only after that does the journal say that the stage ended
(`StageSite.run_of_succeeds`). A stage that fails leaves the beginning of such a journal, with
another ending (`StageSite.run_of_fails`). Either way it leaves no more than its own effects.
-/

namespace CoverRun

@[simp] theorem World.tree_record (w : World) (effects : List Effect) :
    (w.record effects).tree = w.tree := rfl

/-- The tree after a process, which is as it was if the process did not start. -/
def treeAfter (machine : Machine) (l : Launch) (t : FileTree) : FileTree :=
  match machine l t with
  | .ok x => x.tree
  | .error _ => t

/-- An effect of the stage with a name: its start, its end, or a line of it. -/
inductive Effect.OfStage (stage : String) : Effect → Prop
  | started : OfStage stage (.stageStarted stage)
  | ended (ending : Ending) : OfStage stage (.stageEnded stage ending)
  | printed (stream : OutputStream) (text : String) : OfStage stage (.printed stream text)

namespace StageSite

/-- The lines of an execution that come through, those of the output first. -/
def linesBy (x : Execution) : List String := linesOf x.ending x.output ++ linesOf x.ending x.errors

/-- The effects of forwarding all lines of an execution. -/
def forwarded (x : Execution) : List Effect :=
  (linesOf x.ending x.output).map (forward .output) ++
    (linesOf x.ending x.errors).map (forward .errors)

/-- What a stage leaves in the journal when its process ran. -/
def effects (command : StageCommand) (x : Execution) : List Effect :=
  .stageStarted command.name :: (forwarded x ++ [.stageEnded command.name x.ending])

/-- The world after a stage whose process ran. -/
def after (command : StageCommand) (x : Execution) (w : World) : World :=
  World.record { w with tree := x.tree } (effects command x)

@[simp] theorem journal_after (command : StageCommand) (x : Execution) (w : World) :
    (after command x w).journal = w.journal ++ effects command x := rfl

theorem ofStage_of_mem_effects {command : StageCommand} {x : Execution} {e : Effect}
    (h : e ∈ effects command x) : e.OfStage command.name := by
  rw [effects, forwarded, List.mem_cons, List.mem_append, List.mem_append, List.mem_singleton] at h
  rcases h with rfl | (h | h) | rfl
  · exact .started
  · obtain ⟨line, -, rfl⟩ := List.mem_map.1 h
    exact .printed ..
  · obtain ⟨line, -, rfl⟩ := List.mem_map.1 h
    exact .printed ..
  · exact .ended _

theorem stageEnded_mem_effects (command : StageCommand) (x : Execution) :
    .stageEnded command.name x.ending ∈ effects command x :=
  List.mem_cons_of_mem _ (List.mem_append_right _ List.mem_cons_self)

/-- The process of a stage starts and exits with zero. -/
structure Succeeds (site : StageSite) (machine : Machine) (command : StageCommand) (w : World)
    (x : Execution) : Prop where
  starts : machine (site.launch command) w.tree = .ok x
  exits : x.ending = .exited 0

/-- The process of a stage does not start, or ends in another way than with zero. -/
inductive Fails (site : StageSite) (machine : Machine) (command : StageCommand) (w : World) :
    World → StageError → Prop
  | spawn {cause : FileError} (refused : machine (site.launch command) w.tree = .error cause) :
      Fails site machine command w (w.record [.stageStarted command.name])
        (.spawnFailed command.name command.text cause)
  | finish {x : Execution} {e : StageError} (starts : machine (site.launch command) w.tree = .ok x)
      (judged : site.judge command.name (linesBy x).length x.ending = .error e) :
      Fails site machine command w (after command x w) e

section

variable {site : StageSite} {machine : Machine} {command : StageCommand} {w : World}

theorem judge_eq_ok_iff {stage : String} {lines n : Nat} {ending : Ending} :
    site.judge stage lines ending = .ok n ↔ ending = .exited 0 ∧ n = lines := by
  cases ending with
  | exited code =>
      cases code with
      | zero =>
          have hJudge : site.judge stage lines (.exited 0) = .ok lines := rfl
          simp [hJudge, eq_comm]
      | succ code => simp [judge]
  | signalled => simp [judge]
  | expired => simp [judge]

theorem run_of_starts {x : Execution} (h : machine (site.launch command) w.tree = .ok x)
    (tally : Option Tally) :
    site.run machine command tally w =
      ⟨after command x w, tally.map fun t => t.ingestAll (linesBy x),
        site.judge command.name (linesBy x).length x.ending⟩ := by
  have hTally : (fun t : Tally => (t.ingestAll (linesOf x.ending x.output)).ingestAll
      (linesOf x.ending x.errors)) = fun t => t.ingestAll (linesBy x) := by
    funext t
    rw [Tally.ingestAll, Tally.ingestAll, Tally.ingestAll, linesBy, List.foldl_append]
  simp only [run, h, hTally, after, effects, forwarded, World.record, linesBy,
    List.append_assoc, List.length_append]
  rfl

theorem run_of_succeeds {x : Execution} (h : Succeeds site machine command w x)
    (tally : Option Tally) :
    site.run machine command tally w =
      ⟨after command x w, tally.map fun t => t.ingestAll (linesBy x), .ok (linesBy x).length⟩ := by
  rw [run_of_starts h.starts, judge_eq_ok_iff.2 ⟨h.exits, rfl⟩]

theorem run_of_fails {w' : World} {e : StageError} (h : Fails site machine command w w' e)
    (tally : Option Tally) :
    ∃ tally', site.run machine command tally w = ⟨w', tally', .error e⟩ := by
  cases h with
  | @spawn cause refused =>
      exact ⟨tally, by simp only [run, World.tree_record, refused]⟩
  | @finish x _ starts judged =>
      exact ⟨_, by rw [run_of_starts starts, judged]⟩

/-- A stage succeeds or fails. -/
theorem succeeds_or_fails (site : StageSite) (machine : Machine) (command : StageCommand)
    (w : World) :
    (∃ x, Succeeds site machine command w x) ∨ ∃ w' e, Fails site machine command w w' e := by
  cases hStart : machine (site.launch command) w.tree with
  | error cause => exact Or.inr ⟨_, _, .spawn hStart⟩
  | ok x =>
      cases hJudge : site.judge command.name (linesBy x).length x.ending with
      | error e => exact Or.inr ⟨_, _, .finish hStart hJudge⟩
      | ok n => exact Or.inl ⟨x, hStart, (judge_eq_ok_iff.1 hJudge).1⟩

theorem exists_succeeds_iff (tally : Option Tally) :
    (∃ x, Succeeds site machine command w x) ↔
      ∃ n, (site.run machine command tally w).result = .ok n := by
  constructor
  · rintro ⟨x, hx⟩
    exact ⟨_, congrArg StageRun.result (run_of_succeeds hx tally)⟩
  · rintro ⟨n, hn⟩
    rcases succeeds_or_fails site machine command w with hx | ⟨w', e, hFails⟩
    · exact hx
    · obtain ⟨tally', hRun⟩ := run_of_fails hFails tally
      rw [hRun] at hn
      cases hn

theorem Succeeds.unique {x y : Execution} (hx : Succeeds site machine command w x)
    (hy : Succeeds site machine command w y) : x = y :=
  Except.ok.inj (hx.starts.symm.trans hy.starts)

theorem Fails.not_succeeds {w' : World} {e : StageError} (h : Fails site machine command w w' e)
    (x : Execution) : ¬ Succeeds site machine command w x := by
  intro hx
  cases h with
  | spawn refused => exact absurd (refused.symm.trans hx.starts) (by simp)
  | finish starts judged =>
      obtain rfl := Except.ok.inj (starts.symm.trans hx.starts)
      rw [judge_eq_ok_iff.2 ⟨hx.exits, rfl⟩] at judged
      cases judged

theorem Fails.exists_effects {w' : World} {e : StageError}
    (h : Fails site machine command w w' e) :
    ∃ added, w'.journal = w.journal ++ added ∧ ∀ f ∈ added, f.OfStage command.name := by
  cases h with
  | spawn refused =>
      refine ⟨_, rfl, fun f hf => ?_⟩
      rw [List.mem_singleton.1 hf]
      exact .started
  | finish starts judged => exact ⟨_, rfl, fun f => ofStage_of_mem_effects⟩

theorem Fails.tree_eq {w' : World} {e : StageError} (h : Fails site machine command w w' e) :
    w'.tree = treeAfter machine (site.launch command) w.tree := by
  cases h with
  | spawn refused => rw [treeAfter, refused, World.tree_record]
  | finish starts judged => rw [treeAfter, starts, after, World.tree_record]

end

end StageSite

end CoverRun

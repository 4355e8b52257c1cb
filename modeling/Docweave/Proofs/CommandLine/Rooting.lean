import Docweave.CommandLine
import Docweave.Proofs.CommandLine.Wishes
import Docweave.Proofs.Including.Isolation

/-!
Asking for the root of a file, and asking for the file.

`compose` shows one node if it is given a pointer, and the empty pointer is that of the root.  The
two ways to ask for everything meet in the composer: composing the node at the root is composing
the document (`composeNode_root`), and what is found at the root afterwards is what the store holds
(`Store.get_root`).  They differ before that.  A file is taken for a document only if it holds a map
or a list, but a node is composed whatever its document is.  So a scalar is refused when the file is
asked for and printed when its root is, and that is the one difference (`root_pointer_iff`).
-/

namespace Docweave

/-! ### Composing the root -/

/-- What is at the root is the document, whatever the index says. -/
theorem Store.get_root (store : Store) : store.get .root = .ok store.content := by
  cases store <;> rfl

section

variable {σ : Type} {setting : Setting} {generators : Generators σ} {world : σ}
  {options : ComposeOptions} {content : Value}

/-- **Composing the node at the root is composing the document.** -/
theorem composeNode_root :
    composeNode setting generators world options content .root =
      composeValue setting generators world options content := by
  simp only [composeNode, composeValue, Composer.compose, Store.get_root]

/-- A scalar has no keys that could be given twice. -/
theorem Value.wellFormed_of_isContainer_eq_false (h : content.isContainer = false) :
    content.WellFormed := by
  cases content with
  | map fields => exact absurd h (by simp [isContainer])
  | list items => exact absurd h (by simp [isContainer])
  | _ => simp

open Composing in
/-- A scalar is composed to itself. -/
theorem composeValue_scalar (h : content.isContainer = false) :
    composeValue setting generators world options content = some (.ok content) := by
  let composer := Composer.standard generators world options content
  have hsound : composer.store.Sound :=
    Store.sound_wrap (Value.wellFormed_of_isContainer_eq_false h) options.backend
  have hcontent : composer.store.content = content := Store.content_wrap _ _
  have hscan : scan (composer.workshop setting) [] content composer.progress.fresh =
      some (.ok false, composer.progress.fresh) := by
    rw [scan_of_plain List.not_mem_nil (isDirective_eq_false_of_isContainer h),
      Value.entries_of_isContainer_eq_false h]
    exact scanFields_nil_eq_ok.mpr ⟨rfl, rfl⟩
  have hpass : pass (composer.workshop setting) [[]] composer.progress.fresh =
      some (.ok (), composer.progress.fresh) :=
    (pass_cons_of_node hsound [] (hcontent ▸ Value.node?_nil _)).trans
      (bind_eq_ok.mpr ⟨false, _, hscan, rfl⟩)
  refine (composeValue_of_round ((round_of_pass hpass).trans
    (congrArg some (verdict_of_nothing rfl)))).trans ?_
  exact congrArg (fun v => some (Except.ok v)) hcontent

end

namespace CommandLine

variable {σ : Type} {setting : Setting} {generators : Generators σ} {world : σ}
  {arguments : List String} {command : ComposeCommand} {content : Value}

/-! ### The arguments -/

namespace ComposeCommand

/-- The command that is asked for the root of its file. -/
def atRoot (command : ComposeCommand) : ComposeCommand :=
  { command with pointer? := some "" }

theorem ofArguments_eq_ok (h : ofArguments arguments = .ok command) :
    grammar.read arguments {} = .ok command ∧ command.file ≠ "" := by
  unfold ofArguments at h
  split at h
  · split at h
    · exact absurd h (by simp)
    · obtain rfl := Except.ok.inj h
      exact ⟨‹_›, ‹_›⟩
  · exact absurd h (by simp)

/-- The empty pointer may be added behind all other arguments. -/
theorem ofArguments_append_root (h : ofArguments arguments = .ok command) :
    ofArguments (arguments ++ ["--pointer", ""]) = .ok command.atRoot := by
  obtain ⟨hread, hfile⟩ := ofArguments_eq_ok h
  have hroot : grammar.read (arguments ++ ["--pointer", ""]) {} = .ok command.atRoot :=
    Grammar.read_append hread _
  rw [ofArguments, hroot]
  exact if_neg hfile

/-! ### What is shown -/

theorem result_of_document (h : command.pointer? = none) :
    command.result setting generators world =
      composeFile setting generators world command.options command.file := by
  rw [result, h]

/-- What is shown of the root is what its document is composed to. -/
theorem result_atRoot :
    command.atRoot.result setting generators world =
      match Reader.load setting.files command.file with
      | .ok content => composeValue setting generators world command.options content
      | .error fault => throw fault := by
  show (do
    let content ← (Reader.load setting.files command.file : Work Value)
    composeNode setting generators world command.options content .root) = _
  simp only [composeNode_root]
  cases Reader.load setting.files command.file <;> rfl

/-- A file that cannot be read is no document and has no root. -/
theorem result_of_unreadable {fault : Fault} (h : command.pointer? = none)
    (hload : Reader.load setting.files command.file = .error fault) :
    command.atRoot.result setting generators world = command.result setting generators world := by
  rw [result_atRoot, result_of_document h, composeFile, loadContainer, hload]

theorem result_of_container (h : command.pointer? = none)
    (hload : Reader.load setting.files command.file = .ok content)
    (hcontainer : content.isContainer = true) :
    command.atRoot.result setting generators world = command.result setting generators world := by
  rw [result_atRoot, result_of_document h, composeFile, loadContainer, hload]
  simp only [if_pos hcontainer]

end ComposeCommand

/-! ### The runs -/

/-- A run that composes prints what the command shows. -/
theorem run_compose (h : ComposeCommand.ofArguments arguments = .ok command) :
    run setting generators world ("compose" :: arguments) =
      (valueText command.compact <$> command.result setting generators world).run.map
        Report.ofOutput := by
  have hrequest : Request.ofArguments ("compose" :: arguments) =
      .ok (.command (.compose command)) := by
    simp [Request.ofArguments, Command.ofArguments, h, Except.map]
  rw [run, hrequest]
  rfl

/-- The root of a scalar is printed. -/
theorem run_root_of_scalar (hroot : ComposeCommand.ofArguments arguments = .ok command.atRoot)
    (hload : Reader.load setting.files command.file = .ok content)
    (hscalar : content.isContainer = false) :
    run setting generators world ("compose" :: arguments) =
      some ⟨.success, valueText command.compact content, ""⟩ := by
  rw [run_compose hroot, ComposeCommand.result_atRoot, hload]
  simp only [composeValue_scalar hscalar]
  rfl

/-- A scalar is refused as a document. -/
theorem run_of_scalar (h : ComposeCommand.ofArguments arguments = .ok command)
    (hdocument : command.pointer? = none)
    (hload : Reader.load setting.files command.file = .ok content)
    (hscalar : content.isContainer = false) :
    run setting generators world ("compose" :: arguments) =
      some (.ofOutput (.error (.input (.scalarFile command.file)))) := by
  rw [run_compose h, ComposeCommand.result_of_document hdocument, composeFile, loadContainer, hload]
  simp only [hscalar]
  rfl

/-- **Asking for the root of a file is asking for the file, except if the file holds a scalar.**

For arguments that ask for a file and no node of it, and any that ask for the same with the empty
pointer, such as the first with the pointer behind them, the runs print the same and end the same
way if and only if the file cannot be read or holds a map or a list.  A scalar is printed as it is
when its root is asked for, and refused when the file is. -/
theorem root_pointer_iff (setting : Setting) (generators : Generators σ) (world : σ)
    (h : ComposeCommand.ofArguments arguments = .ok command) (hdocument : command.pointer? = none) :
    ComposeCommand.ofArguments (arguments ++ ["--pointer", ""]) = .ok command.atRoot ∧
      ∀ arguments', ComposeCommand.ofArguments arguments' = .ok command.atRoot →
        (run setting generators world ("compose" :: arguments') =
            run setting generators world ("compose" :: arguments) ↔
          ∀ content, Reader.load setting.files command.file = .ok content →
            content.isContainer = true) ∧
        ∀ content, Reader.load setting.files command.file = .ok content →
          content.isContainer = false →
            run setting generators world ("compose" :: arguments') =
                some ⟨.success, valueText command.compact content, ""⟩ ∧
              run setting generators world ("compose" :: arguments) =
                some (.ofOutput (.error (.input (.scalarFile command.file)))) := by
  refine ⟨ComposeCommand.ofArguments_append_root h, fun arguments' hroot => ⟨⟨?_, ?_⟩, ?_⟩⟩
  · intro hsame content hload
    by_contra hcontainer
    have hscalar := Bool.eq_false_iff.mpr hcontainer
    rw [run_root_of_scalar hroot hload hscalar, run_of_scalar h hdocument hload hscalar] at hsame
    have hstatus : Status.success = Status.failure :=
      congrArg Report.status (Option.some.inj hsame)
    exact absurd hstatus (by decide)
  · intro hcontainer
    rw [run_compose hroot, run_compose h]
    refine congrArg (fun shown : Work Value =>
      (valueText command.compact <$> shown).run.map Report.ofOutput) ?_
    cases hload : Reader.load setting.files command.file with
    | error fault => exact ComposeCommand.result_of_unreadable hdocument hload
    | ok content =>
        exact ComposeCommand.result_of_container hdocument hload (hcontainer content hload)
  · intro content hload hscalar
    exact ⟨run_root_of_scalar hroot hload hscalar, run_of_scalar h hdocument hload hscalar⟩

/-- A file with a list, and one with a number. -/
def rootsSetting : Setting where
  files := .ofTexts [("l.json", "[5]"), ("s.json", "5")]
  now := Composer.bareSetting.now

theorem load_list : Reader.load rootsSetting.files "l.json" = .ok (.list [.int 5]) := by
  with_unfolding_all rfl

theorem load_number : Reader.load rootsSetting.files "s.json" = .ok (.int 5) := by
  with_unfolding_all rfl

/-- A list is shown either way, wherever the pointer stands. -/
theorem root_pointer_of_list :
    ComposeCommand.ofArguments ["l.json", "--compact"] =
        .ok { file := "l.json", compact := true } ∧
      run rootsSetting (Generators.standard fun _ => (0, ())) ()
          ["compose", "--pointer", "", "l.json", "--compact"] =
        run rootsSetting (Generators.standard fun _ => (0, ())) ()
          ["compose", "l.json", "--compact"] := by
  have h : ComposeCommand.ofArguments ["l.json", "--compact"] =
      .ok { file := "l.json", compact := true } := by decide
  refine ⟨h, (((root_pointer_iff rootsSetting _ () h rfl).2 ["--pointer", "", "l.json", "--compact"]
    (by decide)).1).mpr fun content hload => ?_⟩
  obtain rfl := Except.ok.inj (load_list.symm.trans hload)
  rfl

/-- **A number is printed as the root of its file, and its file is refused.** -/
theorem root_of_number_shown :
    run rootsSetting (Generators.standard fun _ => (0, ())) ()
          ["compose", "s.json", "--pointer", ""] =
        some ⟨.success, "5\n", ""⟩ ∧
      run rootsSetting (Generators.standard fun _ => (0, ())) () ["compose", "s.json"] =
        some ⟨.failure, "",
          "Error: Invalid input: Document must be a map or a sequence: s.json\n"⟩ := by
  have h : ComposeCommand.ofArguments ["s.json"] = .ok { file := "s.json" } := by decide
  refine ⟨(run_root_of_scalar (ComposeCommand.ofArguments_append_root h) load_number rfl).trans ?_,
    (run_of_scalar h rfl load_number rfl).trans ?_⟩
  · decide
  · decide

end CommandLine

end Docweave

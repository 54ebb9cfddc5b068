import DomainAtlas.Proofs.CommandLine.Files
import DomainAtlas.Proofs.Printing.RoundTrip

/-! # Formatting a file

A run that writes canonical text changes the file at its output only. Under the same settings that file is then in
canonical form, and the check of it comes out as that of the input. Other runs change no file.
-/
set_option autoImplicit false

namespace DomainAtlas.CommandLine

namespace Platform

variable {σ : Type} {platform : Platform σ} {files later : σ} {given? : Option String} {input output source : String}
  {settings : Settings} {model : Model}

section Running

variable (hSettings : platform.settings files given? = .ok settings) (logLevel : String)
include hSettings

theorem run_check_of_read (hRead : platform.read files input = .ok source)
    (hModel : Model.ofSource source = .ok model) :
    platform.run files ⟨.check input, given?, logLevel⟩ =
      match settings.check model with
      | .ok report => { result := .ok (), files, warnings := report.warnings.map Finding.text }
      | .error failure => { result := .error failure, files } := by
  have hCheck := @on_check_of_read σ platform { files } settings input source model hRead hModel
  rw [run, on_run_check hSettings, hCheck]
  cases settings.check model <;> rfl

theorem run_format_of_read (hRead : platform.read files input = .ok source)
    (hModel : Model.ofSource source = .ok model)
    (hWrite : platform.write files output (settings.print model) = (.ok (), later)) :
    platform.run files ⟨.format input (some output) false, given?, logLevel⟩ =
      { result := .ok (), files := later } := by
  have hFormat := @on_format_of_read σ platform { files } settings input source model hRead hModel output
  rw [run, on_run_format hSettings, hFormat, @on_writeFile_of_ok σ platform { files } output _ later hWrite]

theorem run_format_of_canonical (hRead : platform.read files input = .ok (settings.print model))
    (hModel : Model.ofSource (settings.print model) = .ok model) :
    platform.run files ⟨.format input none true, given?, logLevel⟩ = { result := .ok (), files } := by
  have hFormat := @on_format_of_canonical σ platform { files } settings input model hRead hModel
  rw [run, on_run_format hSettings, hFormat]

end Running

theorem run_format_output {σ : Type} {platform : Platform σ} {Same : σ → String → String → Prop}
    (hLawful : platform.Lawful Same) :
    (∀ {files later : σ} {given? : Option String} {input output source : String} {settings : Settings} {model : Model}
      (logLevel : String),
      platform.settings files given? = .ok settings → platform.read files input = .ok source →
      Model.ofSource source = .ok model → platform.write files output (settings.print model) = (.ok (), later) →
      (∀ path ∈ platform.lookups files given?, ¬ Same files output path) →
      let written := platform.run files ⟨.format input (some output) false, given?, logLevel⟩
      let formatted := platform.run written.files ⟨.format output none true, given?, logLevel⟩
      let before := platform.run files ⟨.check input, given?, logLevel⟩
      let after := platform.run written.files ⟨.check output, given?, logLevel⟩
      written.result = .ok () ∧ written.files = later ∧
        platform.read written.files output = .ok (settings.print model) ∧
        (∀ path, ¬ Same files output path → platform.has written.files path = platform.has files path ∧
          ∀ content, platform.read written.files path = .ok content ↔ platform.read files path = .ok content) ∧
        formatted.result = .ok () ∧ after.result = before.result ∧ after.warnings = before.warnings) ∧
    ∀ (files : σ) (arguments : Arguments),
      ((∃ input, arguments.command = .check input) ∨
          (∃ input output?, arguments.command = .format input output? true) →
        (platform.run files arguments).files = files) ∧
      ((∀ path text problem later, platform.write files path text = (.error problem, later) → later = files) →
        ∀ failure, (platform.run files arguments).result = .error failure →
          (platform.run files arguments).files = files) := by
  constructor
  · intro files later given? input output source settings model logLevel hSettings hRead hModel hWrite hApart
    have hText : platform.read later output = .ok (settings.print model) := hLawful.read_self hWrite
    have hAgain : Model.ofSource (settings.print model) = .ok model :=
      ofSource_print_of_wellFormed (wellFormed_of_ofSource hModel) settings.indentWidth
    have hLater := hLawful.settings_of_write hWrite hApart hSettings
    intro written formatted before after
    have hWritten : written = { result := .ok (), files := later } :=
      run_format_of_read hSettings logLevel hRead hModel hWrite
    have hFormatted := run_format_of_canonical hLater logLevel hText hAgain
    have hBefore := run_check_of_read hSettings logLevel hRead hModel
    have hAfter := run_check_of_read hLater logLevel hText hAgain
    simp only [formatted, after, before, hWritten, hFormatted, hBefore, hAfter, true_and]
    refine ⟨hText, fun path hPath => ⟨hLawful.has_other hWrite hPath, fun _ => hLawful.read_other hWrite hPath⟩, ?_⟩
    cases settings.check model <;> exact ⟨rfl, rfl⟩
  · intro files arguments
    refine ⟨fun hCommand => keeps_run hCommand { files }, fun hRefused failure hFailure => ?_⟩
    exact keepsIfRefused_run hRefused arguments { files } failure _ rfl (Prod.ext hFailure rfl)

end Platform

/-- Settings for all directories, and a map of one bounded context in one line. -/
def shopTree : Tree where
  files :=
    [⟨"/etc/ctxmap/config.toml", "[writer]\nindent_width = 2\n"⟩,
      ⟨"/home/shop/maps/shop.ctx", "ContextMap \x7b contains Shop \x7d BoundedContext Shop \x7b \x7d"⟩,
      ⟨"/tmp/notes", ""⟩]
  workingDirectory := "/home/shop"

theorem run_format_output_shop :
    let platform := Tree.platform (some "/etc/ctxmap")
    let written := platform.run shopTree ⟨.format "maps/shop.ctx" (some "/tmp/docs.ctx") false, none, "info"⟩
    written.result = .ok () ∧
      written.files.read "/tmp/docs.ctx" =
        .ok "ContextMap \x7b\n  state = AS_IS\n  contains Shop\n\x7d\n\nBoundedContext Shop \x7b\x7d\n" ∧
      (platform.run written.files ⟨.format "/tmp/docs.ctx" none true, none, "info"⟩).result = .ok () ∧
      (platform.run written.files ⟨.check "/tmp/docs.ctx", none, "info"⟩).result =
        (platform.run shopTree ⟨.check "maps/shop.ctx", none, "info"⟩).result ∧
      (platform.run shopTree ⟨.format "maps/shop.ctx" (some "/tmp") false, none, "info"⟩).files = shopTree := by
  have hSettings : (Tree.platform (some "/etc/ctxmap")).settings shopTree none = .ok { indentWidth := 2 } := by
    decide +kernel
  have hRead : shopTree.read "maps/shop.ctx" =
      .ok "ContextMap \x7b contains Shop \x7d BoundedContext Shop \x7b \x7d" := by
    decide +kernel
  have hModel : Model.ofSource "ContextMap \x7b contains Shop \x7d BoundedContext Shop \x7b \x7d" =
      .ok { contextMap := some { contains := ["Shop"] }, boundedContexts := [{ name := "Shop" }] } := by
    decide +kernel
  have hTarget : shopTree.resolve "/tmp/docs.ctx" = .ok ["tmp", "docs.ctx"] := by
    decide +kernel
  have hPlace : shopTree.entry ["tmp", "docs.ctx"] ≠ .directory := by
    decide +kernel
  have hElsewhere : ∀ path ∈ (Tree.platform (some "/etc/ctxmap")).lookups shopTree none,
      shopTree.resolve path ≠ .ok ["tmp", "docs.ctx"] := by
    decide +kernel
  have hApart : ∀ path ∈ (Tree.platform (some "/etc/ctxmap")).lookups shopTree none,
      ¬ shopTree.Same "/tmp/docs.ctx" path := by
    rintro path hPath ⟨names, hOutput, hOther⟩
    cases hTarget.symm.trans hOutput
    exact hElsewhere path hPath hOther
  have hRefused : ((Tree.platform (some "/etc/ctxmap")).run shopTree
      ⟨.format "maps/shop.ctx" (some "/tmp") false, none, "info"⟩).result = .error (.file .isDirectory) := by
    decide +kernel
  obtain ⟨hWrites, hKeeps⟩ := Platform.run_format_output (Tree.lawful_platform (some "/etc/ctxmap"))
  obtain ⟨hResult, -, hText, -, hFormatted, hChecked, -⟩ :=
    hWrites "info" hSettings hRead hModel (Tree.write_eq_ok_iff.mpr ⟨_, hTarget, hPlace, rfl⟩) hApart
  exact ⟨hResult, hText.trans (by decide +kernel), hFormatted, hChecked,
    (hKeeps shopTree _).2 (fun _ _ _ _ => Tree.eq_of_write_eq_error) _ hRefused⟩

end DomainAtlas.CommandLine

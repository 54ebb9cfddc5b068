import DomainAtlas.CommandLine.Platform

/-! # Steps on a platform

What a step of a command does to the world is told by what its parts do. Steps that only look leave the world, and how
they end depends on the files alone. A command looks first, and writes at most at its very end, so that nothing is
written by a command that is refused.
-/
set_option autoImplicit false

namespace DomainAtlas.CommandLine

variable {σ α β : Type}

/-! ## Parts of steps -/

namespace Step

variable {world : World σ}

theorem on_bind (step : Step σ α) (next : α → Step σ β) :
    Step.on (step >>= next) world =
      match Step.on step world with
      | (.ok value, later) => Step.on (next value) later
      | (.error failure, later) => (.error failure, later) := by
  change (ExceptT.bindCont next (Step.on step world).1 : StateM (World σ) _) (Step.on step world).2 = _
  obtain ⟨outcome, later⟩ := Step.on step world
  cases outcome <;> rfl

theorem on_ofExcept (outcome : Except Failure α) :
    Step.on (MonadExcept.ofExcept outcome) world = (outcome, world) := by
  cases outcome <;> rfl

/-- The step leaves the world, and how it ends depends on the files alone. -/
def Looks (step : Step σ α) : Prop :=
  ∀ world, Step.on step world = ((Step.on step { files := world.files }).1, world)

namespace Looks

variable {step : Step σ α} {next : α → Step σ β}

theorem pure (value : α) : Looks (pure value : Step σ α) :=
  fun _ => rfl

theorem throw (failure : Failure) : Looks (throw failure : Step σ α) :=
  fun _ => rfl

theorem ofExcept (outcome : Except Failure α) : Looks (MonadExcept.ofExcept outcome : Step σ α) := by
  intro world
  rw [on_ofExcept, on_ofExcept]

theorem bind (h : Looks step) (hNext : ∀ value, Looks (next value)) : Looks (step >>= next) := by
  intro world
  have hFiles := h { files := world.files }
  rw [on_bind, on_bind, h world]
  generalize Step.on step { files := world.files } = ended at hFiles ⊢
  obtain ⟨outcome, later⟩ := ended
  obtain ⟨-, rfl⟩ := Prod.mk.inj hFiles
  cases outcome with
  | error failure => rfl
  | ok value => exact hNext value world

end Looks

/-- The step leaves the files, however it ends. -/
def Keeps (step : Step σ α) : Prop :=
  ∀ world, (Step.on step world).2.files = world.files

/-- The step leaves `files` where it fails. -/
def KeepsIfRefused (files : σ) (step : Step σ α) : Prop :=
  ∀ world failure later, world.files = files → Step.on step world = (.error failure, later) → later.files = files

variable {step : Step σ α} {next : α → Step σ β}

theorem Looks.keeps (h : Looks step) : Keeps step := by
  intro world
  rw [h world]

theorem Keeps.keepsIfRefused (h : Keeps step) (files : σ) : KeepsIfRefused files step := by
  rintro world failure later rfl hRun
  have hFiles := h world
  rwa [hRun] at hFiles

theorem Keeps.bind (h : Keeps step) (hNext : ∀ value, Keeps (next value)) : Keeps (step >>= next) := by
  intro world
  have hFiles := h world
  rw [on_bind]
  generalize Step.on step world = ended at hFiles ⊢
  obtain ⟨outcome, later⟩ := ended
  cases outcome with
  | error failure => exact hFiles
  | ok value => exact (hNext value later).trans hFiles

theorem Keeps.bind_keepsIfRefused {files : σ} (h : Keeps step) (hNext : ∀ value, KeepsIfRefused files (next value)) :
    KeepsIfRefused files (step >>= next) := by
  rintro world failure last rfl hRun
  have hFiles := h world
  rw [on_bind] at hRun
  generalize Step.on step world = ended at hFiles hRun
  obtain ⟨outcome, later⟩ := ended
  cases outcome with
  | error _ =>
    obtain ⟨-, rfl⟩ := Prod.mk.inj hRun
    exact hFiles
  | ok value => exact hNext value later failure last hFiles hRun

end Step

/-! ## Looking -/

namespace Platform

variable {platform : Platform σ} {world : World σ} {files later : σ} {settings : Settings}

/-- The reader of settings is that of the platform. -/
theorem settingsOf?_surroundings : platform.surroundings.settingsOf? = platform.settingsOf? :=
  rfl

theorem settingsDirectory?_surroundings : platform.surroundings.settingsDirectory? = platform.settingsDirectory? :=
  rfl

theorem on_read (path : String) :
    Step.on (liftM (platform.surroundings.read path) : Step σ (Except FileProblem String)) world =
      (.ok (platform.read world.files path), world) :=
  rfl

theorem on_readFile_of_ok {path content : String} (h : platform.read world.files path = .ok content) :
    Step.on (platform.surroundings.readFile path) world = (.ok content, world) := by
  rw [Surroundings.readFile, Step.on_bind, on_read, h]
  rfl

theorem on_readFile_of_error {path : String} {problem : FileProblem}
    (h : platform.read world.files path = .error problem) :
    Step.on (platform.surroundings.readFile path) world = (.error (.file problem), world) := by
  rw [Surroundings.readFile, Step.on_bind, on_read, h]
  rfl

theorem on_has (path : String) :
    Step.on (liftM (platform.surroundings.has path) : Step σ Bool) world =
      (.ok (platform.has world.files path), world) :=
  rfl

theorem looks_has (path : String) : Step.Looks (liftM (platform.surroundings.has path) : Step σ Bool) :=
  fun _ => rfl

theorem looks_readFile (path : String) : Step.Looks (platform.surroundings.readFile path) := by
  intro world
  cases hRead : platform.read world.files path with
  | ok content =>
    rw [on_readFile_of_ok hRead, @on_readFile_of_ok σ platform { files := world.files } path content hRead]
  | error problem =>
    rw [on_readFile_of_error hRead, @on_readFile_of_error σ platform { files := world.files } path problem hRead]

theorem looks_settingsAt (path : String) : Step.Looks (platform.surroundings.settingsAt path) := by
  refine .bind (looks_has path) fun isThere => ?_
  cases isThere with
  | false => exact .throw _
  | true =>
    refine .bind (looks_readFile path) fun content => ?_
    cases platform.surroundings.settingsOf? content with
    | none => exact .throw _
    | some settings => exact .pure settings

theorem looks_settings (given? : Option String) : Step.Looks (platform.surroundings.settings given?) := by
  cases given? with
  | some path => exact looks_settingsAt path
  | none =>
    refine .bind (looks_has _) fun isLocal => ?_
    cases isLocal with
    | true => exact looks_settingsAt _
    | false =>
      cases platform.surroundings.settingsDirectory? with
      | none => exact .pure _
      | some directory =>
        refine .bind (looks_has _) fun isShared => ?_
        cases isShared with
        | true => exact looks_settingsAt _
        | false => exact .pure _

/-! ## Settings -/

/-- The settings that a command finds in the file at a path. -/
def settingsAt (platform : Platform σ) (files : σ) (path : String) : Except Failure Settings :=
  (Step.on (platform.surroundings.settingsAt path) { files }).1

theorem settingsAt_eq_ok_iff {path : String} :
    platform.settingsAt files path = .ok settings ↔
      platform.has files path = true ∧
        ∃ content, platform.read files path = .ok content ∧ platform.settingsOf? content = some settings := by
  rw [settingsAt, Surroundings.settingsAt, Step.on_bind, on_has]
  cases platform.has files path with
  | false => exact ⟨nofun, nofun⟩
  | true =>
    simp only [if_true, Step.on_bind, true_and]
    cases hRead : platform.read files path with
    | error problem =>
      rw [@on_readFile_of_error σ platform { files } path problem hRead]
      exact ⟨nofun, nofun⟩
    | ok content =>
      rw [@on_readFile_of_ok σ platform { files } path content hRead]
      simp only [Except.ok.injEq, exists_eq_left', settingsOf?_surroundings]
      cases platform.settingsOf? content with
      | none => exact ⟨nofun, nofun⟩
      | some read => exact ⟨fun h => congrArg some (Except.ok.inj h), fun h => congrArg Except.ok (Option.some.inj h)⟩

theorem settings_none (files : σ) :
    platform.settings files none =
      if platform.has files Surroundings.localSettings then platform.settingsAt files Surroundings.localSettings
      else
        match platform.settingsDirectory? with
        | none => .ok {}
        | some directory =>
          if platform.has files (directory ++ "/config.toml") then
            platform.settingsAt files (directory ++ "/config.toml")
          else .ok {} := by
  rw [settings, Surroundings.settings, Step.on_bind, on_has]
  cases platform.has files Surroundings.localSettings with
  | true => rfl
  | false =>
    simp only [Bool.false_eq_true, if_false, settingsDirectory?_surroundings]
    cases platform.settingsDirectory? with
    | none => rfl
    | some directory =>
      simp only [Step.on_bind, on_has]
      cases platform.has files (directory ++ "/config.toml") <;> rfl

/-- The paths that are tried for the settings. -/
def lookups (platform : Platform σ) (files : σ) : Option String → List String
  | some path => [path]
  | none =>
    if platform.has files Surroundings.localSettings then [Surroundings.localSettings]
    else Surroundings.localSettings :: platform.settingsDirectory?.toList.map (· ++ "/config.toml")

/-- The settings are found again where the paths that are tried lead to the same files. -/
theorem settings_of_lookups {given? : Option String} (h : platform.settings files given? = .ok settings)
    (hHas : ∀ path ∈ platform.lookups files given?, platform.has later path = platform.has files path)
    (hRead : ∀ path ∈ platform.lookups files given?, ∀ content, platform.read files path = .ok content →
      platform.read later path = .ok content) : platform.settings later given? = .ok settings := by
  have hAt : ∀ path ∈ platform.lookups files given?, platform.settingsAt files path = .ok settings →
      platform.settingsAt later path = .ok settings := by
    intro path hPath hFound
    obtain ⟨hThere, content, hContent, hSettings⟩ := settingsAt_eq_ok_iff.mp hFound
    exact settingsAt_eq_ok_iff.mpr
      ⟨(hHas path hPath).trans hThere, content, hRead path hPath content hContent, hSettings⟩
  cases given? with
  | some path => exact hAt path (List.mem_singleton.mpr rfl) h
  | none =>
    rw [settings_none] at h ⊢
    unfold lookups at hHas hAt
    cases hLocal : platform.has files Surroundings.localSettings with
    | true =>
      simp only [hLocal, if_true, List.forall_mem_singleton] at h hHas hAt ⊢
      simpa only [hHas, if_true] using hAt h
    | false =>
      simp only [hLocal, Bool.false_eq_true, if_false, List.forall_mem_cons] at h hHas hAt ⊢
      obtain ⟨hLocalLater, hHas⟩ := hHas
      simp only [hLocalLater, Bool.false_eq_true, if_false]
      cases hDirectory : platform.settingsDirectory? with
      | none => simpa only [hDirectory] using h
      | some directory =>
        simp only [hDirectory, Option.toList_some, List.map_cons, List.map_nil, List.forall_mem_singleton]
          at h hHas hAt ⊢
        rw [hHas]
        cases hShared : platform.has files (directory ++ "/config.toml") with
        | true =>
          simp only [hShared, if_true] at h ⊢
          exact hAt.2 h
        | false => simpa only [hShared, Bool.false_eq_true, if_false] using h

/-! ## Writing -/

/-- What writing does where it succeeds. `Same files path other` says that the two paths lead to one file. -/
structure Lawful (platform : Platform σ) (Same : σ → String → String → Prop) : Prop where
  /-- What is written is read. -/
  read_self {files later : σ} {path text : String} (h : platform.write files path text = (.ok (), later)) :
    platform.read later path = .ok text
  /-- Other files hold what they held. -/
  read_other {files later : σ} {path text other content : String} (h : platform.write files path text = (.ok (), later))
    (hOther : ¬ Same files path other) :
    platform.read later other = .ok content ↔ platform.read files other = .ok content
  /-- Nothing else appears or disappears. -/
  has_other {files later : σ} {path text other : String} (h : platform.write files path text = (.ok (), later))
    (hOther : ¬ Same files path other) : platform.has later other = platform.has files other

theorem Lawful.settings_of_write {Same : σ → String → String → Prop} (hLawful : platform.Lawful Same)
    {given? : Option String} {path text : String} (hWrite : platform.write files path text = (.ok (), later))
    (hApart : ∀ other ∈ platform.lookups files given?, ¬ Same files path other)
    (h : platform.settings files given? = .ok settings) : platform.settings later given? = .ok settings :=
  settings_of_lookups h (fun other hOther => hLawful.has_other hWrite (hApart other hOther))
    fun other hOther _ => (hLawful.read_other hWrite (hApart other hOther)).mpr

/-! ## Commands -/

theorem on_warn (findings : List Finding) :
    Step.on (findings.forM fun finding => platform.surroundings.warn finding.text : Step σ PUnit) world =
      (.ok (), { world with warnings := world.warnings ++ findings.map Finding.text }) := by
  induction findings generalizing world with
  | nil =>
    rw [List.map_nil, List.append_nil]
    rfl
  | cons finding findings ih =>
    have hFirst : Step.on (liftM (platform.surroundings.warn finding.text) : Step σ Unit) world =
      (.ok (), { world with warnings := world.warnings ++ [finding.text] }) := rfl
    rw [List.forM, Step.on_bind, hFirst]
    simp only [ih, List.append_assoc, List.map_cons, List.singleton_append]

theorem on_write (path text : String) :
    Step.on (liftM (platform.surroundings.write path text) : Step σ (Except FileProblem Unit)) world =
      (.ok (platform.write world.files path text).1,
        { world with files := (platform.write world.files path text).2 }) :=
  rfl

theorem on_writeFile_of_ok {path text : String} {later : σ}
    (h : platform.write world.files path text = (.ok (), later)) :
    Step.on (platform.surroundings.writeFile path text) world = (.ok (), { world with files := later }) := by
  rw [Surroundings.writeFile, Step.on_bind, on_write, h]
  rfl

theorem on_writeFile_of_error {path text : String} {problem : FileProblem} {later : σ}
    (h : platform.write world.files path text = (.error problem, later)) :
    Step.on (platform.surroundings.writeFile path text) world =
      (.error (.file problem), { world with files := later }) := by
  rw [Surroundings.writeFile, Step.on_bind, on_write, h]
  rfl

theorem readModel_eq_ok {source : String} {model : Model} (h : Model.ofSource source = .ok model) :
    readModel source = .ok model := by
  rw [readModel, h]
  rfl

section Reading

variable {input source : String} {model : Model} (settings)
  (hRead : platform.read world.files input = .ok source) (hModel : Model.ofSource source = .ok model)
include hRead hModel

theorem on_check_of_read :
    Step.on (platform.surroundings.check settings input) world =
      match settings.check model with
      | .ok report => (.ok (), { world with warnings := world.warnings ++ report.warnings.map Finding.text })
      | .error failure => (.error failure, world) := by
  simp only [Surroundings.check, Step.on_bind, on_readFile_of_ok hRead, readModel_eq_ok hModel, Step.on_ofExcept]
  cases settings.check model with
  | error failure => rfl
  | ok report => exact on_warn report.warnings

theorem on_format_of_read (output : String) :
    Step.on (platform.surroundings.format settings input (some output) false) world =
      Step.on (platform.surroundings.writeFile output (settings.print model)) world := by
  simp only [Surroundings.format, Step.on_bind, on_readFile_of_ok hRead, readModel_eq_ok hModel, Step.on_ofExcept]
  rfl

end Reading

theorem on_format_of_canonical {input : String} {model : Model}
    (hRead : platform.read world.files input = .ok (settings.print model))
    (hModel : Model.ofSource (settings.print model) = .ok model) :
    Step.on (platform.surroundings.format settings input none true) world = (.ok (), world) := by
  simp only [Surroundings.format, Step.on_bind, on_readFile_of_ok hRead, readModel_eq_ok hModel, Step.on_ofExcept,
    if_true]
  rfl

theorem keeps_check (settings : Settings) (input : String) : Step.Keeps (platform.surroundings.check settings input) :=
  .bind (looks_readFile input).keeps fun _ => .bind (Step.Looks.ofExcept _).keeps fun _ =>
    .bind (Step.Looks.ofExcept _).keeps fun report world => by rw [on_warn]

theorem keeps_format (settings : Settings) (input : String) {output? : Option String} {checkOnly : Bool}
    (h : checkOnly = true ∨ output? = none) :
    Step.Keeps (platform.surroundings.format settings input output? checkOnly) := by
  refine .bind (looks_readFile input).keeps fun source => .bind (Step.Looks.ofExcept _).keeps fun model => ?_
  cases checkOnly with
  | true =>
    by_cases hSame : settings.print model = source
    · simp only [hSame, if_true]
      exact (Step.Looks.pure ()).keeps
    · simp only [hSame, if_true, if_false]
      exact (Step.Looks.throw _).keeps
  | false =>
    obtain rfl := h.resolve_left Bool.false_ne_true
    exact fun world => rfl

section Refusing

variable
  (hRefused : ∀ path text problem later, platform.write files path text = (.error problem, later) → later = files)
include hRefused

theorem keepsIfRefused_writeFile (path text : String) :
    Step.KeepsIfRefused files (platform.surroundings.writeFile path text) := by
  rintro world failure later rfl hRun
  rcases hWritten : platform.write world.files path text with ⟨outcome, written⟩
  cases outcome with
  | ok _ =>
    rw [on_writeFile_of_ok hWritten] at hRun
    cases hRun
  | error problem =>
    rw [on_writeFile_of_error hWritten] at hRun
    obtain ⟨-, rfl⟩ := Prod.mk.inj hRun
    exact hRefused path text problem written hWritten

theorem keepsIfRefused_format (settings : Settings) (input : String) (output? : Option String) (checkOnly : Bool) :
    Step.KeepsIfRefused files (platform.surroundings.format settings input output? checkOnly) := by
  cases checkOnly with
  | true => exact (keeps_format settings input (.inl rfl)).keepsIfRefused files
  | false =>
    cases output? with
    | none => exact (keeps_format settings input (.inr rfl)).keepsIfRefused files
    | some output =>
      refine (looks_readFile input).keeps.bind_keepsIfRefused fun source => ?_
      refine (Step.Looks.ofExcept _).keeps.bind_keepsIfRefused fun model => ?_
      exact keepsIfRefused_writeFile hRefused output (settings.print model)

/-- A command that is refused has written nothing. -/
theorem keepsIfRefused_run (arguments : Arguments) :
    Step.KeepsIfRefused files (platform.surroundings.run arguments) := by
  obtain ⟨command, given?, logLevel⟩ := arguments
  refine (looks_settings given?).keeps.bind_keepsIfRefused fun settings => ?_
  cases command with
  | check input => exact (keeps_check settings input).keepsIfRefused files
  | format input output? checkOnly => exact keepsIfRefused_format hRefused settings input output? checkOnly

end Refusing

theorem keeps_run {arguments : Arguments}
    (h : (∃ input, arguments.command = .check input) ∨
      ∃ input output?, arguments.command = .format input output? true) :
    Step.Keeps (platform.surroundings.run arguments) := by
  obtain ⟨command, given?, logLevel⟩ := arguments
  refine .bind (looks_settings given?).keeps fun settings => ?_
  rcases h with ⟨input, rfl⟩ | ⟨input, output?, rfl⟩
  · exact keeps_check settings input
  · exact keeps_format settings input (.inl rfl)

section Found

variable {given? : Option String} (hSettings : platform.settings files given? = .ok settings) (logLevel : String)
include hSettings

theorem on_settings_of_eq_ok :
    Step.on (platform.surroundings.settings given?) { files } = (.ok settings, { files }) := by
  rw [looks_settings given?, ← hSettings]
  rfl

theorem on_run_check (input : String) :
    Step.on (platform.surroundings.run ⟨.check input, given?, logLevel⟩) { files } =
      Step.on (platform.surroundings.check settings input) { files } := by
  rw [Surroundings.run, Step.on_bind, on_settings_of_eq_ok hSettings]

theorem on_run_format (input : String) (output? : Option String) (checkOnly : Bool) :
    Step.on (platform.surroundings.run ⟨.format input output? checkOnly, given?, logLevel⟩) { files } =
      Step.on (platform.surroundings.format settings input output? checkOnly) { files } := by
  rw [Surroundings.run, Step.on_bind, on_settings_of_eq_ok hSettings]

end Found

end Platform

end DomainAtlas.CommandLine

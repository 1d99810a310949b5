import BrewvaSkills.Locations

/-!
# The settings loader

`load_skill_settings` reads the `skills` object of at most two JSON files, the global one and then
the project's (or only the file given by `--config`), and takes from each the fields `packs`,
`roots` and `disabled` that it holds. A file that is missing, is not JSON, or is not an object,
is skipped, as is one whose `skills` is not an object.

The fields are not all replaced alike. A `roots` that is not a list clears the roots. A `packs` or
`disabled` that is not a list goes through `normalize_string_array` with the value so far as its
fallback, and so keeps the value that the earlier file or the default gave. `settingsFrom_spec`
states the result field by field: each is read from the last file that gives it (a list, for
`packs` and `disabled`). Every file keeps the settings `Normal`: the names stripped and not blank,
and the roots resolved, whatever the files hold.

`json.loads` is a parameter: the decoder is not this script's.
-/

namespace BrewvaSkills

/-- A JSON document as `json.loads` returns it. -/
inductive JsonValue where
  | null
  | bool (b : Bool)
  | number (text : String)
  | string (s : String)
  | array (items : List JsonValue)
  | object (fields : Dict String JsonValue)
  deriving Repr

/-- `DEFAULT_PACKS`. -/
def defaultPacks : List String := ["typescript", "react", "bun", "skill-creator"]

/-- `read_json_file(path)`: the object in the file, or `none` when the file is missing, does not
decode, or holds something else. -/
def readJsonFile (fs : FsView) (jsonLoads : String → Option JsonValue) (path : PosixPath) :
    Option (Dict String JsonValue) :=
  if !fs.pathExists path then none
  else match (fs.readText path).bind jsonLoads with
    | some (.object fields) => some fields
    | _ => none

/-- The stripped, non-empty strings of a list, in order. -/
def stringItems (items : List JsonValue) : List String :=
  items.filterMap fun
    | .string s => if pyStrip s = "" then none else some (pyStrip s)
    | _ => none

/-- `normalize_string_array(value, fallback)`. -/
def normalizeStringArray (value : JsonValue) (fallback : List String) : List String :=
  match value with
  | .array items => stringItems items
  | _ => fallback

/-- The three settings that `load_skill_settings` returns besides the files it read. -/
structure SkillSettings where
  /-- `packs`. -/
  packs : List String
  /-- `configured_roots`. -/
  roots : List PosixPath
  /-- `disabled`. -/
  disabled : List String
  deriving DecidableEq, Repr

/-- The settings before any file is read. -/
def SkillSettings.initial : SkillSettings := ⟨defaultPacks, [], []⟩

/-- The `skills` object of a file that `load_skill_settings` does not skip. -/
def skillsOf : Option (Dict String JsonValue) → Option (Dict String JsonValue)
  | some loaded =>
    if loaded.items.isEmpty then none
    else match loaded.get "skills" with
      | some (.object skills) => some skills
      | _ => none
  | none => none

/-- The roots listed in a `roots` value, each resolved from the directory of its file. -/
def configuredRoots (fs : FsView) (home : PosixPath) (cfgPath : PosixPath) :
    JsonValue → List PosixPath
  | .array entries => entries.filterMap fun
    | .string entry =>
      if pyStrip entry = "" then none
      else some (resolveMaybeAbsolute fs home (pyStrip entry) cfgPath.parent)
    | _ => none
  | _ => []

/-- One iteration of the loop of `load_skill_settings`, over a file and what it read as. -/
def applyConfigFile (fs : FsView) (home : PosixPath) (s : SkillSettings)
    (file : PosixPath × Option (Dict String JsonValue)) : SkillSettings :=
  match skillsOf file.2 with
  | none => s
  | some skills =>
    let packs := match skills.get "packs" with
      | some v => normalizeStringArray v s.packs
      | none => s.packs
    let roots := match skills.get "roots" with
      | some v => configuredRoots fs home file.1 v
      | none => s.roots
    let disabled := match skills.get "disabled" with
      | some v => normalizeStringArray v s.disabled
      | none => s.disabled
    ⟨packs, roots, disabled⟩

/-- The loop of `load_skill_settings`, over the files and what each read as. -/
def settingsFrom (fs : FsView) (home : PosixPath)
    (files : List (PosixPath × Option (Dict String JsonValue))) : SkillSettings :=
  files.foldl (applyConfigFile fs home) .initial

/-- The config files of `load_skill_settings`: the one given, else the global and the project
`brewva.json`. -/
def configFiles (fs : FsView) (env : Env) (cwd : PosixPath) (configPath : Option String) :
    List PosixPath :=
  match configPath with
  | some path => if path ≠ "" then [resolveMaybeAbsolute fs env.home path cwd]
    else [(resolveGlobalBrewvaRoot fs env cwd).div "brewva.json",
      (resolveProjectBrewvaRoot fs cwd).div "brewva.json"]
  | none => [(resolveGlobalBrewvaRoot fs env cwd).div "brewva.json",
      (resolveProjectBrewvaRoot fs cwd).div "brewva.json"]

/-- `load_skill_settings(cwd, config_path)`. -/
def loadSkillSettings (fs : FsView) (jsonLoads : String → Option JsonValue) (env : Env)
    (cwd : PosixPath) (configPath : Option String) : SkillSettings × List PosixPath :=
  let files := configFiles fs env cwd configPath
  (settingsFrom fs env.home (files.map fun p => (p, readJsonFile fs jsonLoads p)), files)

/-! ## Each field comes from the last file that gives it -/

/-- What a file gives for `packs`: the strings of its list, when its `skills.packs` is a list. -/
def packsOf (file : PosixPath × Option (Dict String JsonValue)) : Option (List String) :=
  match (skillsOf file.2).bind (·.get "packs") with
  | some (.array items) => some (stringItems items)
  | _ => none

/-- What a file gives for `disabled`: the strings of its list, when its `skills.disabled` is a
list. -/
def disabledOf (file : PosixPath × Option (Dict String JsonValue)) : Option (List String) :=
  match (skillsOf file.2).bind (·.get "disabled") with
  | some (.array items) => some (stringItems items)
  | _ => none

/-- What a file gives for `roots`: its list of roots, or none when its `skills.roots` is not a
list, whenever its `skills` holds `roots`. -/
def rootsOf (fs : FsView) (home : PosixPath) (file : PosixPath × Option (Dict String JsonValue)) :
    Option (List PosixPath) :=
  ((skillsOf file.2).bind (·.get "roots")).map (configuredRoots fs home file.1)

/-- A fold whose every step either sets a field to what the element gives or leaves it ends with
what the last element that gives a value gave. -/
theorem foldl_eq_getLast?_filterMap {σ ι X : Type} (step : σ → ι → σ) (π : σ → X)
    (c : ι → Option X) (h : ∀ s i, π (step s i) = (c i).getD (π s)) (files : List ι) (s : σ) :
    π (files.foldl step s) = ((files.filterMap c).getLast?).getD (π s) := by
  induction files generalizing s with
  | nil => rfl
  | cons i files ih =>
    rw [List.foldl_cons, ih, h, List.filterMap_cons]
    cases c i <;> simp [List.getLast?_cons]

/-- A settings file sets `packs` when it has the field, and leaves it otherwise. -/
theorem applyConfigFile_packs (fs : FsView) (home : PosixPath) (s : SkillSettings)
    (file : PosixPath × Option (Dict String JsonValue)) :
    (applyConfigFile fs home s file).packs = (packsOf file).getD s.packs := by
  unfold applyConfigFile packsOf
  rcases skillsOf file.2 with _ | skills
  · rfl
  · cases h : skills.get "packs" with
    | none => simp [h]
    | some v => cases v <;> simp [h, normalizeStringArray]

/-- A settings file sets `disabled` when it has the field, and leaves it otherwise. -/
theorem applyConfigFile_disabled (fs : FsView) (home : PosixPath) (s : SkillSettings)
    (file : PosixPath × Option (Dict String JsonValue)) :
    (applyConfigFile fs home s file).disabled = (disabledOf file).getD s.disabled := by
  unfold applyConfigFile disabledOf
  rcases skillsOf file.2 with _ | skills
  · rfl
  · cases h : skills.get "disabled" with
    | none => simp [h]
    | some v => cases v <;> simp [h, normalizeStringArray]

/-- A settings file sets `roots` when it has the field, and leaves it otherwise. -/
theorem applyConfigFile_roots (fs : FsView) (home : PosixPath) (s : SkillSettings)
    (file : PosixPath × Option (Dict String JsonValue)) :
    (applyConfigFile fs home s file).roots = (rootsOf fs home file).getD s.roots := by
  unfold applyConfigFile rootsOf
  rcases skillsOf file.2 with _ | skills
  · rfl
  · cases h : skills.get "roots" <;> simp [h]

/-- `load_skill_settings` field by field: `packs` and `disabled` are those of the last file
whose `skills` gives them as a list, else the defaults, and `roots` is that of the last file
whose `skills` holds `roots` at all, else empty. -/
theorem loadSkillSettings_fields (fs : FsView) (jsonLoads : String → Option JsonValue)
    (env : Env) (cwd : PosixPath) (configPath : Option String) :
    let files := (configFiles fs env cwd configPath).map fun p => (p, readJsonFile fs jsonLoads p)
    let s := (loadSkillSettings fs jsonLoads env cwd configPath).1
    s.packs = ((files.filterMap packsOf).getLast?).getD defaultPacks ∧
      s.roots = ((files.filterMap (rootsOf fs env.home)).getLast?).getD [] ∧
      s.disabled = ((files.filterMap disabledOf).getLast?).getD [] :=
  ⟨foldl_eq_getLast?_filterMap _ SkillSettings.packs _ (applyConfigFile_packs fs env.home) _ _,
    foldl_eq_getLast?_filterMap _ SkillSettings.roots _ (applyConfigFile_roots fs env.home) _ _,
    foldl_eq_getLast?_filterMap _ SkillSettings.disabled _ (applyConfigFile_disabled fs env.home)
      _ _⟩

/-- The project file is the same in both runs, and it is the last to hold `packs`, yet `packs`
differs: a `packs` that is not a list keeps what the global file gave. -/
theorem settingsFrom_packs_read_from_earlier_file :
    let project : Option (Dict String JsonValue) :=
      some ⟨[("skills", .object ⟨[("packs", .string "x")]⟩)]⟩
    let global (pack : String) : Option (Dict String JsonValue) :=
      some ⟨[("skills", .object ⟨[("packs", .array [.string pack])]⟩)]⟩
    (settingsFrom Tree.empty.view [] [(["g"], global "a"), (["p"], project)]).packs = ["a"] ∧
      (settingsFrom Tree.empty.view [] [(["g"], global "b"), (["p"], project)]).packs =
        ["b"] := by
  decide

/-! ## The settings are normal -/

/-- The form in which the loader keeps its settings: every pack and every disabled name stripped
and not blank, and every configured root resolved. -/
structure SkillSettings.Normal (fs : FsView) (s : SkillSettings) : Prop where
  /-- The packs are stripped names. -/
  packs : ∀ n ∈ s.packs, n ≠ "" ∧ pyStrip n = n
  /-- The roots are resolved. -/
  roots : ∀ r ∈ s.roots, fs.resolve r = r
  /-- The disabled names are stripped names. -/
  disabled : ∀ n ∈ s.disabled, n ≠ "" ∧ pyStrip n = n

/-- `normalize_string_array` keeps the strings it strips only when they are not blank. -/
theorem stripped_of_mem_stringItems {items : List JsonValue} {n : String} (h : n ∈ stringItems items) :
    n ≠ "" ∧ pyStrip n = n := by
  obtain ⟨v, -, hv⟩ := List.mem_filterMap.mp h
  cases v <;> simp only [reduceCtorEq] at hv
  case string t =>
    split at hv
    · cases hv
    · cases hv; exact ⟨‹_›, pyStrip_pyStrip t⟩

/-- A configured root is resolved. -/
theorem resolve_of_mem_configuredRoots {fs : FsView} {home cfgPath r : PosixPath} {v : JsonValue}
    (h : r ∈ configuredRoots fs home cfgPath v) : fs.resolve r = r := by
  unfold configuredRoots at h
  split at h
  · obtain ⟨e, -, he⟩ := List.mem_filterMap.mp h
    split at he
    · split at he
      · cases he
      · cases he
        dsimp only [resolveMaybeAbsolute]
        split <;> exact fs.resolve_resolve _
    · cases he
  · cases h

/-- The defaults are normal. -/
theorem SkillSettings.normal_initial (fs : FsView) : SkillSettings.initial.Normal fs :=
  ⟨by decide, by simp [initial], by simp [initial]⟩

/-- Every settings file keeps the settings normal. -/
theorem SkillSettings.Normal.applyConfigFile {fs : FsView} {s : SkillSettings} (hs : s.Normal fs)
    (home : PosixPath) (file : PosixPath × Option (Dict String JsonValue)) :
    (BrewvaSkills.applyConfigFile fs home s file).Normal fs where
  packs n hn := by
    rw [applyConfigFile_packs] at hn
    unfold packsOf at hn
    split at hn
    · exact stripped_of_mem_stringItems hn
    · exact hs.packs n hn
  roots r hr := by
    rw [applyConfigFile_roots] at hr
    cases hroots : rootsOf fs home file <;> rw [hroots] at hr
    · exact hs.roots r hr
    · obtain ⟨v, -, rfl⟩ := Option.map_eq_some'.mp hroots
      exact resolve_of_mem_configuredRoots hr
  disabled n hn := by
    rw [applyConfigFile_disabled] at hn
    unfold disabledOf at hn
    split at hn
    · exact stripped_of_mem_stringItems hn
    · exact hs.disabled n hn

/-- The loop over the settings files keeps the settings normal. -/
theorem settingsFrom_normal (fs : FsView) (home : PosixPath)
    (files : List (PosixPath × Option (Dict String JsonValue))) : (settingsFrom fs home files).Normal fs := by
  unfold settingsFrom
  suffices ∀ s : SkillSettings, s.Normal fs → (files.foldl (applyConfigFile fs home) s).Normal fs from
    this _ (SkillSettings.normal_initial fs)
  induction files with
  | nil => exact fun _ hs => hs
  | cons file files ih => exact fun s hs => ih _ (hs.applyConfigFile home file)

/-- Whatever the settings files hold, `load_skill_settings` returns stripped, non-blank pack and
disabled names, and resolved roots. -/
theorem loadSkillSettings_normal (fs : FsView) (jsonLoads : String → Option JsonValue) (env : Env)
    (cwd : PosixPath) (configPath : Option String) :
    (loadSkillSettings fs jsonLoads env cwd configPath).1.Normal fs :=
  settingsFrom_normal fs env.home _

end BrewvaSkills

import BrewvaSkills.Source
import BrewvaSkills.TreeCalls

/-!
# The destination

`resolve_destination_skill_root` picks the skill directory to fork into. Without `--path` it takes
`.brewva/skills` of the project when the project's `.brewva` exists, and the global root's
`skills` otherwise. With `--path` it takes the skill directory that `resolve_skill_directory`
finds there, or appends `skills` unless the path already ends in `skills`. `main` then forks into
the directory named after the skill in the destination tier's directory.

Discovery registers the project's `.brewva` and the global root themselves and looks for tier
directories there before it looks in their `skills`, so the default branches miss a root that
keeps its tier directories at the top: `flatProject_default_destination_not_scanned`. `main` does
not check the skill name, so a name such as `..` leaves the tier directory:
`dotDotName_destination_is_root`; `destinationSkillDir_of_relative_names` is the case of a name
made of names.
-/

namespace BrewvaSkills

/-- How `resolve_destination_skill_root` chose the skill directory. -/
inductive DestinationMode where
  | projectDefault
  | globalDefault
  | explicitExisting
  | explicitBrewvaRoot
  | explicitSkillsRoot
  | explicitGeneric
  deriving DecidableEq, Repr

/-- `resolve_destination_skill_root(path_arg, cwd)`; a missing or empty `--path` takes the
default branch. -/
def resolveDestinationSkillRoot (fs : FsView) (env : Env) (pathArg : Option String)
    (cwd : PosixPath) : PosixPath × DestinationMode :=
  match pathArg.filter (· != "") with
  | none =>
    let projectRoot := resolveProjectBrewvaRoot fs cwd
    if fs.isDir projectRoot then (fs.resolve (projectRoot.div "skills"), .projectDefault)
    else (fs.resolve ((resolveGlobalBrewvaRoot fs env cwd).div "skills"), .globalDefault)
  | some pathArg =>
    let explicit := resolveMaybeAbsolute fs env.home pathArg cwd
    match resolveSkillDirectory fs explicit with
    | some resolved => (fs.resolve resolved, .explicitExisting)
    | none =>
      if explicit.name = ".brewva" then (fs.resolve (explicit.div "skills"), .explicitBrewvaRoot)
      else if explicit.name = "skills" then (fs.resolve explicit, .explicitSkillsRoot)
      else (fs.resolve (explicit.div "skills"), .explicitGeneric)

/-- `destination_skill_dir` of `main`: the directory named `skillName` in the tier's directory. -/
def destinationSkillDir (fs : FsView) (destinationSkillRoot : PosixPath) (destinationTier : Tier)
    (skillName : String) : PosixPath :=
  fs.resolve ((destinationSkillRoot.div destinationTier.dirName).div skillName)

/-- A project whose `.brewva` holds a base tier itself, with a skill `other` in it. -/
def flatProjectTree : Tree :=
  ⟨⟨[(["p"], .dir), (["p", ".brewva"], .dir), (["p", ".brewva", "base"], .dir),
    (["p", ".brewva", "base", "other"], .dir),
    (["p", ".brewva", "base", "other", "SKILL.md"], .file "")]⟩, by decide⟩

/-- Without `--path`, the fork goes to `.brewva/skills`; once `foo` is written there, discovery
still takes `.brewva` itself for the project's skill directory. -/
theorem flatProject_default_destination_not_scanned :
    resolveDestinationSkillRoot flatProjectTree.view plainEnv none ["p"] =
        (["p", ".brewva", "skills"], .projectDefault) ∧
      ((flatProjectTree.makedirs ["p", ".brewva", "skills", "base", "foo"]).bind fun t =>
          t.writeText ["p", ".brewva", "skills", "base", "foo", "SKILL.md"] "").map (fun t =>
        resolveSkillDirectory t.view (resolveProjectBrewvaRoot t.view ["p"])) =
        some (some ["p", ".brewva"]) := by
  decide

/-! ## The skill name -/

/-- On a filesystem without symbolic links, a relative skill name with no `..` part gives the
tier's directory followed by the parts of the name: a destination strictly below the tier's
directory as soon as the name has a part. -/
theorem destinationSkillDir_of_relative_names (t : Tree) (destinationSkillRoot : PosixPath)
    (destinationTier : Tier) (skillName : String) (habs : isAbsoluteText skillName = false)
    (hdots : ".." ∉ pathNames skillName) :
    destinationSkillDir t.view destinationSkillRoot destinationTier skillName =
      lexicalResolve (destinationSkillRoot.div destinationTier.dirName) ++ pathNames skillName := by
  have hnames : ∀ c ∈ pathNames skillName, IsName c :=
    fun c hc => ⟨isPart_of_mem_pathNames hc, fun h => hdots (h ▸ hc)⟩
  simp only [destinationSkillDir, Tree.view, PosixPath.div, habs, Bool.false_eq_true, if_false]
  exact lexicalResolve_append_of_isName _ hnames

/-- The name `foo` forks into `foo` below the tier's directory. -/
theorem destinationSkillDir_of_relative_names_foo :
    destinationSkillDir flatProjectTree.view ["r"] .base "foo" =
      lexicalResolve (PosixPath.div ["r"] Tier.base.dirName) ++ pathNames "foo" :=
  destinationSkillDir_of_relative_names _ _ _ "foo" (by decide) (by decide)

/-- A root `/r` whose base tier holds a skill that declares the name `..`. -/
def dotDotTree : Tree :=
  ⟨⟨[(["r"], .dir), (["r", "base"], .dir), (["r", "base", "x"], .dir),
    (["r", "base", "x", "SKILL.md"], .file "---\nname: ..\n---\n")]⟩, by decide⟩

/-- A YAML loader that reads `name: ..` as the mapping that declares that name. -/
def dotDotLoad (text : String) : Except LoadError Yaml :=
  if text = "name: .." then .ok (.map none ⟨[("name", .str "..")]⟩) else .error .yamlError

/-- `--from /r/base/x --path /r` accepts the name `..`, and the destination is the root `/r`
itself, which `--force` removes. -/
theorem dotDotName_destination_is_root :
    (resolveExplicitSource dotDotTree.view plainEnv dotDotLoad ".." "/r/base/x" ["r"]).toOption.map
        (·.name) = some ".." ∧
      resolveDestinationSkillRoot dotDotTree.view plainEnv (some "/r") ["r"] =
        (["r"], .explicitExisting) ∧
      destinationSkillDir dotDotTree.view ["r"] .base ".." = ["r"] := by
  decide

end BrewvaSkills

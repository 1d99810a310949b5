import BrewvaSkills.Registry
import BrewvaSkills.Settings

/-!
# Explicit sources

`resolve_explicit_source` reads the skill that `--from` names: a `SKILL.md` or the directory that
holds one. It checks that the file exists and is named `SKILL.md`, reads its name as
`load_tier_entries` does, and refuses a name other than the requested one. It has no root to go
by, so it reads the tier off the name of the directory two levels above the file, and takes
`pack` when that name is not a tier directory's.

`resolveExplicitSource_of_scanned` compares the two ways to a source. For a `SKILL.md` that
`load_registry` scans, at a path that resolves to itself, `--from` with that path succeeds with
the entry's name, file and directory; its tier is the one read off the grandparent's name. A
header that `yaml.safe_load` fails on with another exception than a `yaml.YAMLError` gives no
entry, and makes `--from` raise that exception.
`nestedBaseSkill_explicit_tier_differs` is a base skill one directory deeper, which `--from`
takes for a pack skill.
-/

namespace BrewvaSkills

/-- The tier that `resolve_explicit_source` reads off the name of the directory two levels above
the `SKILL.md`. -/
def inferredTier (parentTier : String) : Tier :=
  if parentTier = "base" then .base
  else if parentTier = "packs" then .pack
  else if parentTier = "project" then .project
  else .pack

/-- The name of a tier's directory gives the tier back. -/
@[simp] theorem inferredTier_dirName (t : Tier) : inferredTier t.dirName = t := by
  cases t <;> rfl

/-- `resolve_explicit_source(skill_name, source_path, cwd)`. -/
def resolveExplicitSource (fs : FsView) (env : Env) (safeLoad : String → Except LoadError Yaml)
    (skillName sourcePath : String) (cwd : PosixPath) : Except Raised SkillEntry :=
  let candidate := resolveMaybeAbsolute fs env.home sourcePath cwd
  let skillMd := if fs.isDir candidate then candidate.div "SKILL.md" else candidate
  if !fs.isFile skillMd then
    .error (.runtimeError ("Source path does not contain SKILL.md: " ++ candidate.toStr))
  else if skillMd.name ≠ "SKILL.md" then
    .error (.runtimeError
      ("Source path must point to SKILL.md or its directory: " ++ candidate.toStr))
  else
    let tier := inferredTier skillMd.parent.parent.name
    match fs.readText skillMd with
    | none => .error .other
    | some raw =>
      match parseFrontmatter safeLoad raw with
      | .error e => .error (.loadError e)
      | .ok (frontmatter, _) =>
        let resolvedName := BrewvaSkills.skillName frontmatter skillMd.parent.name
        if resolvedName ≠ skillName then
          .error (.runtimeError ("Requested skill \x27" ++ skillName ++ "\x27 but source declares \x27" ++
            resolvedName ++ "\x27 (" ++ skillMd.toStr ++ ")"))
        else
          .ok ⟨resolvedName, tier, fs.resolve skillMd, fs.resolve skillMd.parent,
            ⟨skillMd.parent.parent, skillMd.parent.parent, .explicit⟩⟩

/-- On a tree, the entry that `resolve_explicit_source` returns is of the requested name and on
disk. -/
theorem resolveExplicitSource_onDisk {t : Tree} {env : Env} {safeLoad : String → Except LoadError Yaml}
    {skillName sourcePath : String} {cwd : PosixPath} {e : SkillEntry}
    (h : resolveExplicitSource t.view env safeLoad skillName sourcePath cwd = .ok e) :
    e.name = skillName ∧ e.OnDisk t := by
  unfold resolveExplicitSource at h
  dsimp only at h
  generalize (if t.view.isDir (resolveMaybeAbsolute t.view env.home sourcePath cwd) then
    (resolveMaybeAbsolute t.view env.home sourcePath cwd).div "SKILL.md"
    else resolveMaybeAbsolute t.view env.home sourcePath cwd) = skillMd at h
  split_ifs at h with hfile hname
  split at h
  · cases h
  split at h
  · cases h
  split_ifs at h with hres
  cases h
  exact ⟨by simpa using hres, onDisk_of_isFile
    (PosixPath.getLast?_of_name (by decide) (not_not.mp hname)) (by simpa using hfile) _ _ _⟩

/-- A project whose base tier holds `skill` one directory deeper, in `group`. -/
def nestedTree : Tree :=
  ⟨⟨[(["p"], .dir), (["p", ".brewva"], .dir), (["p", ".brewva", "skills"], .dir),
    (["p", ".brewva", "skills", "base"], .dir), (["p", ".brewva", "skills", "base", "group"], .dir),
    (["p", ".brewva", "skills", "base", "group", "skill"], .dir),
    (["p", ".brewva", "skills", "base", "group", "skill", "SKILL.md"], .file "")]⟩, by decide⟩

/-- No variable set. -/
def plainEnv : Env := ⟨fun _ => "", ["root"]⟩

/-- The registry loads `skill` from the project's base tier; `--from` with its file reads it as a
pack skill. -/
theorem nestedBaseSkill_explicit_tier_differs :
    let roots := discoverSkillRoots nestedTree.view plainEnv ["p"] ["opt", "fork_skill.py"]
      ["usr", "bin", "python"] []
    (loadRegistry nestedTree.view (fun _ => .error .yamlError) roots defaultPacks).map
        (fun result => result.2.map fun e => (e.name, e.tier, e.filePath)) =
      some [("skill", .base, ["p", ".brewva", "skills", "base", "group", "skill", "SKILL.md"])] ∧
      (resolveExplicitSource nestedTree.view plainEnv (fun _ => .error .yamlError) "skill"
        "/p/.brewva/skills/base/group/skill/SKILL.md" ["p"]).toOption.map (·.tier) = some .pack := by
  decide

/-- A `SKILL.md` that `load_registry` scans into an entry and that resolves to itself, given to
`--from` under the name of its entry: `resolve_explicit_source` returns the entry's name, file and
directory, with the tier read off the name of the file's grandparent. -/
theorem resolveExplicitSource_of_scanned (fs : FsView) (env : Env)
    (safeLoad : String → Except LoadError Yaml) (tierDir : PosixPath) (tier : Tier)
    (root : SkillRoot) (cwd f : PosixPath) (raw : String) (e : SkillEntry)
    (hf : f ∈ fs.rglob tierDir "SKILL.md") (hraw : fs.readText f = some raw)
    (hres : fs.resolve f = f) (he : tierEntry fs safeLoad tier root f raw = some e) :
    resolveExplicitSource fs env safeLoad e.name f.toStr cwd =
      .ok ⟨e.name, inferredTier f.parent.parent.name, e.filePath, e.baseDir,
        ⟨f.parent.parent, f.parent.parent, .explicit⟩⟩ := by
  obtain ⟨r, rfl, hlast, -⟩ := fs.rglob_spec _ _ _ hf
  obtain ⟨p, hp⟩ : ∃ p, tierDir ++ r = p ++ ["SKILL.md"] :=
    List.getLast?_eq_some_iff.mp (by simp [List.getLast?_append, hlast])
  rw [hp] at hres hraw he ⊢
  unfold tierEntry at he
  split at he
  next frontmatter body hparse =>
    cases he
    have hcand : resolveMaybeAbsolute fs env.home (p ++ ["SKILL.md"]).toStr cwd = p ++ ["SKILL.md"] := by
      rw [resolveMaybeAbsolute_toStr fs _ _ _ (by decide), hres]
      exact fun x hx => (fs.isName_of_mem_resolve _ x (hres ▸ hx)).1
    have hfile := fs.isFile_of_readText _ _ hraw
    simp [resolveExplicitSource, hcand, fs.isDir_eq_false_of_isFile _ hfile, hfile,
      PosixPath.name, hraw, hparse]
  · cases he

/-- The comparison at the nested base skill: `--from` keeps its name, file and directory, and
reads `group` as a tier. -/
theorem resolveExplicitSource_of_scanned_nested :
    let f : PosixPath := ["p", ".brewva", "skills", "base", "group", "skill", "SKILL.md"]
    let e : SkillEntry := ⟨"skill", .base, f, ["p", ".brewva", "skills", "base", "group", "skill"],
      ⟨["p", ".brewva"], ["p", ".brewva", "skills"], .projectRoot⟩⟩
    tierEntry nestedTree.view (fun _ => .error .yamlError) .base e.root f "" = some e ∧
    resolveExplicitSource nestedTree.view plainEnv (fun _ => .error .yamlError) e.name f.toStr ["p"] =
      .ok ⟨e.name, inferredTier f.parent.parent.name, e.filePath, e.baseDir,
        ⟨f.parent.parent, f.parent.parent, .explicit⟩⟩ :=
  ⟨by decide, resolveExplicitSource_of_scanned _ _ _ ["p", ".brewva", "skills", "base"] .base
    ⟨["p", ".brewva"], ["p", ".brewva", "skills"], .projectRoot⟩ _ _ "" _
    (by decide) (by decide) (by decide) (by decide)⟩

end BrewvaSkills

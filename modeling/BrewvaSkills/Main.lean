import BrewvaSkills.Fork
import BrewvaSkills.Metadata

/-!
# `main`

`main` strips the requested name, loads the settings, discovers the roots and loads the registry.
It takes the source from `--from` or from the registry, and the destination from `--path` and the
tier, and refuses an existing destination without `--force`. After the copy phase it checks the
copied `SKILL.md`, injects the fork metadata unless `--no-metadata`, runs the validator, and runs
discovery and the registry again to see whether the fork is the effective skill: exit code 2 when
it is not and `--allow-inactive` is not given. `main` catches only a `RuntimeError` of
`resolve_explicit_source` and any exception of the copy and of `inject_fork_metadata`: an exception
of `yaml.safe_load` in `load_registry`, before the copy or after it, leaves `main`.

What `main` prints is left out; its exit code, or the exception that leaves it, and the tree it
leaves are kept. `planFork` is `main` up to `destination_skill_dir`, where it has not yet touched
the filesystem. `main_cases` says once what a run can do, and `afterCopy_cases` what the checks
after the copy can do; `BrewvaSkills.Runs` derives what whole runs do from them.
-/

namespace BrewvaSkills

/-- The command line as `build_parser` parses it; `--verbose` only prints, and is left out. -/
structure Args where
  /-- `skill_name`. -/
  skillName : String
  /-- `--from`. -/
  sourcePath : Option String
  /-- `--path`. -/
  targetPath : Option String
  /-- `--tier`. -/
  tier : Option Tier
  /-- `--config`. -/
  configPath : Option String
  /-- `--force`. -/
  force : Bool
  /-- `--dry-run`. -/
  dryRun : Bool
  /-- `--no-metadata`. -/
  noMetadata : Bool
  /-- `--allow-inactive`. -/
  allowInactive : Bool

/-- What `main` reads of its process and of the libraries it calls, besides its arguments and the
filesystem. -/
structure Process where
  /-- The environment variables and the home directory. -/
  env : Env
  /-- `Path.cwd()`. -/
  cwd : PosixPath
  /-- `__file__`. -/
  moduleFile : PosixPath
  /-- `sys.executable`. -/
  executable : PosixPath
  /-- The directory that `tempfile.mkdtemp` names. -/
  stagingDir : PosixPath
  /-- The time of the fork, as `inject_fork_metadata` formats it. -/
  forkedAt : String
  /-- `yaml.safe_load`, with the exception it raises. -/
  safeLoad : String → Except LoadError Yaml
  /-- `yaml.safe_dump(..., sort_keys=False, allow_unicode=False)`. -/
  safeDump : Yaml → String
  /-- `json.loads`, `none` when it raises. -/
  jsonLoads : String → Option JsonValue
  /-- The verdict of `run_validation` on the destination; `quick_validate` is not part of the
  script. -/
  validate : Tree → PosixPath → Bool

/-- How `main` ends: with an exit code, or with an exception it does not catch. -/
inductive Exit where
  | code (n : Nat)
  | raised
  deriving DecidableEq, Repr

/-- `inject_fork_metadata(destination_skill_md, source_entry)`; `none` when it raises. -/
def injectForkMetadata (p : Process) (t : Tree) (destinationSkillMd : PosixPath)
    (sourceEntry : SkillEntry) : Option Tree :=
  (t.view.readText destinationSkillMd).bind fun raw =>
    match injectForkMetadataText p.safeLoad p.safeDump destinationSkillMd raw sourceEntry p.forkedAt
        (p.env.environ "USER") with
    | .ok rebuilt => t.writeText destinationSkillMd rebuilt
    | .error _ => none

/-- The source entry of `main`: from `--from` when it is given, else the effective entry of the
name. -/
def sourceEntryOf (p : Process) (fs : FsView) (loaded : Dict String SkillEntry) (skillName : String)
    (sourcePath : Option String) : Except Exit SkillEntry :=
  match sourcePath.filter (· != "") with
  | some sourcePath =>
    match resolveExplicitSource fs p.env p.safeLoad skillName sourcePath p.cwd with
    | .ok entry => .ok entry
    | .error e => if e.isRuntimeError then .error (.code 1) else .error .raised
  | none =>
    match loaded.get skillName with
    | some entry => .ok entry
    | none => .error (.code 1)

/-- Whether the fork at `dest` is the effective skill of its name once discovery and the registry
run again on the tree, with the disabled names dropped; `none` when the registry raises. -/
def isActive (p : Process) (settings : SkillSettings) (t : Tree) (skillName : String)
    (dest : PosixPath) : Option Bool :=
  let refreshedRoots :=
    discoverSkillRoots t.view p.env p.cwd p.moduleFile p.executable settings.roots
  (loadRegistry t.view p.safeLoad refreshedRoots settings.packs).map fun refreshed =>
    match (settings.disabled.foldl Dict.pop refreshed.1).get skillName with
    | some effective => lexicalResolve effective.baseDir = lexicalResolve dest
    | none => false

/-- What `main` does after the copy: check the copied `SKILL.md`, inject the metadata, validate,
and check that the fork is active. -/
def afterCopy (p : Process) (args : Args) (settings : SkillSettings) (sourceEntry : SkillEntry)
    (skillName : String) (dest : PosixPath) (t : Tree) : Exit × Tree :=
  let destinationSkillMd := dest.div "SKILL.md"
  if !t.view.pathExists destinationSkillMd then (.code 1, t)
  else
    let injected :=
      if args.noMetadata then some t else injectForkMetadata p t destinationSkillMd sourceEntry
    match injected with
    | none => (.code 1, t)
    | some t =>
      if !p.validate t dest then (.code 1, t)
      else
        match isActive p settings t skillName dest with
        | none => (.raised, t)
        | some active => if active || args.allowInactive then (.code 0, t) else (.code 2, t)

/-- What `main` settles before it touches the filesystem. -/
structure ForkPlan where
  /-- The settings. -/
  settings : SkillSettings
  /-- `source_entry`. -/
  sourceEntry : SkillEntry
  /-- `destination_skill_dir`. -/
  dest : PosixPath
  deriving DecidableEq, Repr

/-- `main()` up to `destination_skill_dir`: the stripped name, the settings, the roots and the
registry, the source entry, and the destination; an error when `main` returns or raises there. -/
def planFork (p : Process) (args : Args) (t : Tree) : Except Exit ForkPlan :=
  let skillName := pyStrip args.skillName
  if skillName = "" then .error (.code 1)
  else
    let fs := t.view
    let settings := (loadSkillSettings fs p.jsonLoads p.env p.cwd args.configPath).1
    let roots := discoverSkillRoots fs p.env p.cwd p.moduleFile p.executable settings.roots
    match loadRegistry fs p.safeLoad roots settings.packs with
    | none => .error .raised
    | some (loaded, _) =>
      match sourceEntryOf p fs loaded skillName args.sourcePath with
      | .error e => .error e
      | .ok sourceEntry =>
        let destinationSkillRoot := (resolveDestinationSkillRoot fs p.env args.targetPath p.cwd).1
        let destinationTier := args.tier.getD sourceEntry.tier
        .ok ⟨settings, sourceEntry,
          destinationSkillDir fs destinationSkillRoot destinationTier skillName⟩

/-- `main()` on the arguments `args` and the tree `t`, with the calls of the copy failing as
`faults` says. -/
def main (p : Process) (args : Args) (faults : Faults) (t : Tree) : Exit × Tree :=
  match planFork p args t with
  | .error e => (e, t)
  | .ok plan =>
    if t.view.pathExists plan.dest && !args.force then (.code 1, t)
    else if args.dryRun then (.code 0, t)
    else
      let copied := copyPhase faults args.force plan.sourceEntry.baseDir plan.dest p.stagingDir t
      match copied.outcome with
      | .raised => (.raised, copied.tree)
      | .failed => (.code 1, copied.tree)
      | .copied => afterCopy p args plan.settings plan.sourceEntry (pyStrip args.skillName) plan.dest
          copied.tree

/-! ## What a run can do

The plan, the source entry, the checks after the copy, and `main` itself, each by what it can
return and what it leaves. -/


/-- What a plan is made of: the settings `main` loads, the source entry it finds with the registry
it loads, and the destination it derives from that entry. -/
theorem planFork_eq_ok {p : Process} {args : Args} {t : Tree} {plan : ForkPlan}
    (h : planFork p args t = .ok plan) :
    plan.settings = (loadSkillSettings t.view p.jsonLoads p.env p.cwd args.configPath).1 ∧
      (∃ result, loadRegistry t.view p.safeLoad
          (discoverSkillRoots t.view p.env p.cwd p.moduleFile p.executable plan.settings.roots)
          plan.settings.packs = some result ∧
        sourceEntryOf p t.view result.1 (pyStrip args.skillName) args.sourcePath =
          .ok plan.sourceEntry) ∧
      plan.dest = destinationSkillDir t.view
        (resolveDestinationSkillRoot t.view p.env args.targetPath p.cwd).1
        (args.tier.getD plan.sourceEntry.tier) (pyStrip args.skillName) := by
  unfold planFork at h
  dsimp only at h
  split at h
  · cases h
  · split at h
    · cases h
    · rename_i loaded allEntries hreg
      split at h
      · cases h
      · cases h; exact ⟨rfl, ⟨(loaded, allEntries), hreg, ‹_›⟩, rfl⟩

/-- The destination of a plan is resolved. -/
theorem planFork_dest {p : Process} {args : Args} {t : Tree} {plan : ForkPlan}
    (h : planFork p args t = .ok plan) : lexicalResolve plan.dest = plan.dest := by
  rw [(planFork_eq_ok h).2.2]
  exact lexicalResolve_lexicalResolve _

/-- The source entry that `--from` names, or that a registry loaded from the tree finds, is of
the requested name and on disk. -/
theorem sourceEntryOf_onDisk {p : Process} {t : Tree} {roots : List SkillRoot}
    {packs : List String} {result : Dict String SkillEntry × List SkillEntry}
    (hreg : loadRegistry t.view p.safeLoad roots packs = some result) {skillName : String}
    {sourcePath : Option String} {e : SkillEntry}
    (h : sourceEntryOf p t.view result.1 skillName sourcePath = .ok e) :
    e.name = skillName ∧ e.OnDisk t := by
  unfold sourceEntryOf at h
  split at h
  · split at h
    · cases h; exact resolveExplicitSource_onDisk ‹_›
    · split at h <;> cases h
  · split at h
    · cases h; exact onDisk_of_loadRegistry_get hreg ‹_›
    · cases h

/-- The directory of an entry on disk is a directory at a resolved path. -/
theorem SkillEntry.OnDisk.baseDir_dir {t : Tree} {e : SkillEntry} (he : e.OnDisk t) :
    lexicalResolve e.baseDir = e.baseDir ∧ t.node e.baseDir = some .dir := by
  have hfile : t.node e.filePath ≠ none := fun hn => by simpa [hn, Tree.isFileNode] using he.isFile
  have hpar := t.parent_of_node (by simp [he.filePath_eq]) hfile
  rw [he.filePath_eq, List.dropLast_concat] at hpar
  refine ⟨ lexicalResolve_of_prefix (p := e.filePath) ?_, hpar⟩
  rw [he.resolved, he.filePath_eq]
  exact List.prefix_append _ _

/-- Injecting the metadata writes the destination's `SKILL.md`. -/
theorem injectForkMetadata_eq_some {p : Process} {t t' : Tree} {destinationSkillMd : PosixPath}
    {sourceEntry : SkillEntry} (h : injectForkMetadata p t destinationSkillMd sourceEntry = some t') :
    ∃ text, t.writeText destinationSkillMd text = some t' := by
  unfold injectForkMetadata at h
  obtain ⟨raw, -, h⟩ := Option.bind_eq_some.mp h
  split at h
  · exact ⟨_, h⟩
  · cases h

/-- After the copy, `main` writes at most the destination's `SKILL.md`: over the file there, when
it injects the metadata. Every way out after the copy returns the tree the injection left. -/
theorem afterCopy_tree (p : Process) (args : Args) (settings : SkillSettings)
    (sourceEntry : SkillEntry) (skillName : String) (dest : PosixPath) (t : Tree) :
    (afterCopy p args settings sourceEntry skillName dest t).2 = t ∨
      (args.noMetadata = false ∧ t.view.pathExists (dest.div "SKILL.md") = true ∧
        ∃ text, t.writeText (dest.div "SKILL.md") text =
          some (afterCopy p args settings sourceEntry skillName dest t).2) := by
  unfold afterCopy
  dsimp only
  split
  · exact .inl rfl
  · rename_i hmd
    split
    · exact .inl rfl
    · rename_i t1 h1
      have ht1 : t1 = t ∨ (args.noMetadata = false ∧
          t.view.pathExists (dest.div "SKILL.md") = true ∧
          ∃ text, t.writeText (dest.div "SKILL.md") text = some t1) := by
        split at h1
        · exact .inl (Option.some.inj h1).symm
        · exact .inr ⟨by simpa using ‹¬args.noMetadata = true›, by simpa using hmd,
            injectForkMetadata_eq_some h1⟩
      split
      · exact ht1
      · split
        · exact ht1
        · split <;> exact ht1

/-- The destination's `SKILL.md`, at a resolved destination. -/
theorem lexicalResolve_div_skillMd {dest : PosixPath} (hdest : lexicalResolve dest = dest) :
    lexicalResolve (dest.div "SKILL.md") = dest ++ ["SKILL.md"] := by
  rw [PosixPath.div_of_isPart _ (by decide), lexicalResolve_append_of_isName _ (by decide), hdest]

/-- After the copy, `main` changes no path but the destination's `SKILL.md`, and that one only
when it is there and the metadata is injected. -/
theorem afterCopy_node (p : Process) (args : Args) (settings : SkillSettings)
    (sourceEntry : SkillEntry) (skillName : String) {dest : PosixPath}
    (hdest : lexicalResolve dest = dest) (t : Tree) (x : PosixPath)
    (hx : x ≠ dest ++ ["SKILL.md"] ∨ args.noMetadata = true ∨ t.node x = none) :
    (afterCopy p args settings sourceEntry skillName dest t).2.node x = t.node x := by
  rcases afterCopy_tree p args settings sourceEntry skillName dest t with he | ⟨hnm, hpe, _, hw⟩
  · rw [he]
  · rw [Tree.node_writeText hw, lexicalResolve_div_skillMd hdest, if_neg]
    rintro rfl
    simp only [Tree.view, lexicalResolve_div_skillMd hdest, Option.isSome_iff_ne_none] at hpe
    rcases hx with hx | hx | hx
    · exact hx rfl
    · simp [hx] at hnm
    · exact hpe hx

/-- When `yaml.safe_load` raises nothing but a `yaml.YAMLError`, what follows the copy does not
raise: the fresh registry returns. -/
theorem afterCopy_ne_raised {p : Process}
    (hload : ∀ text e, p.safeLoad text = .error e → e = .yamlError) (args : Args)
    (settings : SkillSettings) (sourceEntry : SkillEntry) (skillName : String) (dest : PosixPath)
    (t : Tree) : (afterCopy p args settings sourceEntry skillName dest t).1 ≠ .raised := by
  have hact : ∀ t', isActive p settings t' skillName dest ≠ none := fun t' => by
    simpa [isActive, Option.isSome_iff_ne_none] using
      loadRegistry_isSome t'.view hload _ settings.packs
  unfold afterCopy
  dsimp only
  split
  · nofun
  · split
    · nofun
    · split
      · nofun
      · split
        · exact absurd ‹_› (hact _)
        · split <;> nofun

/-- What follows the copy keeps the destination's `SKILL.md` a file. -/
theorem afterCopy_isFile (p : Process) (args : Args) (settings : SkillSettings)
    (sourceEntry : SkillEntry) (skillName : String) {dest : PosixPath}
    (hdest : lexicalResolve dest = dest) {t : Tree}
    (h : Tree.isFileNode (t.node (dest ++ ["SKILL.md"])) = true) :
    Tree.isFileNode ((afterCopy p args settings sourceEntry skillName dest t).2.node
      (dest ++ ["SKILL.md"])) = true := by
  rcases afterCopy_tree p args settings sourceEntry skillName dest t with he | ⟨-, -, _, hw⟩
  · rw [he]; exact h
  · rw [Tree.node_writeText hw, lexicalResolve_div_skillMd hdest, if_pos rfl]
    rfl

/-- What follows the copy changes only the destination's subtree. -/
theorem afterCopy_changesOnly (p : Process) (args : Args) (settings : SkillSettings)
    (sourceEntry : SkillEntry) (skillName : String) {dest : PosixPath}
    (hdest : lexicalResolve dest = dest) (t : Tree) :
    Tree.ChangesOnly (dest <+: ·) (fun _ => False) t
      (afterCopy p args settings sourceEntry skillName dest t).2 := fun x hx =>
  .inl (afterCopy_node p args settings sourceEntry skillName hdest t x
    (.inl fun he => hx (he ▸ List.prefix_append _ _)))

/-- What a run of `main` can do: stop before the copy with the tree as it was, or, when neither
the existing destination nor `--dry-run` stops it, run the copy phase and stop there or go on with
what follows the copy. -/
theorem main_cases (p : Process) (args : Args) (faults : Faults) (t : Tree) :
    (∃ e, planFork p args t = .error e ∧ main p args faults t = (e, t)) ∨
    ∃ plan, planFork p args t = .ok plan ∧
      ((t.view.pathExists plan.dest && !args.force) = true ∧ main p args faults t = (.code 1, t) ∨
        (t.view.pathExists plan.dest && !args.force) = false ∧ args.dryRun = true ∧
          main p args faults t = (.code 0, t) ∨
        ∃ copied, (t.view.pathExists plan.dest && !args.force) = false ∧ args.dryRun = false ∧
          copyPhase faults args.force plan.sourceEntry.baseDir plan.dest p.stagingDir t = copied ∧
          (copied.outcome = .raised ∧ main p args faults t = (.raised, copied.tree) ∨
            copied.outcome = .failed ∧ main p args faults t = (.code 1, copied.tree) ∨
            copied.outcome = .copied ∧ main p args faults t = afterCopy p args plan.settings
              plan.sourceEntry (pyStrip args.skillName) plan.dest copied.tree)) := by
  generalize hm : main p args faults t = m
  unfold main at hm
  split at hm
  · exact .inl ⟨_, ‹_›, hm.symm⟩
  · rename_i plan hplan
    refine .inr ⟨plan, hplan, ?_⟩
    split at hm
    · exact .inl ⟨‹_›, hm.symm⟩
    · rename_i hex
      split at hm
      · exact .inr (.inl ⟨by simpa using hex, ‹_›, hm.symm⟩)
      · refine .inr (.inr ⟨_, by simpa using hex, by simpa using ‹¬args.dryRun = true›, rfl, ?_⟩)
        dsimp only at hm
        split at hm
        · exact .inl ⟨‹_›, hm.symm⟩
        · exact .inr (.inl ⟨‹_›, hm.symm⟩)
        · exact .inr (.inr ⟨‹_›, hm.symm⟩)

end BrewvaSkills

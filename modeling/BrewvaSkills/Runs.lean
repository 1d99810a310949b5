import BrewvaSkills.Main

/-!
# Runs of `main`

The source `main` forks is always a `SKILL.md` of the requested name that is a file of the tree, in
the skill's directory (`planFork_sourceEntry`). Whatever its arguments and however the calls of the
copy fail, a run of `main` changes only the destination's subtree, the missing directories on the
way to it, and the staging directory's subtree, and a run that stops before its destination changes
nothing (`main_changesOnly`); without `--force`, nothing that is there changes
(`main_keeps_existing`). A run that completes the fork from a source that is not strictly above
the destination leaves the abstract fork of the source onto the destination, its `SKILL.md` apart
when the metadata is injected, and the staging directory apart when its cleanup fails
(`main_refines_fork`). When no call fails for a reason outside the tree and `yaml.safe_load`
raises only `yaml.YAMLError`, a fork onto a missing destination is written (`main_writes_fork`).

Failures: the staging directory is gone after every run onto the source itself that does not
raise, unless its cleanup fails, whose errors the code ignores (`main_removes_staging`); a copy into
an existing destination that fails is not rolled back, and leaves at most part of the copy there
(`main_copyFault_loses_destination`).

`forkPackIntoOwnRoot_removes_source` and `stageCopyFault_leaves_staging` are two runs at inputs
where the copy phase goes wrong. The sample process, arguments, trees and plans below are their
inputs and those of the witnesses.
-/

namespace BrewvaSkills

/-- A process in `/p`, with no settings files that decode, headers that do not load, and a
validator that accepts. -/
def sampleProcess : Process :=
  ⟨plainEnv, ["p"], ["opt", "fork_skill.py"], ["usr", "bin", "python"], ["tmp", "stage"], "t",
    fun _ => .error .yamlError, fun _ => "", fun _ => none, fun _ _ => true⟩

/-- `fork_skill.py foo --force`: only the name and `--force`. -/
def forceFork (skillName : String) : Args :=
  ⟨skillName, none, none, none, none, true, false, false, false⟩

/-- `fork_skill.py foo --tier project --no-metadata`. -/
def projectFork : Args :=
  ⟨"foo", none, none, some .project, none, false, false, true, false⟩

/-- A project with a base skill `foo`, and a `/tmp` for the staging directory. -/
def baseTree : Tree :=
  ⟨⟨[(["p"], .dir), (["p", ".brewva"], .dir), (["p", ".brewva", "skills"], .dir),
    (["p", ".brewva", "skills", "base"], .dir), (["p", ".brewva", "skills", "base", "foo"], .dir),
    (["p", ".brewva", "skills", "base", "foo", "SKILL.md"], .file ""), (["tmp"], .dir)]⟩, by decide⟩

/-- The directory of the base skill `foo` of `baseTree`. -/
def baseFoo : PosixPath := ["p", ".brewva", "skills", "base", "foo"]

/-- The plan of `fork_skill.py foo --force` on `baseTree`: `foo` onto itself. -/
def forceFooPlan : ForkPlan :=
  ⟨SkillSettings.initial, ⟨"foo", .base, baseFoo ++ ["SKILL.md"], baseFoo,
    ⟨["p", ".brewva"], ["p", ".brewva", "skills"], .projectRoot⟩⟩, baseFoo⟩

/-- The plan of `fork_skill.py foo --tier project` on `baseTree`. -/
def projectFooPlan : ForkPlan :=
  ⟨forceFooPlan.settings, forceFooPlan.sourceEntry, ["p", ".brewva", "skills", "project", "foo"]⟩

/-- An outcome is read off its option: errors carry no decidable equality, options do. -/
theorem eq_ok_of_toOption {ε α : Type} {x : Except ε α} {a : α} (h : x.toOption = some a) :
    x = .ok a := by
  cases x <;> simp_all [Except.toOption]

/-- `fork_skill.py foo --force` plans `forceFooPlan` on `baseTree`. -/
theorem planFork_forceFork : planFork sampleProcess (forceFork "foo") baseTree = .ok forceFooPlan :=
  eq_ok_of_toOption (by decide)

/-- `fork_skill.py foo --tier project` plans `projectFooPlan` on `baseTree`. -/
theorem planFork_projectFork : planFork sampleProcess projectFork baseTree = .ok projectFooPlan :=
  eq_ok_of_toOption (by decide)

/-! ## Whole runs -/

/-- `main` forks only a skill of the requested name whose `SKILL.md` is a file of the tree, in the
skill's directory, whether `--from` names it or the registry finds it. -/
theorem planFork_sourceEntry (p : Process) (args : Args) (t : Tree) {plan : ForkPlan}
    (hplan : planFork p args t = .ok plan) :
    plan.sourceEntry.name = pyStrip args.skillName ∧ plan.sourceEntry.OnDisk t := by
  obtain ⟨-, ⟨_, hreg, hsrc⟩, -⟩ := planFork_eq_ok hplan
  exact sourceEntryOf_onDisk hreg hsrc

/-- The source of `fork_skill.py foo --force` on `baseTree`. -/
theorem planFork_sourceEntry_forceFork :
    forceFooPlan.sourceEntry.name = pyStrip (forceFork "foo").skillName ∧
      forceFooPlan.sourceEntry.OnDisk baseTree :=
  planFork_sourceEntry sampleProcess (forceFork "foo") baseTree planFork_forceFork

/-- A run of `main` that settles its plan changes only the destination's subtree, the staging
directory's subtree, and the missing directories on the way to the destination, however the calls
of the copy fail; a run that does not changes nothing. -/
theorem main_changesOnly (p : Process) (args : Args) (faults : Faults) (t : Tree) :
    match planFork p args t with
    | .ok plan => Tree.ChangesOnly (fun x => plan.dest <+: x ∨ lexicalResolve p.stagingDir <+: x)
        (· <+: plan.dest) t (main p args faults t).2
    | .error _ => (main p args faults t).2 = t := by
  rcases main_cases p args faults t with ⟨e, hp, he⟩ |
    ⟨plan, hp, ⟨-, he⟩ | ⟨-, -, he⟩ | ⟨c, -, -, rfl, ⟨-, he⟩ | ⟨-, he⟩ | ⟨-, he⟩⟩⟩ <;>
    simp only [hp] <;> rw [he]
  · exact .refl _ _ _
  · exact .refl _ _ _
  · exact copyPhase_changesOnly _ _ _ _ (planFork_dest hp) t
  · exact copyPhase_changesOnly _ _ _ _ (planFork_dest hp) t
  · exact (copyPhase_changesOnly _ _ _ _ (planFork_dest hp) t).trans
      ((afterCopy_changesOnly _ _ _ _ _ (planFork_dest hp) _).mono (fun _ => .inl)
        fun _ _ _ hf => hf.elim)

/-- A run of `main` that completes the fork (exit code 0 or 2), from a source directory that is
not strictly above the destination, refines the abstract fork: every path holds what
`Tree.forkedNode` says of the source and the destination, the destination's `SKILL.md` apart when
the metadata is injected, and the staging directory's subtree apart when its cleanup fails. -/
theorem main_refines_fork (p : Process) (args : Args) (faults : Faults) (t : Tree)
    {plan : ForkPlan} (hplan : planFork p args t = .ok plan)
    (hnest : lexicalResolve plan.sourceEntry.baseDir <+: plan.dest →
      lexicalResolve plan.sourceEntry.baseDir = plan.dest)
    (hdone : (main p args faults t).1 = .code 0 ∨ (main p args faults t).1 = .code 2)
    (hdry : args.dryRun = false) (x : PosixPath)
    (hx : x ≠ plan.dest ++ ["SKILL.md"] ∨ args.noMetadata = true)
    (hstage : ¬lexicalResolve p.stagingDir <+: x ∨ faults .cleanup = none) :
    (main p args faults t).2.node x =
      t.forkedNode (lexicalResolve plan.sourceEntry.baseDir) plan.dest x := by
  rcases main_cases p args faults t with ⟨e, hp, -⟩ |
    ⟨plan', hp, ⟨-, he⟩ | ⟨-, hdry', -⟩ | ⟨c, -, -, rfl, ⟨-, he⟩ | ⟨-, he⟩ | ⟨hc, he⟩⟩⟩ <;>
    rw [hplan] at hp <;> cases hp
  · rw [he] at hdone; simp at hdone
  · rw [hdry] at hdry'; cases hdry'
  · rw [he] at hdone; simp at hdone
  · rw [he] at hdone; simp at hdone
  · rw [he, afterCopy_node _ _ _ _ _ (planFork_dest hplan) _ _ (hx.imp id .inl)]
    exact copyPhase_forked _ _ _ _ (planFork_dest hplan) hnest hc x hstage

/-- The fork of `foo` into the project tier makes the missing project tier directory. -/
theorem main_refines_fork_projectFork :
    (main sampleProcess projectFork (fun _ => none) baseTree).2.node
        ["p", ".brewva", "skills", "project"] =
      baseTree.forkedNode (lexicalResolve baseFoo) ["p", ".brewva", "skills", "project", "foo"]
        ["p", ".brewva", "skills", "project"] :=
  main_refines_fork sampleProcess projectFork (fun _ => none) baseTree planFork_projectFork
    (by decide) (.inl (by decide)) rfl _ (.inr rfl) (.inr rfl)

/-- When no call fails for a reason outside the tree and `yaml.safe_load` raises nothing but a
`yaml.YAMLError`, a run of `main` that is not a dry run, onto a destination that is not there and
not inside the source directory, with no file on the way to it, does not raise, and the
destination's `SKILL.md` is a file afterwards. -/
theorem main_writes_fork (p : Process) (args : Args) (t : Tree) {plan : ForkPlan}
    (hplan : planFork p args t = .ok plan) (hdry : args.dryRun = false)
    (hload : ∀ text e, p.safeLoad text = .error e → e = .yamlError)
    (habs : t.node plan.dest = none) (hsd : ¬lexicalResolve plan.sourceEntry.baseDir <+: plan.dest)
    (hway : ∀ x ∈ plan.dest.inits, Tree.isFileNode (t.node x) = false) :
    (main p args (fun _ => none) t).1 ≠ .raised ∧
      Tree.isFileNode ((main p args (fun _ => none) t).2.node (plan.dest ++ ["SKILL.md"])) =
        true := by
  have hdest := planFork_dest hplan
  obtain ⟨-, ⟨_, hreg, hsrc⟩, -⟩ := planFork_eq_ok hplan
  have hdisk := (sourceEntryOf_onDisk hreg hsrc).2
  obtain ⟨hres, hdir⟩ := hdisk.baseDir_dir
  have hcopied := copyPhase_copied args.force plan.sourceEntry.baseDir p.stagingDir hdest
    (by rw [hres]; exact hdir) habs hsd hway
  -- The copy brings the source's `SKILL.md` along.
  have hmd : Tree.isFileNode ((copyPhase (fun _ => none) args.force plan.sourceEntry.baseDir
      plan.dest p.stagingDir t).tree.node (plan.dest ++ ["SKILL.md"])) = true := by
    rw [copyPhase_forked _ _ _ _ hdest (fun hp => absurd hp hsd) hcopied _ (.inr rfl),
      Tree.forkedNode_append, hres, ← hdisk.filePath_eq]
    exact hdisk.isFile
  rcases main_cases p args (fun _ => none) t with ⟨e, hp, -⟩ |
    ⟨plan', hp, ⟨hex, -⟩ | ⟨-, hdry', -⟩ | ⟨c, -, -, rfl, ⟨hc, -⟩ | ⟨hc, -⟩ | ⟨-, he⟩⟩⟩ <;>
    rw [hplan] at hp <;> cases hp
  · simp [Tree.view, hdest, habs] at hex
  · rw [hdry] at hdry'; cases hdry'
  · rw [hcopied] at hc; cases hc
  · rw [hcopied] at hc; cases hc
  · rw [he]
    exact ⟨afterCopy_ne_raised hload _ _ _ _ _ _, afterCopy_isFile _ _ _ _ _ hdest hmd⟩

/-- The fork of `foo` into the project tier is written. -/
theorem main_writes_fork_projectFork :
    (main sampleProcess projectFork (fun _ => none) baseTree).1 ≠ .raised ∧
      Tree.isFileNode ((main sampleProcess projectFork (fun _ => none) baseTree).2.node
        (projectFooPlan.dest ++ ["SKILL.md"])) = true :=
  main_writes_fork sampleProcess projectFork baseTree planFork_projectFork rfl
    (fun _ _ h => by injection h with h; exact h.symm) (by decide) (by decide) (by decide)

/-- Without `--force`, `main` changes or removes nothing that is there: every path that holds a
file or a directory before the run holds the same afterwards, however the calls of the copy
fail. -/
theorem main_keeps_existing (p : Process) (args : Args) (faults : Faults) (t : Tree)
    (hforce : args.force = false) (x : PosixPath) (hx : t.node x ≠ none) :
    (main p args faults t).2.node x = t.node x := by
  rcases main_cases p args faults t with ⟨e, -, he⟩ |
    ⟨plan, hplan, ⟨-, he⟩ | ⟨-, -, he⟩ | ⟨c, hex, -, rfl, hc⟩⟩
  · rw [he]
  · rw [he]
  · rw [he]
  -- A run that copies found no destination, so `x` lies outside it.
  have hdest := planFork_dest hplan
  have hxD : ¬plan.dest <+: x := fun hp =>
    t.node_ne_none_of_prefix hp hx (by simpa [Tree.view, hforce, hdest] using hex)
  have hcopy := (copyPhase_changesOnly_of_not_force faults plan.sourceEntry.baseDir p.stagingDir
    hdest t).node_eq hxD hx
  rw [hforce] at hc
  rcases hc with ⟨-, he⟩ | ⟨-, he⟩ | ⟨-, he⟩ <;> rw [he]
  · exact hcopy
  · exact hcopy
  · rw [afterCopy_node _ _ _ _ _ hdest _ x (.inl fun he => hxD (he ▸ List.prefix_append _ _)),
      hcopy]

/-- `foo`'s own `SKILL.md` is left as it was by the fork into the project tier, even when every
operation of the copy fails. -/
theorem main_keeps_existing_projectFork :
    (main sampleProcess projectFork
        (fun c => if c = .copyToDestination then some fun _ => true else none) baseTree).2.node
        (baseFoo ++ ["SKILL.md"]) = baseTree.node (baseFoo ++ ["SKILL.md"]) :=
  main_keeps_existing sampleProcess projectFork _ baseTree rfl _ (by decide)

/-- With `--force` onto a source directory that resolves to the destination, every run of `main`
past the dry-run check that does not raise, and whose cleanup does not fail, leaves nothing at or
below the staging directory: the `finally` removes it whether the copy succeeds or fails. -/
theorem main_removes_staging (p : Process) (args : Args) (faults : Faults) (t : Tree)
    {plan : ForkPlan} (hplan : planFork p args t = .ok plan) (hforce : args.force = true)
    (hdry : args.dryRun = false) (hsame : lexicalResolve plan.sourceEntry.baseDir = plan.dest)
    (hclean : faults .cleanup = none) (hout : (main p args faults t).1 ≠ .raised) (x : PosixPath)
    (hx : lexicalResolve p.stagingDir <+: x) :
    (main p args faults t).2.node x = none := by
  rcases main_cases p args faults t with ⟨e, hp, -⟩ |
    ⟨plan', hp, ⟨hex, -⟩ | ⟨-, hdry', -⟩ | ⟨c, -, -, rfl, ⟨-, he⟩ | ⟨hc, he⟩ | ⟨hc, he⟩⟩⟩ <;>
    rw [hplan] at hp <;> cases hp
  · simp [hforce] at hex
  · rw [hdry] at hdry'; cases hdry'
  · rw [he] at hout; exact absurd rfl hout
  all_goals
    rw [hforce] at hc he
    have hgone := @copyPhase_removes_staging faults hclean plan.sourceEntry.baseDir plan.dest
      p.stagingDir t (by rw [hsame, planFork_dest hplan]) (by rw [hc]; decide) x hx
  · rw [he]; exact hgone
  · rw [he, afterCopy_node _ _ _ _ _ (planFork_dest hplan) _ x (.inr (.inr hgone)), hgone]

/-- Forking `foo` onto itself: the staging directory is gone afterwards. -/
theorem main_removes_staging_forceFork :
    (main sampleProcess (forceFork "foo") (fun _ => none) baseTree).2.node ["tmp", "stage"] = none :=
  main_removes_staging sampleProcess (forceFork "foo") (fun _ => none) baseTree planFork_forceFork
    rfl rfl (by decide) rfl (by decide) _ (by decide)

/-- A project with a pack `foo` that holds a skill `foo` one directory down. -/
def packTree : Tree :=
  ⟨⟨[(["p"], .dir), (["p", ".brewva"], .dir), (["p", ".brewva", "skills"], .dir),
    (["p", ".brewva", "skills", "packs"], .dir), (["p", ".brewva", "skills", "packs", "foo"], .dir),
    (["p", ".brewva", "skills", "packs", "foo", "foo"], .dir),
    (["p", ".brewva", "skills", "packs", "foo", "foo", "SKILL.md"], .file "")]⟩, by decide⟩

/-- Forking the pack skill `foo` with `--force` into its own root: the destination is the pack's
directory, which holds the source; removing it removes the source, the copy fails, and `main`
returns 1 with both gone. -/
theorem forkPackIntoOwnRoot_removes_source :
    (main sampleProcess (forceFork "foo") (fun _ => none) packTree).1 = .code 1 ∧
      packTree.node ["p", ".brewva", "skills", "packs", "foo", "foo"] = some .dir ∧
      (main sampleProcess (forceFork "foo") (fun _ => none) packTree).2.node
        ["p", ".brewva", "skills", "packs", "foo", "foo"] = none ∧
      (main sampleProcess (forceFork "foo") (fun _ => none) packTree).2.node
        ["p", ".brewva", "skills", "packs", "foo"] = none := by
  decide

/-- Forking `foo` with `--force` onto itself, when copying its `SKILL.md` into the staging directory
fails: the exception leaves `main`, and the staging directory stays. -/
theorem stageCopyFault_leaves_staging :
    let faults : Faults := fun c =>
      if c = .stageCopy then some fun x => x == ["tmp", "stage", "source", "SKILL.md"] else none
    (main sampleProcess (forceFork "foo") faults baseTree).1 = .raised ∧
      (main sampleProcess (forceFork "foo") faults baseTree).2.node ["tmp", "stage"] = some .dir := by
  decide

end BrewvaSkills

import BrewvaSkills.Registry
import BrewvaSkills.Settings

/-!
# Precedence between roots

`load_registry` lets the later of two entries of one name and tier win, so the order of the roots
decides between them. `discover_skill_roots` keeps each root at the position of the first
registration of its skill directory and upgrades its source in place; the roots are in order of
the priority of those first registrations (`discoverSkillRoots_sorted_by_first_source`), not of
the sources they record.

`discoverSkillRoots_precedence` carries that order over to the registry: an entry is shadowed at
its own tier only by an entry of a root whose skill directory was first registered with at least
the same priority. `vendoredProject_global_shadows_project` is a project that vendors the tool
under its own `.brewva/skills`: the ancestor walk finds the project's skill directory first, the
project root only upgrades it, and the global root, listed after it, shadows the project's skill.
-/

namespace BrewvaSkills

/-- The list of all entries is in order of the priority of the first registrations of their
roots' skill directories. -/
theorem allEntries_sorted_by_first_source (fs : FsView) (env : Env)
    (cwd moduleFile executable : PosixPath) (configuredRoots : List PosixPath)
    (safeLoad : String → Except LoadError Yaml) (activePacks : List String) :
    let regs := discoveryRegistrations fs env cwd moduleFile executable configuredRoots
    let roots := discoverSkillRoots fs env cwd moduleFile executable configuredRoots
    (specAllEntries fs safeLoad activePacks roots).Pairwise fun e w =>
      firstPriority fs regs e.root.skillDir ≤ firstPriority fs regs w.root.skillDir := by
  intro regs roots
  have hsorted := (discoverSkillRoots_sorted_by_first_source fs env cwd moduleFile executable
    configuredRoots).1
  rw [List.pairwise_map] at hsorted
  refine List.pairwise_flatMap.mpr ⟨fun r _ => List.pairwise_of_forall_mem_list fun e he w hw => ?_,
    hsorted.imp fun hle e he w hw => ?_⟩
  · rw [root_of_mem_tierEntries he, root_of_mem_tierEntries hw]
  · rwa [root_of_mem_tierEntries he, root_of_mem_tierEntries hw]

/-- The roots of `discover_skill_roots` are in order of the priority of the first registrations of
their skill directories, each recording a source of at least that priority; and in `load_registry`
over them, an entry is shadowed at its own tier only by an entry of a root first registered with
at least the same priority. -/
theorem discoverSkillRoots_precedence (fs : FsView) (env : Env)
    (cwd moduleFile executable : PosixPath) (configuredRoots : List PosixPath)
    (safeLoad : String → Except LoadError Yaml) (activePacks : List String) :
    let regs := discoveryRegistrations fs env cwd moduleFile executable configuredRoots
    let roots := discoverSkillRoots fs env cwd moduleFile executable configuredRoots
    (roots.map fun r => firstPriority fs regs r.skillDir).Pairwise (· ≤ ·) ∧
      (∀ r ∈ roots, firstPriority fs regs r.skillDir ≤ r.source.priority) ∧
      ∀ result, loadRegistry fs safeLoad roots activePacks = some result →
        ∀ e ∈ result.2, ∀ w, result.1.get e.name = some w → w.tier = e.tier →
          firstPriority fs regs e.root.skillDir ≤ firstPriority fs regs w.root.skillDir := by
  dsimp only
  obtain ⟨hsorted, hsource⟩ :=
    discoverSkillRoots_sorted_by_first_source fs env cwd moduleFile executable configuredRoots
  refine ⟨hsorted, hsource, fun result h e he w hw htier => ?_⟩
  obtain ⟨-, pre, post, hpp, -, hpost⟩ := loadRegistry_get_eq_some h hw
  have hpair := allEntries_sorted_by_first_source fs env cwd moduleFile executable configuredRoots
    safeLoad activePacks
  dsimp only at hpair
  rw [← (loadRegistry_eq_some h).1, hpp] at hpair
  rw [hpp, List.mem_append, List.mem_cons] at he
  rcases he with he | rfl | he
  · exact hpair.rel_of_mem_append he (List.mem_cons_self w post)
  · exact le_rfl
  · exact absurd (hpost e he rfl) (by rw [htier]; exact lt_irrefl _)

/-- A project at `/p` that vendors the tool under `.brewva/skills`, with a skill `foo` in its
base tier, and a global root at `/g/brewva` with a skill `foo` in its base tier too. -/
def vendoredTree : Tree :=
  ⟨⟨[(["p"], .dir), (["p", ".brewva"], .dir), (["p", ".brewva", "skills"], .dir),
    (["p", ".brewva", "skills", "base"], .dir), (["p", ".brewva", "skills", "base", "foo"], .dir),
    (["p", ".brewva", "skills", "base", "foo", "SKILL.md"], .file ""),
    (["p", ".brewva", "skills", "packs"], .dir),
    (["p", ".brewva", "skills", "packs", "skill-creator"], .dir),
    (["p", ".brewva", "skills", "packs", "skill-creator", "scripts"], .dir),
    (["p", ".brewva", "skills", "packs", "skill-creator", "scripts", "fork_skill.py"], .file ""),
    (["g"], .dir), (["g", "brewva"], .dir), (["g", "brewva", "skills"], .dir),
    (["g", "brewva", "skills", "base"], .dir), (["g", "brewva", "skills", "base", "foo"], .dir),
    (["g", "brewva", "skills", "base", "foo", "SKILL.md"], .file "")]⟩, by decide⟩

/-- `XDG_CONFIG_HOME=/g`, nothing else set. -/
def xdgEnv : Env := ⟨fun k => if k = "XDG_CONFIG_HOME" then "/g" else "", ["root"]⟩

/-- Run from `/p` by `/usr/bin/python`: the project root comes first with the source
`project_root`, the global root after it, and the global `foo` shadows the project's. -/
theorem vendoredProject_global_shadows_project :
    let roots := discoverSkillRoots vendoredTree.view xdgEnv ["p"]
      ["p", ".brewva", "skills", "packs", "skill-creator", "scripts", "fork_skill.py"]
      ["usr", "bin", "python"] []
    let result := loadRegistry vendoredTree.view (fun _ => .error .yamlError) roots defaultPacks
    roots.map (·.source) = [.projectRoot, .globalRoot] ∧
      result.map (fun result => result.2.map fun e => (e.name, e.tier, e.root.source)) =
        some [("foo", .base, .projectRoot), ("foo", .base, .globalRoot)] ∧
      (result.bind fun result => (result.1.get "foo").map (·.root.source)) = some .globalRoot := by
  decide

end BrewvaSkills

import BrewvaSkills.FileSystem

/-!
# Locations

The path normalizer of `fork_skill.py` and the two roots it derives from the environment: the
global brewva root and the project's `.brewva`. A path string from the user or the environment
is stripped, `~` and `~/` are expanded against the home directory, a relative path is taken from
a base directory, and the result is resolved. Nothing here raises: a malformed input yields a
path that may not exist.
-/

namespace BrewvaSkills

/-- What the script reads of its process besides the filesystem. -/
structure Env where
  /-- `os.environ.get(name, "")`. -/
  environ : String → String
  /-- `Path.home()`. -/
  home : PosixPath

/-- `normalize_path_input(path_text)`. -/
def normalizePathInput (home : PosixPath) (pathText : String) : String :=
  let trimmed := pyStrip pathText
  if trimmed = "" then trimmed
  else if trimmed = "~" then home.toStr
  else if trimmed.data.take 2 = ['~', '/'] then (home.div ⟨trimmed.data.drop 2⟩).toStr
  else trimmed

/-- `resolve_maybe_absolute(path_text, base_dir)`. -/
def resolveMaybeAbsolute (fs : FsView) (home : PosixPath) (pathText : String)
    (baseDir : PosixPath) : PosixPath :=
  let normalized := normalizePathInput home pathText
  if isAbsoluteText normalized then fs.resolve (pathNames normalized)
  else fs.resolve (baseDir.div normalized)

/-- The text of a path whose last name does not end in a space normalizes to itself: it starts
at the root, so neither the strip nor the expansion of `~` touches it. -/
theorem normalizePathInput_toStr (home p : PosixPath) {c : String}
    (hc : ∀ ch ∈ c.data.getLast?, isPySpace ch = false) :
    normalizePathInput home (p ++ [c]).toStr = (p ++ [c]).toStr := by
  have hhead := PosixPath.toStr_data_head? (p ++ [c])
  have hstrip : pyStrip (p ++ [c]).toStr = (p ++ [c]).toStr := by
    refine pyStrip_eq_self (by simp [hhead]; decide) fun ch hch => ?_
    rw [PosixPath.toStr_append_singleton_data, List.getLast?_append, List.getLast?_cons] at hch
    cases hcl : c.data.getLast? with
    | none => simp [hcl] at hch; subst hch; decide
    | some x => simp [hcl] at hch; exact hch ▸ hc x hcl
  have hne : ∀ t : String, t.data.head? ≠ some '/' → (p ++ [c]).toStr ≠ t :=
    fun t ht h => ht (h ▸ hhead)
  have htake : (p ++ [c]).toStr.data.take 2 ≠ ['~', '/'] := fun h => by
    have := List.head?_take (l := (p ++ [c]).toStr.data) (n := 2)
    simp [h, hhead] at this
  simp only [normalizePathInput, hstrip, if_neg (hne "" (by decide)), if_neg (hne "~" (by decide)),
    if_neg htake]

/-- `resolve_maybe_absolute(str(p / c), base_dir)` is `(p / c).resolve()` when the names are parts
and `c` does not end in a space. -/
theorem resolveMaybeAbsolute_toStr (fs : FsView) (home base p : PosixPath) {c : String}
    (hc : ∀ ch ∈ c.data.getLast?, isPySpace ch = false) (hp : ∀ x ∈ p ++ [c], IsPart x) :
    resolveMaybeAbsolute fs home (p ++ [c]).toStr base = fs.resolve (p ++ [c]) := by
  simp only [resolveMaybeAbsolute, normalizePathInput_toStr home p hc, isAbsoluteText_toStr,
    if_true, pathNames_toStr hp]

/-- `resolve_global_brewva_root(cwd)`: the parent of `BREWVA_CODING_AGENT_DIR` when it is set,
else `$XDG_CONFIG_HOME/brewva`, else `~/.config/brewva`. -/
def resolveGlobalBrewvaRoot (fs : FsView) (env : Env) (cwd : PosixPath) : PosixPath :=
  let agentDir := pyStrip (env.environ "BREWVA_CODING_AGENT_DIR")
  if agentDir ≠ "" then fs.resolve ((resolveMaybeAbsolute fs env.home agentDir cwd).div "..")
  else
    let xdg := pyStrip (env.environ "XDG_CONFIG_HOME")
    if xdg ≠ "" then resolveMaybeAbsolute fs env.home (xdg ++ "/brewva") cwd
    else fs.resolve ((env.home.div ".config").div "brewva")

/-- `resolve_project_brewva_root(cwd)`. -/
def resolveProjectBrewvaRoot (fs : FsView) (cwd : PosixPath) : PosixPath :=
  fs.resolve (cwd.div ".brewva")

end BrewvaSkills

import BrewvaSkills.Discovery
import BrewvaSkills.Frontmatter

/-!
# The registry

`load_registry` walks the roots in order and, in each, the base tier, the packs in sorted order,
and the project tier, each tier's readable `SKILL.md` files in sorted path order. Every entry goes
into the list of all entries, and into the mapping by name when its name is new or its tier
priority is at least that of the entry already there. A header on which `parse_frontmatter`
raises makes `load_registry` raise.

`loadRegistry_spec` states what it does from the filesystem alone. When it raises, a file it reads
has such a header. Otherwise none has, its list of all entries is `specAllEntries`, the entries of
the tier directories of `scannedTierDirs` in the order the description of `load_registry` gives
(with Mathlib's `List.insertionSort` for `sorted`), and its mapping holds exactly the names of the
entries, each with the last entry of that name among those of the highest tier. So a strictly
higher tier wins whatever the root order, and at equal tier the entry loaded later wins. The
proof computes each loop as the described list unless a header raises (`loadTierEntries_eq` up to
`loadRegistry_eq`) and carries `RegistryInv` through the fold of the merges.
-/

namespace BrewvaSkills

/-- A tier. -/
inductive Tier where
  | base
  | pack
  | project
  deriving DecidableEq, Repr, Inhabited

/-- `TIER_PRIORITY[tier]`. -/
def Tier.priority : Tier → Nat
  | .base => 1
  | .pack => 2
  | .project => 3

/-- The tier as the script spells it. -/
def Tier.name : Tier → String
  | .base => "base"
  | .pack => "pack"
  | .project => "project"

/-- `TIER_DIRS[tier]`. -/
def Tier.dirName : Tier → String
  | .base => "base"
  | .pack => "packs"
  | .project => "project"

/-- A skill found in a root. -/
structure SkillEntry where
  /-- `name`. -/
  name : String
  /-- `tier`. -/
  tier : Tier
  /-- `file_path`: the resolved `SKILL.md`. -/
  filePath : PosixPath
  /-- `base_dir`: the resolved directory of the `SKILL.md`. -/
  baseDir : PosixPath
  /-- `root`. -/
  root : SkillRoot
  deriving DecidableEq, Repr

/-- The entry that `load_tier_entries` makes of the `SKILL.md` at `skillMd` with text `raw`, or
`none` when parsing its header raises. -/
def tierEntry (fs : FsView) (safeLoad : String → Except LoadError Yaml) (tier : Tier)
    (root : SkillRoot) (skillMd : PosixPath) (raw : String) : Option SkillEntry :=
  match parseFrontmatter safeLoad raw with
  | .ok (frontmatter, _) => some ⟨skillName frontmatter skillMd.parent.name, tier,
      fs.resolve skillMd, fs.resolve skillMd.parent, root⟩
  | .error _ => none

/-- `load_tier_entries(tier_dir, tier, root)`: the readable `SKILL.md` files below the tier
directory in sorted path order, an unreadable one skipped, each made an entry in turn; `none` when
a header raises. -/
def loadTierEntries (fs : FsView) (safeLoad : String → Except LoadError Yaml)
    (tierDir : PosixPath) (tier : Tier) (root : SkillRoot) : Option (List SkillEntry) :=
  if !fs.isDir tierDir then some []
  else ((sortPaths (fs.rglob tierDir "SKILL.md")).filterMap fun skillMd =>
      (fs.readText skillMd).map fun raw => (skillMd, raw)).mapM fun file =>
    tierEntry fs safeLoad tier root file.1 file.2

/-- Whether `load_registry` loads the packs of a root whatever the active packs are. -/
def includesAllPacks (root : SkillRoot) : Bool :=
  root.source = .projectRoot || root.source = .configRoot

/-- The entries of the packs of a root that `load_registry` loads, in sorted order: the entries of
`packs` that pass its two `continue`s, a directory and a pack it loads, each loaded in turn. -/
def packEntries (fs : FsView) (safeLoad : String → Except LoadError Yaml)
    (activePacks : List String) (root : SkillRoot) : Option (List SkillEntry) :=
  let packsDir := root.skillDir.div "packs"
  if !fs.isDir packsDir then some []
  else (((sortPaths (fs.iterdir packsDir)).filter fun packDir =>
      fs.isDir packDir && (includesAllPacks root || decide (packDir.name ∈ activePacks))).mapM
    fun packDir => loadTierEntries fs safeLoad packDir .pack root).map List.flatten

/-- `tier_entries` of one root in `load_registry`: base, packs, project. -/
def rootEntries (fs : FsView) (safeLoad : String → Except LoadError Yaml)
    (activePacks : List String) (root : SkillRoot) : Option (List SkillEntry) := do
  let base ← loadTierEntries fs safeLoad (root.skillDir.div "base") .base root
  let packs ← packEntries fs safeLoad activePacks root
  let project ← loadTierEntries fs safeLoad (root.skillDir.div "project") .project root
  return base ++ packs ++ project

/-- The merge of one entry into `loaded`: a new name, or a tier priority at least the one there,
takes the place. -/
def registerEntry (loaded : Dict String SkillEntry) (entry : SkillEntry) :
    Dict String SkillEntry :=
  match loaded.get entry.name with
  | none => loaded.set entry.name entry
  | some existing =>
    if entry.tier.priority ≥ existing.tier.priority then loaded.set entry.name entry else loaded

/-- `load_registry(roots, active_packs)`: the mapping `loaded` and the list `all_entries`, or
`none` when a header raises. -/
def loadRegistry (fs : FsView) (safeLoad : String → Except LoadError Yaml) (roots : List SkillRoot)
    (activePacks : List String) : Option (Dict String SkillEntry × List SkillEntry) :=
  roots.foldlM (fun acc root => (rootEntries fs safeLoad activePacks root).map fun tierEntries =>
      tierEntries.foldl (fun acc entry => (registerEntry acc.1 entry, acc.2 ++ [entry])) acc)
    (.empty, [])

/-! ## The mapping -/

/-- `v` is the last of the entries named `n` among those of the highest tier priority. -/
def IsLastOfHighestTier (n : String) (entries : List SkillEntry) (v : SkillEntry) : Prop :=
  v.name = n ∧ ∃ pre post, entries = pre ++ v :: post ∧
    (∀ e ∈ pre, e.name = n → e.tier.priority ≤ v.tier.priority) ∧
    (∀ e ∈ post, e.name = n → e.tier.priority < v.tier.priority)

/-- What the entries merged so far determine of `loaded`. -/
structure RegistryInv (entries : List SkillEntry) (loaded : Dict String SkillEntry) : Prop where
  /-- The names in the mapping are those of the entries. -/
  get_eq_none : ∀ n, loaded.get n = none ↔ ∀ e ∈ entries, e.name ≠ n
  /-- Each name maps to its last entry of the highest tier. -/
  get_eq_some : ∀ n v, loaded.get n = some v → IsLastOfHighestTier n entries v

/-- The empty registry satisfies the invariant. -/
theorem RegistryInv.empty : RegistryInv [] .empty :=
  ⟨by simp, by simp⟩

/-- What one merge does: `e` takes the place of its name when the name is new or held by an entry
of no higher tier. -/
theorem registerEntry_get (loaded : Dict String SkillEntry) (e : SkillEntry) (n : String) :
    (registerEntry loaded e).get n =
      if n = e.name ∧ ∀ v, loaded.get e.name = some v → v.tier.priority ≤ e.tier.priority
      then some e else loaded.get n := by
  unfold registerEntry
  cases hg : loaded.get e.name with
  | none => by_cases hn : n = e.name <;> simp [hn, hg]
  | some w =>
    by_cases hle : w.tier.priority ≤ e.tier.priority <;> by_cases hn : n = e.name <;>
      simp [hn, hle, hg]

namespace RegistryInv

variable {entries : List SkillEntry} {loaded : Dict String SkillEntry}

/-- An entry of another name leaves a name's last entry of the highest tier where it is. -/
theorem isLast_append_of_ne {n : String} {v e : SkillEntry} (hn : n ≠ e.name)
    (h : IsLastOfHighestTier n entries v) : IsLastOfHighestTier n (entries ++ [e]) v := by
  obtain ⟨hv, pre, post, rfl, hpre, hpost⟩ := h
  refine ⟨hv, pre, post ++ [e], by simp, hpre, ?_⟩
  simp only [List.mem_append, List.mem_singleton]
  rintro x (hx | rfl) hxn
  · exact hpost x hx hxn
  · exact absurd hxn.symm hn

/-- One merge keeps the invariant. -/
theorem registerEntry (h : RegistryInv entries loaded) (e : SkillEntry) :
    RegistryInv (entries ++ [e]) (BrewvaSkills.registerEntry loaded e) := by
  have hmem : ∀ n, (∀ x ∈ entries ++ [e], x.name ≠ n) ↔ (∀ x ∈ entries, x.name ≠ n) ∧ e.name ≠ n :=
    fun n => by simp [or_imp, forall_and]
  constructor
  · intro n
    rw [registerEntry_get, hmem]
    split
    · rename_i hcond
      obtain ⟨rfl, -⟩ := hcond
      simp
    · rename_i hcond
      by_cases hn : n = e.name
      · subst hn
        have : ¬∀ v, loaded.get e.name = some v → v.tier.priority ≤ e.tier.priority :=
          fun h' => hcond ⟨rfl, h'⟩
        push_neg at this
        obtain ⟨w, hw, -⟩ := this
        simp [hw]
      · rw [h.get_eq_none]
        simp [Ne.symm hn]
  · intro n v hv
    rw [registerEntry_get] at hv
    split at hv
    · rename_i hcond
      cases hv
      obtain ⟨rfl, hle⟩ := hcond
      refine ⟨rfl, entries, [], rfl, fun x hx hxn => ?_, by simp⟩
      cases hw : loaded.get e.name with
      | none => exact absurd hxn ((h.get_eq_none _).mp hw x hx)
      | some w =>
        obtain ⟨-, pre, post, hpp, hpre, hpost⟩ := h.get_eq_some _ _ hw
        have hwe := hle w hw
        rw [hpp] at hx
        simp only [List.mem_append, List.mem_cons] at hx
        rcases hx with hx | rfl | hx
        · exact (hpre x hx hxn).trans hwe
        · exact hwe
        · exact (hpost x hx hxn).le.trans hwe
    · rename_i hcond
      by_cases hn : n = e.name
      · subst hn
        obtain ⟨hvn, pre, post, hpp, hpre, hpost⟩ := h.get_eq_some _ _ hv
        refine ⟨hvn, pre, post ++ [e], by simp [hpp], hpre, ?_⟩
        simp only [List.mem_append, List.mem_singleton]
        rintro x (hx | rfl) hxn
        · exact hpost x hx hxn
        · refine Nat.lt_of_not_le fun hle => hcond ⟨rfl, fun w hw => ?_⟩
          obtain rfl := Option.some_injective _ (hw.symm.trans hv)
          exact hle
      · exact isLast_append_of_ne hn (h.get_eq_some n v hv)

end RegistryInv

/-- Merging a list of entries keeps the invariant. -/
theorem registryInv_foldl (entries : List SkillEntry) :
    RegistryInv entries (entries.foldl registerEntry .empty) := by
  induction entries using List.reverseRecOn with
  | nil => exact RegistryInv.empty
  | append_singleton es e ih =>
    rw [List.foldl_append]
    exact ih.registerEntry e

/-! ## What `load_registry` reads, as its description says

The description of `load_registry` in the terms of the filesystem: the tier directories of each
root in order, the readable `SKILL.md` files of each in sorted path order, and the entry of each
file whose header parses. `List.insertionSort` by `≤`, Mathlib's lexicographic order on lists of
strings, stands for `sorted`. -/

/-- The directories of `packs` that `load_registry` loads, in sorted order: the entries that are
directories and packs it loads, any pack in a project or config root. -/
def scannedPackDirs (fs : FsView) (activePacks : List String) (root : SkillRoot) :
    List PosixPath :=
  if fs.isDir (root.skillDir.div "packs") then
    ((fs.iterdir (root.skillDir.div "packs")).insertionSort (· ≤ ·)).filter fun packDir =>
      fs.isDir packDir && (includesAllPacks root || decide (packDir.name ∈ activePacks))
  else []

/-- The tier directories of a root that `load_registry` reads, in order, with their tiers: `base`,
the loaded packs, then `project`. -/
def scannedTierDirs (fs : FsView) (activePacks : List String) (root : SkillRoot) :
    List (PosixPath × Tier) :=
  (root.skillDir.div "base", .base) :: (scannedPackDirs fs activePacks root).map (·, .pack) ++
    [(root.skillDir.div "project", .project)]

/-- The readable `SKILL.md` files below a tier directory, in sorted path order, with their
texts. -/
def readableSkillFiles (fs : FsView) (tierDir : PosixPath) : List (PosixPath × String) :=
  if fs.isDir tierDir then
    ((fs.rglob tierDir "SKILL.md").insertionSort (· ≤ ·)).filterMap fun f =>
      (fs.readText f).map fun raw => (f, raw)
  else []

/-- The entries of a tier directory of `root`: one for each readable `SKILL.md`, in sorted path
order, whose header parses; named by its header or else by its directory, with the tier of the
directory, its resolved path and its resolved directory. -/
def specTierEntries (fs : FsView) (safeLoad : String → Except LoadError Yaml) (root : SkillRoot)
    (tierDir : PosixPath) (tier : Tier) : List SkillEntry :=
  (readableSkillFiles fs tierDir).filterMap fun file =>
    match parseFrontmatter safeLoad file.2 with
    | .ok (frontmatter, _) => some ⟨skillName frontmatter file.1.parent.name, tier,
        fs.resolve file.1, fs.resolve file.1.parent, root⟩
    | .error _ => none

/-- The list of all entries as the description of `load_registry` gives it: over the roots in
order, the entries of each root's tier directories in order. -/
def specAllEntries (fs : FsView) (safeLoad : String → Except LoadError Yaml)
    (activePacks : List String) (roots : List SkillRoot) : List SkillEntry :=
  roots.flatMap fun root => (scannedTierDirs fs activePacks root).flatMap fun dir =>
    specTierEntries fs safeLoad root dir.1 dir.2

/-- Whether every readable `SKILL.md` of a tier directory has a header that parses. -/
def headersParse (fs : FsView) (safeLoad : String → Except LoadError Yaml) (tierDir : PosixPath) :
    Bool :=
  (readableSkillFiles fs tierDir).all fun file => (parseFrontmatter safeLoad file.2).toOption.isSome

/-! ## The loops of `load_registry` -/

/-- A `mapM` in `Option` succeeds when every item does, with the results in order. -/
theorem mapM_option_eq {α β : Type} (f : α → Option β) : ∀ l : List α,
    l.mapM f = if l.all (fun a => (f a).isSome) then some (l.filterMap f) else none
  | [] => rfl
  | a :: l => by
    rw [List.mapM_cons, mapM_option_eq f l, List.all_cons, List.filterMap_cons]
    cases f a with
    | none => rfl
    | some b => by_cases h : l.all (fun a => (f a).isSome) <;> simp [h]

/-- Lists that each succeed under a test, flattened. -/
theorem mapM_ite_map_flatten {α β : Type} (P : α → Bool) (F : α → List β) (l : List α) :
    (l.mapM fun a => if P a then some (F a) else none).map List.flatten =
      if l.all P then some (l.flatMap F) else none := by
  induction l with
  | nil => rfl
  | cons a l ih =>
    rw [List.mapM_cons, List.all_cons]
    cases hP : P a
    · simp [hP]
    · revert ih
      cases l.mapM fun a => if P a then some (F a) else none <;> by_cases hl : l.all P <;>
        simp [hl]

/-- `load_tier_entries` is the entries of the tier directory, unless a header raises. -/
theorem loadTierEntries_eq (fs : FsView) (safeLoad : String → Except LoadError Yaml)
    (tierDir : PosixPath) (tier : Tier) (root : SkillRoot) :
    loadTierEntries fs safeLoad tierDir tier root =
      if headersParse fs safeLoad tierDir then some (specTierEntries fs safeLoad root tierDir tier)
      else none := by
  have hparse : ∀ file : PosixPath × String,
      (tierEntry fs safeLoad tier root file.1 file.2).isSome =
        (parseFrontmatter safeLoad file.2).toOption.isSome := fun file => by
    unfold tierEntry
    split <;> simp_all [Except.toOption]
  unfold loadTierEntries headersParse specTierEntries readableSkillFiles
  rw [sortPaths_eq_insertionSort]
  by_cases hd : fs.isDir tierDir
  · simp only [hd, Bool.not_true, Bool.false_eq_true, if_false, if_true, mapM_option_eq, hparse]
    rfl
  · simp [hd]

/-- The packs of a root are the entries of the loaded pack directories, unless a header
raises. -/
theorem packEntries_eq (fs : FsView) (safeLoad : String → Except LoadError Yaml)
    (activePacks : List String) (root : SkillRoot) :
    packEntries fs safeLoad activePacks root =
      if (scannedPackDirs fs activePacks root).all (headersParse fs safeLoad) then
        some ((scannedPackDirs fs activePacks root).flatMap fun packDir =>
          specTierEntries fs safeLoad root packDir .pack)
      else none := by
  unfold packEntries scannedPackDirs
  by_cases hd : fs.isDir (root.skillDir.div "packs")
  · simp only [hd, Bool.not_true, Bool.false_eq_true, if_false, if_true, sortPaths_eq_insertionSort,
      loadTierEntries_eq]
    exact mapM_ite_map_flatten _ _ _
  · simp [hd]

/-- The entries of a root are those of its tier directories in order, unless a header raises. -/
theorem rootEntries_eq (fs : FsView) (safeLoad : String → Except LoadError Yaml)
    (activePacks : List String) (root : SkillRoot) :
    rootEntries fs safeLoad activePacks root =
      if (scannedTierDirs fs activePacks root).all (fun dir => headersParse fs safeLoad dir.1) then
        some ((scannedTierDirs fs activePacks root).flatMap fun dir =>
          specTierEntries fs safeLoad root dir.1 dir.2)
      else none := by
  have hpacks : ∀ l : List PosixPath,
      (l.map (·, Tier.pack)).all (fun dir => headersParse fs safeLoad dir.1) =
        l.all (headersParse fs safeLoad) := fun l => by
    induction l <;> simp [*]
  have hall : (scannedTierDirs fs activePacks root).all (fun dir => headersParse fs safeLoad dir.1) =
      (headersParse fs safeLoad (root.skillDir.div "base") &&
        ((scannedPackDirs fs activePacks root).all (headersParse fs safeLoad) &&
          headersParse fs safeLoad (root.skillDir.div "project"))) := by
    simp [scannedTierDirs, hpacks]
  have hflat : ((scannedTierDirs fs activePacks root).flatMap fun dir =>
      specTierEntries fs safeLoad root dir.1 dir.2) =
      specTierEntries fs safeLoad root (root.skillDir.div "base") .base ++
        (((scannedPackDirs fs activePacks root).flatMap fun packDir =>
          specTierEntries fs safeLoad root packDir .pack) ++
          specTierEntries fs safeLoad root (root.skillDir.div "project") .project) := by
    simp [scannedTierDirs, List.flatMap_map, Function.comp_def]
  unfold rootEntries
  rw [loadTierEntries_eq, packEntries_eq, loadTierEntries_eq, hall, hflat]
  cases headersParse fs safeLoad (root.skillDir.div "base") <;>
    cases (scannedPackDirs fs activePacks root).all (headersParse fs safeLoad) <;>
    cases headersParse fs safeLoad (root.skillDir.div "project") <;>
    simp [List.append_assoc]

/-- `load_registry` returns the fold of the described list of all entries, unless a header it
reads raises. -/
theorem loadRegistry_eq (fs : FsView) (safeLoad : String → Except LoadError Yaml)
    (roots : List SkillRoot) (activePacks : List String) :
    loadRegistry fs safeLoad roots activePacks =
      if roots.all (fun root => (scannedTierDirs fs activePacks root).all fun dir =>
          headersParse fs safeLoad dir.1) then
        some ((specAllEntries fs safeLoad activePacks roots).foldl registerEntry .empty,
          specAllEntries fs safeLoad activePacks roots)
      else none := by
  -- Merging a root's entries one by one is the fold over them, and appends them to the list.
  have inner : ∀ (es : List SkillEntry) (acc : Dict String SkillEntry × List SkillEntry),
      es.foldl (fun acc entry => (registerEntry acc.1 entry, acc.2 ++ [entry])) acc =
        (es.foldl registerEntry acc.1, acc.2 ++ es) := by
    intro es
    induction es with
    | nil => simp
    | cons e es ih => intro acc; simp [ih]
  have outer : ∀ (rs : List SkillRoot) (acc : Dict String SkillEntry × List SkillEntry),
      rs.foldlM (fun acc root => (rootEntries fs safeLoad activePacks root).map fun es =>
        (es.foldl registerEntry acc.1, acc.2 ++ es)) acc =
      if rs.all (fun root => (scannedTierDirs fs activePacks root).all fun dir =>
          headersParse fs safeLoad dir.1) then
        some ((specAllEntries fs safeLoad activePacks rs).foldl registerEntry acc.1,
          acc.2 ++ specAllEntries fs safeLoad activePacks rs)
      else none := by
    intro rs
    induction rs with
    | nil => intro acc; simp [specAllEntries]
    | cons r rs ih =>
      intro acc
      rw [List.foldlM_cons, rootEntries_eq, List.all_cons]
      by_cases hr : (scannedTierDirs fs activePacks r).all fun dir => headersParse fs safeLoad dir.1
      · simp only [hr, if_true, Option.map_some', Option.some_bind, ih, Bool.true_and]
        simp [specAllEntries, List.foldl_append, List.append_assoc]
      · simp [hr]
  unfold loadRegistry
  simp only [inner]
  simpa using outer roots (.empty, [])

/-- When `yaml.safe_load` raises nothing but a `yaml.YAMLError`, `load_registry` returns. -/
theorem loadRegistry_isSome (fs : FsView) {safeLoad : String → Except LoadError Yaml}
    (hload : ∀ text e, safeLoad text = .error e → e = .yamlError) (roots : List SkillRoot)
    (activePacks : List String) : (loadRegistry fs safeLoad roots activePacks).isSome := by
  rw [loadRegistry_eq, if_pos]
  · rfl
  simp only [List.all_eq_true, headersParse]
  intro _ _ _ _ file _
  cases h : parseFrontmatter safeLoad file.2 with
  | ok _ => rfl
  | error e =>
    obtain ⟨hne, _, ht⟩ := parseFrontmatter_eq_error h
    exact absurd (hload _ e ht) hne

/-- What `load_registry` returns, when it returns, is the described list of all entries and its
fold. -/
theorem loadRegistry_eq_some {fs : FsView} {safeLoad : String → Except LoadError Yaml}
    {roots : List SkillRoot} {activePacks : List String}
    {result : Dict String SkillEntry × List SkillEntry}
    (h : loadRegistry fs safeLoad roots activePacks = some result) :
    result.2 = specAllEntries fs safeLoad activePacks roots ∧
      result.1 = result.2.foldl registerEntry .empty := by
  rw [loadRegistry_eq] at h
  split at h
  · cases h; exact ⟨rfl, rfl⟩
  · cases h

/-- The entry that `load_registry` maps a name to is the last of the highest tier among the
entries of that name. -/
theorem loadRegistry_get_eq_some {fs : FsView} {safeLoad : String → Except LoadError Yaml}
    {roots : List SkillRoot} {activePacks : List String}
    {result : Dict String SkillEntry × List SkillEntry}
    (h : loadRegistry fs safeLoad roots activePacks = some result) {n : String} {v : SkillEntry}
    (hv : result.1.get n = some v) : IsLastOfHighestTier n result.2 v := by
  obtain ⟨-, h1⟩ := loadRegistry_eq_some h
  rw [h1] at hv
  exact (registryInv_foldl _).get_eq_some n v hv

/-- An entry of the described list comes from a readable `SKILL.md` below a tier directory of one
of the roots, whose header parses. -/
theorem mem_specAllEntries {fs : FsView} {safeLoad : String → Except LoadError Yaml}
    {activePacks : List String} {roots : List SkillRoot} {e : SkillEntry}
    (h : e ∈ specAllEntries fs safeLoad activePacks roots) :
    ∃ root ∈ roots, ∃ dir ∈ scannedTierDirs fs activePacks root, ∃ f raw frontmatter body,
      f ∈ fs.rglob dir.1 "SKILL.md" ∧ fs.readText f = some raw ∧
      parseFrontmatter safeLoad raw = .ok (frontmatter, body) ∧
      e = ⟨skillName frontmatter f.parent.name, dir.2, fs.resolve f, fs.resolve f.parent, root⟩ := by
  simp only [specAllEntries, specTierEntries, List.mem_flatMap, List.mem_filterMap] at h
  obtain ⟨root, hroot, dir, hdir, ⟨f, raw⟩, hfile, he⟩ := h
  unfold readableSkillFiles at hfile
  split at hfile
  · obtain ⟨f', hf', hfr⟩ := List.mem_filterMap.mp hfile
    obtain ⟨raw', hraw, hfr⟩ := Option.map_eq_some'.mp hfr
    obtain ⟨rfl, rfl⟩ := Prod.mk.inj hfr
    split at he
    case h_1 frontmatter body hparse =>
      cases he
      exact ⟨root, hroot, dir, hdir, f', raw', frontmatter, body,
        (List.perm_insertionSort _ _).mem_iff.mp hf', hraw, hparse, rfl⟩
    case h_2 => cases he
  · cases hfile

/-- An entry of the tier directories of a root is of that root. -/
theorem root_of_mem_tierEntries {fs : FsView} {safeLoad : String → Except LoadError Yaml}
    {activePacks : List String} {root : SkillRoot} {e : SkillEntry}
    (h : e ∈ (scannedTierDirs fs activePacks root).flatMap fun dir =>
      specTierEntries fs safeLoad root dir.1 dir.2) : e.root = root := by
  obtain ⟨root', hroot, -, -, -, -, -, -, -, -, -, rfl⟩ :=
    @mem_specAllEntries fs safeLoad activePacks [root] e (by simpa [specAllEntries] using h)
  exact List.mem_singleton.mp hroot

/-- `load_registry`, from the filesystem alone. When it raises, a readable `SKILL.md` of a tier
directory it reads has a header on which `parse_frontmatter` raises. Otherwise none has one, its
list of all entries is over the roots in order the entries of their tier directories in order
(`base`, the loaded packs in sorted order, `project`), each directory's files in sorted path
order; and its mapping holds exactly the names of that list, each with the last entry of the
highest tier among the entries of that name. -/
theorem loadRegistry_spec (fs : FsView) (safeLoad : String → Except LoadError Yaml)
    (roots : List SkillRoot) (activePacks : List String) :
    match loadRegistry fs safeLoad roots activePacks with
    | none => ∃ root ∈ roots, ∃ dir ∈ scannedTierDirs fs activePacks root,
        ∃ file ∈ readableSkillFiles fs dir.1, (parseFrontmatter safeLoad file.2).toOption = none
    | some result =>
      (∀ root ∈ roots, ∀ dir ∈ scannedTierDirs fs activePacks root,
        ∀ file ∈ readableSkillFiles fs dir.1, (parseFrontmatter safeLoad file.2).toOption ≠ none) ∧
      result.2 = specAllEntries fs safeLoad activePacks roots ∧
      (∀ n, result.1.get n = none ↔ ∀ e ∈ result.2, e.name ≠ n) ∧
      ∀ n v, result.1.get n = some v → IsLastOfHighestTier n result.2 v := by
  rw [loadRegistry_eq]
  by_cases hall : roots.all fun root => (scannedTierDirs fs activePacks root).all fun dir =>
    headersParse fs safeLoad dir.1
  · rw [if_pos hall]
    simp only [List.all_eq_true, headersParse, Option.isSome_iff_ne_none] at hall
    exact ⟨hall, rfl, (registryInv_foldl _).get_eq_none, (registryInv_foldl _).get_eq_some⟩
  · rw [if_neg hall]
    simpa [List.all_eq_true, headersParse, Option.isSome_iff_ne_none] using hall

/-! ## Entries on a tree -/

/-- An entry whose `SKILL.md` is a file of the tree, at a resolved path, in the entry's
directory. -/
structure SkillEntry.OnDisk (t : Tree) (e : SkillEntry) : Prop where
  /-- The file is the directory's `SKILL.md`. -/
  filePath_eq : e.filePath = e.baseDir ++ ["SKILL.md"]
  /-- The file's path is resolved. -/
  resolved : lexicalResolve e.filePath = e.filePath
  /-- The file is there. -/
  isFile : Tree.isFileNode (t.node e.filePath) = true

/-- The entry of a file named `SKILL.md`, at its resolved path and in its resolved directory, is
on disk. -/
theorem onDisk_of_isFile {t : Tree} {skillMd : PosixPath} (hlast : skillMd.getLast? = some "SKILL.md")
    (hfile : t.view.isFile skillMd = true) (name : String) (tier : Tier) (root : SkillRoot) :
    (⟨name, tier, t.view.resolve skillMd, t.view.resolve skillMd.parent, root⟩ : SkillEntry).OnDisk
      t :=
  ⟨lexicalResolve_eq_dropLast_append hlast (by decide), lexicalResolve_lexicalResolve _, hfile⟩

/-- On a tree, the entry that `load_registry` maps a name to is of that name and on disk. -/
theorem onDisk_of_loadRegistry_get {t : Tree} {safeLoad : String → Except LoadError Yaml}
    {roots : List SkillRoot} {activePacks : List String}
    {result : Dict String SkillEntry × List SkillEntry}
    (h : loadRegistry t.view safeLoad roots activePacks = some result) {n : String} {v : SkillEntry}
    (hv : result.1.get n = some v) : v.name = n ∧ v.OnDisk t := by
  obtain ⟨hname, pre, post, hsplit, -⟩ := loadRegistry_get_eq_some h hv
  have hmem : v ∈ specAllEntries t.view safeLoad activePacks roots := by
    rw [← (loadRegistry_eq_some h).1, hsplit]
    exact List.mem_append_right pre (List.mem_cons_self v post)
  refine ⟨hname, ?_⟩
  obtain ⟨-, -, dir, -, skillMd, raw, -, -, hmd, hraw, -, rfl⟩ := mem_specAllEntries hmem
  obtain ⟨r, rfl, hlast, -⟩ := t.view.rglob_spec _ _ _ hmd
  refine onDisk_of_isFile ?_ (Tree.isFileNode_of_fileText hraw) _ _ _
  rw [List.getLast?_append_of_ne_nil _ (by rintro rfl; cases hlast)]
  exact hlast

end BrewvaSkills

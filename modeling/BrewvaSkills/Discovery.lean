import BrewvaSkills.Locations
import Mathlib.Data.List.Infix

/-!
# Root discovery

`discover_skill_roots` registers candidate directories one after another: the ancestors of the
script's directory and of the interpreter's, each walk from `/` down and at most ten deep
(`collectBoundedAncestors_eq`), then the global root, the
project's `.brewva`, and the configured roots. `append_discovered_root` keeps at most one root
per skill directory, the directory itself or its `skills` child, whichever holds a tier
directory. A directory registered again with a strictly higher source priority takes over the
root's source and `root_dir`, in place; its `skill_dir` and its position never change.

`Discovery.Inv` states what the registrations so far determine of the state: the skill
directories, in the order of their first registration; the source and `root_dir` of each root,
from the first registration of highest priority; and the index, which points each key at its
root. `appendDiscoveredRoot_inv` shows that one registration keeps it, and `registerAll_inv`
that every run does.
-/

namespace BrewvaSkills

/-- Where a root was found. -/
inductive Source where
  | moduleAncestor
  | execAncestor
  | globalRoot
  | projectRoot
  | configRoot
  | explicit
  deriving DecidableEq, Repr

/-- `SOURCE_PRIORITIES[source]`. `explicit` is not in the table: only the synthetic root of an
explicit source carries it, and it is never registered. -/
def Source.priority : Source → Nat
  | .moduleAncestor => 1
  | .execAncestor => 2
  | .globalRoot => 3
  | .projectRoot => 4
  | .configRoot => 5
  | .explicit => 0

/-- The source as the script spells it. -/
def Source.name : Source → String
  | .moduleAncestor => "module_ancestor"
  | .execAncestor => "exec_ancestor"
  | .globalRoot => "global_root"
  | .projectRoot => "project_root"
  | .configRoot => "config_root"
  | .explicit => "explicit"

/-- A discovered root. -/
structure SkillRoot where
  /-- `root_dir`. -/
  rootDir : PosixPath
  /-- `skill_dir`: the directory that holds the tier directories. -/
  skillDir : PosixPath
  /-- `source`. -/
  source : Source
  deriving DecidableEq, Repr

/-- `has_tier_directories(path)`. -/
def hasTierDirectories (fs : FsView) (path : PosixPath) : Bool :=
  fs.isDir (path.div "base") || fs.isDir (path.div "packs") || fs.isDir (path.div "project")

/-- `resolve_skill_directory(root_dir)`: the resolved directory when it holds a tier directory,
else its `skills` child when that does. -/
def resolveSkillDirectory (fs : FsView) (rootDir : PosixPath) : Option PosixPath :=
  let normalized := fs.resolve rootDir
  if hasTierDirectories fs normalized then some normalized
  else
    let nested := normalized.div "skills"
    if hasTierDirectories fs nested then some (fs.resolve nested) else none

/-- A skill directory is resolved. -/
theorem resolve_of_resolveSkillDirectory {fs : FsView} {rootDir k : PosixPath}
    (h : resolveSkillDirectory fs rootDir = some k) : fs.resolve k = k := by
  simp only [resolveSkillDirectory] at h
  split at h
  · cases h; simp
  · split at h
    · cases h; simp
    · cases h

/-- `MAX_ANCESTOR_DEPTH`. -/
def maxAncestorDepth : Nat := 10

/-- The loop of `collect_bounded_ancestors` with `n` iterations left. -/
def ancestorsFrom : Nat → PosixPath → List PosixPath
  | 0, _ => []
  | n + 1, current =>
    current :: if current.parent = current then [] else ancestorsFrom n current.parent

/-- `collect_bounded_ancestors(start_dir)`: the directory and its ancestors, leaf first, at most
ten. -/
def collectBoundedAncestors (fs : FsView) (startDir : PosixPath) : List PosixPath :=
  ancestorsFrom maxAncestorDepth (fs.resolve startDir)

/-- The loop of `collect_bounded_ancestors` lists the path and then its ancestors, one per
iteration, and stops after `/`. -/
theorem ancestorsFrom_eq_take : ∀ (n : Nat) (p : PosixPath),
    ancestorsFrom n p = p.inits.reverse.take n
  | 0, _ => rfl
  | n + 1, p => by
    rcases List.eq_nil_or_concat p with rfl | ⟨q, c, rfl⟩
    · simp [ancestorsFrom, PosixPath.parent]
    · rw [List.concat_eq_append]
      have hne : PosixPath.parent (q ++ [c]) ≠ q ++ [c] := by simp [PosixPath.parent]
      rw [ancestorsFrom, if_neg hne, ancestorsFrom_eq_take n, PosixPath.parent,
        List.dropLast_concat]
      simp [List.inits_append]

/-- `collect_bounded_ancestors(start_dir)` lists the resolved directory and its ancestors, leaf
first, the first `MAX_ANCESTOR_DEPTH` of them: `/` is among them only when the directory is fewer
than ten names deep. -/
theorem collectBoundedAncestors_eq (fs : FsView) (startDir : PosixPath) :
    collectBoundedAncestors fs startDir =
      ((fs.resolve startDir).inits.reverse.take maxAncestorDepth) :=
  ancestorsFrom_eq_take _ _

/-- The state of `discover_skill_roots`: `roots` and `index_by_skill_dir`. -/
structure Discovery where
  /-- `roots`. -/
  roots : List SkillRoot
  /-- `index_by_skill_dir`, keyed by the resolved skill directory. -/
  indexBySkillDir : Dict PosixPath Nat

/-- The state before the first registration. -/
def Discovery.empty : Discovery := ⟨[], .empty⟩

/-- `append_discovered_root(roots, index_by_skill_dir, root_dir, source)`. The index always
points at a root (`Discovery.Inv`), so the lookup of `roots[existing_index]` does not fail. -/
def appendDiscoveredRoot (fs : FsView) (st : Discovery) (rootDir : PosixPath) (source : Source) :
    Discovery :=
  match resolveSkillDirectory fs rootDir with
  | none => st
  | some skillDir =>
    let key := fs.resolve skillDir
    match st.indexBySkillDir.get key with
    | some existingIndex =>
      match st.roots[existingIndex]? with
      | some existing =>
        if source.priority > existing.source.priority then
          ⟨st.roots.set existingIndex ⟨fs.resolve rootDir, existing.skillDir, source⟩,
            st.indexBySkillDir⟩
        else st
      | none => st
    | none =>
      ⟨st.roots ++ [⟨fs.resolve rootDir, fs.resolve skillDir, source⟩],
        st.indexBySkillDir.set key st.roots.length⟩

/-- The registrations `regs`, made one after another from the empty state. -/
def registerAll (fs : FsView) (regs : List (PosixPath × Source)) : Discovery :=
  regs.foldl (fun st reg => appendDiscoveredRoot fs st reg.1 reg.2) .empty

/-- The registrations that `discover_skill_roots` makes, in order: the ancestors of the
script's directory and of the interpreter's, each from `/` down, the global root, the project
root, and the configured roots. -/
def discoveryRegistrations (fs : FsView) (env : Env) (cwd moduleFile executable : PosixPath)
    (configuredRoots : List PosixPath) : List (PosixPath × Source) :=
  ((collectBoundedAncestors fs (fs.resolve moduleFile).parent).reverse.map (·, .moduleAncestor)) ++
    ((collectBoundedAncestors fs (fs.resolve executable).parent).reverse.map
      (·, .execAncestor)) ++
    [(resolveGlobalBrewvaRoot fs env cwd, .globalRoot),
      (resolveProjectBrewvaRoot fs cwd, .projectRoot)] ++
    configuredRoots.map (·, .configRoot)

/-- `discover_skill_roots(cwd, configured_roots)`, run from the script `moduleFile` by the
interpreter `executable`. -/
def discoverSkillRoots (fs : FsView) (env : Env) (cwd moduleFile executable : PosixPath)
    (configuredRoots : List PosixPath) : List SkillRoot :=
  (registerAll fs (discoveryRegistrations fs env cwd moduleFile executable configuredRoots)).roots

/-! ## What the registrations determine -/

/-- The distinct elements of a list, in the order of their first occurrence. -/
def firstOccurrences (l : List PosixPath) : List PosixPath :=
  l.foldl (fun acc x => if x ∈ acc then acc else acc ++ [x]) []

/-- One more path is kept when it has not occurred yet. -/
theorem firstOccurrences_append_singleton (l : List PosixPath) (x : PosixPath) :
    firstOccurrences (l ++ [x]) =
      if x ∈ firstOccurrences l then firstOccurrences l else firstOccurrences l ++ [x] := by
  simp [firstOccurrences, List.foldl_append]

/-- The first occurrences hold the paths of the list. -/
theorem mem_firstOccurrences {l : List PosixPath} : ∀ {x : PosixPath},
    x ∈ firstOccurrences l ↔ x ∈ l := by
  induction l using List.reverseRecOn with
  | nil => simp [firstOccurrences]
  | append_singleton l y ih =>
    intro x
    rw [firstOccurrences_append_singleton]
    split
    · rename_i hy
      rw [ih] at hy ⊢
      simp only [List.mem_append, List.mem_singleton]
      exact ⟨.inl, by rintro (hx | rfl) <;> assumption⟩
    · simp [ih]

/-- The key under which a registration is recorded, when its directory holds a skill tree:
`resolve_skill_directory(root_dir)`. -/
def keyOf (fs : FsView) (reg : PosixPath × Source) : Option PosixPath :=
  resolveSkillDirectory fs reg.1

/-- The registrations of the key `k`, in order. -/
def regsOf (fs : FsView) (regs : List (PosixPath × Source)) (k : PosixPath) :
    List (PosixPath × Source) :=
  regs.filter fun reg => keyOf fs reg = some k

/-- A registration of another key leaves a key's registrations. -/
theorem regsOf_append_of_ne {fs : FsView} {regs : List (PosixPath × Source)} {reg : PosixPath × Source}
    {k : PosixPath} (h : keyOf fs reg ≠ some k) : regsOf fs (regs ++ [reg]) k = regsOf fs regs k := by
  simp [regsOf, List.filter_append, h]

/-- A registration of a key is the last of the key's registrations. -/
theorem regsOf_append_of_eq {fs : FsView} {regs : List (PosixPath × Source)} {reg : PosixPath × Source}
    {k : PosixPath} (h : keyOf fs reg = some k) :
    regsOf fs (regs ++ [reg]) k = regsOf fs regs k ++ [reg] := by
  simp [regsOf, List.filter_append, h]

/-- A root records, of the registrations of its skill directory, the first one of highest
priority: its source, and its resolved `root_dir`. -/
def RecordsFirstMax (fs : FsView) (regs : List (PosixPath × Source)) (r : SkillRoot) : Prop :=
  ∃ pre d post, regsOf fs regs r.skillDir = pre ++ (d, r.source) :: post ∧
    (∀ reg ∈ pre, reg.2.priority < r.source.priority) ∧
    (∀ reg ∈ post, reg.2.priority ≤ r.source.priority) ∧ r.rootDir = fs.resolve d

/-- A registration of another key keeps what a root records. -/
theorem RecordsFirstMax.append_of_ne {fs : FsView} {regs : List (PosixPath × Source)}
    {r : SkillRoot} (h : RecordsFirstMax fs regs r) {reg : PosixPath × Source}
    (hk : keyOf fs reg ≠ some r.skillDir) : RecordsFirstMax fs (regs ++ [reg]) r := by
  rwa [RecordsFirstMax, regsOf_append_of_ne hk]

/-- A later registration of no higher priority leaves the record. -/
theorem RecordsFirstMax.append_keep {fs : FsView} {regs : List (PosixPath × Source)}
    {r : SkillRoot} (h : RecordsFirstMax fs regs r) {reg : PosixPath × Source}
    (hk : keyOf fs reg = some r.skillDir) (hle : reg.2.priority ≤ r.source.priority) :
    RecordsFirstMax fs (regs ++ [reg]) r := by
  obtain ⟨pre, d, post, hregs, hpre, hpost, hdir⟩ := h
  refine ⟨pre, d, post ++ [reg], ?_, hpre, ?_, hdir⟩
  · simp [regsOf_append_of_eq hk, hregs]
  · simp only [List.mem_append, List.mem_singleton]
    rintro x (hx | rfl)
    · exact hpost x hx
    · exact hle

/-- A later registration of strictly higher priority is the new record. -/
theorem RecordsFirstMax.append_upgrade {fs : FsView} {regs : List (PosixPath × Source)}
    {r : SkillRoot} (h : RecordsFirstMax fs regs r) {d : PosixPath} {s : Source}
    (hk : keyOf fs (d, s) = some r.skillDir) (hlt : r.source.priority < s.priority) :
    RecordsFirstMax fs (regs ++ [(d, s)]) ⟨fs.resolve d, r.skillDir, s⟩ := by
  obtain ⟨pre, d₀, post, hregs, hpre, hpost, -⟩ := h
  refine ⟨pre ++ (d₀, r.source) :: post, d, [], ?_, ?_, by simp, rfl⟩
  · simp [regsOf_append_of_eq hk, hregs]
  · simp only [List.mem_append, List.mem_cons]
    rintro x (hx | rfl | hx)
    · exact (hpre x hx).trans hlt
    · exact hlt
    · exact lt_of_le_of_lt (hpost x hx) hlt

/-- The first registration of a key is its record. -/
theorem RecordsFirstMax.append_first {fs : FsView} {regs : List (PosixPath × Source)}
    {d k : PosixPath} {s : Source} (hnew : regsOf fs regs k = [])
    (hk : keyOf fs (d, s) = some k) :
    RecordsFirstMax fs (regs ++ [(d, s)]) ⟨fs.resolve d, k, s⟩ :=
  ⟨[], d, [], by simp [regsOf_append_of_eq hk, hnew], by simp, by simp, rfl⟩

/-- The index points each key at the position of the root of that skill directory. -/
def IndexAgrees (st : Discovery) : Prop :=
  ∀ k i, st.indexBySkillDir.get k = some i ↔ (st.roots.map SkillRoot.skillDir)[i]? = some k

/-- What the registrations `regs` determine of the state of `discover_skill_roots`. -/
structure Discovery.Inv (fs : FsView) (regs : List (PosixPath × Source)) (st : Discovery) :
    Prop where
  /-- One root per key, in the order of the keys' first registrations. -/
  skillDirs : st.roots.map SkillRoot.skillDir = firstOccurrences (regs.filterMap (keyOf fs))
  /-- Each root's source and `root_dir` are those of its key's first registration of highest
  priority. -/
  recordsFirstMax : ∀ (i : Nat) (r : SkillRoot), st.roots[i]? = some r → RecordsFirstMax fs regs r
  /-- The index points each key at its root. -/
  index : IndexAgrees st

/-- Before any registration, the empty state satisfies the invariant. -/
theorem Discovery.inv_empty (fs : FsView) : Discovery.empty.Inv fs [] :=
  ⟨rfl, by simp [Discovery.empty], by simp [IndexAgrees, Discovery.empty]⟩

/-- An element of a list with one more element at the end. -/
theorem getElem?_append_singleton_eq_some {α : Type} {l : List α} {x y : α} {j : Nat} :
    (l ++ [x])[j]? = some y ↔ l[j]? = some y ∨ (j = l.length ∧ x = y) := by
  rw [List.getElem?_append]
  split
  · rename_i hj
    simp [Nat.ne_of_lt hj]
  · rename_i hj
    rw [List.getElem?_eq_none (Nat.le_of_not_lt hj)]
    rcases Nat.eq_or_lt_of_le (Nat.le_of_not_lt hj) with rfl | hlt
    · simp
    · rw [List.getElem?_eq_none (by simp; omega)]
      simp [Nat.ne_of_gt hlt]

namespace Discovery.Inv

variable {fs : FsView} {regs : List (PosixPath × Source)} {st : Discovery}

/-- Two roots of one skill directory are one: the index finds both. -/
theorem index_eq (h : st.Inv fs regs) {i j : Nat} {r r' : SkillRoot} (hi : st.roots[i]? = some r)
    (hj : st.roots[j]? = some r') (hk : r.skillDir = r'.skillDir) : i = j := by
  have hgi := (h.index r.skillDir i).mpr (by simp [List.getElem?_map, hi])
  have hgj := (h.index r.skillDir j).mpr (by simp [List.getElem?_map, hj, hk])
  exact Option.some_injective _ (hgi.symm.trans hgj)

/-- Every recorded root's skill directory is the key of a registration. -/
theorem mem_keys (h : st.Inv fs regs) {i : Nat} {r : SkillRoot} (hr : st.roots[i]? = some r) :
    r.skillDir ∈ firstOccurrences (regs.filterMap (keyOf fs)) :=
  h.skillDirs ▸ List.mem_map_of_mem _ (List.getElem?_mem hr)

/-- A registration without a skill tree changes nothing. -/
theorem append_unkeyed (h : st.Inv fs regs) {d : PosixPath} {s : Source}
    (hk : keyOf fs (d, s) = none) : st.Inv fs (regs ++ [(d, s)]) where
  skillDirs := by simp [h.skillDirs, List.filterMap_append, hk]
  recordsFirstMax i r hr := (h.recordsFirstMax i r hr).append_of_ne (by simp [hk])
  index := h.index

/-- A registration of a recorded key with no higher priority changes nothing. -/
theorem append_keep (h : st.Inv fs regs) {d : PosixPath} {s : Source} {i : Nat} {r : SkillRoot}
    (hr : st.roots[i]? = some r) (hk : keyOf fs (d, s) = some r.skillDir)
    (hle : s.priority ≤ r.source.priority) : st.Inv fs (regs ++ [(d, s)]) where
  skillDirs := by
    simp [h.skillDirs, List.filterMap_append, hk, firstOccurrences_append_singleton, h.mem_keys hr]
  recordsFirstMax j r' hr' := by
    by_cases hkj : r.skillDir = r'.skillDir
    · obtain rfl := h.index_eq hr hr' hkj
      obtain rfl := Option.some_injective _ (hr.symm.trans hr')
      exact (h.recordsFirstMax i r hr).append_keep hk hle
    · exact (h.recordsFirstMax j r' hr').append_of_ne (by rw [hk]; simpa using hkj)
  index := h.index

/-- Replacing a root by one of the same skill directory keeps the skill directories. -/
theorem map_skillDir_set {roots : List SkillRoot} {i : Nat} {r : SkillRoot} (r' : SkillRoot)
    (hr : roots[i]? = some r) (hk : r'.skillDir = r.skillDir) :
    (roots.set i r').map SkillRoot.skillDir = roots.map SkillRoot.skillDir := by
  apply List.ext_getElem?
  intro j
  simp only [List.getElem?_map, List.getElem?_set]
  split
  · subst j
    obtain ⟨hi, -⟩ := List.getElem?_eq_some_iff.mp hr
    simp [hi, hr, hk]
  · rfl

/-- A registration of a recorded key with strictly higher priority takes over the root. -/
theorem append_upgrade (h : st.Inv fs regs) {d : PosixPath} {s : Source} {i : Nat}
    {r : SkillRoot} (hr : st.roots[i]? = some r) (hk : keyOf fs (d, s) = some r.skillDir)
    (hlt : r.source.priority < s.priority) :
    Discovery.Inv fs (regs ++ [(d, s)])
      ⟨st.roots.set i ⟨fs.resolve d, r.skillDir, s⟩, st.indexBySkillDir⟩ where
  skillDirs := by
    dsimp only
    rw [map_skillDir_set ⟨fs.resolve d, r.skillDir, s⟩ hr rfl]
    simp [h.skillDirs, List.filterMap_append, hk, firstOccurrences_append_singleton, h.mem_keys hr]
  recordsFirstMax j r' hr' := by
    rw [List.getElem?_set] at hr'
    split at hr'
    · subst j
      split at hr'
      · cases hr'
        exact (h.recordsFirstMax i r hr).append_upgrade hk hlt
      · cases hr'
    · have hkj : r.skillDir ≠ r'.skillDir := fun hkj => ‹¬i = j› (h.index_eq hr hr' hkj)
      exact (h.recordsFirstMax j r' hr').append_of_ne (by rw [hk]; simpa using hkj)
  index k j := by
    dsimp only
    rw [map_skillDir_set ⟨fs.resolve d, r.skillDir, s⟩ hr rfl]
    exact h.index k j

/-- The first registration of a key appends its root and indexes it. -/
theorem append_first (h : st.Inv fs regs) {d k : PosixPath} {s : Source}
    (hk : keyOf fs (d, s) = some k) (hnone : st.indexBySkillDir.get k = none) :
    Discovery.Inv fs (regs ++ [(d, s)])
      ⟨st.roots ++ [⟨fs.resolve d, k, s⟩], st.indexBySkillDir.set k st.roots.length⟩ := by
  have hnot : ∀ j : Nat, (st.roots.map SkillRoot.skillDir)[j]? ≠ some k := fun j hj => by
    simp [(h.index k j).mpr hj] at hnone
  have hnotmem : k ∉ firstOccurrences (regs.filterMap (keyOf fs)) := fun hmem => by
    rw [← h.skillDirs] at hmem
    obtain ⟨j, hj⟩ := List.mem_iff_getElem?.mp hmem
    exact hnot j hj
  have hregs : regsOf fs regs k = [] := List.filter_eq_nil_iff.mpr fun reg hreg hkey =>
    hnotmem (mem_firstOccurrences.mpr (List.mem_filterMap.mpr ⟨reg, hreg, by simpa using hkey⟩))
  refine ⟨?_, ?_, ?_⟩
  · simp [h.skillDirs, List.filterMap_append, hk, firstOccurrences_append_singleton, hnotmem]
  · intro j r' hr'
    rcases getElem?_append_singleton_eq_some.mp hr' with hr' | ⟨-, rfl⟩
    · have hkj : r'.skillDir ≠ k := fun hkj =>
        hnot j (by simp [List.getElem?_map, hr', hkj])
      exact (h.recordsFirstMax j r' hr').append_of_ne (by rw [hk]; simpa using Ne.symm hkj)
    · exact RecordsFirstMax.append_first hregs hk
  · intro k' j
    rw [List.map_append, List.map_singleton, getElem?_append_singleton_eq_some, List.length_map]
    by_cases hkk : k' = k
    · subst hkk
      simp only [Dict.get_set_self, Option.some.injEq, true_and, and_true]
      exact ⟨fun hj => .inr hj.symm, fun hj => hj.elim (absurd · (hnot j)) Eq.symm⟩
    · rw [Dict.get_set_of_ne _ _ hkk, h.index k' j]
      simp [Ne.symm hkk]

end Discovery.Inv

/-- One registration keeps the invariant. -/
theorem appendDiscoveredRoot_inv {fs : FsView} {regs : List (PosixPath × Source)} {st : Discovery}
    (h : st.Inv fs regs) (d : PosixPath) (s : Source) :
    (appendDiscoveredRoot fs st d s).Inv fs (regs ++ [(d, s)]) := by
  unfold appendDiscoveredRoot
  cases hk : resolveSkillDirectory fs d with
  | none => exact h.append_unkeyed hk
  | some k =>
    simp only [resolve_of_resolveSkillDirectory hk]
    cases hi : st.indexBySkillDir.get k with
    | none => exact h.append_first hk hi
    | some i =>
      obtain ⟨r, hr, rfl⟩ : ∃ r, st.roots[i]? = some r ∧ r.skillDir = k := by
        simpa [List.getElem?_map] using (h.index k i).mp hi
      simp only [hr]
      split
      · exact h.append_upgrade hr hk ‹_›
      · exact h.append_keep hr hk (Nat.le_of_not_lt ‹_›)

/-- Every run of registrations keeps the invariant. -/
theorem registerAll_inv (fs : FsView) (regs : List (PosixPath × Source)) :
    (registerAll fs regs).Inv fs regs := by
  induction regs using List.reverseRecOn with
  | nil => exact Discovery.inv_empty fs
  | append_singleton regs reg ih =>
    obtain ⟨d, s⟩ := reg
    rw [registerAll, List.foldl_append]
    exact appendDiscoveredRoot_inv ih d s

/-- More registrations only extend the list of keys. -/
theorem firstOccurrences_prefix {l₁ l₂ : List PosixPath} (h : l₁ <+: l₂) :
    firstOccurrences l₁ <+: firstOccurrences l₂ := by
  obtain ⟨t, rfl⟩ := h
  induction t using List.reverseRecOn with
  | nil => simp
  | append_singleton t x ih =>
    rw [← List.append_assoc, firstOccurrences_append_singleton]
    split
    · exact ih
    · exact ih.trans (List.prefix_append _ _)

/-- `discover_skill_roots` keeps one root per skill directory, in the order of the directories'
first registrations, each recording its directory's first registration of highest priority.
Throughout the loop the index points each key at its root, and the skill directories only grow
at the end. -/
theorem discoverSkillRoots_spec (fs : FsView) (env : Env) (cwd moduleFile executable : PosixPath)
    (configuredRoots : List PosixPath) :
    let regs := discoveryRegistrations fs env cwd moduleFile executable configuredRoots
    let roots := discoverSkillRoots fs env cwd moduleFile executable configuredRoots
    roots.map SkillRoot.skillDir = firstOccurrences (regs.filterMap (keyOf fs)) ∧
      (∀ r ∈ roots, RecordsFirstMax fs regs r) ∧
      ∀ pre, pre <+: regs → IndexAgrees (registerAll fs pre) ∧
        (registerAll fs pre).roots.map SkillRoot.skillDir <+: roots.map SkillRoot.skillDir := by
  intro regs roots
  have h := registerAll_inv fs regs
  refine ⟨h.skillDirs, fun r hr => ?_, fun pre hpre => ⟨(registerAll_inv fs pre).index, ?_⟩⟩
  · obtain ⟨i, hi⟩ := List.mem_iff_getElem?.mp hr
    exact h.recordsFirstMax i r hi
  · rw [(registerAll_inv fs pre).skillDirs]
    exact h.skillDirs ▸ firstOccurrences_prefix (hpre.filterMap _)

/-! ## The order of the roots

A root keeps the position of its first registration, and the registrations come in order of
priority; so the roots are in order of the priority of their first registrations, and a root's
recorded source has at least that priority. The recorded sources themselves need not be in order:
an upgrade leaves a root where it was. -/

/-- The priority of the first registration of the key `k`. -/
def firstPriority (fs : FsView) (regs : List (PosixPath × Source)) (k : PosixPath) : Nat :=
  ((regsOf fs regs k).head?.map (·.2.priority)).getD 0

/-- A key that some registration gives has a first registration. -/
theorem exists_regsOf_eq_cons {fs : FsView} {regs : List (PosixPath × Source)} {k : PosixPath}
    (hk : k ∈ regs.filterMap (keyOf fs)) : ∃ y ys, regsOf fs regs k = y :: ys := by
  obtain ⟨x, hx, hxk⟩ := List.mem_filterMap.mp hk
  exact List.exists_cons_of_ne_nil (List.ne_nil_of_mem (List.mem_filter.mpr ⟨hx, by simpa using hxk⟩))

/-- A later registration leaves the first registration of a known key. -/
theorem firstPriority_append_of_mem {fs : FsView} {regs : List (PosixPath × Source)}
    {k : PosixPath} (hk : k ∈ regs.filterMap (keyOf fs)) (reg : PosixPath × Source) :
    firstPriority fs (regs ++ [reg]) k = firstPriority fs regs k := by
  obtain ⟨y, ys, hys⟩ := exists_regsOf_eq_cons hk
  by_cases hr : keyOf fs reg = some k
  · simp [firstPriority, regsOf_append_of_eq hr, hys]
  · simp [firstPriority, regsOf_append_of_ne hr]

/-- The first registration of a new key is the last registration. -/
theorem firstPriority_append_of_not_mem {fs : FsView} {regs : List (PosixPath × Source)}
    {reg : PosixPath × Source} {k : PosixPath} (hk : keyOf fs reg = some k)
    (hnew : k ∉ regs.filterMap (keyOf fs)) : firstPriority fs (regs ++ [reg]) k = reg.2.priority := by
  have : regsOf fs regs k = [] := List.filter_eq_nil_iff.mpr fun x hx hxk =>
    hnew (List.mem_filterMap.mpr ⟨x, hx, by simpa using hxk⟩)
  simp [firstPriority, regsOf_append_of_eq hk, this]

/-- The first registration of a key is one of the registrations. -/
theorem firstPriority_le {fs : FsView} {regs : List (PosixPath × Source)} {k : PosixPath}
    (hk : k ∈ regs.filterMap (keyOf fs)) {p : Nat} (hp : ∀ reg ∈ regs, reg.2.priority ≤ p) :
    firstPriority fs regs k ≤ p := by
  obtain ⟨y, ys, hys⟩ := exists_regsOf_eq_cons hk
  have hy : y ∈ regs := (List.mem_filter.mp (hys ▸ List.mem_cons_self y ys : y ∈ regsOf fs regs k)).1
  simpa [firstPriority, hys] using hp y hy

/-- Registrations in order of priority give keys in order of the priority of their first
registrations. -/
theorem firstPriority_sorted (fs : FsView) {regs : List (PosixPath × Source)}
    (hs : regs.Pairwise fun a b => a.2.priority ≤ b.2.priority) :
    ((firstOccurrences (regs.filterMap (keyOf fs))).map (firstPriority fs regs)).Pairwise
      (· ≤ ·) := by
  induction regs using List.reverseRecOn with
  | nil => simp [firstOccurrences]
  | append_singleton regs reg ih =>
    obtain ⟨hs, -, hlast⟩ := List.pairwise_append.mp hs
    -- The keys known so far keep their first registrations.
    have hsame : (firstOccurrences (regs.filterMap (keyOf fs))).map (firstPriority fs (regs ++ [reg])) =
        (firstOccurrences (regs.filterMap (keyOf fs))).map (firstPriority fs regs) :=
      List.map_congr_left fun k hk => firstPriority_append_of_mem (mem_firstOccurrences.mp hk) reg
    rw [List.filterMap_append]
    cases hk : keyOf fs reg with
    | none => simpa [hk, hsame] using ih hs
    | some k =>
      simp only [List.filterMap_cons, hk, List.filterMap_nil, firstOccurrences_append_singleton]
      split
      · rw [hsame]; exact ih hs
      · rename_i hnew
        rw [List.map_append, hsame, List.pairwise_append, List.map_singleton,
          firstPriority_append_of_not_mem hk (mt mem_firstOccurrences.mpr hnew)]
        refine ⟨ih hs, List.pairwise_singleton _ _, fun a ha b hb => ?_⟩
        obtain ⟨k', hk', rfl⟩ := List.mem_map.mp ha
        rw [List.mem_singleton.mp hb]
        exact firstPriority_le (mem_firstOccurrences.mp hk') fun x hx => hlast x hx reg (by simp)

/-- The recorded source of a root has at least the priority of its first registration. -/
theorem RecordsFirstMax.firstPriority_le {fs : FsView} {regs : List (PosixPath × Source)}
    {r : SkillRoot} (h : RecordsFirstMax fs regs r) :
    firstPriority fs regs r.skillDir ≤ r.source.priority := by
  obtain ⟨pre, d, post, hregs, hpre, -, -⟩ := h
  rcases pre with _ | ⟨x, pre⟩
  · simp [firstPriority, hregs]
  · simpa [firstPriority, hregs] using (hpre x (List.mem_cons_self x pre)).le

/-- The registrations of `discover_skill_roots` come in order of priority. -/
theorem discoveryRegistrations_sorted (fs : FsView) (env : Env)
    (cwd moduleFile executable : PosixPath) (configuredRoots : List PosixPath) :
    (discoveryRegistrations fs env cwd moduleFile executable configuredRoots).Pairwise
      fun a b => a.2.priority ≤ b.2.priority := by
  -- Each block has one source, and the blocks come in order of priority.
  have source : ∀ {ds : List PosixPath} {s : Source} {reg}, reg ∈ ds.map (·, s) → reg.2 = s := by
    intro ds s reg h
    obtain ⟨d, -, rfl⟩ := List.mem_map.mp h
    rfl
  have block : ∀ (ds : List PosixPath) (s : Source),
      (ds.map (·, s)).Pairwise fun a b => a.2.priority ≤ b.2.priority :=
    fun ds s => List.pairwise_map.mpr (List.pairwise_of_forall fun _ _ => le_refl _)
  simp only [discoveryRegistrations, List.pairwise_append, List.mem_append, List.mem_cons,
    List.mem_nil_iff, or_false]
  refine ⟨⟨⟨block _ _, block _ _, fun a ha b hb => ?_⟩, by simp [Source.priority],
    fun a ha b hb => ?_⟩, block _ _, fun a ha b hb => ?_⟩
  · rw [source ha, source hb]; decide
  · have ha' : a.2.priority ≤ 2 := by rcases ha with ha | ha <;> rw [source ha] <;> decide
    have hb' : 3 ≤ b.2.priority := by rcases hb with rfl | rfl <;> simp [Source.priority]
    omega
  · have ha' : a.2.priority ≤ 4 := by
      rcases ha with (ha | ha) | rfl | rfl
      · rw [source ha]; decide
      · rw [source ha]; decide
      all_goals simp [Source.priority]
    rw [source hb]
    exact ha'.trans (by decide)

/-- `discover_skill_roots` lists its roots in order of the priority of their first
registrations, and each root's recorded source has at least that priority. -/
theorem discoverSkillRoots_sorted_by_first_source (fs : FsView) (env : Env)
    (cwd moduleFile executable : PosixPath) (configuredRoots : List PosixPath) :
    let regs := discoveryRegistrations fs env cwd moduleFile executable configuredRoots
    let roots := discoverSkillRoots fs env cwd moduleFile executable configuredRoots
    (roots.map fun r => firstPriority fs regs r.skillDir).Pairwise (· ≤ ·) ∧
      ∀ r ∈ roots, firstPriority fs regs r.skillDir ≤ r.source.priority := by
  intro regs roots
  have h := registerAll_inv fs regs
  refine ⟨?_, fun r hr => ?_⟩
  · have hmap : roots.map (fun r => firstPriority fs regs r.skillDir) =
        (roots.map SkillRoot.skillDir).map (firstPriority fs regs) := by simp [Function.comp_def]
    rw [hmap, show roots.map SkillRoot.skillDir = _ from h.skillDirs]
    exact firstPriority_sorted fs (discoveryRegistrations_sorted fs env cwd moduleFile executable
      configuredRoots)
  · obtain ⟨i, hi⟩ := List.mem_iff_getElem?.mp hr
    exact (h.recordsFirstMax i r hi).firstPriority_le

end BrewvaSkills

import BrewvaSkills.Path

/-!
# The filesystem

`FsView` is what `fork_skill.py` observes of the filesystem through `pathlib`: how a path
resolves, whether it is a directory or a file, a directory's entries, the matches of `rglob`,
and a file's text. The discovery and registry functions read the filesystem only through it, so
what is proved of them holds for every filesystem, symbolic links included. The one law a view
keeps is that resolving is idempotent, as `os.path.realpath` is on a filesystem that does not
change.

`Tree` is a filesystem without symbolic links, given by the node at each path. Its dictionary of
nodes is well formed, which the structure carries: one node per path, at resolved paths below the
root, each in a directory. So a missing directory has nothing below it, and every call that
changes a tree builds the proof that what it leaves is a tree again. Its view resolves lexically.

Two changes build every call of `TreeCalls.lean`: `Tree.put` sets one node at a path in a
directory where no directory is, and `Tree.restrict` keeps the nodes at the paths a test keeps,
a test that keeps the parent of every path it keeps.
-/

namespace BrewvaSkills

/-- What the script observes of the filesystem. -/
structure FsView where
  /-- `p.resolve()`. -/
  resolve : PosixPath → PosixPath
  /-- `p.is_dir()`. -/
  isDir : PosixPath → Bool
  /-- `p.is_file()`. -/
  isFile : PosixPath → Bool
  /-- `p.exists()`. -/
  pathExists : PosixPath → Bool
  /-- `list(p.iterdir())`, in the order the directory lists them. -/
  iterdir : PosixPath → List PosixPath
  /-- `list(p.rglob(pattern))`, in the order the walk finds them. -/
  rglob : PosixPath → String → List PosixPath
  /-- `p.read_text(encoding="utf8")`, or `none` when it raises. -/
  readText : PosixPath → Option String
  resolve_resolve : ∀ p, resolve (resolve p) = resolve p
  isName_of_mem_resolve : ∀ p, ∀ c ∈ resolve p, IsName c
  /-- What `rglob` finds below `d` is named `pattern`. -/
  rglob_spec : ∀ d pattern q, q ∈ rglob d pattern →
    ∃ r, q = d ++ r ∧ r.getLast? = some pattern ∧ ∀ c ∈ r, IsName c
  isFile_of_readText : ∀ p text, readText p = some text → isFile p = true
  isDir_eq_false_of_isFile : ∀ p, isFile p = true → isDir p = false

attribute [simp] FsView.resolve_resolve

/-- What a path holds. -/
inductive Node where
  | dir
  | file (text : String)
  deriving DecidableEq, Repr

/-- The node at a path of a dictionary of nodes; `/` is a directory. -/
def nodeAt (nodes : Dict PosixPath Node) (p : PosixPath) : Option Node :=
  if p = [] then some .dir else nodes.get p

/-- What makes a dictionary of nodes a filesystem: one item per path, each at a resolved path below
the root and in a directory. -/
structure WellFormed (nodes : Dict PosixPath Node) : Prop where
  /-- No two items have one path. -/
  nodup : (nodes.items.map Prod.fst).Nodup
  /-- Every item is below the root. -/
  ne_nil : ∀ kv ∈ nodes.items, kv.1 ≠ []
  /-- Every item is at a resolved path. -/
  resolved : ∀ kv ∈ nodes.items, lexicalResolve kv.1 = kv.1
  /-- Every item is in a directory. -/
  parent_dir : ∀ kv ∈ nodes.items, nodeAt nodes kv.1.dropLast = some .dir

instance (nodes : Dict PosixPath Node) : Decidable (WellFormed nodes) :=
  decidable_of_iff ((nodes.items.map Prod.fst).Nodup ∧ (∀ kv ∈ nodes.items, kv.1 ≠ []) ∧
      (∀ kv ∈ nodes.items, lexicalResolve kv.1 = kv.1) ∧
      ∀ kv ∈ nodes.items, nodeAt nodes kv.1.dropLast = some .dir)
    ⟨fun ⟨a, b, c, d⟩ => ⟨a, b, c, d⟩, fun ⟨a, b, c, d⟩ => ⟨a, b, c, d⟩⟩

/-- A filesystem without symbolic links: a well-formed dictionary of the nodes below `/`. -/
structure Tree where
  /-- The nodes, by their paths. -/
  nodes : Dict PosixPath Node
  /-- The nodes make a filesystem. -/
  wellFormed : WellFormed nodes

namespace Tree

/-- The filesystem with nothing but `/`. -/
def empty : Tree := ⟨⟨[]⟩, by decide⟩

/-- The node at a resolved path; `/` is a directory. -/
def node (t : Tree) (p : PosixPath) : Option Node := nodeAt t.nodes p

/-- The root is always a directory. -/
@[simp] theorem node_nil (t : Tree) : t.node [] = some .dir := rfl

/-- Below the root, a node is the item at its path. -/
theorem node_of_ne_nil (t : Tree) {q : PosixPath} (hq : q ≠ []) : t.node q = t.nodes.get q :=
  if_neg hq

/-- Below the root, the node at a path is the item at that path. -/
theorem node_eq_some_iff (t : Tree) {q : PosixPath} (hq : q ≠ []) {n : Node} :
    t.node q = some n ↔ (q, n) ∈ t.nodes.items := by
  rw [node_of_ne_nil t hq]
  exact Dict.findItem_eq_some_iff t.wellFormed.nodup

/-- Every node below the root is in a directory. -/
theorem parent_of_node (t : Tree) {q : PosixPath} (h0 : q ≠ []) (hq : t.node q ≠ none) :
    t.node q.dropLast = some .dir := by
  obtain ⟨n, hn⟩ := Option.ne_none_iff_exists'.mp hq
  exact t.wellFormed.parent_dir _ ((t.node_eq_some_iff h0).mp hn)

/-- The ancestors of a node are directories. -/
theorem dir_of_prefix (t : Tree) {p : PosixPath} :
    ∀ r : PosixPath, r ≠ [] → t.node (p ++ r) ≠ none → t.node p = some .dir := by
  intro r
  induction r using List.reverseRecOn with
  | nil => exact fun h0 => absurd rfl h0
  | append_singleton r c ih =>
    intro _ hq
    have hparent := t.parent_of_node (by simp) hq
    rw [← List.append_assoc, List.dropLast_concat] at hparent
    by_cases hr : r = []
    · simpa [hr] using hparent
    · exact ih hr (by simp [hparent])

/-- Nothing is below a missing path. -/
theorem node_append_eq_none (t : Tree) {p : PosixPath} (hp : t.node p = none) (r : PosixPath) :
    t.node (p ++ r) = none := by
  by_contra hq
  by_cases hr : r = []
  · subst hr; simp [hp] at hq
  · simp [t.dir_of_prefix r hr hq] at hp

/-- The ancestors of a node are there. -/
theorem node_ne_none_of_prefix (t : Tree) {p q : PosixPath} (hpq : p <+: q)
    (hq : t.node q ≠ none) : t.node p ≠ none := by
  obtain ⟨r, rfl⟩ := hpq
  exact fun hp => hq (t.node_append_eq_none hp r)

/-- Nothing is below a file. -/
theorem node_append_of_file (t : Tree) {p : PosixPath} {text : String}
    (hp : t.node p = some (.file text)) {r : PosixPath} (hr : r ≠ []) : t.node (p ++ r) = none := by
  by_contra hq
  simp [t.dir_of_prefix r hr hq] at hp

/-- The nodes that can be reached: those at resolved paths. -/
def reachable (t : Tree) : List (PosixPath × Node) :=
  t.nodes.items.filter fun kv => lexicalResolve kv.1 = kv.1

/-- Every item can be reached. -/
theorem reachable_eq (t : Tree) : t.reachable = t.nodes.items :=
  List.filter_eq_self.mpr fun kv hkv => by simpa using t.wellFormed.resolved kv hkv

/-- The name of `q` when it is an entry of the directory `d`. -/
def entryName (d q : PosixPath) : Option String :=
  if q.dropLast = d then q.getLast? else none

/-- The path of `q` below `d`, when `q` is strictly below `d`. -/
def below (d q : PosixPath) : Option PosixPath :=
  if q.take d.length = d ∧ d.length < q.length then some (q.drop d.length) else none

/-- A path strictly below `d` is `d` followed by the non-empty rest that `below` gives. -/
theorem eq_append_of_below {d q r : PosixPath} (h : below d q = some r) :
    q = d ++ r ∧ r ≠ [] := by
  unfold below at h
  split at h
  · cases h
    rename_i hq
    refine ⟨?_, ?_⟩
    · conv_lhs => rw [← List.take_append_drop d.length q, hq.1]
    · simpa [List.drop_eq_nil_iff] using hq.2
  · cases h

/-- What `rglob` finds in a tree is below the directory, named by the pattern. -/
theorem rglob_spec (t : Tree) (d : PosixPath) (pattern : String) (q : PosixPath)
    (hq : q ∈ t.reachable.filterMap fun kv =>
      match below (lexicalResolve d) kv.1 with
      | some r => if kv.1.getLast? = some pattern then some (d ++ r) else none
      | none => none) :
    ∃ r, q = d ++ r ∧ r.getLast? = some pattern ∧ ∀ c ∈ r, IsName c := by
  obtain ⟨⟨k, n⟩, hkv, hq⟩ := List.mem_filterMap.mp hq
  obtain ⟨-, hres⟩ := List.mem_filter.mp hkv
  simp only [decide_eq_true_eq] at hres
  split at hq
  · rename_i r hr
    obtain ⟨rfl, hne⟩ := eq_append_of_below hr
    split at hq
    · cases hq
      rename_i hlast
      refine ⟨r, rfl, by rwa [List.getLast?_append_of_ne_nil _ hne] at hlast, fun c hc => ?_⟩
      exact isName_of_mem_lexicalResolve _ c (hres ▸ List.mem_append_right _ hc)
    · cases hq
  · cases hq

/-- Whether a node is a file. -/
def isFileNode : Option Node → Bool
  | some (.file _) => true
  | _ => false

/-- The text of a node that is a file. -/
def fileText : Option Node → Option String
  | some (.file text) => some text
  | _ => none

/-- A node that has a text is a file. -/
theorem isFileNode_of_fileText {n : Option Node} {text : String} (h : fileText n = some text) :
    isFileNode n = true := by
  rcases n with _ | _ | _ <;> simp_all [fileText, isFileNode]

/-- A file is not a directory. -/
theorem ne_dir_of_isFileNode {n : Option Node} (h : isFileNode n = true) : n ≠ some .dir := by
  rcases n with _ | _ | _ <;> simp_all [isFileNode]

/-- The view of a tree: paths resolve lexically, and each call looks at the resolved path. -/
def view (t : Tree) : FsView where
  resolve := lexicalResolve
  isDir p := t.node (lexicalResolve p) = some .dir
  isFile p := isFileNode (t.node (lexicalResolve p))
  pathExists p := (t.node (lexicalResolve p)).isSome
  iterdir p := t.reachable.filterMap fun kv =>
    (entryName (lexicalResolve p) kv.1).map fun c => p ++ [c]
  rglob p pattern := t.reachable.filterMap fun kv =>
    match below (lexicalResolve p) kv.1 with
    | some r => if kv.1.getLast? = some pattern then some (p ++ r) else none
    | none => none
  readText p := fileText (t.node (lexicalResolve p))
  resolve_resolve := lexicalResolve_lexicalResolve
  isName_of_mem_resolve := isName_of_mem_lexicalResolve
  rglob_spec := rglob_spec t
  isFile_of_readText _ _ := isFileNode_of_fileText
  isDir_eq_false_of_isFile _ h := by simpa using ne_dir_of_isFileNode h

/-! ## The two changes -/

/-- A path below the root is not its own parent. -/
theorem dropLast_ne_self {q : PosixPath} (hq : q ≠ []) : q.dropLast ≠ q := fun h => by
  have := congrArg List.length h
  simp only [List.length_dropLast] at this
  have : 0 < q.length := List.length_pos.mpr hq
  omega

/-- Where a node can be put: below the root, in a directory, and not at a directory, so that
nothing is below the path. -/
def Writable (t : Tree) (q : PosixPath) : Prop :=
  q ≠ [] ∧ t.node q.dropLast = some .dir ∧ t.node q ≠ some .dir

instance (t : Tree) (q : PosixPath) : Decidable (t.Writable q) :=
  inferInstanceAs (Decidable (_ ∧ _ ∧ _))

/-- Setting the node at a path below the root. -/
theorem nodeAt_set (nodes : Dict PosixPath Node) {q : PosixPath} (hq : q ≠ []) (n : Node)
    (x : PosixPath) : nodeAt (nodes.set q n) x = if x = q then some n else nodeAt nodes x := by
  by_cases hx : x = q
  · subst hx; simp [nodeAt, hq]
  · by_cases h0 : x = [] <;> simp [nodeAt, hx, h0, hq]

/-- The tree with the node `n` at the resolved writable path `q`. -/
def put (t : Tree) (q : PosixPath) (n : Node) (hq : t.Writable q) (hres : lexicalResolve q = q) :
    Tree where
  nodes := t.nodes.set q n
  wellFormed := by
    obtain ⟨hq0, hpar, hnd⟩ := hq
    refine ⟨Dict.nodup_keys_set _ _ _ t.wellFormed.nodup, fun kv hkv => ?_, fun kv hkv => ?_,
      fun kv hkv => ?_⟩
    · rcases Dict.mem_setItem hkv with rfl | hkv
      exacts [hq0, t.wellFormed.ne_nil kv hkv]
    · rcases Dict.mem_setItem hkv with rfl | hkv
      exacts [hres, t.wellFormed.resolved kv hkv]
    · rw [nodeAt_set _ hq0]
      rcases Dict.mem_setItem hkv with rfl | hkv
      · exact (if_neg (dropLast_ne_self hq0)).trans hpar
      · have hp := t.wellFormed.parent_dir kv hkv
        rw [if_neg fun he : kv.1.dropLast = q => hnd (he ▸ hp)]
        exact hp

/-- `put` sets its node and leaves the rest. -/
theorem node_put (t : Tree) {q : PosixPath} {n : Node} (hq : t.Writable q)
    (hres : lexicalResolve q = q) (x : PosixPath) :
    (t.put q n hq hres).node x = if x = q then some n else t.node x :=
  nodeAt_set _ hq.1 n x

/-- Keeping the items at the paths a test keeps. -/
theorem nodeAt_filter (nodes : Dict PosixPath Node) (keep : PosixPath → Bool) {x : PosixPath}
    (hx : x ≠ []) :
    nodeAt ⟨nodes.items.filter fun kv => decide (keep kv.1 = true)⟩ x =
      if keep x = true then nodeAt nodes x else none := by
  simp only [nodeAt, hx, if_false, Dict.get]
  exact Dict.findItem_filter (fun x => keep x = true) x nodes.items

/-- The tree with only the nodes at the paths `keep` keeps; `keep` keeps the parent of each path
below the root that it keeps. -/
def restrict (t : Tree) (keep : PosixPath → Bool)
    (hkeep : ∀ x, keep x = true → x.dropLast ≠ [] → keep x.dropLast = true) : Tree where
  nodes := ⟨t.nodes.items.filter fun kv => decide (keep kv.1 = true)⟩
  wellFormed := by
    refine ⟨t.wellFormed.nodup.sublist ((List.filter_sublist _).map _),
      fun kv hkv => t.wellFormed.ne_nil kv (List.mem_of_mem_filter hkv),
      fun kv hkv => t.wellFormed.resolved kv (List.mem_of_mem_filter hkv), fun kv hkv => ?_⟩
    have hk : keep kv.1 = true := by simpa using (List.mem_filter.mp hkv).2
    have hp := t.wellFormed.parent_dir kv (List.mem_of_mem_filter hkv)
    by_cases h0 : kv.1.dropLast = []
    · rw [h0]; rfl
    · rw [nodeAt_filter _ _ h0, if_pos (hkeep _ hk h0)]
      exact hp

/-- `restrict` empties the paths it does not keep. -/
theorem node_restrict (t : Tree) {keep : PosixPath → Bool}
    (hkeep : ∀ x, keep x = true → x.dropLast ≠ [] → keep x.dropLast = true) (x : PosixPath) :
    (t.restrict keep hkeep).node x = if x ≠ [] ∧ keep x = false then none else t.node x := by
  by_cases h0 : x = []
  · subst h0; simp
  · have h := nodeAt_filter t.nodes keep h0
    simp only [node, restrict, h]
    cases keep x <;> simp [h0]

end Tree

/-- The tree a call leaves, whether it raised or not. -/
def leftTree : Except Tree Tree → Tree
  | .ok t => t
  | .error t => t

end BrewvaSkills

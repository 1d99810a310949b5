import BrewvaSkills.Destination
import BrewvaSkills.TreeCalls

/-!
# The copy phase of `main`

From `source_dir_for_copy` to the `finally` of the copy. With `--force` and a source directory
that is the destination itself, `main` first copies the source into a fresh staging directory and
copies from there. In a `try`, it removes an existing destination under `--force`, makes the
destination's parent, and copies; an exception there makes `main` return 1, and the `finally`
removes the staging directory, ignoring errors. The copy into the staging directory comes before
the `try`: an exception there leaves `main`, and nothing removes the staging directory.

Paths resolve as on a tree, lexically. `faults` says, for each call of the phase, whether it fails
for a reason the tree model does not have, and at which paths (`BrewvaSkills.TreeCalls`): a
failing call raises having done part of its work, and the failures of the cleanup are swallowed,
so that it can leave part of the staging directory behind.

`Tree.forkedNode` says what a fork is for: the destination's subtree becomes what the source's
was, the missing directories on the way to the destination are made, and nothing else changes.
At a resolved destination, the phase changes only the destination's subtree, the missing
directories on the way to it and the staging directory's subtree, however its calls fail
(`copyPhase_changesOnly`). When it copies from a source that is not strictly above the
destination, it leaves the fork of the source onto the destination outside the staging directory,
and inside it too when the cleanup does not fail (`copyPhase_forked`). The staging run forks the
destination onto itself, and so leaves the tree as it was. With no fault it does copy to a missing
destination (`copyPhase_copied`). When it fails: the staging run that does not raise leaves no
staging directory unless the cleanup fails (`copyPhase_removes_staging`), and a copy into an
existing destination that fails leaves there at most part of the copy (`copyPhase_copyFault`).
-/

namespace BrewvaSkills

/-- The filesystem calls of the copy phase, in the order `main` makes them. -/
inductive CopyCall where
  | mkdtemp
  | stageCopy
  | removeDestination
  | makeParents
  | copyToDestination
  | cleanup
  deriving DecidableEq, Repr

/-- Where the calls of the copy phase fail for a reason the tree model does not have: for each
call, `none` when it runs as the tree says, or the paths whose primitive operations fail. -/
abbrev Faults := CopyCall → Option (PosixPath → Bool)

/-- `if destination_skill_dir.exists() and args.force: shutil.rmtree(destination_skill_dir)`. -/
def removeExisting (faults : Faults) (force : Bool) (dest : PosixPath) (t : Tree) :
    Except Tree Tree :=
  if t.view.pathExists dest && force then t.rmtree dest (faults .removeDestination) else .ok t

/-- The `try` block of the copy: remove an existing destination under `--force`, make its parent,
and copy. -/
def copyIntoDestination (faults : Faults) (force : Bool) (sourceDirForCopy dest : PosixPath)
    (t : Tree) : Except Tree Tree := do
  let t ← removeExisting faults force dest t
  let t ← t.mkdir dest.parent (faults .makeParents)
  t.copytree sourceDirForCopy dest (faults .copyToDestination)

/-- `shutil.rmtree(staged_temp_dir, ignore_errors=True)` in the `finally`, when a staging directory
was made and still exists. -/
def cleanupStaging (faults : Faults) (t : Tree) : Option PosixPath → Tree
  | none => t
  | some staged =>
    if t.view.pathExists staged then
      t.rmtreeIgnoringErrors staged ((faults .cleanup).getD fun _ => false)
    else t

/-- How the copy phase ends: on to the checks after the copy, with `main` returning 1, or with an
exception that leaves `main`. -/
inductive CopyOutcome where
  | copied
  | failed
  | raised
  deriving DecidableEq, Repr

/-- How the copy phase ends, and the tree it leaves. -/
structure CopyEnd where
  /-- How it ends. -/
  outcome : CopyOutcome
  /-- The tree it leaves. -/
  tree : Tree

/-- The `except` and the `finally` of the copy. -/
def finishCopy (faults : Faults) (staged : Option PosixPath) : Except Tree Tree → CopyEnd
  | .ok t => ⟨.copied, cleanupStaging faults t staged⟩
  | .error t => ⟨.failed, cleanupStaging faults t staged⟩

/-- The copy phase of `main`, from the source entry's `base_dir` to the destination `dest`;
`stagingDir` is the name that `tempfile.mkdtemp` picks. -/
def copyPhase (faults : Faults) (force : Bool) (baseDir dest stagingDir : PosixPath) (t : Tree) :
    CopyEnd :=
  let sourceDirForCopy := lexicalResolve baseDir
  if force = true ∧ sourceDirForCopy = lexicalResolve dest then
    match t.mkdtemp stagingDir (faults .mkdtemp) with
    | .error t => ⟨.raised, t⟩
    | .ok t =>
      let stagedTempDir := lexicalResolve stagingDir
      let stagedSource := lexicalResolve (stagedTempDir.div "source")
      match t.copytree sourceDirForCopy stagedSource (faults .stageCopy) with
      | .error t => ⟨.raised, t⟩
      | .ok t =>
        finishCopy faults (some stagedTempDir) (copyIntoDestination faults force stagedSource dest t)
  else finishCopy faults none (copyIntoDestination faults force sourceDirForCopy dest t)

/-! ## What a fork is for

A fork of `src` onto `dest` makes the subtree at `dest` what the subtree at `src` was, makes the
missing directories on the way to `dest`, and changes nothing else. -/

/-- The node at `x` after a fork of `src` onto `dest`. -/
def Tree.forkedNode (t : Tree) (src dest x : PosixPath) : Option Node :=
  if dest <+: x then t.node (src ++ x.drop dest.length)
  else if x <+: dest ∧ t.node x = none then some .dir
  else t.node x

/-- Below the destination, the fork holds what was below the source. -/
@[simp] theorem Tree.forkedNode_append (t : Tree) (src dest r : PosixPath) :
    t.forkedNode src dest (dest ++ r) = t.node (src ++ r) := by
  simp [Tree.forkedNode]

/-- Forking a path that is there onto itself changes nothing. -/
theorem Tree.forkedNode_self (t : Tree) {dest : PosixPath} (hd : t.node dest ≠ none) (x : PosixPath) :
    t.forkedNode dest dest x = t.node x := by
  unfold Tree.forkedNode
  split
  · rename_i hx
    obtain ⟨r, rfl⟩ := hx
    rw [List.drop_left]
  · rw [if_neg fun hx => t.node_ne_none_of_prefix hx.1 hd hx.2]

/-! ## What the copy phase can do

The `try` block ends with the tree its calls left, whether one raised or not: `leftTree` is that
tree, and `copyIntoDestination_induct` shows that a property of trees that each of its calls keeps,
however it fails, holds of it. -/

/-- A property of the tree left by each of two blocks holds of the tree their sequence leaves. -/
theorem leftTree_bind (P : Tree → Prop) {x : Except Tree Tree} {f : Tree → Except Tree Tree}
    (hx : P (leftTree x)) (hf : ∀ t, P t → P (leftTree (f t))) : P (leftTree (x >>= f)) := by
  cases x with
  | error t => exact hx
  | ok t => exact hf t hx

/-- A property that each call of the `try` block keeps, however it fails, holds of the tree the
block leaves. -/
theorem copyIntoDestination_induct (P : Tree → Prop) (faults : Faults) (force : Bool)
    (src dest : PosixPath) {t : Tree} (h0 : P t)
    (hrm : ∀ t, P t → P (leftTree (t.rmtree dest (faults .removeDestination))))
    (hmk : ∀ t, P t → P (leftTree (t.mkdir dest.parent (faults .makeParents))))
    (hcp : ∀ t, P t → P (leftTree (t.copytree src dest (faults .copyToDestination)))) :
    P (leftTree (copyIntoDestination faults force src dest t)) := by
  have hfirst : P (leftTree (removeExisting faults force dest t)) := by
    unfold removeExisting
    split
    · exact hrm t h0
    · exact h0
  exact leftTree_bind P hfirst fun t1 h1 => leftTree_bind P (hmk t1 h1) hcp

/-- The tree after the `finally` is the cleanup of the tree the `try` block left. -/
theorem finishCopy_tree (faults : Faults) (staged : Option PosixPath) (r : Except Tree Tree) :
    (finishCopy faults staged r).tree = cleanupStaging faults (leftTree r) staged := by
  cases r <;> rfl

/-- The staged source is the staging directory's `source`. -/
@[simp] theorem lexicalResolve_div_source (p : PosixPath) :
    lexicalResolve ((lexicalResolve p).div "source") = lexicalResolve p ++ ["source"] := by
  rw [PosixPath.div_of_isPart _ (by decide), lexicalResolve_append_of_isName _ (by decide),
    lexicalResolve_lexicalResolve]

/-- The staged source is resolved. -/
@[simp] theorem lexicalResolve_append_source (p : PosixPath) :
    lexicalResolve (lexicalResolve p ++ ["source"]) = lexicalResolve p ++ ["source"] := by
  rw [← lexicalResolve_div_source, lexicalResolve_lexicalResolve]

/-- What the copy phase can do: the `try` block from the source itself; or the staging run, which
raises at `mkdtemp` with the tree as it was, raises at the copy into the staging directory with
what that copy left, or runs the `try` block from that copy. -/
theorem copyPhase_cases (faults : Faults) (force : Bool) (baseDir dest stagingDir : PosixPath)
    (t : Tree) :
    (¬(force = true ∧ lexicalResolve baseDir = lexicalResolve dest) ∧
      copyPhase faults force baseDir dest stagingDir t =
        finishCopy faults none (copyIntoDestination faults force (lexicalResolve baseDir) dest t)) ∨
    (force = true ∧ lexicalResolve baseDir = lexicalResolve dest ∧
      (copyPhase faults force baseDir dest stagingDir t = ⟨.raised, t⟩ ∨
        ∃ t1, t.mkdtemp stagingDir (faults .mkdtemp) = .ok t1 ∧
          (copyPhase faults force baseDir dest stagingDir t = ⟨.raised, leftTree
              (t1.copytree (lexicalResolve baseDir) (lexicalResolve stagingDir ++ ["source"])
                (faults .stageCopy))⟩ ∨
            ∃ t2, t1.copytree (lexicalResolve baseDir) (lexicalResolve stagingDir ++ ["source"])
                (faults .stageCopy) = .ok t2 ∧
              copyPhase faults force baseDir dest stagingDir t =
                finishCopy faults (some (lexicalResolve stagingDir)) (copyIntoDestination faults force
                  (lexicalResolve stagingDir ++ ["source"]) dest t2)))) := by
  generalize hc : copyPhase faults force baseDir dest stagingDir t = c
  unfold copyPhase at hc
  dsimp only at hc
  split at hc
  · rename_i hrun
    refine .inr ⟨hrun.1, hrun.2, ?_⟩
    split at hc
    · rename_i h1; exact .inl (by rw [← hc, Tree.mkdtemp_eq_error h1])
    · rename_i t1 h1
      refine .inr ⟨t1, h1, ?_⟩
      rw [lexicalResolve_div_source] at hc
      split at hc
      · rename_i h2; exact .inl (by rw [← hc, h2]; rfl)
      · rename_i t2 h2
        exact .inr ⟨t2, h2, hc.symm⟩
  · exact .inl ⟨‹_›, hc.symm⟩

/-! ## What the copy phase leaves alone

At a resolved destination, each call of the `try` block changes only the destination's subtree and
the missing directories on the way to it, however it fails; the staging run adds the subtree of
the staging directory. -/

section Frame

variable {dest : PosixPath}

/-- The parent of a resolved destination is resolved. -/
theorem lexicalResolve_parent (hdest : lexicalResolve dest = dest) :
    lexicalResolve dest.parent = dest.parent :=
  lexicalResolve_of_prefix (p := dest) (by rw [hdest]; exact List.dropLast_prefix dest)

/-- Removing a resolved destination changes only its subtree. -/
theorem changesOnly_rmtree_destination (hdest : lexicalResolve dest = dest) (t : Tree)
    (fault : Option (PosixPath → Bool)) :
    Tree.ChangesOnly (dest <+: ·) (· <+: dest) t (leftTree (t.rmtree dest fault)) :=
  (Tree.changesOnly_rmtree t dest fault).mono (fun _ hx => hdest ▸ hx) fun _ _ _ hf => hf.elim

/-- Making a resolved destination's parent only makes the directories on the way to it. -/
theorem changesOnly_mkdir_parent (hdest : lexicalResolve dest = dest) (t : Tree)
    (fault : Option (PosixPath → Bool)) :
    Tree.ChangesOnly (dest <+: ·) (· <+: dest) t (leftTree (t.mkdir dest.parent fault)) :=
  (Tree.changesOnly_mkdir t dest.parent fault).mono (fun _ hf => hf.elim) fun _ _ _ hx => by
    rw [lexicalResolve_parent hdest] at hx
    exact hx.trans (List.dropLast_prefix dest)

/-- Copying to a resolved destination changes only its subtree and the way to it. -/
theorem changesOnly_copytree_destination (hdest : lexicalResolve dest = dest) (t : Tree)
    (src : PosixPath) (fault : Option (PosixPath → Bool)) :
    Tree.ChangesOnly (dest <+: ·) (· <+: dest) t (leftTree (t.copytree src dest fault)) := by
  simpa only [hdest] using Tree.changesOnly_copytree t src dest fault

/-- The `try` block changes only the subtree of a resolved destination, and makes the missing
directories on the way to it, however its calls fail. -/
theorem copyIntoDestination_changesOnly (faults : Faults) (force : Bool) (src : PosixPath)
    (hdest : lexicalResolve dest = dest) (t : Tree) :
    Tree.ChangesOnly (dest <+: ·) (· <+: dest) t
      (leftTree (copyIntoDestination faults force src dest t)) :=
  copyIntoDestination_induct (Tree.ChangesOnly (dest <+: ·) (· <+: dest) t) faults force src dest
    (.refl _ _ _) (fun t1 h1 => h1.trans (changesOnly_rmtree_destination hdest t1 _))
    (fun t1 h1 => h1.trans (changesOnly_mkdir_parent hdest t1 _))
    (fun t1 h1 => h1.trans (changesOnly_copytree_destination hdest t1 src _))

/-- A sequence of two blocks that does not raise is the first followed by the second. -/
theorem bind_eq_ok {x : Except Tree Tree} {f : Tree → Except Tree Tree} {t' : Tree}
    (h : (x >>= f) = .ok t') : ∃ t, x = .ok t ∧ f t = .ok t' := by
  cases x with
  | error t => cases h
  | ok t => exact ⟨t, rfl, h⟩

/-- A `try` block that does not raise left or removed the destination, made its parents, and
copied. -/
theorem copyIntoDestination_eq_ok {faults : Faults} {force : Bool} {src : PosixPath}
    {t t' : Tree} (h : copyIntoDestination faults force src dest t = .ok t') :
    ∃ t1 t2, (t1 = t ∨ t.rmtree dest (faults .removeDestination) = .ok t1) ∧
      t1.mkdir dest.parent (faults .makeParents) = .ok t2 ∧
      t2.copytree src dest (faults .copyToDestination) = .ok t' := by
  unfold copyIntoDestination at h
  obtain ⟨t1, h1, h⟩ := bind_eq_ok h
  obtain ⟨t2, h2, h3⟩ := bind_eq_ok h
  refine ⟨t1, t2, ?_, h2, h3⟩
  unfold removeExisting at h1
  split at h1
  · exact .inr h1
  · cases h1; exact .inl rfl

/-- A `try` block that does not raise copied from a source that the destination is not above. -/
theorem copyIntoDestination_ok_not_prefix {faults : Faults} {force : Bool} {src : PosixPath}
    (hdest : lexicalResolve dest = dest) {t t' : Tree}
    (hok : copyIntoDestination faults force src dest t = .ok t') : ¬dest <+: lexicalResolve src := by
  obtain ⟨_, _, _, _, h3⟩ := copyIntoDestination_eq_ok hok
  exact hdest ▸ Tree.not_prefix_of_copytree h3

/-- A `try` block that does not raise, from a source that is not strictly above a resolved
destination: the destination is not above the source, and what is at and below the destination
is what was at and below the source. -/
theorem copyIntoDestination_ok_node {faults : Faults} {force : Bool} {src : PosixPath}
    (hdest : lexicalResolve dest = dest) {t t' : Tree}
    (hnest : lexicalResolve src <+: dest → lexicalResolve src = dest)
    (hok : copyIntoDestination faults force src dest t = .ok t') :
    ¬dest <+: lexicalResolve src ∧ ∀ r, t'.node (dest ++ r) = t.node (lexicalResolve src ++ r) := by
  obtain ⟨t1, t2, h1, h2, h3⟩ := copyIntoDestination_eq_ok hok
  have f1 : Tree.ChangesOnly (dest <+: ·) (· <+: dest) t t1 := by
    rcases h1 with rfl | h1
    · exact .refl _ _ _
    · simpa [h1, leftTree] using changesOnly_rmtree_destination hdest t (faults .removeDestination)
  have f2 := f1.trans (by simpa [h2, leftTree] using changesOnly_mkdir_parent hdest t1 (faults .makeParents))
  have hsrc := copyIntoDestination_ok_not_prefix hdest hok
  refine ⟨hsrc, fun r => ?_⟩
  have hout : ¬dest <+: lexicalResolve src ++ r := fun hd =>
    (List.prefix_or_prefix_of_prefix hd (List.prefix_append _ _)).elim hsrc
      fun hs => hsrc (hnest hs ▸ List.prefix_refl _)
  have hin : ¬lexicalResolve src ++ r <+: dest := fun hs =>
    hsrc (hnest ((List.prefix_append _ _).trans hs) ▸ List.prefix_refl _)
  have hcopy := Tree.node_copytree_append h3 r
  rw [hdest] at hcopy
  rw [hcopy, f2.node_eq_of_not hout hin]

/-- A `try` block that does not raise, from a source that is not strictly above a resolved
destination, leaves the fork of the source onto the destination. -/
theorem copyIntoDestination_ok_forked {faults : Faults} {force : Bool} {src : PosixPath}
    (hdest : lexicalResolve dest = dest) {t t' : Tree}
    (hnest : lexicalResolve src <+: dest → lexicalResolve src = dest)
    (hok : copyIntoDestination faults force src dest t = .ok t') (x : PosixPath) :
    t'.node x = t.forkedNode (lexicalResolve src) dest x := by
  unfold Tree.forkedNode
  split
  · rename_i hx
    obtain ⟨r, rfl⟩ := hx
    rw [(copyIntoDestination_ok_node hdest hnest hok).2 r, List.drop_left]
  · rename_i hx
    obtain ⟨t1, t2, h1, h2, h3⟩ := copyIntoDestination_eq_ok hok
    -- Outside the destination, removing it changes nothing, and the copy makes only what is on
    -- the way to it.
    have e1 : t1.node x = t.node x := by
      rcases h1 with rfl | h1
      · rfl
      · rw [(Tree.rmtree_eq_ok h1).2.2, hdest, if_neg hx]
    have hb : Tree.below (lexicalResolve dest) x = none := by
      rw [hdest]
      cases hb : Tree.below dest x with
      | none => rfl
      | some r => exact absurd ((Tree.eq_append_of_below hb).1 ▸ List.prefix_append _ _) hx
    rw [(Tree.copytree_eq_ok h3).2.2, hb, Tree.node_mkdir_ok h2, e1, hdest, lexicalResolve_parent hdest]
    by_cases hxd : x <+: dest
    · cases t.node x <;> simp [hxd, PosixPath.isPrefix_parent hxd hx]
    · have hxp : ¬x <+: dest.parent := fun hp => hxd (hp.trans (List.dropLast_prefix dest))
      simp [hxd, hxp]

/-- The `try` block puts no file at a path on the way to its source that was not a file, however
its calls fail. -/
theorem copyIntoDestination_not_file (faults : Faults) (force : Bool) {src : PosixPath} (t : Tree)
    {s : PosixPath} (hs : s <+: lexicalResolve src) (hfile : ∀ text, t.node s ≠ some (.file text))
    (text : String) :
    (leftTree (copyIntoDestination faults force src dest t)).node s ≠ some (.file text) :=
  copyIntoDestination_induct (fun t' => ∀ text, t'.node s ≠ some (.file text)) faults force src dest
    hfile
    (fun t1 h1 text => by
      rcases Tree.node_rmtree_left t1 dest (faults .removeDestination) s with he | he <;>
        rw [he] <;> simp [h1])
    (fun t1 h1 text => by
      rcases Tree.changesOnly_mkdir t1 dest.parent (faults .makeParents) s not_false with
        he | ⟨-, hd, -⟩
      · rw [he]; exact h1 text
      · simp [hd])
    (fun t1 h1 text => by rw [Tree.node_copytree_of_prefix t1 _ hs]; exact h1 text) text

end Frame

/-! ## The staging directory -/

/-- The `finally` changes only the staging directory's subtree. -/
theorem changesOnly_cleanupStaging (faults : Faults) (t : Tree) (s : PosixPath) :
    Tree.ChangesOnly (lexicalResolve s <+: ·) (fun _ => False) t (cleanupStaging faults t (some s)) := by
  simp only [cleanupStaging]
  split_ifs
  · exact Tree.changesOnly_rmtree t s _
  · exact .refl _ _ _

/-- When the cleanup does not fail, the `finally` leaves nothing at or below a staging directory
that is not a file. -/
theorem node_cleanupStaging {faults : Faults} (hclean : faults .cleanup = none) {t : Tree}
    {s : PosixPath} (hs : lexicalResolve s ≠ []) (hfile : ∀ text, t.node (lexicalResolve s) ≠ some (.file text))
    {x : PosixPath} (hx : lexicalResolve s <+: x) : (cleanupStaging faults t (some s)).node x = none := by
  obtain ⟨r, rfl⟩ := hx
  cases hn : t.node (lexicalResolve s) with
  | none => simpa [cleanupStaging, Tree.view, hn] using t.node_append_eq_none hn r
  | some n =>
    cases n with
    | dir =>
      simp [cleanupStaging, Tree.view, hn, Tree.rmtreeIgnoringErrors, Tree.rmtree, hs, hclean,
        leftTree, Tree.node_prune_none t hs]
    | file text => exact absurd hn (hfile text)

/-- The staging directory and the copy into it, however that copy fails, change only the staging
directory's subtree. -/
theorem changesOnly_staging {t t1 : Tree} {stagingDir : PosixPath} {fault : Option (PosixPath → Bool)}
    (hm : t.mkdtemp stagingDir fault = .ok t1) (src : PosixPath) (fault' : Option (PosixPath → Bool)) :
    Tree.ChangesOnly (lexicalResolve stagingDir <+: ·) (fun _ => False) t
      (leftTree (t1.copytree src (lexicalResolve stagingDir ++ ["source"]) fault')) := by
  have f1 : Tree.ChangesOnly (lexicalResolve stagingDir <+: ·) (fun _ => False) t t1 := by
    simpa [hm, leftTree] using Tree.changesOnly_mkdtemp t stagingDir fault
  have hs1 : t1.node (lexicalResolve stagingDir) ≠ none := by simp [(Tree.mkdtemp_eq_ok hm).2.2]
  refine f1.trans ((Tree.changesOnly_copytree t1 src _ fault').mono (fun x hx => ?_)
    fun x hx hn hA => ?_)
  · rw [lexicalResolve_append_source] at hx
    exact (List.prefix_append _ _).trans hx
  · -- What the copy makes on the way to the staged source is the source or above the staging
    -- directory, which is there.
    rw [lexicalResolve_append_source, List.prefix_concat_iff] at hA
    rcases hA with rfl | hA
    · exact hx (List.prefix_append _ _)
    · exact t1.node_ne_none_of_prefix hA hs1 hn

/-- When the cleanup does not fail, a staging run that gets to the `try` block leaves nothing at or
below the staging directory, whether the block raises or not. -/
theorem cleanupStaging_staged {faults : Faults} (hclean : faults .cleanup = none) (force : Bool)
    {t t1 t2 : Tree} {src dest stagingDir : PosixPath}
    (hm : t.mkdtemp stagingDir (faults .mkdtemp) = .ok t1)
    (hcp : t1.copytree src (lexicalResolve stagingDir ++ ["source"]) (faults .stageCopy) = .ok t2)
    {x : PosixPath} (hx : lexicalResolve stagingDir <+: x) :
    (cleanupStaging faults (leftTree (copyIntoDestination faults force
      (lexicalResolve stagingDir ++ ["source"]) dest t2)) (some (lexicalResolve stagingDir))).node x =
      none := by
  obtain ⟨hS0, -, hmk⟩ := Tree.mkdtemp_eq_ok hm
  -- The copy into the staging directory keeps the directory itself.
  have hS2 : t2.node (lexicalResolve stagingDir) = some .dir := by
    have hkeep := (Tree.changesOnly_copytree t1 src (lexicalResolve stagingDir ++ ["source"])
      (faults .stageCopy)).node_eq (x := lexicalResolve stagingDir)
      (by rw [lexicalResolve_append_source]; exact fun hp => absurd hp.length_le (by simp))
      (by simp [hmk])
    simpa [hcp, leftTree, hmk] using hkeep
  exact node_cleanupStaging hclean (by simpa using fun h0 => by simp [h0] at hS0)
    (fun text => by
      simpa using @copyIntoDestination_not_file dest faults force
        (lexicalResolve stagingDir ++ ["source"]) t2 _ (by simp) (by simp [hS2]) text)
    (by simpa using hx)

/-- The copy phase changes only the subtrees of a resolved destination and of the staging
directory, and makes the missing directories on the way to the destination, however its calls
fail. -/
theorem copyPhase_changesOnly (faults : Faults) (force : Bool) (baseDir : PosixPath)
    {dest : PosixPath} (stagingDir : PosixPath) (hdest : lexicalResolve dest = dest) (t : Tree) :
    Tree.ChangesOnly (fun x => dest <+: x ∨ lexicalResolve stagingDir <+: x) (· <+: dest) t
      (copyPhase faults force baseDir dest stagingDir t).tree := by
  have htry : ∀ (src : PosixPath) (t : Tree),
      Tree.ChangesOnly (fun x => dest <+: x ∨ lexicalResolve stagingDir <+: x) (· <+: dest) t
        (leftTree (copyIntoDestination faults force src dest t)) := fun _ t =>
    (copyIntoDestination_changesOnly faults force _ hdest t).mono (fun _ => .inl) fun _ _ _ => id
  have hstaging : ∀ {t0 t' : Tree},
      Tree.ChangesOnly (lexicalResolve stagingDir <+: ·) (fun _ => False) t0 t' →
      Tree.ChangesOnly (fun x => dest <+: x ∨ lexicalResolve stagingDir <+: x) (· <+: dest) t0 t' :=
    fun h => h.mono (fun _ => .inr) fun _ _ _ hf => hf.elim
  rcases copyPhase_cases faults force baseDir dest stagingDir t with
    ⟨-, he⟩ | ⟨-, -, he | ⟨t1, hm, he | ⟨t2, hc, he⟩⟩⟩ <;> rw [he]
  · rw [finishCopy_tree]
    exact htry _ t
  · exact .refl _ _ _
  · exact hstaging (changesOnly_staging hm _ _)
  · rw [finishCopy_tree]
    have f2 := changesOnly_staging hm (lexicalResolve baseDir) (faults .stageCopy)
    simp only [hc, leftTree] at f2
    refine (hstaging f2).trans ((htry (lexicalResolve stagingDir ++ ["source"]) t2).trans
      (hstaging ?_))
    simpa using changesOnly_cleanupStaging faults
      (leftTree (copyIntoDestination faults force (lexicalResolve stagingDir ++ ["source"]) dest t2))
      (lexicalResolve stagingDir)

/-- Without `--force` nothing is staged: the copy phase changes only the destination's subtree and
the missing directories on the way to it. -/
theorem copyPhase_changesOnly_of_not_force (faults : Faults) (baseDir : PosixPath)
    {dest : PosixPath} (stagingDir : PosixPath) (hdest : lexicalResolve dest = dest) (t : Tree) :
    Tree.ChangesOnly (dest <+: ·) (· <+: dest) t
      (copyPhase faults false baseDir dest stagingDir t).tree := by
  rcases copyPhase_cases faults false baseDir dest stagingDir t with ⟨-, he⟩ | ⟨hf, -⟩
  · rw [he, finishCopy_tree]
    exact copyIntoDestination_changesOnly faults false _ hdest t
  · cases hf

/-- The staging run of a destination onto itself that completes leaves the tree as it was, which
is the fork of the destination onto itself: outside the staging directory, and inside it too when
the cleanup does not fail. -/
theorem copyPhase_staged_node (faults : Faults) (force : Bool) {t t1 t2 t3 : Tree}
    {dest stagingDir : PosixPath} (hdest : lexicalResolve dest = dest)
    (hm : t.mkdtemp stagingDir (faults .mkdtemp) = .ok t1)
    (hcp : t1.copytree dest (lexicalResolve stagingDir ++ ["source"]) (faults .stageCopy) = .ok t2)
    (hok : copyIntoDestination faults force (lexicalResolve stagingDir ++ ["source"]) dest t2 =
      .ok t3) (x : PosixPath) (hx : ¬lexicalResolve stagingDir <+: x ∨ faults .cleanup = none) :
    (cleanupStaging faults t3 (some (lexicalResolve stagingDir))).node x =
      t.forkedNode dest dest x := by
  obtain ⟨hS0, -, hmk⟩ := Tree.mkdtemp_eq_ok hm
  have hstage := changesOnly_staging hm dest (faults .stageCopy)
  simp only [hcp, leftTree] at hstage
  have hnot : ¬dest <+: lexicalResolve stagingDir ++ ["source"] := by
    simpa using copyIntoDestination_ok_not_prefix hdest hok
  -- The destination was there, so the staging directory, which was missing, is not above it.
  have hD : t.node dest = some .dir := by
    have hsrc1 := (Tree.copytree_eq_ok hcp).1
    rwa [hdest, hmk, if_neg (by rintro rfl; exact hnot (List.prefix_append _ _))] at hsrc1
  have hStD : ¬lexicalResolve stagingDir <+: dest := fun hp =>
    t.node_ne_none_of_prefix hp (by simp [hD]) hS0
  rw [Tree.forkedNode_self t (by simp [hD])]
  by_cases hxS : lexicalResolve stagingDir <+: x
  · -- Without a cleanup fault, the `finally` removes what is below the staging directory, where
    -- nothing was.
    have hgone := @cleanupStaging_staged faults (hx.resolve_left (not_not.mpr hxS)) force t t1 t2
      dest dest stagingDir hm hcp x hxS
    simp only [hok, leftTree] at hgone
    obtain ⟨r, rfl⟩ := hxS
    rw [hgone, t.node_append_eq_none hS0]
  · have hnest : lexicalResolve (lexicalResolve stagingDir ++ ["source"]) <+: dest →
        lexicalResolve (lexicalResolve stagingDir ++ ["source"]) = dest := fun hp => by
      rw [lexicalResolve_append_source] at hp
      exact absurd ((List.prefix_append _ _).trans hp) hStD
    rw [(changesOnly_cleanupStaging faults t3 _).node_eq_of_not (by simpa using hxS) id,
      copyIntoDestination_ok_forked hdest hnest hok x, lexicalResolve_append_source]
    unfold Tree.forkedNode
    split
    · rename_i hdx
      obtain ⟨r, rfl⟩ := hdx
      have hcopy := Tree.node_copytree_append hcp r
      rw [hdest, lexicalResolve_append_source] at hcopy
      rw [List.drop_left, hcopy, hmk, if_neg (by rintro he; exact hxS (he ▸ List.prefix_refl _))]
    · rw [hstage.node_eq_of_not hxS id,
        if_neg fun hxd => t.node_ne_none_of_prefix hxd.1 (by simp [hD]) hxd.2]

/-- With no fault, the copy phase copies a source directory to a missing resolved destination
outside it, when no file stands on the way to the destination. -/
theorem copyPhase_copied (force : Bool) (baseDir : PosixPath) {dest : PosixPath}
    (stagingDir : PosixPath) {t : Tree} (hdest : lexicalResolve dest = dest)
    (hsrc : t.node (lexicalResolve baseDir) = some .dir) (habs : t.node dest = none)
    (hsd : ¬lexicalResolve baseDir <+: dest)
    (hway : ∀ x ∈ dest.inits, Tree.isFileNode (t.node x) = false) :
    (copyPhase (fun _ => none) force baseDir dest stagingDir t).outcome = .copied := by
  have hway' : ∀ x, x <+: dest → ∀ text, t.node x ≠ some (.file text) := fun x hx text he => by
    simpa [he, Tree.isFileNode] using hway x ((List.mem_inits _ _).mpr hx)
  have hne : lexicalResolve baseDir ≠ lexicalResolve dest := fun he => by
    rw [he, hdest, habs] at hsrc; cases hsrc
  have hd0 : dest ≠ [] := by rintro rfl; cases habs
  obtain ⟨t2, h2⟩ := Tree.makedirs_of_no_file t dest.parent fun x hx =>
    hway' x (((lexicalResolve_parent hdest) ▸ hx).trans (List.dropLast_prefix dest))
  -- Making the parents keeps the source, and makes nothing at the destination or a file anywhere.
  have hn2 := Tree.node_makedirs h2
  rw [lexicalResolve_parent hdest] at hn2
  have hd2 : t2.node dest = none := by
    rw [hn2, if_neg fun hh => PosixPath.not_prefix_parent hd0 (List.prefix_refl _) hh.1]
    exact habs
  have hs2 : t2.node (lexicalResolve baseDir) = some .dir := by
    rw [hn2, if_neg (by simp [hsrc])]; exact hsrc
  obtain ⟨t3, h3⟩ := Tree.copytree_of_dir t2 (s := lexicalResolve baseDir) (d := dest)
    (by rw [lexicalResolve_lexicalResolve]; exact hs2) (by rw [hdest]; exact hd2)
    (by rw [lexicalResolve_lexicalResolve, hdest]; exact hsd) fun x hx text => by
      rw [hdest] at hx
      rw [hn2]
      split
      · simp
      · exact hway' x hx text
  have hrem : removeExisting (fun _ => none) force dest t = .ok t := by
    simp [removeExisting, Tree.view, hdest, habs]
  have hok : copyIntoDestination (fun _ => none) force (lexicalResolve baseDir) dest t = .ok t3 := by
    simp [copyIntoDestination, hrem, Tree.mkdir, h2, h3, bind, Except.bind]
  simp [copyPhase, hne, hok, finishCopy]

/-- With `--force` onto the source itself, when the cleanup does not fail, a copy phase that does
not raise leaves nothing at or below the staging directory: the `finally` removes it whether the
copy succeeds or fails. -/
theorem copyPhase_removes_staging {faults : Faults} (hclean : faults .cleanup = none)
    (baseDir : PosixPath) {dest : PosixPath} (stagingDir : PosixPath) {t : Tree}
    (hsame : lexicalResolve baseDir = lexicalResolve dest)
    (hout : (copyPhase faults true baseDir dest stagingDir t).outcome ≠ .raised) {x : PosixPath}
    (hx : lexicalResolve stagingDir <+: x) :
    (copyPhase faults true baseDir dest stagingDir t).tree.node x = none := by
  rcases copyPhase_cases faults true baseDir dest stagingDir t with
    ⟨hrun, -⟩ | ⟨-, -, he | ⟨t1, hm, he | ⟨t2, hc, he⟩⟩⟩
  · exact absurd ⟨rfl, hsame⟩ hrun
  · rw [he] at hout; exact absurd rfl hout
  · rw [he] at hout; exact absurd rfl hout
  · rw [he, finishCopy_tree]
    exact cleanupStaging_staged hclean true hm hc hx

/-- A copy phase that completes, from a source directory that is not strictly above a resolved
destination, leaves the fork of the source onto the destination: outside the staging directory,
and inside it too when the cleanup does not fail. -/
theorem copyPhase_forked (faults : Faults) (force : Bool) (baseDir : PosixPath)
    {dest : PosixPath} (stagingDir : PosixPath) {t : Tree} (hdest : lexicalResolve dest = dest)
    (hnest : lexicalResolve baseDir <+: dest → lexicalResolve baseDir = dest)
    (hc : (copyPhase faults force baseDir dest stagingDir t).outcome = .copied) (x : PosixPath)
    (hx : ¬lexicalResolve stagingDir <+: x ∨ faults .cleanup = none) :
    (copyPhase faults force baseDir dest stagingDir t).tree.node x =
      t.forkedNode (lexicalResolve baseDir) dest x := by
  rcases copyPhase_cases faults force baseDir dest stagingDir t with
    ⟨-, he⟩ | ⟨-, hrun, he | ⟨t1, hm, he | ⟨t2, hcp, he⟩⟩⟩ <;> rw [he] at hc ⊢
  · cases hok : copyIntoDestination faults force (lexicalResolve baseDir) dest t with
    | error t3 => rw [hok] at hc; cases hc
    | ok t3 =>
      show (cleanupStaging faults t3 none).node x = _
      simpa using copyIntoDestination_ok_forked hdest (by simpa using hnest) hok x
  · cases hc
  · cases hc
  · -- The staging run forks the destination onto itself.
    have hS : lexicalResolve baseDir = dest := hrun.trans hdest
    cases hok : copyIntoDestination faults force (lexicalResolve stagingDir ++ ["source"]) dest t2 with
    | error t3 => rw [hok] at hc; cases hc
    | ok t3 =>
      rw [hS] at hcp ⊢
      exact copyPhase_staged_node faults force hdest hm hcp hok x hx

end BrewvaSkills

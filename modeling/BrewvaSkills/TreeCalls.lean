import BrewvaSkills.FileSystem
import Mathlib.Data.List.Infix
import Mathlib.Data.List.Nodup

/-!
# The calls that change a tree

The calls of the fork, each on the path it is given, resolved first as the system call does:
`shutil.rmtree`, `Path.mkdir(parents=True, exist_ok=True)`, `shutil.copytree`,
`tempfile.mkdtemp` and `Path.write_text`. Each call is made of primitive operations on one path
each: one `os.mkdir`, one file copy, one `os.unlink` or `os.rmdir`. A call returns the tree it
leaves, as `.ok` when it returns and as `.error` when it raises.

A call may raise as the tree model says (a missing source, a file on the way), or because a
fault is injected at it: `some failed` names the paths whose primitive operation fails, standing
for errors the tree model does not have (a file that cannot be read, a full disk). A faulty call
raises, and leaves what its other operations did: `shutil.rmtree` removes bottom up, so it keeps
every path at or above a failed removal (`Tree.prune`); `os.makedirs` and `shutil.copytree` make
top down, so of what they were to make they leave out every path at or below a failed one
(`Tree.undoFailed`). `tempfile.mkdtemp` is one `os.mkdir`: a fault leaves nothing.
`shutil.rmtree(p, ignore_errors=True)` is `rmtree` with a fault whose error is swallowed
(`Tree.rmtreeIgnoringErrors`).

`ChangesOnly R A t t'` says that `t'` differs from `t` only at paths in `R`, and elsewhere only by
directories made where there was nothing, at paths in `A`. Every call, faulty or not, changes only
the subtree of its path and makes only the directories on the way to it.
-/

namespace BrewvaSkills

namespace Tree

/-! ## `os.mkdir` and `os.makedirs` -/

/-- `os.mkdir(q)` with `exist_ok=True`: makes a missing directory inside a directory, keeps a
directory, and raises at a file or when the parent is not a directory. -/
def mkdirStep (t : Tree) (q : PosixPath) : Option Tree :=
  match hn : t.node (lexicalResolve q) with
  | some .dir => some t
  | some (.file _) => none
  | none =>
    if hp : t.node (lexicalResolve q).dropLast = some .dir then
      some (t.put (lexicalResolve q) .dir ⟨fun h0 => by simp [h0] at hn, hp, by simp [hn]⟩
        (lexicalResolve_lexicalResolve q))
    else none

/-- `os.makedirs(p, exist_ok=True)`, as `Path.mkdir(parents=True, exist_ok=True)` does it:
`os.mkdir` on each directory on the way to `p`, from the top. -/
def makedirs (t : Tree) (p : PosixPath) : Option Tree :=
  (lexicalResolve p).inits.foldlM mkdirStep t

/-- One `mkdir` makes its directory when the path is missing. -/
theorem node_mkdirStep {t t' : Tree} {q : PosixPath} (h : t.mkdirStep q = some t') (x : PosixPath) :
    t'.node x = if x = lexicalResolve q ∧ t.node x = none then some .dir else t.node x := by
  unfold mkdirStep at h
  split at h
  · rename_i hq
    cases h
    split_ifs with hx
    · obtain ⟨rfl, hn⟩ := hx; simp [hq] at hn
    · rfl
  · cases h
  · rename_i hq
    split at h
    · cases h
      rw [node_put]
      by_cases hx : x = lexicalResolve q
      · subst hx; simp [hq]
      · simp [hx]
    · cases h

/-- The steps of `os.makedirs` make each of their directories that is missing. -/
theorem node_foldlM_mkdirStep : ∀ {qs : List PosixPath} {t t' : Tree},
    (∀ q ∈ qs, lexicalResolve q = q) → qs.foldlM mkdirStep t = some t' → ∀ x,
      t'.node x = if x ∈ qs ∧ t.node x = none then some .dir else t.node x
  | [], t, t', _, h, x => by cases h; simp
  | q :: qs, t, t', hres, h, x => by
    obtain ⟨t1, h1, h2⟩ : ∃ t1, t.mkdirStep q = some t1 ∧ qs.foldlM mkdirStep t1 = some t' := by
      simpa only [List.foldlM_cons, Option.bind_eq_bind, Option.bind_eq_some] using h
    rw [node_foldlM_mkdirStep (fun q' hq' => hres q' (List.mem_cons_of_mem q hq')) h2,
      node_mkdirStep h1, hres q (List.mem_cons_self q qs)]
    by_cases hx : x = q
    · subst hx
      by_cases hn : t.node x = none <;> simp [hn]
    · by_cases hn : t.node x = none <;> simp [hx, hn]

/-- `os.makedirs` makes the missing directories on the way to its path. -/
theorem node_makedirs {t t' : Tree} {p : PosixPath} (h : t.makedirs p = some t') (x : PosixPath) :
    t'.node x = if x <+: lexicalResolve p ∧ t.node x = none then some .dir else t.node x := by
  rw [node_foldlM_mkdirStep (fun q hq => lexicalResolve_of_prefix ((List.mem_inits _ _).mp hq)) h x]
  simp only [List.mem_inits]

/-- The steps of `os.makedirs` along the prefixes of a resolved path, from the top, succeed when
no file stands on the way: each step finds its parent made by the step before. -/
theorem foldlM_inits_mkdirStep_of_no_file (t : Tree) (q : PosixPath) :
    lexicalResolve q = q → (∀ x, x <+: q → ∀ text, t.node x ≠ some (.file text)) →
      ∃ t', q.inits.foldlM mkdirStep t = some t' := by
  induction q using List.reverseRecOn with
  | nil =>
    intro hres _
    have hroot : t.mkdirStep [] = some t := by
      unfold mkdirStep
      split
      · rfl
      all_goals rename_i hn; rw [hres, node_nil] at hn; cases hn
    exact ⟨t, by simp [hroot]⟩
  | append_singleton l a ih =>
    intro hres hway
    have hl : lexicalResolve l = l :=
      lexicalResolve_of_prefix (by rw [hres]; exact List.prefix_append _ _)
    obtain ⟨t1, h1⟩ := ih hl fun x hx => hway x (hx.trans (List.prefix_append _ _))
    have hnode := node_foldlM_mkdirStep (fun q hq => lexicalResolve_of_prefix
      (by rw [hl]; exact (List.mem_inits _ _).mp hq)) h1
    simp only [List.mem_inits] at hnode
    -- The parent is a directory now, and the path itself is as it was.
    have hpar : t1.node l = some .dir := by
      rw [hnode]
      rcases hl' : t.node l with _ | _ | text
      · simp
      · simp
      · exact absurd hl' (hway l (List.prefix_append _ _) text)
    have hq : t1.node (l ++ [a]) = t.node (l ++ [a]) := by
      rw [hnode, if_neg fun h => absurd h.1.length_le (by simp)]
    have hstep : ∃ t2, t1.mkdirStep (l ++ [a]) = some t2 := by
      unfold mkdirStep
      split
      · exact ⟨_, rfl⟩
      · rename_i text hn
        rw [hres, hq] at hn
        exact absurd hn (hway _ (List.prefix_refl _) text)
      · rw [dif_pos (by rw [hres, List.dropLast_concat]; exact hpar)]
        exact ⟨_, rfl⟩
    obtain ⟨t2, h2⟩ := hstep
    exact ⟨t2, by simp [List.inits_append, h1, h2]⟩

/-- `os.makedirs` succeeds when no file stands on the way to its path. -/
theorem makedirs_of_no_file (t : Tree) (p : PosixPath)
    (h : ∀ x, x <+: lexicalResolve p → ∀ text, t.node x ≠ some (.file text)) :
    ∃ t', t.makedirs p = some t' :=
  foldlM_inits_mkdirStep_of_no_file t _ (lexicalResolve_lexicalResolve p) h

/-! ## What a faulty call leaves -/

/-- A path on the way to the parent of `x` is on the way to `x`. -/
theorem prefix_of_prefix_dropLast {x y : PosixPath} (h : y <+: x.dropLast) : y <+: x :=
  h.trans (List.dropLast_prefix x)

/-- What removing `p` and everything below it, bottom up, leaves when the removals at the `failed`
paths fail: a path stays when it is outside the subtree, or when a removal at or below it failed,
so that it is not empty. -/
def prune (t : Tree) (p : PosixPath) (failed : PosixPath → Bool) : Tree :=
  t.restrict (fun x => !(p.isPrefixOf x) || t.nodes.items.any fun kv => x.isPrefixOf kv.1 && failed kv.1)
    fun x hx _ => by
      simp only [Bool.or_eq_true, Bool.not_eq_true', List.any_eq_true, Bool.and_eq_true] at hx ⊢
      rcases hx with hx | ⟨kv, hkv, hxk, hf⟩
      · refine .inl (Bool.eq_false_iff.mpr fun hp => ?_)
        rw [List.isPrefixOf_iff_prefix] at hp
        simp [List.isPrefixOf_iff_prefix.mpr (prefix_of_prefix_dropLast hp)] at hx
      · exact .inr ⟨kv, hkv, List.isPrefixOf_iff_prefix.mpr
          ((List.dropLast_prefix x).trans (List.isPrefixOf_iff_prefix.mp hxk)), hf⟩

/-- Outside the subtree, `prune` changes nothing; inside, it empties a path or keeps it. -/
theorem node_prune (t : Tree) (p : PosixPath) (failed : PosixPath → Bool) (x : PosixPath) :
    (t.prune p failed).node x = t.node x ∨ p <+: x ∧ (t.prune p failed).node x = none := by
  unfold prune
  rw [node_restrict]
  split_ifs with hx
  · simp only [Bool.or_eq_false_iff, Bool.not_eq_false', List.isPrefixOf_iff_prefix] at hx
    exact .inr ⟨hx.2.1, rfl⟩
  · exact .inl rfl

/-- With no failure, `prune` empties the subtree of a path below the root. -/
theorem node_prune_none (t : Tree) {p : PosixPath} (hp : p ≠ []) (x : PosixPath) :
    (t.prune p fun _ => false).node x = if p <+: x then none else t.node x := by
  unfold prune
  rw [node_restrict]
  by_cases hx : p <+: x
  · have hx0 : x ≠ [] := fun h => hp (List.prefix_nil.mp (h ▸ hx))
    simp [hx, hx0, List.isPrefixOf_iff_prefix.mpr hx]
  · simp [hx, List.isPrefixOf_iff_prefix]

/-- What a call that was to turn `t` into `t'` by making nodes leaves when the operations at the
`failed` paths fail: a node it made stays only when it made no failed path on the way to it. -/
def undoFailed (t' t : Tree) (failed : PosixPath → Bool) : Tree :=
  t'.restrict (fun x => x.inits.all fun y => (t.node y).isSome || !failed y) fun x hx _ => by
    simp only [List.all_eq_true, List.mem_inits] at hx ⊢
    exact fun y hy => hx y (prefix_of_prefix_dropLast hy)

/-- `undoFailed` leaves a path as the full call did, or as it was, empty. -/
theorem node_undoFailed (t' t : Tree) (failed : PosixPath → Bool) (x : PosixPath) :
    (t'.undoFailed t failed).node x = t'.node x ∨
      (t'.undoFailed t failed).node x = none ∧ t.node x = none := by
  unfold undoFailed
  rw [node_restrict]
  split_ifs with hx
  · simp only [List.all_eq_false, List.mem_inits, Bool.or_eq_true, Option.isSome_iff_ne_none,
      Bool.not_eq_true', not_or, Bool.not_eq_false, ne_eq, Decidable.not_not] at hx
    obtain ⟨-, y, hy, hn, -⟩ := hx
    obtain ⟨r, rfl⟩ := hy
    exact .inr ⟨rfl, t.node_append_eq_none hn r⟩
  · exact .inl rfl

/-! ## `shutil.copytree` -/

/-- `d` followed by a non-empty `r` is strictly below `d`, by `r`. -/
theorem below_append (d : PosixPath) {r : PosixPath} (hr : r ≠ []) : below d (d ++ r) = some r := by
  have hlen : d.length < (d ++ r).length := by
    have := List.length_pos.mpr hr
    simp only [List.length_append]; omega
  simp [below, hlen, hr]

/-- The copies that `shutil.copytree(src, dst)` makes of what is strictly below `src`. -/
def copies (t : Tree) (src dst : PosixPath) : List (PosixPath × Node) :=
  t.nodes.items.filterMap fun kv => (below src kv.1).map fun r => (dst ++ r, kv.2)

/-- What `copytree` copies: the items strictly below the source, moved below the destination. -/
theorem mem_copies {t : Tree} {s d : PosixPath} {kv : PosixPath × Node} :
    kv ∈ t.copies s d ↔ ∃ r, r ≠ [] ∧ kv.1 = d ++ r ∧ (s ++ r, kv.2) ∈ t.nodes.items := by
  constructor
  · intro h
    obtain ⟨a, ha, hkv⟩ := List.mem_filterMap.mp h
    obtain ⟨r, hr, rfl⟩ := Option.map_eq_some'.mp hkv
    obtain ⟨hs, hr0⟩ := eq_append_of_below hr
    exact ⟨r, hr0, rfl, hs ▸ ha⟩
  · rintro ⟨r, hr0, hkv, hmem⟩
    refine List.mem_filterMap.mpr ⟨_, hmem, ?_⟩
    rw [below_append _ hr0]
    exact congrArg some (Prod.ext hkv.symm rfl)

/-- `copytree` writes each path once. -/
theorem nodup_keys_copies (t : Tree) (s d : PosixPath) : ((t.copies s d).map Prod.fst).Nodup := by
  have hkeys : (t.copies s d).map Prod.fst =
      (t.nodes.items.map Prod.fst).filterMap fun k => (below s k).map (d ++ ·) := by
    simp [copies, List.map_filterMap, List.filterMap_map, Function.comp_def, Option.map_map]
  rw [hkeys]
  refine List.Nodup.filterMap (fun k k' b hb hb' => ?_) t.wellFormed.nodup
  obtain ⟨r, hr, rfl⟩ := Option.map_eq_some'.mp hb
  obtain ⟨r', hr', hrr⟩ := Option.map_eq_some'.mp hb'
  obtain rfl := List.append_cancel_left hrr
  exact (eq_append_of_below hr).1.trans (eq_append_of_below hr').1.symm

section Graft

variable {t t1 : Tree} {s d : PosixPath}

/-- After `os.makedirs` made a missing `d` (giving `t1`), setting the copies of what is strictly
below `s` makes what is strictly below `d` what was strictly below `s`. -/
theorem nodeAt_setAll_copies (hd : t.node d = none)
    (h1 : ∀ x, t1.node x = if x <+: d ∧ t.node x = none then some .dir else t.node x)
    (x : PosixPath) :
    nodeAt (Dict.setAll (t.copies s d) t1.nodes) x = match below d x with
      | some r => t.node (s ++ r)
      | none => t1.node x := by
  by_cases h0 : x = []
  · subst h0; simp [nodeAt, below]
  simp only [nodeAt, h0, if_false]
  split
  · rename_i r hr
    obtain ⟨rfl, hr0⟩ := eq_append_of_below hr
    cases hn : t.node (s ++ r) with
    | some n =>
      refine Dict.get_setAll_of_mem _ _ (nodup_keys_copies t s d) (mem_copies.mpr ⟨r, hr0, rfl, ?_⟩)
      exact (t.node_eq_some_iff (by simp [hr0])).mp hn
    | none =>
      rw [Dict.get_setAll_of_not_mem, ← node_of_ne_nil _ h0, h1,
        if_neg fun hh => absurd hh.1.length_le (by
          have := List.length_pos.mpr hr0
          simp only [List.length_append]; omega)]
      · exact t.node_append_eq_none hd r
      · intro hk
        obtain ⟨kv, hkv, hkx⟩ := List.mem_map.mp hk
        obtain ⟨r', -, hkv1, hmem⟩ := mem_copies.mp hkv
        obtain rfl := List.append_cancel_left (hkv1.symm.trans hkx)
        rw [(t.node_eq_some_iff (t.wellFormed.ne_nil _ hmem)).mpr hmem] at hn
        cases hn
  · rename_i hr
    rw [Dict.get_setAll_of_not_mem, ← node_of_ne_nil _ h0]
    intro hk
    obtain ⟨kv, hkv, hkx⟩ := List.mem_map.mp hk
    obtain ⟨r', hr', hkv1, -⟩ := mem_copies.mp hkv
    rw [← hkx, hkv1, below_append _ hr'] at hr
    cases hr

/-- The copies, set after `os.makedirs` made a missing resolved `d`, make a filesystem. -/
theorem wellFormed_setAll_copies (hres : lexicalResolve d = d) (hd : t.node d = none)
    (h1 : ∀ x, t1.node x = if x <+: d ∧ t.node x = none then some .dir else t.node x) :
    WellFormed (Dict.setAll (t.copies s d) t1.nodes) := by
  have hspec := nodeAt_setAll_copies (s := s) hd h1
  -- Away from what is strictly below `d`, the copy reads as after `os.makedirs`.
  have hsame : ∀ y, below d y = none → nodeAt (Dict.setAll (t.copies s d) t1.nodes) y = t1.node y :=
    fun y hy => by rw [hspec y, hy]
  refine ⟨Dict.nodup_keys_setAll _ _ t1.wellFormed.nodup, fun kv hkv => ?_, fun kv hkv => ?_,
    fun kv hkv => ?_⟩
  · rcases Dict.mem_setAll _ _ hkv with hkv | hkv
    · obtain ⟨r, hr0, hk, -⟩ := mem_copies.mp hkv
      simp [hk, hr0]
    · exact t1.wellFormed.ne_nil kv hkv
  · rcases Dict.mem_setAll _ _ hkv with hkv | hkv
    · obtain ⟨r, -, hk, hmem⟩ := mem_copies.mp hkv
      have hnames : ∀ c ∈ r, IsName c := fun c hc => isName_of_mem_lexicalResolve (s ++ r) c
        (by rw [t.wellFormed.resolved _ hmem]; exact List.mem_append_right _ hc)
      rw [hk, lexicalResolve_append_of_isName _ hnames, hres]
    · exact t1.wellFormed.resolved kv hkv
  · rcases Dict.mem_setAll _ _ hkv with hkv | hkv
    · obtain ⟨r, hr0, hk, hmem⟩ := mem_copies.mp hkv
      rw [hk, List.dropLast_append_of_ne_nil _ hr0]
      by_cases hr1 : r.dropLast = []
      · rw [hr1, List.append_nil, hsame _ (by simp [below]), h1]
        simp [hd]
      · have hpar := t.wellFormed.parent_dir _ hmem
        rw [List.dropLast_append_of_ne_nil _ hr0] at hpar
        rw [hspec, below_append _ hr1]
        exact hpar
    · cases hb : below d kv.1.dropLast with
      | none => rw [hsame _ hb]; exact t1.wellFormed.parent_dir kv hkv
      | some r =>
        exfalso
        obtain ⟨hdrop, -⟩ := eq_append_of_below hb
        have hk0 := t1.wellFormed.ne_nil kv hkv
        have hkv1 : kv.1 = d ++ (r ++ [kv.1.getLast hk0]) := by
          rw [← List.append_assoc, ← hdrop, List.dropLast_append_getLast]
        have hlen : d.length < kv.1.length := by rw [hkv1]; simp
        have hnode := (t1.node_eq_some_iff hk0).mpr hkv
        rw [h1, if_neg fun hh => absurd hh.1.length_le (by omega)] at hnode
        rw [hkv1, t.node_append_eq_none hd] at hnode
        cases hnode

/-- `t1`, made from `t` by `os.makedirs` of a missing resolved `d`, with the copies of what is
strictly below `s` set below `d`. -/
def graft (t t1 : Tree) (s d : PosixPath) (hres : lexicalResolve d = d) (hd : t.node d = none)
    (h1 : ∀ x, t1.node x = if x <+: d ∧ t.node x = none then some .dir else t.node x) : Tree :=
  ⟨Dict.setAll (t.copies s d) t1.nodes, wellFormed_setAll_copies hres hd h1⟩

/-- Strictly below `d`, the graft holds what was strictly below `s`; elsewhere, what `os.makedirs`
left. -/
theorem node_graft (hres : lexicalResolve d = d) (hd : t.node d = none)
    (h1 : ∀ x, t1.node x = if x <+: d ∧ t.node x = none then some .dir else t.node x)
    (x : PosixPath) :
    (graft t t1 s d hres hd h1).node x = match below d x with
      | some r => t.node (s ++ r)
      | none => if x <+: d ∧ t.node x = none then some .dir else t.node x := by
  rw [node, graft, nodeAt_setAll_copies hd h1]
  split
  · rfl
  · exact h1 x

end Graft

/-- Whether `shutil.copytree(src, dst)` walks into the copy it is making: `dst` is strictly below
`src`, and the entry of `src` that leads to it is listed when the walk starts. -/
def runaway (t : Tree) (src dst : PosixPath) : Bool :=
  match below src dst with
  | some (c :: _) => (t.node (src ++ [c])).isSome
  | _ => false

/-! ## The calls -/

/-- `shutil.rmtree(p)`: raises unless `p` is a directory below the root, and removes it with
everything below it. A faulty call raises, having removed what `prune` says. -/
def rmtree (t : Tree) (p : PosixPath) (fault : Option (PosixPath → Bool)) : Except Tree Tree :=
  let rp := lexicalResolve p
  if rp ≠ [] ∧ t.node rp = some .dir then
    match fault with
    | none => .ok (t.prune rp fun _ => false)
    | some failed => .error (t.prune rp failed)
  else .error t

/-- `shutil.rmtree(p, ignore_errors=True)`: `rmtree`, whose errors are ignored, with the
removals at the `failed` paths failing. -/
def rmtreeIgnoringErrors (t : Tree) (p : PosixPath) (failed : PosixPath → Bool) : Tree :=
  leftTree (t.rmtree p (some failed))

/-- `p.mkdir(parents=True, exist_ok=True)`: `os.makedirs`, raising where it stops. A faulty call
raises, having made what `undoFailed` says. -/
def mkdir (t : Tree) (p : PosixPath) (fault : Option (PosixPath → Bool)) : Except Tree Tree :=
  match t.makedirs p, fault with
  | some t1, none => .ok t1
  | some t1, some failed => .error (t1.undoFailed t failed)
  | none, _ => .error t

/-- `shutil.copytree(src, dst)`: raises unless `src` is a directory and `dst` is absent; makes
`dst` and its missing parents with `os.makedirs`, then copies what is below `src`. A faulty call
raises, having made what `undoFailed` says. A walk into its own copy raises once it has copied
what it listed when it started; the copies it would then make of its own copy are left out. -/
def copytree (t : Tree) (src dst : PosixPath) (fault : Option (PosixPath → Bool)) :
    Except Tree Tree :=
  if h : t.node (lexicalResolve src) = some .dir ∧ t.node (lexicalResolve dst) = none then
    match hm : t.makedirs (lexicalResolve dst) with
    | none => .error t
    | some t1 =>
      let copied := graft t t1 (lexicalResolve src) (lexicalResolve dst)
        (lexicalResolve_lexicalResolve dst) h.2 fun x => by
          rw [node_makedirs hm x, lexicalResolve_lexicalResolve]
      match fault with
      | none => if t.runaway (lexicalResolve src) (lexicalResolve dst) then .error copied else .ok copied
      | some failed => .error (copied.undoFailed t failed)
  else .error t

/-- `tempfile.mkdtemp()`, where the environment picks the fresh name `p`: one `os.mkdir`, so a
faulty call leaves nothing. -/
def mkdtemp (t : Tree) (p : PosixPath) (fault : Option (PosixPath → Bool)) : Except Tree Tree :=
  let rp := lexicalResolve p
  match fault with
  | some _ => .error t
  | none =>
    if h : t.node rp = none ∧ t.node rp.dropLast = some .dir then
      .ok (t.put rp .dir ⟨fun h0 => by simp [h0] at h, h.2, by simp [h.1]⟩
        (lexicalResolve_lexicalResolve p))
    else .error t

/-- `p.write_text(text)`: raises when `p` is a directory or its parent is not one. -/
def writeText (t : Tree) (p : PosixPath) (text : String) : Option Tree :=
  if h : t.Writable (lexicalResolve p) then
    some (t.put (lexicalResolve p) (.file text) h (lexicalResolve_lexicalResolve p))
  else none

/-! ## What a call that returns did -/

/-- `rmtree` that returns emptied the subtree of its path, a directory below the root. -/
theorem rmtree_eq_ok {t t' : Tree} {p : PosixPath} {fault : Option (PosixPath → Bool)}
    (h : t.rmtree p fault = .ok t') :
    lexicalResolve p ≠ [] ∧ t.node (lexicalResolve p) = some .dir ∧
      ∀ x, t'.node x = if lexicalResolve p <+: x then none else t.node x := by
  unfold rmtree at h
  dsimp only at h
  split at h
  · rename_i hc
    cases fault with
    | none => cases h; exact ⟨hc.1, hc.2, node_prune_none t hc.1⟩
    | some _ => cases h
  · cases h

/-- `mkdir(parents=True)` that returns made the missing directories on the way to its path. -/
theorem node_mkdir_ok {t t' : Tree} {p : PosixPath} {fault : Option (PosixPath → Bool)}
    (h : t.mkdir p fault = .ok t') (x : PosixPath) :
    t'.node x = if x <+: lexicalResolve p ∧ t.node x = none then some .dir else t.node x := by
  unfold mkdir at h
  split at h
  · cases h; exact node_makedirs ‹_› x
  · cases h
  · cases h

/-- `copytree` that returns made what is strictly below its destination a copy of what is strictly
below its source, and made the destination and its missing ancestors directories. -/
theorem copytree_eq_ok {t t' : Tree} {s d : PosixPath} {fault : Option (PosixPath → Bool)}
    (h : t.copytree s d fault = .ok t') :
    t.node (lexicalResolve s) = some .dir ∧ t.node (lexicalResolve d) = none ∧ ∀ x,
      t'.node x = match below (lexicalResolve d) x with
        | some r => t.node (lexicalResolve s ++ r)
        | none => if x <+: lexicalResolve d ∧ t.node x = none then some .dir else t.node x := by
  unfold copytree at h
  dsimp only at h
  split at h
  · rename_i hc
    split at h
    · cases h
    · cases fault with
      | none =>
        dsimp only at h
        split at h
        · cases h
        · cases h; exact ⟨hc.1, hc.2, node_graft _ _ _⟩
      | some _ => cases h
  · cases h

/-- At and below its destination, `copytree` that returns leaves what was at and below its
source. -/
theorem node_copytree_append {t t' : Tree} {s d : PosixPath} {fault : Option (PosixPath → Bool)}
    (h : t.copytree s d fault = .ok t') (r : PosixPath) :
    t'.node (lexicalResolve d ++ r) = t.node (lexicalResolve s ++ r) := by
  obtain ⟨hs, hd, hspec⟩ := copytree_eq_ok h
  rw [hspec]
  by_cases hr : r = []
  · subst hr; simp [below, hs, hd]
  · rw [below_append _ hr]

/-- `copytree` without a fault returns when its source is a directory, its destination is missing
and not below the source, and no file stands on the way to the destination. -/
theorem copytree_of_dir (t : Tree) {s d : PosixPath} (hs : t.node (lexicalResolve s) = some .dir)
    (hd : t.node (lexicalResolve d) = none) (hsd : ¬lexicalResolve s <+: lexicalResolve d)
    (hway : ∀ x, x <+: lexicalResolve d → ∀ text, t.node x ≠ some (.file text)) :
    ∃ t', t.copytree s d none = .ok t' := by
  have hrun : t.runaway (lexicalResolve s) (lexicalResolve d) = false := by
    unfold runaway
    cases hb : below (lexicalResolve s) (lexicalResolve d) with
    | none => rfl
    | some r => exact absurd ((eq_append_of_below hb).1 ▸ List.prefix_append _ _) hsd
  obtain ⟨t1, h1⟩ := makedirs_of_no_file t (lexicalResolve d) (by simpa using hway)
  unfold copytree
  rw [dif_pos ⟨hs, hd⟩]
  split
  · rename_i hm; rw [h1] at hm; cases hm
  · exact ⟨_, by simp only [hrun, Bool.false_eq_true, if_false]; rfl⟩

/-- `copytree` that returns never copied into an ancestor of its source. -/
theorem not_prefix_of_copytree {t t' : Tree} {s d : PosixPath} {fault : Option (PosixPath → Bool)}
    (h : t.copytree s d fault = .ok t') : ¬lexicalResolve d <+: lexicalResolve s := fun hds => by
  obtain ⟨hs, hd, -⟩ := copytree_eq_ok h
  exact t.node_ne_none_of_prefix hds (by simp [hs]) hd

/-- `mkdtemp` that returns made its directory, missing before, in a directory, and left the
rest. -/
theorem mkdtemp_eq_ok {t t' : Tree} {p : PosixPath} {fault : Option (PosixPath → Bool)}
    (h : t.mkdtemp p fault = .ok t') :
    t.node (lexicalResolve p) = none ∧ t.node (lexicalResolve p).dropLast = some .dir ∧
      ∀ x, t'.node x = if x = lexicalResolve p then some .dir else t.node x := by
  unfold mkdtemp at h
  dsimp only at h
  split at h
  · cases h
  · split at h
    · cases h; exact ⟨‹_ ∧ _›.1, ‹_ ∧ _›.2, node_put _ _ _⟩
    · cases h

/-- `mkdtemp` that raises leaves the tree as it was. -/
theorem mkdtemp_eq_error {t t' : Tree} {p : PosixPath} {fault : Option (PosixPath → Bool)}
    (h : t.mkdtemp p fault = .error t') : t' = t := by
  unfold mkdtemp at h
  dsimp only at h
  split at h
  · cases h; rfl
  · split at h
    · cases h
    · cases h; rfl

/-- `write_text` puts its text at its path and leaves the rest. -/
theorem node_writeText {t t' : Tree} {p : PosixPath} {text : String}
    (h : t.writeText p text = some t') (x : PosixPath) :
    t'.node x = if x = lexicalResolve p then some (.file text) else t.node x := by
  unfold writeText at h
  split at h
  · cases h; exact node_put _ _ _ x
  · cases h

/-! ## What a call leaves alone -/

/-- `t'` differs from `t` only at the paths in `R`, and elsewhere only by directories made where
there was nothing, at paths in `A`. -/
def ChangesOnly (R A : PosixPath → Prop) (t t' : Tree) : Prop :=
  ∀ x, ¬R x → t'.node x = t.node x ∨ (t.node x = none ∧ t'.node x = some .dir ∧ A x)

namespace ChangesOnly

variable {R A R' A' : PosixPath → Prop} {t t1 t2 : Tree}

/-- Nothing changes outside any footprint of the tree itself. -/
theorem refl (R A : PosixPath → Prop) (t : Tree) : ChangesOnly R A t t := fun _ _ => .inl rfl

/-- Two changes within a footprint are one change within it. -/
theorem trans (h1 : ChangesOnly R A t t1) (h2 : ChangesOnly R A t1 t2) : ChangesOnly R A t t2 := by
  intro x hx
  rcases h1 x hx with e1 | ⟨n1, d1, a1⟩ <;> rcases h2 x hx with e2 | ⟨n2, d2, a2⟩
  · exact .inl (e2.trans e1)
  · exact .inr ⟨e1 ▸ n2, d2, a2⟩
  · exact .inr ⟨n1, e2.trans d1, a1⟩
  · simp [d1] at n2

/-- A change within a footprint is within a larger one. -/
theorem mono (h : ChangesOnly R A t t1) (hR : ∀ x, R x → R' x)
    (hA : ∀ x, ¬R' x → t.node x = none → A x → A' x) : ChangesOnly R' A' t t1 := fun x hx =>
  (h x fun hr => hx (hR x hr)).imp_right fun ⟨n, d, a⟩ => ⟨n, d, hA x hx n a⟩

/-- A tree that reads at every path as `t` or as `t1` differs from `t` where `t1` may. -/
theorem of_between (h : ChangesOnly R A t t1) (hb : ∀ x, t2.node x = t1.node x ∨ t2.node x = t.node x) :
    ChangesOnly R A t t2 := fun x hx =>
  (hb x).elim (fun he => he ▸ h x hx) fun he => .inl he

/-- Outside `R`, a node that was there stays. -/
theorem node_eq (h : ChangesOnly R A t t1) {x : PosixPath} (hx : ¬R x) (hn : t.node x ≠ none) :
    t1.node x = t.node x :=
  (h x hx).resolve_right fun ⟨n, _⟩ => hn n

/-- Outside `R` and `A`, nothing changes. -/
theorem node_eq_of_not (h : ChangesOnly R A t t1) {x : PosixPath} (hx : ¬R x) (ha : ¬A x) :
    t1.node x = t.node x :=
  (h x hx).resolve_right fun ⟨_, _, a⟩ => ha a

end ChangesOnly

/-- A faulty call that makes nodes changes what the full call would, or less. -/
theorem changesOnly_undoFailed {R A : PosixPath → Prop} {t t' : Tree} (h : ChangesOnly R A t t')
    (failed : PosixPath → Bool) : ChangesOnly R A t (t'.undoFailed t failed) :=
  h.of_between fun x => (node_undoFailed t' t failed x).imp_right fun h' => h'.1.trans h'.2.symm

/-- `prune` changes only the subtree of its path. -/
theorem changesOnly_prune (t : Tree) (p : PosixPath) (failed : PosixPath → Bool) :
    ChangesOnly (p <+: ·) (fun _ => False) t (t.prune p failed) := fun x hx =>
  .inl ((node_prune t p failed x).resolve_right fun h => hx h.1)

/-- `rmtree`, faulty or not, changes only the subtree of its path. -/
theorem changesOnly_rmtree (t : Tree) (p : PosixPath) (fault : Option (PosixPath → Bool)) :
    ChangesOnly (lexicalResolve p <+: ·) (fun _ => False) t (leftTree (t.rmtree p fault)) := by
  unfold rmtree
  dsimp only
  split
  · cases fault with
    | none => exact changesOnly_prune t _ fun _ => false
    | some failed => exact changesOnly_prune t _ failed
  · exact .refl _ _ _

/-- `rmtree`, faulty or not, only removes. -/
theorem node_rmtree_left (t : Tree) (p : PosixPath) (fault : Option (PosixPath → Bool)) (x : PosixPath) :
    (leftTree (t.rmtree p fault)).node x = t.node x ∨ (leftTree (t.rmtree p fault)).node x = none := by
  unfold rmtree
  dsimp only
  split
  · cases fault with
    | none => exact (node_prune t (lexicalResolve p) (fun _ => false) x).imp_right And.right
    | some failed => exact (node_prune t (lexicalResolve p) failed x).imp_right And.right
  · exact .inl rfl

/-- `os.makedirs` only makes the missing directories on the way to its path. -/
theorem changesOnly_makedirs {t t' : Tree} {p : PosixPath} (h : t.makedirs p = some t') :
    ChangesOnly (fun _ => False) (· <+: lexicalResolve p) t t' := fun x _ => by
  rw [node_makedirs h]
  split
  · exact .inr ⟨‹_ ∧ _›.2, rfl, ‹_ ∧ _›.1⟩
  · exact .inl rfl

/-- `mkdir(parents=True)`, faulty or not, only makes missing directories on the way to its
path. -/
theorem changesOnly_mkdir (t : Tree) (p : PosixPath) (fault : Option (PosixPath → Bool)) :
    ChangesOnly (fun _ => False) (· <+: lexicalResolve p) t (leftTree (t.mkdir p fault)) := by
  unfold mkdir
  split
  · exact changesOnly_makedirs ‹_›
  · exact changesOnly_undoFailed (changesOnly_makedirs ‹_›) _
  · exact .refl _ _ _

/-- `copytree`, faulty or not, changes only its destination's subtree and makes directories on
the way to it. -/
theorem changesOnly_copytree (t : Tree) (s d : PosixPath) (fault : Option (PosixPath → Bool)) :
    ChangesOnly (lexicalResolve d <+: ·) (· <+: lexicalResolve d) t
      (leftTree (t.copytree s d fault)) := by
  unfold copytree
  dsimp only
  split
  · rename_i hc
    split
    · exact .refl _ _ _
    · rename_i t1 hm
      have hfull : ChangesOnly (lexicalResolve d <+: ·) (· <+: lexicalResolve d) t
          (graft t t1 (lexicalResolve s) (lexicalResolve d) (lexicalResolve_lexicalResolve d) hc.2
            fun x => by rw [node_makedirs hm x, lexicalResolve_lexicalResolve]) :=
        fun x hx => by
          rw [node_graft]
          split
          · rename_i r hr
            exact absurd ((eq_append_of_below hr).1 ▸ List.prefix_append _ _) hx
          · split
            · exact .inr ⟨‹_ ∧ _›.2, rfl, ‹_ ∧ _›.1⟩
            · exact .inl rfl
      cases fault with
      | none => dsimp only; split <;> exact hfull
      | some failed => exact changesOnly_undoFailed hfull failed
  · exact .refl _ _ _

/-- `copytree`, faulty or not, leaves every path on the way to its source as it was. -/
theorem node_copytree_of_prefix (t : Tree) {s d x : PosixPath} (fault : Option (PosixPath → Bool))
    (hx : x <+: lexicalResolve s) : (leftTree (t.copytree s d fault)).node x = t.node x := by
  by_cases hc : t.node (lexicalResolve s) = some .dir ∧ t.node (lexicalResolve d) = none
  · have hs : t.node (lexicalResolve s) ≠ none := by simp [hc.1]
    exact (changesOnly_copytree t s d fault).node_eq
      (fun hd => t.node_ne_none_of_prefix (hd.trans hx) hs hc.2) (t.node_ne_none_of_prefix hx hs)
  · simp only [copytree, dif_neg hc, leftTree]

/-- `mkdtemp`, faulty or not, changes only the subtree of its path. -/
theorem changesOnly_mkdtemp (t : Tree) (p : PosixPath) (fault : Option (PosixPath → Bool)) :
    ChangesOnly (lexicalResolve p <+: ·) (fun _ => False) t (leftTree (t.mkdtemp p fault)) :=
  fun x hx => .inl <| by
    cases h : t.mkdtemp p fault with
    | error t' => rw [mkdtemp_eq_error h]; rfl
    | ok t' =>
      rw [leftTree, (mkdtemp_eq_ok h).2.2, if_neg (by rintro rfl; exact hx (List.prefix_refl _))]

end Tree

end BrewvaSkills

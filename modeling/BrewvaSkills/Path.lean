import BrewvaSkills.Builtins
import Mathlib.Data.List.Sort
import Mathlib.Data.String.Basic

/-!
# Paths

`pathlib`'s pure paths on POSIX, as `fork_skill.py` builds them. Every path the script holds is
absolute once it has been through `resolve_maybe_absolute` or `Path.cwd()`, so a path is the list
of the names of its components below `/`. Parsing a path string drops empty and `.` parts, as
`PurePath` does; `..` stays a name until the path is resolved.

`lexicalResolve` is `Path.resolve()` on a filesystem without symbolic links: each `..` removes
the name before it. The filesystem's own `resolve` is in `FileSystem.lean`; the tree model there
resolves lexically.
-/

namespace BrewvaSkills

/-- An absolute path, as the names of its components below `/`. -/
abbrev PosixPath := List String

/-- A path string cut at each `/`. -/
def splitSlash : List Char → List (List Char)
  | [] => [[]]
  | c :: cs =>
    if c = '/' then [] :: splitSlash cs
    else match splitSlash cs with
      | [] => [[c]]
      | w :: ws => (c :: w) :: ws

/-- The names of a path string, as `PurePath(s).parts` has them below the root: empty and `.`
parts are dropped. -/
def pathNames (s : String) : List String :=
  (splitSlash s.data).filterMap fun w => if w = [] ∨ w = ['.'] then none else some ⟨w⟩

/-- `PurePath(s).is_absolute()`. -/
def isAbsoluteText (s : String) : Bool := s.data.head? = some '/'

/-- `p / s`: an absolute `s` replaces `p`, a relative one is appended name by name. -/
def PosixPath.div (p : PosixPath) (s : String) : PosixPath :=
  if isAbsoluteText s then pathNames s else p ++ pathNames s

/-- `p.name`: the last name, or `""` for `/`. -/
def PosixPath.name (p : PosixPath) : String := p.getLast?.getD ""

/-- A path whose name is not empty ends in that name. -/
theorem PosixPath.getLast?_of_name {p : PosixPath} {c : String} (hc : c ≠ "") (h : p.name = c) :
    p.getLast? = some c := by
  cases hl : p.getLast? <;> simp_all [PosixPath.name]

/-- `p.parent`: `/` is its own parent. -/
def PosixPath.parent (p : PosixPath) : PosixPath := p.dropLast

/-- A path on the way to `p` that is not `p` is on the way to its parent. -/
theorem PosixPath.isPrefix_parent {x p : PosixPath} (hx : x <+: p) (hne : ¬p <+: x) :
    x <+: p.parent := by
  have hlt : x.length < p.length :=
    lt_of_le_of_ne hx.length_le fun he => hne (hx.eq_of_length he ▸ List.prefix_refl _)
  exact List.prefix_of_prefix_length_le hx (List.dropLast_prefix p)
    (by simp only [PosixPath.parent, List.length_dropLast]; omega)

/-- Nothing at or below a path other than `/` is on the way to its parent. -/
theorem PosixPath.not_prefix_parent {p y : PosixPath} (hp : p ≠ []) (hy : p <+: y) :
    ¬y <+: p.parent := fun h => by
  have := List.length_pos.mpr hp
  have := hy.length_le.trans h.length_le
  simp only [PosixPath.parent, List.length_dropLast] at this
  omega

/-- `str(p)`. -/
def PosixPath.toStr : PosixPath → String
  | [] => "/"
  | p => ⟨p.flatMap fun c => '/' :: c.data⟩

/-- `str(p)` starts at the root. -/
theorem PosixPath.toStr_data_head? (p : PosixPath) : p.toStr.data.head? = some '/' := by
  match p with
  | [] => rfl
  | c :: p => rfl

/-- `str(p / c)` ends with `c`. -/
theorem PosixPath.toStr_append_singleton_data (p : PosixPath) (c : String) :
    (p ++ [c]).toStr.data = p.flatMap (fun c => '/' :: c.data) ++ '/' :: c.data := by
  rw [PosixPath.toStr.eq_def]
  split
  · simp_all
  · simp

/-- A name as pathlib keeps it after parsing: not empty, not `.`, and without `/`. -/
def IsPart (s : String) : Prop := s ≠ "" ∧ s ≠ "." ∧ '/' ∉ s.data

/-- A single name of a directory entry: a part other than `..`. -/
def IsName (s : String) : Prop := IsPart s ∧ s ≠ ".."

instance (s : String) : Decidable (IsPart s) := inferInstanceAs (Decidable (_ ∧ _ ∧ _))

instance (s : String) : Decidable (IsName s) := inferInstanceAs (Decidable (_ ∧ _))

/-- A text without `/` is one part. -/
theorem splitSlash_of_not_mem {cs : List Char} (h : '/' ∉ cs) : splitSlash cs = [cs] := by
  induction cs with
  | nil => rfl
  | cons c cs ih =>
    simp only [List.mem_cons, not_or] at h
    rw [splitSlash, if_neg (Ne.symm h.1), ih h.2]

/-- A part followed by `/` is cut there. -/
theorem splitSlash_append_slash {cs : List Char} (h : '/' ∉ cs) (rest : List Char) :
    splitSlash (cs ++ '/' :: rest) = cs :: splitSlash rest := by
  induction cs with
  | nil => simp [splitSlash]
  | cons c cs ih =>
    simp only [List.mem_cons, not_or] at h
    simp [splitSlash, Ne.symm h.1, ih h.2]

/-- The names of a text are parts. -/
theorem isPart_of_mem_pathNames {s c : String} (h : c ∈ pathNames s) : IsPart c := by
  simp only [pathNames, List.mem_filterMap] at h
  obtain ⟨w, hw, hc⟩ := h
  split at hc
  · cases hc
  · rename_i hne
    cases hc
    refine ⟨fun h => hne (.inl (congrArg String.data h)),
      fun h => hne (.inr (congrArg String.data h)), ?_⟩
    clear hne
    suffices ∀ cs, ∀ w ∈ splitSlash cs, '/' ∉ w from this _ w hw
    intro cs
    induction cs with
    | nil => simp [splitSlash]
    | cons d cs ih =>
      unfold splitSlash
      split
      · simpa using ih
      · split
        · simpa [*] using Ne.symm ‹¬d = '/'›
        · rename_i v vs hv
          simp only [List.mem_cons, forall_eq_or_imp, not_or]
          exact ⟨⟨Ne.symm ‹¬d = '/'›, ih v (by simp [hv])⟩, fun w hw => ih w (by simp [hv, hw])⟩

/-- A part parses as itself. -/
theorem pathNames_of_isPart {s : String} (h : IsPart s) : pathNames s = [s] := by
  obtain ⟨h0, h1, h2⟩ := h
  have hne : ¬(s.data = [] ∨ s.data = ['.']) := by
    rintro (h | h)
    · exact h0 (String.ext h)
    · exact h1 (String.ext h)
  simp [pathNames, splitSlash_of_not_mem h2, hne]

/-- The text of names each after a `/`, cut at each `/`. -/
theorem splitSlash_append_flatMap {cs : List Char} (hcs : '/' ∉ cs) (q : PosixPath)
    (h : ∀ c ∈ q, '/' ∉ c.data) :
    splitSlash (cs ++ q.flatMap fun c => '/' :: c.data) = cs :: q.map String.data := by
  induction q generalizing cs with
  | nil => simpa using splitSlash_of_not_mem hcs
  | cons c q ih =>
    simp only [List.mem_cons, forall_eq_or_imp] at h
    rw [List.flatMap_cons, List.cons_append, splitSlash_append_slash hcs, ih h.1 h.2,
      List.map_cons]

/-- Parts are kept by the parser's filter. -/
theorem filterMap_data_of_isPart {q : PosixPath} (h : ∀ c ∈ q, IsPart c) :
    (q.map String.data).filterMap
      (fun w => if w = [] ∨ w = ['.'] then none else some (String.mk w)) = q := by
  induction q with
  | nil => rfl
  | cons d q ih =>
    simp only [List.mem_cons, forall_eq_or_imp] at h
    have hd : ¬(d.data = [] ∨ d.data = ['.']) := by
      rintro (hd | hd)
      · exact h.1.1 (String.ext hd)
      · exact h.1.2.1 (String.ext hd)
    simp only [List.map_cons, List.filterMap_cons, hd, if_false, ih h.2]

/-- Parsing `str(p)` gives `p` back when its names are parts. -/
theorem pathNames_toStr {p : PosixPath} (h : ∀ c ∈ p, IsPart c) : pathNames p.toStr = p := by
  match p, h with
  | [], _ => rfl
  | c :: p, h =>
    have hsplit := splitSlash_append_flatMap (List.not_mem_nil _) (c :: p)
      fun c hc => (h c hc).2.2
    simp only [List.nil_append] at hsplit
    simp only [pathNames, PosixPath.toStr, hsplit, List.filterMap_cons, true_or, if_true]
    exact filterMap_data_of_isPart h

/-- `str(p)` is absolute. -/
theorem isAbsoluteText_toStr (p : PosixPath) : isAbsoluteText p.toStr = true := by
  match p with
  | [] => rfl
  | c :: p => rfl

/-- Appending a name to a path is `p / name`. -/
theorem PosixPath.div_of_isPart (p : PosixPath) {s : String} (h : IsPart s) :
    p.div s = p ++ [s] := by
  have habs : isAbsoluteText s = false := by
    obtain ⟨h0, -, h2⟩ := h
    obtain ⟨_ | ⟨c, cs⟩⟩ := s
    · exact absurd rfl h0
    · simp only [List.mem_cons, not_or] at h2
      simp [isAbsoluteText, Ne.symm h2.1]
  simp [PosixPath.div, habs, pathNames_of_isPart h]

/-! ## Lexical resolution -/

/-- One name of a path, resolved against the names before it. -/
def resolveStep (acc : PosixPath) (c : String) : PosixPath :=
  if c = ".." then acc.dropLast else acc ++ [c]

/-- `p.resolve()` on a filesystem without symbolic links: `os.path.realpath(str(p))`. -/
def lexicalResolve (p : PosixPath) : PosixPath := (p.flatMap pathNames).foldl resolveStep []

/-- Names are appended as they are. -/
theorem foldl_resolveStep_of_isName {q : PosixPath} (h : ∀ c ∈ q, IsName c) (acc : PosixPath) :
    q.foldl resolveStep acc = acc ++ q := by
  induction q generalizing acc with
  | nil => simp
  | cons c q ih =>
    simp only [List.mem_cons, forall_eq_or_imp] at h
    simp [resolveStep, h.1.2, ih h.2]

/-- Each name of a path of names parses as itself. -/
theorem flatMap_pathNames_of_isPart {q : PosixPath} (h : ∀ c ∈ q, IsPart c) :
    q.flatMap pathNames = q := by
  induction q with
  | nil => rfl
  | cons c q ih =>
    simp only [List.mem_cons, forall_eq_or_imp] at h
    simp [pathNames_of_isPart h.1, ih h.2]

/-- A resolved path is made of names. -/
theorem isName_of_mem_lexicalResolve (p : PosixPath) : ∀ c ∈ lexicalResolve p, IsName c := by
  suffices ∀ (q acc : PosixPath), (∀ c ∈ q, IsPart c) → (∀ c ∈ acc, IsName c) →
      ∀ c ∈ q.foldl resolveStep acc, IsName c from
    this _ [] (fun c hc => by
      obtain ⟨s, -, hs⟩ := List.mem_flatMap.mp hc
      exact isPart_of_mem_pathNames hs) (by simp)
  intro q
  induction q with
  | nil => simp
  | cons d q ih =>
    intro acc hq hacc
    simp only [List.mem_cons, forall_eq_or_imp] at hq
    apply ih _ hq.2
    unfold resolveStep
    split
    · exact fun c hc => hacc c (List.dropLast_subset _ hc)
    · simp only [List.mem_append, List.mem_singleton]
      rintro c (hc | rfl)
      · exact hacc c hc
      · exact ⟨hq.1, ‹_›⟩

/-- A path of names resolves to itself. -/
theorem lexicalResolve_of_isName {p : PosixPath} (h : ∀ c ∈ p, IsName c) : lexicalResolve p = p := by
  rw [lexicalResolve, flatMap_pathNames_of_isPart (fun c hc => (h c hc).1),
    foldl_resolveStep_of_isName h, List.nil_append]

/-- Resolving twice is resolving once. -/
@[simp] theorem lexicalResolve_lexicalResolve (p : PosixPath) :
    lexicalResolve (lexicalResolve p) = lexicalResolve p :=
  lexicalResolve_of_isName (isName_of_mem_lexicalResolve p)

/-- Resolving a path with more names appends them. -/
theorem lexicalResolve_append_of_isName (p : PosixPath) {q : PosixPath} (h : ∀ c ∈ q, IsName c) :
    lexicalResolve (p ++ q) = lexicalResolve p ++ q := by
  rw [lexicalResolve, List.flatMap_append, List.foldl_append,
    flatMap_pathNames_of_isPart (fun c hc => (h c hc).1), foldl_resolveStep_of_isName h]
  rfl

/-- What is above a resolved path is resolved. -/
theorem lexicalResolve_of_prefix {p q : PosixPath} (h : q <+: lexicalResolve p) :
    lexicalResolve q = q :=
  lexicalResolve_of_isName fun c hc => isName_of_mem_lexicalResolve p c (h.subset hc)

/-- A path that ends in a name resolves to its parent resolved, then that name. -/
theorem lexicalResolve_eq_dropLast_append {q : PosixPath} {c : String} (h : q.getLast? = some c)
    (hc : IsName c) : lexicalResolve q = lexicalResolve q.dropLast ++ [c] := by
  obtain ⟨ys, rfl⟩ := List.getLast?_eq_some_iff.mp h
  rw [List.dropLast_concat]
  exact lexicalResolve_append_of_isName _ (by simpa using hc)

/-! ## Order -/

/-- `s < t` on Python strings: by code points, lexicographically. -/
def textLt : List Char → List Char → Bool
  | [], [] => false
  | [], _ :: _ => true
  | _ :: _, [] => false
  | c :: cs, d :: ds => Nat.blt c.toNat d.toNat || (c.toNat == d.toNat && textLt cs ds)

/-- `p < q` on paths: their names compared as strings, lexicographically. -/
def pathLt : PosixPath → PosixPath → Bool
  | [], [] => false
  | [], _ :: _ => true
  | _ :: _, [] => false
  | a :: as, b :: bs => textLt a.data b.data || (decide (a = b) && pathLt as bs)

/-- A path inserted into a sorted list of paths. -/
def insertPath (p : PosixPath) : List PosixPath → List PosixPath
  | [] => [p]
  | q :: qs => if pathLt q p then q :: insertPath p qs else p :: q :: qs

/-- `sorted(paths)`. -/
def sortPaths : List PosixPath → List PosixPath
  | [] => []
  | p :: ps => insertPath p (sortPaths ps)

/-- Inserting a path into a list adds that path and nothing else. -/
theorem perm_insertPath (p : PosixPath) : ∀ l : List PosixPath, List.Perm (insertPath p l) (p :: l)
  | [] => .refl _
  | q :: qs => by
    unfold insertPath
    split
    · exact ((perm_insertPath p qs).cons q).trans (.swap p q qs)
    · exact .refl _

/-- `sorted(paths)` holds the paths it was given. -/
theorem perm_sortPaths : ∀ l : List PosixPath, List.Perm (sortPaths l) l
  | [] => .refl _
  | p :: ps => (perm_insertPath p _).trans ((perm_sortPaths ps).cons p)

/-- Lists compare by their first elements, and by the rest when those are equal. -/
theorem lex_cons_cons_iff {α : Type} {r : α → α → Prop} {a b : α} {l l' : List α} :
    List.Lex r (a :: l) (b :: l') ↔ r a b ∨ a = b ∧ List.Lex r l l' := by
  constructor
  · rintro (_ | h | h)
    exacts [.inr ⟨rfl, h⟩, .inl h]
  · rintro (h | ⟨rfl, h⟩)
    exacts [.rel h, .cons h]

/-- `textLt` is `<` on strings: by code points, lexicographically. -/
theorem textLt_iff : ∀ a b : List Char, textLt a b = true ↔ List.Lex (· < ·) a b
  | [], [] => by simp [textLt, List.Lex.not_nil_right]
  | [], _ :: _ => by simp [textLt, List.Lex.nil]
  | _ :: _, [] => by simp [textLt, List.Lex.not_nil_right]
  | c :: cs, d :: ds => by
    have hinj : c.toNat = d.toNat ↔ c = d :=
      ⟨fun h => by rw [← Char.ofNat_toNat c, h, Char.ofNat_toNat], congrArg Char.toNat⟩
    rw [lex_cons_cons_iff, ← textLt_iff cs ds, ← hinj]
    simp only [textLt, Bool.or_eq_true, Nat.blt_eq, Bool.and_eq_true, beq_iff_eq]
    exact Iff.rfl

/-- `pathLt` is Python's `<` on paths, Mathlib's lexicographic order on lists of strings. -/
theorem pathLt_iff : ∀ a b : PosixPath, pathLt a b = true ↔ a < b
  | [], [] => by simp [pathLt]
  | [], _ :: _ => by simp [pathLt]; exact List.Lex.nil
  | _ :: _, [] => by simp [pathLt]
  | a :: as, b :: bs => by
    have ih : pathLt as bs = true ↔ List.Lex (· < ·) as bs := pathLt_iff as bs
    have hab : textLt a.data b.data = true ↔ a < b := by
      rw [textLt_iff, String.lt_iff_toList_lt]; exact Iff.rfl
    show _ ↔ List.Lex (· < ·) (a :: as) (b :: bs)
    rw [lex_cons_cons_iff, ← ih, ← hab]
    simp only [pathLt, Bool.or_eq_true, Bool.and_eq_true, decide_eq_true_eq]

/-- Inserting a path is Mathlib's ordered insertion by `≤`. -/
theorem insertPath_eq_orderedInsert (p : PosixPath) :
    ∀ l : List PosixPath, insertPath p l = l.orderedInsert (· ≤ ·) p
  | [] => rfl
  | q :: qs => by
    rw [insertPath, List.orderedInsert, insertPath_eq_orderedInsert p qs]
    by_cases h : pathLt q p = true
    · rw [if_pos h, if_neg (not_le.mpr ((pathLt_iff q p).mp h))]
    · rw [if_neg h, if_pos (not_lt.mp (mt (pathLt_iff q p).mpr h))]

/-- `sorted(paths)` is Mathlib's insertion sort by `≤`. -/
theorem sortPaths_eq_insertionSort : ∀ l : List PosixPath, sortPaths l = l.insertionSort (· ≤ ·)
  | [] => rfl
  | p :: ps => by
    rw [sortPaths, sortPaths_eq_insertionSort ps, insertPath_eq_orderedInsert]
    rfl

end BrewvaSkills

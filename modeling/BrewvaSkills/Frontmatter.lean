import BrewvaSkills.Builtins

/-!
# The frontmatter of a `SKILL.md`

`FRONTMATTER_RE` is `^---\n([\s\S]*?)\n---\n?([\s\S]*)$`. A text matches when it opens with
`---` and a newline and has a `\n---` after that; the lazy group is the text up to the first such
`\n---`, one newline after it is dropped, and the rest to the end is the body. `parse_frontmatter`
loads the group as YAML and keeps it only when it is a mapping. It catches a `yaml.YAMLError` and
reads it as an empty header; any other exception of `yaml.safe_load` leaves it.

`splitAtClose_rebuild` is the half of the round trip that the regular expression carries: a
header with no `\n---` in it, written back between the delimiters, is found again, with the body
after it byte for byte. `matchFrontmatter_eq_some_iff` is the other half: the texts that match are
exactly those built so, with the newline after the closing delimiter optional. The YAML loader
and dumper are parameters.
-/

namespace BrewvaSkills

/-- A value that `yaml.safe_load` returns, as far as the script looks into it: a string, a list,
a mapping with string keys, or anything else. A mapping is one Python object: `some i` is the
object that the anchor `&i` and its aliases `*i` all name, so that every mapping of anchor `i` in
a document is that same object, and `none` is a mapping that occurs once. -/
inductive Yaml where
  | str (s : String)
  | seq (items : List Yaml)
  | map (anchor : Option Nat) (entries : Dict String Yaml)
  | other (text : String)
  deriving Repr

/-- How `yaml.safe_load` raises: a `yaml.YAMLError`, a `RuntimeError` (the `RecursionError` of a
document nested too deep), or another exception (the `ValueError` of a timestamp that is no
date). -/
inductive LoadError where
  | yamlError
  | runtimeError
  | other
  deriving DecidableEq, Repr

/-- What a call of the script raises: a `RuntimeError` of its own, with its message; an exception
of `yaml.safe_load` that nothing caught; or another exception. -/
inductive Raised where
  | runtimeError (message : String)
  | loadError (e : LoadError)
  | other
  deriving DecidableEq, Repr

/-- Whether `except RuntimeError` catches the exception. -/
def Raised.isRuntimeError : Raised → Bool
  | .runtimeError _ => true
  | .loadError .runtimeError => true
  | _ => false

/-- The closing delimiter `\n---`. -/
def closeDelimiter : List Char := ['\n', '-', '-', '-']

/-- The text before the first `\n---` and the text after it: the lazy group of
`FRONTMATTER_RE` and what follows it. -/
def splitAtClose : List Char → Option (List Char × List Char)
  | [] => none
  | c :: rest =>
    if (c :: rest).take 4 = closeDelimiter then some ([], rest.drop 3)
    else (splitAtClose rest).map fun yr => (c :: yr.1, yr.2)

/-- `FRONTMATTER_RE.match(content)`: the header text and the body. -/
def matchFrontmatter (content : String) : Option (String × String) :=
  match content.data with
  | '-' :: '-' :: '-' :: '\n' :: rest =>
    (splitAtClose rest).map fun yr =>
      (⟨yr.1⟩, ⟨match yr.2 with
        | '\n' :: body => body
        | body => body⟩)
  | _ => none

/-- `parse_frontmatter(content)`: the header as a mapping, empty when it is not one or raises a
`yaml.YAMLError`, and the body; a text without a header is all body. Another exception of
`yaml.safe_load` leaves it. -/
def parseFrontmatter (safeLoad : String → Except LoadError Yaml) (content : String) :
    Except LoadError (Dict String Yaml × String) :=
  match matchFrontmatter content with
  | none => .ok (.empty, content)
  | some (yamlText, body) =>
    match safeLoad yamlText with
    | .ok (.map _ frontmatter) => .ok (frontmatter, body)
    | .ok _ => .ok (.empty, body)
    | .error .yamlError => .ok (.empty, body)
    | .error e => .error e

/-- The name of a skill, as `load_tier_entries` and `resolve_explicit_source` both compute it:
the declared `name` stripped, when it is a string that is not blank, else the name of the
directory that holds the file. -/
def skillName (frontmatter : Dict String Yaml) (dirName : String) : String :=
  match frontmatter.get "name" with
  | some (.str candidate) => if pyStrip candidate ≠ "" then pyStrip candidate else dirName
  | _ => dirName

/-- The text that `inject_fork_metadata` writes: the header between the delimiters, then the
body. -/
def rebuildFrontmatter (yamlText body : String) : String :=
  "---\n" ++ yamlText ++ "\n---\n" ++ body

/-- The first `\n---` after a header without one is the delimiter that follows the header. -/
theorem splitAtClose_rebuild {y : List Char} (hy : ¬closeDelimiter <:+: y) (rest : List Char) :
    splitAtClose (y ++ closeDelimiter ++ rest) = some (y, rest) := by
  induction y with
  | nil => simp [splitAtClose, closeDelimiter]
  | cons c y ih =>
    have hy' : ¬closeDelimiter <:+: y := fun h => hy (List.infix_cons h)
    have hne : (c :: (y ++ closeDelimiter ++ rest)).take 4 ≠ closeDelimiter := by
      intro h
      match y, hy with
      | [], _ | [_], _ | [_, _], _ => simp [closeDelimiter] at h
      | a :: b :: d :: y, hy =>
        simp only [List.cons_append, List.take_succ_cons, List.take_zero] at h
        exact hy (h ▸ List.infix_append [] _ _)
    rw [List.cons_append, List.cons_append, splitAtClose, if_neg hne, ih hy']
    rfl

/-- The rebuilt text matches `FRONTMATTER_RE` with the header and the body it was built from. -/
theorem matchFrontmatter_rebuild {yamlText : String} (hy : ¬closeDelimiter <:+: yamlText.data)
    (body : String) : matchFrontmatter (rebuildFrontmatter yamlText body) = some (yamlText, body) := by
  have hsplit := splitAtClose_rebuild hy ('\n' :: body.data)
  simp only [closeDelimiter, List.append_assoc, List.cons_append, List.nil_append] at hsplit
  simp [matchFrontmatter, rebuildFrontmatter, String.data_append, hsplit]

/-- `splitAtClose` cuts a text at its first `\n---`: the part before it holds none. -/
theorem splitAtClose_eq_some {l y r : List Char} :
    splitAtClose l = some (y, r) ↔ l = y ++ closeDelimiter ++ r ∧ ¬closeDelimiter <:+: y := by
  refine ⟨fun h => ?_, fun ⟨hl, hy⟩ => hl ▸ splitAtClose_rebuild hy r⟩
  induction l generalizing y r with
  | nil => simp [splitAtClose] at h
  | cons c rest ih =>
    unfold splitAtClose at h
    split at h
    case isTrue htake =>
      obtain ⟨rfl, rfl⟩ := Prod.mk.inj (Option.some.inj h).symm
      refine ⟨?_, fun hi => by simpa [closeDelimiter] using hi.length_le⟩
      rw [← List.take_append_drop 4 (c :: rest), htake]
      simp
    case isFalse htake =>
      obtain ⟨⟨y', r'⟩, hsplit, hyr⟩ := Option.map_eq_some'.mp h
      obtain ⟨rfl, rfl⟩ := Prod.mk.inj hyr.symm
      obtain ⟨rfl, hy'⟩ := ih hsplit
      refine ⟨by simp, fun hi => ?_⟩
      rcases List.infix_cons_iff.mp hi with hp | hi
      · have hp' : closeDelimiter <+: c :: (y' ++ closeDelimiter ++ r) := by
          simpa [List.append_assoc] using hp.trans (List.prefix_append (c :: y') (closeDelimiter ++ r))
        exact htake (List.prefix_iff_eq_take.mp hp').symm
      · exact hy' hi

/-- `FRONTMATTER_RE` matches exactly the texts that open with `---` and a newline, carry a header
with no `\n---` in it, then `\n---`, then the body with one newline in front of it or none; and it
returns that header and that body. Without the newline, the body does not start with one: the
regular expression would have taken it. -/
theorem matchFrontmatter_eq_some_iff (content yamlText body : String) :
    matchFrontmatter content = some (yamlText, body) ↔
      ¬closeDelimiter <:+: yamlText.data ∧
        (content = rebuildFrontmatter yamlText body ∨
          content = "---\n" ++ yamlText ++ "\n---" ++ body ∧ body.data.head? ≠ some '\n') := by
  constructor
  · unfold matchFrontmatter
    split
    case h_1 rest hdata =>
      intro h
      obtain ⟨⟨y, r⟩, hsplit, hyr⟩ := Option.map_eq_some'.mp h
      obtain ⟨rfl, rfl⟩ := Prod.mk.inj hyr
      obtain ⟨rfl, hy⟩ := splitAtClose_eq_some.mp hsplit
      refine ⟨hy, ?_⟩
      rcases r with _ | ⟨c, b⟩
      · right; simp [hdata, String.ext_iff, closeDelimiter]
      · by_cases hc : c = '\n'
        · subst hc; left; simp [hdata, rebuildFrontmatter, String.ext_iff, closeDelimiter]
        · right; simp [hdata, hc, String.ext_iff, closeDelimiter]
    case h_2 => simp
  · rintro ⟨hy, rfl | ⟨rfl, hb⟩⟩
    · exact matchFrontmatter_rebuild hy body
    · have hdata : ("---\n" ++ yamlText ++ "\n---" ++ body).data =
          '-' :: '-' :: '-' :: '\n' :: (yamlText.data ++ closeDelimiter ++ body.data) := by
        simp [String.data_append, closeDelimiter]
      simp only [matchFrontmatter, hdata, splitAtClose_rebuild hy, Option.map_some',
        Option.some.injEq, Prod.mk.injEq, true_and]
      split
      case h_1 b hbody => simp [hbody] at hb
      case h_2 => rfl

/-- A rebuilt text whose header loads as a mapping parses back to that mapping and the body. -/
theorem parseFrontmatter_rebuild (safeLoad : String → Except LoadError Yaml) {yamlText : String}
    (hy : ¬closeDelimiter <:+: yamlText.data) {anchor : Option Nat} {frontmatter : Dict String Yaml}
    (hload : safeLoad yamlText = .ok (.map anchor frontmatter)) (body : String) :
    parseFrontmatter safeLoad (rebuildFrontmatter yamlText body) = .ok (frontmatter, body) := by
  simp only [parseFrontmatter, matchFrontmatter_rebuild hy, hload]

/-- `parse_frontmatter` raises only what `yaml.safe_load` raises besides a `yaml.YAMLError`. -/
theorem parseFrontmatter_eq_error {safeLoad : String → Except LoadError Yaml} {content : String}
    {e : LoadError} (h : parseFrontmatter safeLoad content = .error e) :
    e ≠ .yamlError ∧ ∃ yamlText, safeLoad yamlText = .error e := by
  unfold parseFrontmatter at h
  split at h
  · cases h
  · split at h <;> cases h
    exact ⟨‹_›, _, ‹_›⟩

end BrewvaSkills

import BrewvaSkills.Registry

/-!
# The fork metadata

`inject_fork_metadata` parses the destination's `SKILL.md`, refuses a text without a header, and
sets `metadata["fork"]` to a record of the source. When `metadata` is a mapping, that assignment
changes the mapping object itself, so that every alias of it in the header shows the record too
(`Yaml.setShared`); when it is not, `metadata` becomes a new mapping. The script then dumps the
header as YAML, strips it, and writes it back between the delimiters in front of the original
body.

`injectForkMetadataText_roundtrip` is the round trip for a header whose `metadata` mapping no other
key shares: when the YAML dumper and loader agree on the new header, and the dumped text holds no
`\n---`, parsing the written text gives back the body byte for byte, every key but `metadata` as
it was, and in `metadata` the source's record under `fork` and every other key as it was; the
declared name, and so the resolved name, stays. `injectForkMetadataText_aliased_copy_changes` is a
header whose `metadata` another key aliases: that key gains the record too.
`injectForkMetadataText_reinject` is how two injections compose: the second record replaces the
first, so the fork of a fork carries what a fork of the original would.
-/

namespace BrewvaSkills

/-! ## Shared mappings -/

mutual

/-- A value after the mapping object of anchor `i` is given the entries `m`: each occurrence of
the object, at any depth, shows them. -/
def Yaml.setShared (i : Nat) (m : Dict String Yaml) : Yaml → Yaml
  | .map (some j) entries =>
    if j = i then .map (some i) m else .map (some j) ⟨Yaml.setSharedItems i m entries.items⟩
  | .map none entries => .map none ⟨Yaml.setSharedItems i m entries.items⟩
  | .seq items => .seq (Yaml.setSharedList i m items)
  | .str s => .str s
  | .other text => .other text

/-- `Yaml.setShared` on the values of a mapping's items. -/
def Yaml.setSharedItems (i : Nat) (m : Dict String Yaml) :
    List (String × Yaml) → List (String × Yaml)
  | [] => []
  | (k, y) :: kvs => (k, Yaml.setShared i m y) :: Yaml.setSharedItems i m kvs

/-- `Yaml.setShared` on the items of a list. -/
def Yaml.setSharedList (i : Nat) (m : Dict String Yaml) : List Yaml → List Yaml
  | [] => []
  | y :: ys => Yaml.setShared i m y :: Yaml.setSharedList i m ys

end

mutual

/-- Whether the mapping object of anchor `i` occurs in a value. -/
def Yaml.mentions (i : Nat) : Yaml → Bool
  | .map (some j) entries => j == i || Yaml.mentionsItems i entries.items
  | .map none entries => Yaml.mentionsItems i entries.items
  | .seq items => Yaml.mentionsList i items
  | .str _ => false
  | .other _ => false

/-- Whether the mapping object of anchor `i` occurs in the values of a mapping's items. -/
def Yaml.mentionsItems (i : Nat) : List (String × Yaml) → Bool
  | [] => false
  | (_, y) :: kvs => Yaml.mentions i y || Yaml.mentionsItems i kvs

/-- Whether the mapping object of anchor `i` occurs in the items of a list. -/
def Yaml.mentionsList (i : Nat) : List Yaml → Bool
  | [] => false
  | y :: ys => Yaml.mentions i y || Yaml.mentionsList i ys

end

mutual

/-- Giving a shared mapping new entries twice is giving it the second ones. -/
theorem Yaml.setShared_setShared (i : Nat) (m m' : Dict String Yaml) :
    ∀ y : Yaml, (y.setShared i m).setShared i m' = y.setShared i m'
  | .map (some j) entries => by
    by_cases hj : j = i
    · simp [Yaml.setShared, hj]
    · simp [Yaml.setShared, hj, Yaml.setSharedItems_setSharedItems i m m' entries.items]
  | .map none entries => by
    simp [Yaml.setShared, Yaml.setSharedItems_setSharedItems i m m' entries.items]
  | .seq items => by simp [Yaml.setShared, Yaml.setSharedList_setSharedList i m m' items]
  | .str _ => rfl
  | .other _ => rfl

/-- `Yaml.setShared_setShared` on the values of a mapping's items. -/
theorem Yaml.setSharedItems_setSharedItems (i : Nat) (m m' : Dict String Yaml) :
    ∀ kvs : List (String × Yaml),
      Yaml.setSharedItems i m' (Yaml.setSharedItems i m kvs) = Yaml.setSharedItems i m' kvs
  | [] => rfl
  | (k, y) :: kvs => by
    simp [Yaml.setSharedItems, Yaml.setShared_setShared i m m' y,
      Yaml.setSharedItems_setSharedItems i m m' kvs]

/-- `Yaml.setShared_setShared` on the items of a list. -/
theorem Yaml.setSharedList_setSharedList (i : Nat) (m m' : Dict String Yaml) :
    ∀ ys : List Yaml, Yaml.setSharedList i m' (Yaml.setSharedList i m ys) = Yaml.setSharedList i m' ys
  | [] => rfl
  | y :: ys => by
    simp [Yaml.setSharedList, Yaml.setShared_setShared i m m' y,
      Yaml.setSharedList_setSharedList i m m' ys]

end

mutual

/-- A value in which the mapping object of anchor `i` does not occur does not change with it. -/
theorem Yaml.setShared_of_not_mentions (i : Nat) (m : Dict String Yaml) :
    ∀ y : Yaml, y.mentions i = false → y.setShared i m = y
  | .map (some j) entries, h => by
    simp only [Yaml.mentions, Bool.or_eq_false_iff, beq_eq_false_iff_ne] at h
    simp [Yaml.setShared, h.1, Yaml.setSharedItems_of_not_mentions i m entries.items h.2]
  | .map none entries, h => by
    simp [Yaml.setShared, Yaml.setSharedItems_of_not_mentions i m entries.items h]
  | .seq items, h => by simp [Yaml.setShared, Yaml.setSharedList_of_not_mentions i m items h]
  | .str _, _ => rfl
  | .other _, _ => rfl

/-- `Yaml.setShared_of_not_mentions` on the values of a mapping's items. -/
theorem Yaml.setSharedItems_of_not_mentions (i : Nat) (m : Dict String Yaml) :
    ∀ kvs : List (String × Yaml), Yaml.mentionsItems i kvs = false →
      Yaml.setSharedItems i m kvs = kvs
  | [], _ => rfl
  | (k, y) :: kvs, h => by
    simp only [Yaml.mentionsItems, Bool.or_eq_false_iff] at h
    simp [Yaml.setSharedItems, Yaml.setShared_of_not_mentions i m y h.1,
      Yaml.setSharedItems_of_not_mentions i m kvs h.2]

/-- `Yaml.setShared_of_not_mentions` on the items of a list. -/
theorem Yaml.setSharedList_of_not_mentions (i : Nat) (m : Dict String Yaml) :
    ∀ ys : List Yaml, Yaml.mentionsList i ys = false → Yaml.setSharedList i m ys = ys
  | [], _ => rfl
  | y :: ys, h => by
    simp only [Yaml.mentionsList, Bool.or_eq_false_iff] at h
    simp [Yaml.setSharedList, Yaml.setShared_of_not_mentions i m y h.1,
      Yaml.setSharedList_of_not_mentions i m ys h.2]

end

/-- The record that `inject_fork_metadata` stores under `metadata.fork`. `forkedAt` is the time
of the fork as the script formats it, and `user` is `$USER`. -/
def forkRecord (source : SkillEntry) (forkedAt user : String) : Dict String Yaml :=
  ⟨[("source_name", .str source.name),
    ("source_tier", .str source.tier.name),
    ("source_file", .str source.filePath.toStr),
    ("source_root", .str source.root.skillDir.toStr),
    ("source_origin", .str source.root.source.name),
    ("forked_at", .str forkedAt),
    ("forked_by", .str user),
    ("tool", .str "skill-creator/scripts/fork_skill.py")]⟩

/-- The header after `metadata["fork"] = ...` and `frontmatter["metadata"] = metadata`. A
`metadata` mapping is changed in place, aliases included; anything else is replaced by a new
mapping. -/
def forkFrontmatter (frontmatter : Dict String Yaml) (source : SkillEntry) (forkedAt user : String) :
    Dict String Yaml :=
  let record : Yaml := .map none (forkRecord source forkedAt user)
  match frontmatter.get "metadata" with
  | some (.map (some i) metadata) =>
    let metadata := metadata.set "fork" record
    (frontmatter.mapValues (Yaml.setShared i metadata)).set "metadata" (.map (some i) metadata)
  | some (.map none metadata) => frontmatter.set "metadata" (.map none (metadata.set "fork" record))
  | _ => frontmatter.set "metadata" (.map none (Dict.empty.set "fork" record))

/-- The text that `inject_fork_metadata` writes over the destination's `raw` text at `path`, or
what it raises. `safeDump` is `yaml.safe_dump(..., sort_keys=False, allow_unicode=False)`. -/
def injectForkMetadataText (safeLoad : String → Except LoadError Yaml) (safeDump : Yaml → String)
    (path : PosixPath) (raw : String) (source : SkillEntry) (forkedAt user : String) :
    Except Raised String :=
  match parseFrontmatter safeLoad raw with
  | .error e => .error (.loadError e)
  | .ok (frontmatter, body) =>
    if frontmatter.items.isEmpty then
      .error (.runtimeError ("Missing frontmatter in destination SKILL.md: " ++ path.toStr))
    else
      .ok (rebuildFrontmatter
        (pyStrip (safeDump (.map none (forkFrontmatter frontmatter source forkedAt user)))) body)

/-- The anchor and the entries of the `metadata` mapping of a header: no anchor and no entries when
it is not a mapping. -/
def metadataOf (frontmatter : Dict String Yaml) : Option Nat × Dict String Yaml :=
  match frontmatter.get "metadata" with
  | some (.map anchor metadata) => (anchor, metadata)
  | _ => (none, .empty)

/-- The forked header's `metadata` is the source header's mapping, with the record under
`fork`. -/
theorem get_metadata_forkFrontmatter (frontmatter : Dict String Yaml) (source : SkillEntry)
    (forkedAt user : String) :
    (forkFrontmatter frontmatter source forkedAt user).get "metadata" =
      some (.map (metadataOf frontmatter).1
        ((metadataOf frontmatter).2.set "fork" (.map none (forkRecord source forkedAt user)))) := by
  rcases h : frontmatter.get "metadata" with _ | (_ | _ | ⟨_ | i, m⟩ | _) <;>
    simp [forkFrontmatter, metadataOf, h]

/-- A second fork record replaces the first in place: the header is the one a single fork would
give, the changes to the aliases of `metadata` included. -/
theorem forkFrontmatter_forkFrontmatter (frontmatter : Dict String Yaml) (source source' : SkillEntry)
    (forkedAt forkedAt' user user' : String) :
    forkFrontmatter (forkFrontmatter frontmatter source forkedAt user) source' forkedAt' user' =
      forkFrontmatter frontmatter source' forkedAt' user' := by
  rcases h : frontmatter.get "metadata" with _ | (_ | _ | ⟨_ | i, m⟩ | _) <;>
    simp [forkFrontmatter, h, Dict.mapValues_set, Yaml.setShared_setShared]

/-- `inject_fork_metadata` over a text with a header writes the forked header and the body. -/
theorem injectForkMetadataText_of_parse {safeLoad : String → Except LoadError Yaml}
    (safeDump : Yaml → String) (path : PosixPath) {raw : String} (source : SkillEntry)
    (forkedAt user : String) {fm : Dict String Yaml} {body : String}
    (hparse : parseFrontmatter safeLoad raw = .ok (fm, body)) (hne : fm.items ≠ []) :
    injectForkMetadataText safeLoad safeDump path raw source forkedAt user =
      .ok (rebuildFrontmatter
        (pyStrip (safeDump (.map none (forkFrontmatter fm source forkedAt user)))) body) := by
  simp [injectForkMetadataText, hparse, List.isEmpty_iff, hne]

/-- A source entry for the samples below. -/
def sampleSource : SkillEntry :=
  ⟨"foo", .base, ["s", "base", "foo", "SKILL.md"], ["s", "base", "foo"], ⟨["s"], ["s"], .projectRoot⟩⟩

/-- A header that only declares a name. -/
def sampleHeader : Dict String Yaml := ⟨[("name", .str "foo")]⟩

/-- A YAML loader for the sample: `H` loads as the header and `D` as the forked header. With a
dumper that writes every mapping as `D`, the two agree on the forked header. -/
def sampleLoad (text : String) : Except LoadError Yaml :=
  if text = "H" then .ok (.map none sampleHeader)
  else if text = "D" then .ok (.map none (forkFrontmatter sampleHeader sampleSource "t" "u"))
  else .error .yamlError

/-- Injecting the fork metadata twice is injecting the second record once: the fork of a fork keeps
no trace of the first fork, and writes what forking the original text would. -/
theorem injectForkMetadataText_reinject (safeLoad : String → Except LoadError Yaml)
    (safeDump : Yaml → String) (path : PosixPath) (raw : String) (source source' : SkillEntry)
    (forkedAt forkedAt' user user' : String) {fm : Dict String Yaml} {body : String}
    (hparse : parseFrontmatter safeLoad raw = .ok (fm, body))
    (hload : safeLoad (pyStrip (safeDump (.map none (forkFrontmatter fm source forkedAt user)))) =
      .ok (.map none (forkFrontmatter fm source forkedAt user)))
    (hsep : ¬closeDelimiter <:+:
      (pyStrip (safeDump (.map none (forkFrontmatter fm source forkedAt user)))).data) :
    (injectForkMetadataText safeLoad safeDump path raw source forkedAt user).bind
        (fun rebuilt => injectForkMetadataText safeLoad safeDump path rebuilt source' forkedAt' user') =
      injectForkMetadataText safeLoad safeDump path raw source' forkedAt' user' := by
  by_cases hne : fm.items = []
  · simp [injectForkMetadataText, hparse, hne, Except.bind]
  · have hne' : (forkFrontmatter fm source forkedAt user).items ≠ [] := by
      intro h
      simpa [Dict.get, h, Dict.findItem] using get_metadata_forkFrontmatter fm source forkedAt user
    rw [injectForkMetadataText_of_parse safeDump path source forkedAt user hparse hne,
      injectForkMetadataText_of_parse safeDump path source' forkedAt' user' hparse hne]
    simp only [Except.bind]
    rw [injectForkMetadataText_of_parse safeDump path source' forkedAt' user'
      (parseFrontmatter_rebuild safeLoad hsep hload body) hne', forkFrontmatter_forkFrontmatter]

/-- A fork of the sample fork, at another time and by another user. -/
theorem injectForkMetadataText_reinject_sample :
    (injectForkMetadataText sampleLoad (fun _ => "D") ["s", "SKILL.md"] "---\nH\n---\nbody"
        sampleSource "t" "u").bind (fun rebuilt =>
          injectForkMetadataText sampleLoad (fun _ => "D") ["s", "SKILL.md"] rebuilt sampleSource
            "t2" "v") =
      injectForkMetadataText sampleLoad (fun _ => "D") ["s", "SKILL.md"] "---\nH\n---\nbody"
        sampleSource "t2" "v" :=
  injectForkMetadataText_reinject sampleLoad (fun _ => "D") _ _ sampleSource sampleSource "t" "t2"
    "u" "v" rfl rfl fun h => absurd h.length_le (by decide)

end BrewvaSkills

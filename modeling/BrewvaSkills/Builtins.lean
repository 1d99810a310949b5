import Mathlib.Data.List.Basic

/-!
# The Python built-ins that `fork_skill.py` relies on

`str.strip()` and `dict`. Texts are processed as lists of characters, by structural recursion, so
that the definitions evaluate under `decide`.

A `dict` is its items in insertion order, with distinct keys: `d[k] = v` keeps the place of a
present key and appends a new one, and `d.get(k)` is the value of the one item with key `k`. The
lemmas below are the only facts about dictionaries that the rest of the development uses.
-/

namespace BrewvaSkills

/-- The characters that `str.strip()` removes: those for which `str.isspace()` holds. -/
def isPySpace (c : Char) : Bool :=
  let n := c.toNat
  (9 ≤ n && n ≤ 13) || (28 ≤ n && n ≤ 32) || n == 0x85 || n == 0xA0 || n == 0x1680 ||
    (0x2000 ≤ n && n ≤ 0x200A) || n == 0x2028 || n == 0x2029 || n == 0x202F || n == 0x205F ||
    n == 0x3000

/-- `s.strip()`. -/
def pyStrip (s : String) : String :=
  ⟨((s.data.dropWhile isPySpace).reverse.dropWhile isPySpace).reverse⟩

/-- `strip` leaves a text that neither starts nor ends with a space. -/
theorem pyStrip_eq_self {s : String} (hhead : ∀ c ∈ s.data.head?, isPySpace c = false)
    (hlast : ∀ c ∈ s.data.getLast?, isPySpace c = false) : pyStrip s = s := by
  have dropWhile_self : ∀ l : List Char, (∀ c ∈ l.head?, isPySpace c = false) →
      l.dropWhile isPySpace = l
    | [], _ => rfl
    | c :: _, h => List.dropWhile_cons_of_neg (by simpa using h c rfl)
  rw [pyStrip, dropWhile_self _ hhead, dropWhile_self _ (by simpa using hlast),
    List.reverse_reverse]

/-- What `strip` leaves neither starts nor ends with a space, so a second `strip` keeps it. -/
@[simp] theorem pyStrip_pyStrip (s : String) : pyStrip (pyStrip s) = pyStrip s := by
  have head_ok : ∀ l : List Char, ∀ c ∈ (l.dropWhile isPySpace).head?, isPySpace c = false :=
    fun l c hc => by simpa [Option.mem_def.mp hc] using List.head?_dropWhile_not isPySpace l
  have last_mem : ∀ l : List Char, ∀ c ∈ (l.dropWhile isPySpace).getLast?, c ∈ l.getLast? := by
    intro l c hc
    have hne : l.dropWhile isPySpace ≠ [] := by rintro h; simp [h] at hc
    have hl : l ≠ [] := fun h => hne (by simp [h])
    rw [List.getLast?_eq_getLast _ hne, (List.dropWhile_suffix isPySpace).getLast hne] at hc
    rwa [List.getLast?_eq_getLast _ hl]
  apply pyStrip_eq_self
  · intro c hc
    simp only [pyStrip, List.head?_reverse] at hc
    exact head_ok _ c (by simpa using last_mem _ c hc)
  · intro c hc
    simp only [pyStrip, List.getLast?_reverse] at hc
    exact head_ok _ c hc

/-- A Python `dict`: its items in insertion order. -/
structure Dict (κ ν : Type) where
  /-- The items, oldest first. -/
  items : List (κ × ν)
  deriving Repr

namespace Dict

variable {κ ν : Type} [DecidableEq κ]

/-- `{}`. -/
def empty : Dict κ ν := ⟨[]⟩

/-- The value of the first item with key `k`. -/
def findItem (k : κ) : List (κ × ν) → Option ν
  | [] => none
  | kv :: kvs => if kv.1 = k then some kv.2 else findItem k kvs

/-- The items with the first one of key `k` given the value `v`, or `(k, v)` appended. -/
def setItem (k : κ) (v : ν) : List (κ × ν) → List (κ × ν)
  | [] => [(k, v)]
  | kv :: kvs => if kv.1 = k then (k, v) :: kvs else kv :: setItem k v kvs

/-- The items without those of key `k`. -/
def dropItem (k : κ) : List (κ × ν) → List (κ × ν)
  | [] => []
  | kv :: kvs => if kv.1 = k then dropItem k kvs else kv :: dropItem k kvs

/-- `d.get(k)`. -/
def get (d : Dict κ ν) (k : κ) : Option ν := findItem k d.items

/-- `k in d`. -/
def contains (d : Dict κ ν) (k : κ) : Bool := (d.get k).isSome

/-- `d[k] = v`: a present key keeps its place, a new one goes last. -/
def set (d : Dict κ ν) (k : κ) (v : ν) : Dict κ ν := ⟨setItem k v d.items⟩

/-- `d.pop(k, None)`, for its effect on `d`. -/
def pop (d : Dict κ ν) (k : κ) : Dict κ ν := ⟨dropItem k d.items⟩

/-- The empty dictionary has no key. -/
@[simp] theorem get_empty (k : κ) : (empty : Dict κ ν).get k = none := rfl

/-- After `d[k] = v`, `d.get(k)` is `v`. -/
@[simp] theorem get_set_self (d : Dict κ ν) (k : κ) (v : ν) : (d.set k v).get k = some v := by
  unfold set get
  induction d.items with
  | nil => simp [setItem, findItem]
  | cons kv kvs ih => by_cases h : kv.1 = k <;> simp [setItem, findItem, h, ih]

/-- Setting one key leaves the others. -/
@[simp] theorem get_set_of_ne (d : Dict κ ν) {k k' : κ} (v : ν) (h : k' ≠ k) :
    (d.set k v).get k' = d.get k' := by
  unfold set get
  induction d.items with
  | nil => simp [setItem, findItem, Ne.symm h]
  | cons kv kvs ih =>
    by_cases hk : kv.1 = k
    · subst hk; simp [setItem, findItem, Ne.symm h]
    · simp [setItem, findItem, hk, ih]

/-- Setting a key twice is setting it to the second value: the item keeps its place. -/
@[simp] theorem set_set (d : Dict κ ν) (k : κ) (v w : ν) : (d.set k v).set k w = d.set k w := by
  obtain ⟨items⟩ := d
  simp only [set, mk.injEq]
  induction items with
  | nil => simp [setItem]
  | cons kv kvs ih => by_cases h : kv.1 = k <;> simp [setItem, h, ih]

/-- After `d[k] = v`, `d` is not empty. -/
theorem set_items_ne_nil (d : Dict κ ν) (k : κ) (v : ν) : (d.set k v).items ≠ [] := fun h => by
  simpa [get, h, findItem] using get_set_self d k v

/-- `d.pop(k)` removes `k`. -/
@[simp] theorem get_pop_self (d : Dict κ ν) (k : κ) : (d.pop k).get k = none := by
  unfold pop get
  induction d.items with
  | nil => rfl
  | cons kv kvs ih => by_cases h : kv.1 = k <;> simp [dropItem, findItem, h, ih]

/-- Popping one key leaves the others. -/
@[simp] theorem get_pop_of_ne (d : Dict κ ν) {k k' : κ} (h : k' ≠ k) :
    (d.pop k).get k' = d.get k' := by
  unfold pop get
  induction d.items with
  | nil => rfl
  | cons kv kvs ih =>
    by_cases hk : kv.1 = k
    · subst hk; simp [dropItem, findItem, Ne.symm h, ih]
    · simp [dropItem, findItem, hk, ih]

/-- Popping each key of a list: a key of the list is gone, any other keeps its value. -/
theorem get_foldl_pop (ks : List κ) (d : Dict κ ν) (k : κ) :
    (ks.foldl pop d).get k = if k ∈ ks then none else d.get k := by
  induction ks generalizing d with
  | nil => simp
  | cons x xs ih =>
    rw [List.foldl_cons, ih]
    by_cases hk : k = x
    · subst hk; simp
    · simp [hk, get_pop_of_ne _ hk]

/-- With distinct keys, the value of a key is the one of its item. -/
theorem findItem_eq_some_iff {k : κ} {v : ν} :
    ∀ {l : List (κ × ν)}, (l.map Prod.fst).Nodup → (findItem k l = some v ↔ (k, v) ∈ l)
  | [], _ => by simp [findItem]
  | kv :: kvs, hnd => by
    rw [List.map_cons, List.nodup_cons] at hnd
    by_cases hk : kv.1 = k
    · subst hk
      have : (kv.1, v) ∉ kvs := fun h => hnd.1 (List.mem_map.mpr ⟨_, h, rfl⟩)
      obtain ⟨k, w⟩ := kv
      simp [findItem, this, eq_comm]
    · have : (k, v) ≠ kv := fun h => hk (h ▸ rfl)
      simp [findItem, hk, this, findItem_eq_some_iff hnd.2]

/-- The dictionary with `f` applied to every value, each item in its place. -/
def mapValues {ν' : Type} (d : Dict κ ν) (f : ν → ν') : Dict κ ν' :=
  ⟨d.items.map fun kv => (kv.1, f kv.2)⟩

/-- A value of a mapped dictionary is the mapped value. -/
@[simp] theorem get_mapValues {ν' : Type} (d : Dict κ ν) (f : ν → ν') (k : κ) :
    (d.mapValues f).get k = (d.get k).map f := by
  unfold mapValues get
  induction d.items with
  | nil => rfl
  | cons kv kvs ih => by_cases h : kv.1 = k <;> simp [findItem, h, ih]

/-- Mapping after setting a key is setting the mapped value. -/
theorem mapValues_set {ν' : Type} (d : Dict κ ν) (f : ν → ν') (k : κ) (v : ν) :
    (d.set k v).mapValues f = (d.mapValues f).set k (f v) := by
  obtain ⟨items⟩ := d
  simp only [mapValues, set, mk.injEq]
  induction items with
  | nil => rfl
  | cons kv kvs ih => by_cases h : kv.1 = k <;> simp [setItem, h, ih]

omit [DecidableEq κ] in
/-- Mapping twice is mapping by the composite. -/
@[simp] theorem mapValues_mapValues {ν' ν'' : Type} (d : Dict κ ν) (f : ν → ν') (g : ν' → ν'') :
    (d.mapValues f).mapValues g = d.mapValues fun v => g (f v) := by
  simp [mapValues]

/-! ### Several items at once

The calls of the fork change a tree's dictionary of nodes by dropping the items whose key fails a
test, and by setting a list of items in turn. -/

/-- Dropping the items whose key fails a test. -/
theorem findItem_filter (p : κ → Prop) [DecidablePred p] (k : κ) (l : List (κ × ν)) :
    findItem k (l.filter fun kv => decide (p kv.1)) = if p k then findItem k l else none := by
  induction l with
  | nil => simp [findItem]
  | cons kv kvs ih =>
    by_cases hk : kv.1 = k
    · subst hk; by_cases hp : p kv.1 <;> simp [findItem, hp, ih]
    · by_cases hp : p kv.1 <;> simp [findItem, List.filter_cons, hp, hk, ih]

/-- An item after setting a key is the new item or an item that was there. -/
theorem mem_setItem {k : κ} {v : ν} {kv : κ × ν} :
    ∀ {l : List (κ × ν)}, kv ∈ setItem k v l → kv = (k, v) ∨ kv ∈ l
  | [], h => by simpa [setItem] using h
  | kv' :: kvs, h => by
    unfold setItem at h
    split at h
    · simp only [List.mem_cons] at h
      rcases h with rfl | h
      · exact .inl rfl
      · exact .inr (List.mem_cons_of_mem _ h)
    · simp only [List.mem_cons] at h
      rcases h with rfl | h
      · exact .inr (List.mem_cons_self _ _)
      · exact (mem_setItem h).imp_right (List.mem_cons_of_mem _)

/-- Setting a key adds it to the keys, once. -/
theorem keys_setItem (k : κ) (v : ν) : ∀ l : List (κ × ν),
    (setItem k v l).map Prod.fst =
      if k ∈ l.map Prod.fst then l.map Prod.fst else l.map Prod.fst ++ [k]
  | [] => by simp [setItem]
  | kv :: kvs => by
    by_cases h : kv.1 = k
    · simp [setItem, h]
    · have h' : k ∈ (kv :: kvs).map Prod.fst ↔ k ∈ kvs.map Prod.fst := by simp [Ne.symm h]
      rw [setItem, if_neg h, List.map_cons, keys_setItem k v kvs, if_congr h' rfl rfl]
      split <;> simp

/-- Setting a key keeps the keys distinct. -/
theorem nodup_keys_set (d : Dict κ ν) (k : κ) (v : ν) (h : (d.items.map Prod.fst).Nodup) :
    ((d.set k v).items.map Prod.fst).Nodup := by
  unfold set
  rw [keys_setItem]
  split
  · exact h
  · rename_i hk
    refine List.pairwise_append.mpr ⟨h, List.pairwise_singleton _ _, fun a ha b hb => ?_⟩
    rw [List.mem_singleton.mp hb]
    exact fun hak => hk (hak ▸ ha)

/-- `d[k] = v` for each item `(k, v)` of a list, in turn. -/
def setAll (l : List (κ × ν)) (d : Dict κ ν) : Dict κ ν :=
  l.foldl (fun d kv => d.set kv.1 kv.2) d

/-- Setting a list's items leaves a key that the list does not have. -/
theorem get_setAll_of_not_mem {x : κ} :
    ∀ (l : List (κ × ν)) (d : Dict κ ν), x ∉ l.map Prod.fst → (setAll l d).get x = d.get x
  | [], _, _ => rfl
  | kv :: kvs, d, hx => by
    simp only [List.map_cons, List.mem_cons, not_or] at hx
    rw [setAll, List.foldl_cons, ← setAll, get_setAll_of_not_mem kvs _ hx.2,
      get_set_of_ne _ _ hx.1]

/-- Setting a list's items, with distinct keys, gives each key the list's value. -/
theorem get_setAll_of_mem {x : κ} {n : ν} :
    ∀ (l : List (κ × ν)) (d : Dict κ ν), (l.map Prod.fst).Nodup → (x, n) ∈ l →
      (setAll l d).get x = some n
  | [], _, _, hx => absurd hx (List.not_mem_nil _)
  | kv :: kvs, d, hnd, hx => by
    rw [List.map_cons, List.nodup_cons] at hnd
    rw [setAll, List.foldl_cons, ← setAll]
    rcases List.mem_cons.mp hx with rfl | hx
    · rw [get_setAll_of_not_mem kvs _ hnd.1, get_set_self]
    · exact get_setAll_of_mem kvs _ hnd.2 hx

/-- Setting a list's items keeps the keys distinct. -/
theorem nodup_keys_setAll :
    ∀ (l : List (κ × ν)) (d : Dict κ ν), (d.items.map Prod.fst).Nodup →
      ((setAll l d).items.map Prod.fst).Nodup
  | [], _, h => h
  | kv :: kvs, d, h => nodup_keys_setAll kvs _ (nodup_keys_set d kv.1 kv.2 h)

/-- An item after setting a list's items is from the list or was there. -/
theorem mem_setAll {kv : κ × ν} :
    ∀ (l : List (κ × ν)) (d : Dict κ ν), kv ∈ (setAll l d).items → kv ∈ l ∨ kv ∈ d.items
  | [], _, h => .inr h
  | kv' :: kvs, d, h => by
    rcases mem_setAll kvs _ h with h | h
    · exact .inl (List.mem_cons_of_mem _ h)
    · rcases mem_setItem h with rfl | h
      · exact .inl (List.mem_cons_self _ _)
      · exact .inr h

end Dict

end BrewvaSkills

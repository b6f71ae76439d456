/-!
# DocGraph: fields in insertion order

The fields of an object: distinct names in the order in which they were first bound. Binding a
name again replaces its value and keeps its place. The type carries the proof that no name occurs
twice, so a lookup and the listing of the fields never disagree.

* `mem_toList_iff_get?`: a pair is listed exactly when looking up its name gives its value.
* `toList_ofList`: pairs with different names are listed as they are given.
* `get?_insert`: binding a name changes the lookup of that name only.
-/

namespace DocGraph

/-- Named values in insertion order, no name twice. -/
structure Fields (α : Type) where
  toList : List (String × α)
  nodup : (toList.map Prod.fst).Nodup

namespace Fields

variable {α : Type}

def empty : Fields α := ⟨[], by simp⟩

instance : Inhabited (Fields α) := ⟨empty⟩

def size (f : Fields α) : Nat := f.toList.length

def get? (f : Fields α) (name : String) : Option α :=
  f.toList.lookup name

def contains (f : Fields α) (name : String) : Bool :=
  (f.get? name).isSome

/-- Replaces the value bound to `name`, in place. -/
def replace (name : String) (value : α) : List (String × α) → List (String × α)
  | [] => []
  | (n, v) :: rest => if n = name then (n, value) :: rest else (n, v) :: replace name value rest

theorem map_fst_replace (name : String) (value : α) (l : List (String × α)) :
    (replace name value l).map Prod.fst = l.map Prod.fst := by
  induction l with
  | nil => rfl
  | cons p rest ih => by_cases h : p.1 = name <;> simp [replace, h, ih]

/-- Binds `name` to `value`: in place if the name is bound already, else at the end. -/
def insert (f : Fields α) (name : String) (value : α) : Fields α :=
  if h : name ∈ f.toList.map Prod.fst then
    ⟨replace name value f.toList, by rw [map_fst_replace]; exact f.nodup⟩
  else
    ⟨f.toList ++ [(name, value)], by
      rw [List.map_append, List.nodup_append]
      refine ⟨f.nodup, by simp, ?_⟩
      intro a ha b hb hab
      simp only [List.map_cons, List.map_nil, List.mem_singleton] at hb
      exact h (by rw [← hb, ← hab]; exact ha)⟩

/-- Binds the pairs one after the other. -/
def ofList (pairs : List (String × α)) : Fields α :=
  pairs.foldl (fun f p => f.insert p.1 p.2) empty

/-! ## Lookup and listing -/

theorem lookup_eq_some_iff {l : List (String × α)} (hl : (l.map Prod.fst).Nodup)
    {name : String} {value : α} : l.lookup name = some value ↔ (name, value) ∈ l := by
  induction l with
  | nil => simp
  | cons p rest ih =>
    obtain ⟨n, v⟩ := p
    rw [List.map_cons, List.nodup_cons] at hl
    by_cases h : name = n
    -- the first pair has the name, so none behind it has
    · subst h
      have hnot : ∀ w, (name, w) ∉ rest := fun w hw => hl.1 (List.mem_map.2 ⟨_, hw, rfl⟩)
      simp [hnot, eq_comm]
    · have hb : (name == n) = false := by simpa using h
      rw [List.lookup_cons, hb]
      simp [ih hl.2, h]

theorem mem_toList_iff_get? (f : Fields α) {name : String} {value : α} :
    (name, value) ∈ f.toList ↔ f.get? name = some value :=
  (lookup_eq_some_iff f.nodup).symm

theorem toList_insert_of_mem {f : Fields α} {name : String} (h : name ∈ f.toList.map Prod.fst)
    (value : α) : (f.insert name value).toList = replace name value f.toList := by
  simp only [insert, h, ↓reduceDIte]

theorem toList_insert_of_not_mem {f : Fields α} {name : String}
    (h : name ∉ f.toList.map Prod.fst) (value : α) :
    (f.insert name value).toList = f.toList ++ [(name, value)] := by
  simp only [insert, h, ↓reduceDIte]

/-- Pairs with different names are the fields that binding them makes. -/
theorem toList_ofList {pairs : List (String × α)} (hNames : (pairs.map Prod.fst).Nodup) :
    (ofList pairs).toList = pairs := by
  have hFold : ∀ f : Fields α, (f.toList.map Prod.fst ++ pairs.map Prod.fst).Nodup →
      (pairs.foldl (fun f p => f.insert p.1 p.2) f).toList = f.toList ++ pairs := by
    clear hNames
    induction pairs with
    | nil =>
      intro f _
      exact (List.append_nil _).symm
    | cons p pairs ih =>
      intro f hNodup
      have hNew : p.1 ∉ f.toList.map Prod.fst := fun hMem =>
        (List.nodup_append.1 hNodup).2.2 p.1 hMem p.1 (by simp) rfl
      have hInsert := toList_insert_of_not_mem hNew p.2
      rw [List.foldl_cons, ih, hInsert, List.append_assoc]
      · rfl
      · rw [hInsert, List.map_append, List.append_assoc]
        exact hNodup
  exact hFold empty hNames

theorem lookup_replace {name : String} {value : α} {l : List (String × α)}
    (h : name ∈ l.map Prod.fst) (other : String) :
    (replace name value l).lookup other = if other = name then some value else l.lookup other := by
  induction l with
  | nil => simp at h
  | cons p rest ih =>
    obtain ⟨n, v⟩ := p
    by_cases hn : n = name
    -- the first pair is the one replaced
    · subst hn
      by_cases ho : other = n
      · simp [replace, ho]
      · have hb : (other == n) = false := by simpa using ho
        simp [replace, List.lookup_cons, ho, hb]
    -- it is further behind
    · have hr : name ∈ rest.map Prod.fst := by
        rcases List.mem_cons.1 h with h | h
        · exact absurd h.symm hn
        · exact h
      by_cases ho : other = n
      · subst ho
        simp [replace, hn]
      · have hb : (other == n) = false := by simpa using ho
        simp [replace, hn, List.lookup_cons, hb, ih hr]

theorem get?_insert (f : Fields α) (name : String) (value : α) (other : String) :
    (f.insert name value).get? other = if other = name then some value else f.get? other := by
  by_cases h : name ∈ f.toList.map Prod.fst
  -- bound before: replaced in place
  · rw [get?, toList_insert_of_mem h, lookup_replace h, get?]
  -- new: found at the end only
  · rw [get?, toList_insert_of_not_mem h, List.lookup_append, get?]
    by_cases ho : other = name
    · subst ho
      have hnone : f.toList.lookup other = none := by
        rw [List.lookup_eq_none_iff]
        intro p hp
        simpa using fun he : other = p.1 => h (List.mem_map.2 ⟨p, hp, he.symm⟩)
      simp [hnone]
    · have hb : (other == name) = false := by simpa using ho
      simp [List.lookup_cons, hb, ho]

end Fields

end DocGraph

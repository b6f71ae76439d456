import DocGraph.Path.Render

/-!
# DocGraph: the text of rendered paths

A search extends the path of a container by one key at a time; `trail` is what it then holds for
a list of keys. Written out, a path is the text of its first key and a `suffix` in which every
later key brings its own punctuation.

* `render_concat`: rendering a list of keys ends with one more step of the search.
* `toList_render_cons`: the characters of a rendered path.
-/

namespace DocGraph.Path

/-- The path that a search holds after the keys: none at the root. -/
def trail (keys : List Key) : Option String :=
  keys.foldl (fun path key => some (child path key)) none

theorem trail_concat (keys : List Key) (key : Key) :
    trail (keys ++ [key]) = some (child (trail keys) key) := by
  rw [trail, List.foldl_append]
  rfl

theorem render_concat (keys : List Key) (key : Key) :
    render (keys ++ [key]) = child (trail keys) key := by
  rw [render, ← trail, trail_concat, Option.getD_some]

/-- The characters that a key adds behind a path. -/
def suffix : Key → List Char
  | .field name => '.' :: name.toList
  | .index position => '[' :: ((toString position).toList ++ [']'])

theorem toList_child_some (parent : String) (key : Key) :
    (child (some parent) key).toList = parent.toList ++ suffix key := by
  cases key <;> simp [child, suffix, String.toList_append]

theorem toList_render_cons (key : Key) (keys : List Key) :
    (render (key :: keys)).toList = key.text.toList ++ keys.flatMap suffix := by
  have hFold : ∀ (parent : String) (keys : List Key),
      ((keys.foldl (fun path key => some (child path key)) (some parent)).getD "").toList =
        parent.toList ++ keys.flatMap suffix := by
    intro parent keys
    induction keys generalizing parent with
    | nil => simp
    | cons key keys ih =>
      rw [List.foldl_cons, ih, toList_child_some, List.append_assoc, List.flatMap_cons]
  exact hFold key.text keys

end DocGraph.Path

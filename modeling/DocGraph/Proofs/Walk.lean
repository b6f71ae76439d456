import DocGraph.Heap
import Mathlib.Data.List.Nodup
import Mathlib.Data.List.Shortlex

/-!
# DocGraph: walks through a graph

A walk follows one entry after the other, each an entry of the container reached so far and each
leading to a container. It is named by the positions of its entries, so walks from one root have
an order: the shorter one comes first, and of two walks of one length the one whose first
different entry is listed earlier.

* `keys_object` / `keys_array`: the keys of a container, in order.
* `nodup_keys`: no two children of a container have the same key.
* `Walk.split` / `Walk.append` / `Walk.unique`: walks are cut and joined anywhere, and the
  positions decide where a walk leads and under which keys.
* `Precedes.append`: what follows two walks does not change their order, unless it is shorter
  behind the later one.
-/

namespace DocGraph

namespace Heap

/-- The keys of an object are its names, in order. -/
theorem keys_object (h : Heap) (id : Nat) :
    (h.entries (.object id)).map Prod.fst = ((h.fields id).toList.map Prod.fst).map .field := by
  rw [entries, List.map_map, List.map_map]
  rfl

/-- The keys of an array are the positions below its length. -/
theorem keys_array (h : Heap) (id : Nat) :
    (h.entries (.array id)).map Prod.fst = (List.range' 0 (h.items id).length).map .index := by
  rw [entries, ← List.zipIdx_map_snd, List.map_map, List.map_map]
  rfl

theorem nodup_keys (h : Heap) (c : Container) : ((h.entries c).map Prod.fst).Nodup := by
  cases c with
  -- the names of an object's fields are different
  | object id =>
    rw [keys_object]
    exact List.Nodup.map (fun _ _ => Key.field.inj) (h.fields id).nodup
  -- the positions in an array go up
  | array id =>
    rw [keys_array]
    exact List.Nodup.map (fun _ _ => Key.index.inj) List.nodup_range'

/-- The entries at the positions `w`, the first among those of `c`, have the keys `keys` and lead
to the last container. -/
inductive Walk (h : Heap) : Container → List Nat → List Key → Container → Prop
  | here (c : Container) : Walk h c [] [] c
  | step {c d e : Container} {n : Nat} {w : List Nat} {key : Key} {keys : List Key} :
      (h.entries c)[n]? = some (key, .container d) → Walk h d w keys e →
      Walk h c (n :: w) (key :: keys) e

/-- Some walk leads from `c` to `d`; the empty one leads from `c` to itself. -/
def Reaches (h : Heap) (c d : Container) : Prop :=
  ∃ w keys, h.Walk c w keys d

namespace Walk

variable {h : Heap} {c d e : Container} {w u : List Nat} {keys keys' : List Key}

theorem append (hw : h.Walk c w keys d) (hu : h.Walk d u keys' e) :
    h.Walk c (w ++ u) (keys ++ keys') e := by
  induction hw with
  | here => exact hu
  | step hEntry _ ih => exact .step hEntry (ih hu)

theorem concat {n : Nat} {key : Key} (hw : h.Walk c w keys d)
    (hEntry : (h.entries d)[n]? = some (key, .container e)) :
    h.Walk c (w ++ [n]) (keys ++ [key]) e :=
  hw.append (.step hEntry (.here e))

theorem split (hw : h.Walk c (w ++ u) keys e) :
    ∃ d front back, keys = front ++ back ∧ h.Walk c w front d ∧ h.Walk d u back e := by
  induction w generalizing c keys with
  | nil => exact ⟨c, [], keys, rfl, .here c, hw⟩
  | cons n w ih =>
    cases hw with
    | step hEntry hRest =>
      obtain ⟨d, front, back, rfl, hFront, hBack⟩ := ih hRest
      exact ⟨d, _, back, rfl, .step hEntry hFront, hBack⟩

theorem unique (hw : h.Walk c w keys d) (hu : h.Walk c w keys' e) : keys = keys' ∧ d = e := by
  induction hw generalizing keys' with
  | here =>
    cases hu
    exact ⟨rfl, rfl⟩
  | step hEntry _ ih =>
    cases hu with
    | step hEntry' hRest' =>
      rw [hEntry] at hEntry'
      cases hEntry'
      obtain ⟨rfl, rfl⟩ := ih hRest'
      exact ⟨rfl, rfl⟩

end Walk

theorem reaches_self (h : Heap) (c : Container) : h.Reaches c c :=
  ⟨[], [], .here c⟩

theorem Reaches.child {h : Heap} {c d e : Container} {key : Key} (hd : h.Reaches c d)
    (hEntry : (key, .container e) ∈ h.entries d) : h.Reaches c e := by
  obtain ⟨w, keys, hw⟩ := hd
  obtain ⟨n, hn⟩ := List.mem_iff_getElem?.1 hEntry
  exact ⟨w ++ [n], keys ++ [key], hw.concat hn⟩

/-- A set that holds the root and the children of all it holds has every reachable container. -/
theorem Reaches.closed {h : Heap} {c d : Container} {s : Container → Prop} (hd : h.Reaches c d)
    (hc : s c) (hs : ∀ a, s a → ∀ key b, (key, .container b) ∈ h.entries a → s b) : s d := by
  obtain ⟨w, keys, hw⟩ := hd
  induction hw with
  | here => exact hc
  | step hEntry _ ih => exact ih (hs _ hc _ _ (List.mem_of_getElem? hEntry))

end Heap

/-! ## The order of walks -/

/-- The walk at the positions `w` is shorter than the one at `u`, or as long and earlier at the
first entry where they differ. -/
abbrev Precedes (w u : List Nat) : Prop :=
  List.Shortlex (· < ·) w u

/-- Two lists of one length keep their order whatever follows each of them. -/
theorem lex_append_append {w u : List Nat} (hlen : w.length = u.length)
    (h : List.Lex (· < ·) w u) (x y : List Nat) : List.Lex (· < ·) (w ++ x) (u ++ y) := by
  induction h with
  | nil => simp at hlen
  | rel hlt => exact .rel hlt
  | cons _ ih => exact .cons (ih (by simpa using hlen))

namespace Precedes

variable {w u : List Nat}

theorem append {x y : List Nat} (h : Precedes w u) (hlen : x.length ≤ y.length) :
    Precedes (w ++ x) (u ++ y) := by
  rcases List.shortlex_def.1 h with hlt | ⟨heq, hlex⟩
  -- `w` is shorter, and so is `w ++ x`
  · apply List.Shortlex.of_length_lt
    rw [List.length_append, List.length_append]
    omega
  -- `w` and `u` are as long, so the first difference stays where it is unless `x` is shorter
  · rcases Nat.lt_or_eq_of_le hlen with hlt' | heq'
    · apply List.Shortlex.of_length_lt
      rw [List.length_append, List.length_append]
      omega
    · exact .of_lex (by rw [List.length_append, List.length_append, heq, heq'])
        (lex_append_append heq hlex x y)

/-- A walk comes before its continuations. -/
theorem concat_self (w : List Nat) (n : Nat) : Precedes w (w ++ [n]) :=
  .of_length_lt (by simp)

/-- Continuations by one entry are in the order of that entry. -/
theorem concat_of_lt {n m : Nat} (w : List Nat) (h : n < m) : Precedes (w ++ [n]) (w ++ [m]) :=
  List.Shortlex.append_left ((List.shortlex_singleton_iff n m).2 h) w

theorem not_symm (h : Precedes w u) : ¬ Precedes u w :=
  Std.Asymm.asymm w u h

end Precedes

theorem eq_or_precedes_of_not {w u : List Nat} (h : ¬ Precedes u w) : w = u ∨ Precedes w u := by
  rcases Classical.em (Precedes w u) with hw | hw
  · exact .inr hw
  · exact .inl (Std.Trichotomous.trichotomous w u hw h)

/-- Of the walks with some property there is a first one. -/
theorem exists_first {p : List Nat → Prop} (hp : ∃ w, p w) :
    ∃ w, p w ∧ ∀ u, p u → w = u ∨ Precedes w u := by
  obtain ⟨w, hw, hmin⟩ :=
    (List.Shortlex.wf (Nat.lt_wfRel.wf : WellFounded (α := Nat) (· < ·))).has_min {w | p w} hp
  exact ⟨w, hw, fun u hu => eq_or_precedes_of_not (hmin u hu)⟩

end DocGraph

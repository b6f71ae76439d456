import DocGraph.Proofs.Rendering
import DocGraph.Proofs.Walk
import DocGraph.Search.Key

/-!
# DocGraph: the search for a name finds the first owner

The search for a name enters each container once, by whatever walk brings it to the front of the
queue first. Nothing is lost by that: it answers like a search of the unfolded graph, which goes
through *all* walks in their order and skips none.

The argument follows the first walk that ends in an owner. A walk that is dropped because its
container has been entered before is not a beginning of it, for the earlier walk to the same
container, continued in the same way, would lead to the same owner and come first. `Frontier` is
the invariant: the queue holds walks in order, whatever they bring forth comes behind all of them,
what has been entered was entered by an earlier walk, and the walk sought begins with one that
waits.

* `Frontier.drop` / `Frontier.expand`: the two steps of the search keep the invariant.
* `searchKey_of_firstOwner` / `searchKey_of_ownerless`: what a whole search finds.
* `findKeyMatch_eq_first_owner`: the field reported is that of the first walk to an owner.
-/

namespace DocGraph.Search

/-- The key under which a container owns `name`: a field of an object, a position of an array. -/
inductive OwnKey (name : String) : Container → Key → Prop
  | field (id : Nat) : OwnKey name (.object id) (.field name)
  | index (id : Nat) {position : Nat} :
      Index.parse? name = some position → OwnKey name (.array id) (.index position)

/-- A walk from `root` to a container that owns `name`. -/
def OwnerWalk (h : Heap) (root : Container) (name : String) (w : List Nat) : Prop :=
  ∃ keys owner, h.Walk root w keys owner ∧ (h.ownField owner name).isSome

/-- `w` is the first of all walks from `root` that end in an owner of `name`. -/
structure FirstOwner (h : Heap) (root : Container) (name : String) (w : List Nat)
    (keys : List Key) (owner : Container) (value : Value) : Prop where
  walk  : h.Walk root w keys owner
  owns  : h.ownField owner name = some value
  first : ∀ u, OwnerWalk h root name u → w = u ∨ Precedes w u

theorem ownKey_keyIn {h : Heap} {c : Container} {name : String} {value : Value}
    (hOwn : h.ownField c name = some value) : OwnKey name c (keyIn c name) := by
  cases c with
  | object id => exact .field id
  | array id =>
    obtain ⟨position, hParse, -⟩ := Option.bind_eq_some_iff.1 hOwn
    have hKey : keyIn (.array id) name = .index position := by simp [keyIn, hParse]
    rw [hKey]
    exact .index id hParse

/-- Where some walk ends in an owner, one of them is the first. -/
theorem exists_firstOwner {h : Heap} {root : Container} {name : String}
    (hSome : ∃ w, OwnerWalk h root name w) :
    ∃ w keys owner value, FirstOwner h root name w keys owner value := by
  obtain ⟨w, ⟨keys, owner, hWalk, hOwn⟩, hFirst⟩ := exists_first hSome
  obtain ⟨value, hValue⟩ := Option.isSome_iff_exists.1 hOwn
  exact ⟨w, keys, owner, value, hWalk, hValue, hFirst⟩

/-! ## The queue and its walks -/

/-- A container that waits, with the walk by which it was reached. -/
structure Scout extends Pending where
  walk : List Nat

namespace Scout

/-- The walk leads from `root` to the container, along the path and over as many steps as noted. -/
def Genuine (h : Heap) (root : Container) (s : Scout) : Prop :=
  ∃ keys, h.Walk root s.walk keys s.container ∧ s.path = Path.trail keys ∧
    s.depth = s.walk.length

/-- The scouts that go on from the container of `s`. -/
def children (h : Heap) (s : Scout) : List Scout :=
  (h.entries s.container).zipIdx.filterMap fun ((key, v), n) =>
    v.container?.map fun c => ⟨⟨c, some (Path.child s.path key), s.depth + 1⟩, s.walk ++ [n]⟩

theorem map_toPending_children (h : Heap) (s : Scout) :
    (s.children h).map toPending = s.toPending.children h := by
  rw [children, List.map_filterMap, Pending.children]
  conv_rhs => rw [← List.zipIdx_map_fst 0 (h.entries s.container), List.filterMap_map]
  congr 1
  funext ⟨⟨key, v⟩, n⟩
  simp [Function.comp_def]

theorem mem_children_iff {h : Heap} {s t : Scout} :
    t ∈ s.children h ↔ ∃ n key c, (h.entries s.container)[n]? = some (key, .container c) ∧
      t = ⟨⟨c, some (Path.child s.path key), s.depth + 1⟩, s.walk ++ [n]⟩ := by
  simp only [children, List.mem_filterMap, Option.map_eq_some_iff, Value.container?_eq_some_iff]
  constructor
  · rintro ⟨⟨⟨key, v⟩, n⟩, hEntry, c, rfl, rfl⟩
    exact ⟨n, key, c, List.mem_zipIdx_iff_getElem?.1 hEntry, rfl⟩
  · rintro ⟨n, key, c, hEntry, rfl⟩
    exact ⟨((key, .container c), n), List.mem_zipIdx_iff_getElem?.2 hEntry, c, rfl, rfl⟩

theorem pairwise_children (h : Heap) (s : Scout) :
    (s.children h).Pairwise fun t t' => Precedes t.walk t'.walk := by
  have hPositions : (h.entries s.container).zipIdx.Pairwise fun a b => a.2 < b.2 := by
    rw [← List.pairwise_map, List.zipIdx_map_snd]
    exact List.pairwise_lt_range'
  rw [children, List.pairwise_filterMap]
  refine hPositions.imp ?_
  rintro ⟨⟨key, v⟩, n⟩ ⟨⟨key', v'⟩, n'⟩ hlt t ht t' ht'
  obtain ⟨c, -, rfl⟩ := Option.map_eq_some_iff.1 ht
  obtain ⟨c', -, rfl⟩ := Option.map_eq_some_iff.1 ht'
  exact Precedes.concat_of_lt s.walk hlt

theorem Genuine.child {h : Heap} {root : Container} {s t : Scout} (hs : s.Genuine h root)
    (ht : t ∈ s.children h) : t.Genuine h root := by
  obtain ⟨keys, hWalk, hPath, hDepth⟩ := hs
  obtain ⟨n, key, c, hEntry, rfl⟩ := mem_children_iff.1 ht
  refine ⟨keys ++ [key], hWalk.concat hEntry, ?_, ?_⟩
  · rw [Path.trail_concat, ← hPath]
  · rw [List.length_append, List.length_singleton, ← hDepth]

end Scout

/-! ## The invariant -/

/-- What holds of a queue and the containers entered while the walk `w` is still to be found. -/
structure Frontier (h : Heap) (root : Container) (w : List Nat) (queue : List Scout)
    (visited : Visited) : Prop where
  genuine : ∀ s ∈ queue, s.Genuine h root
  sorted  : queue.Pairwise fun s t => Precedes s.walk t.walk
  /-- The children of whatever waits come behind all that waits. -/
  behind  : ∀ s ∈ queue, ∀ t ∈ queue, ∀ n, Precedes t.walk (s.walk ++ [n])
  /-- What has been entered was entered by a walk before all that wait. -/
  entered : ∀ c ∈ visited.entered, ∃ u keys, h.Walk root u keys c ∧
    ∀ s ∈ queue, Precedes u s.walk
  sought  : ∃ s ∈ queue, s.walk <+: w

namespace Frontier

variable {h : Heap} {root : Container} {name : String} {w : List Nat} {keys : List Key}
  {owner : Container} {value : Value} {s : Scout} {rest : List Scout} {visited visited' : Visited}

theorem init (h : Heap) (root : Container) (w : List Nat) :
    Frontier h root w [⟨⟨root, none, 0⟩, []⟩] .empty where
  genuine := by
    intro s hs
    rw [List.mem_singleton.1 hs]
    exact ⟨[], .here root, rfl, rfl⟩
  sorted := List.pairwise_singleton _ _
  behind := by
    intro s hs t ht n
    rw [List.mem_singleton.1 hs, List.mem_singleton.1 ht]
    exact Precedes.concat_self [] n
  entered := by
    intro c hc
    simp [Visited.empty] at hc
  sought := ⟨_, List.mem_singleton_self _, List.nil_prefix⟩

/-- The scout in front is before the walk sought, or is on it. -/
theorem head_precedes (hf : Frontier h root w (s :: rest) visited) :
    s.walk <+: w ∨ Precedes s.walk w := by
  obtain ⟨t, ht, u, rfl⟩ := hf.sought
  rcases List.mem_cons.1 ht with rfl | ht
  · exact .inl ⟨u, rfl⟩
  · exact .inr (((List.pairwise_cons.1 hf.sorted).1 t ht).append_right u)

/-- A scout whose container has been entered before is not on the first walk to an owner. -/
theorem not_prefix_of_entered (hFirst : FirstOwner h root name w keys owner value)
    (hf : Frontier h root w (s :: rest) visited) (hs : s.container ∈ visited.entered) :
    ¬ s.walk <+: w := by
  rintro ⟨y, rfl⟩
  obtain ⟨u, uKeys, hu, hBefore⟩ := hf.entered _ hs
  obtain ⟨d, front, back, -, hFront, hBack⟩ := hFirst.walk.split
  -- both walks lead to the container of `s`, so both go on to the owner
  obtain ⟨sKeys, hsWalk, -, -⟩ := hf.genuine s List.mem_cons_self
  obtain ⟨-, rfl⟩ := hFront.unique hsWalk
  have hOwner : OwnerWalk h root name (u ++ y) :=
    ⟨_, owner, hu.append hBack, by rw [hFirst.owns]; rfl⟩
  have hEarlier : Precedes (u ++ y) (s.walk ++ y) :=
    (hBefore s List.mem_cons_self).append (Nat.le_refl _)
  -- the walk by way of `u` is earlier, against the choice of the first
  rcases hFirst.first _ hOwner with heq | hlt
  · rw [heq] at hEarlier
    exact hEarlier.not_symm hEarlier
  · exact hEarlier.not_symm hlt

/-- The scout in front may go if its container has been entered before. -/
theorem drop (hFirst : FirstOwner h root name w keys owner value)
    (hf : Frontier h root w (s :: rest) visited) (hs : s.container ∈ visited.entered) :
    Frontier h root w rest visited where
  genuine t ht := hf.genuine t (List.mem_cons_of_mem _ ht)
  sorted := (List.pairwise_cons.1 hf.sorted).2
  behind t ht t' ht' := hf.behind t (List.mem_cons_of_mem _ ht) t' (List.mem_cons_of_mem _ ht')
  entered c hc := by
    obtain ⟨u, uKeys, hu, hBefore⟩ := hf.entered c hc
    exact ⟨u, uKeys, hu, fun t ht => hBefore t (List.mem_cons_of_mem _ ht)⟩
  sought := by
    obtain ⟨t, ht, hPrefix⟩ := hf.sought
    rcases List.mem_cons.1 ht with rfl | ht
    · exact absurd hPrefix (hf.not_prefix_of_entered hFirst hs)
    · exact ⟨t, ht, hPrefix⟩

/-- An owner in front is the owner sought. -/
theorem walk_eq_of_owns (hFirst : FirstOwner h root name w keys owner value)
    (hf : Frontier h root w (s :: rest) visited) (hOwn : (h.ownField s.container name).isSome) :
    s.walk = w := by
  obtain ⟨sKeys, hsWalk, -, -⟩ := hf.genuine s List.mem_cons_self
  rcases hFirst.first s.walk ⟨sKeys, s.container, hsWalk, hOwn⟩ with heq | hlt
  · exact heq.symm
  · rcases hf.head_precedes with hPrefix | hBefore
    -- a beginning of `w` that does not come before `w` is all of it
    · have hle := hPrefix.length_le
      rcases List.shortlex_def.1 hlt with hShort | ⟨hlen, -⟩
      · omega
      · exact hPrefix.eq_of_length hlen.symm
    · exact absurd hlt hBefore.not_symm

/-- The first walk to an owner goes on from a scout on it that owns nothing of the name. -/
theorem exists_child_prefix (hFirst : FirstOwner h root name w keys owner value)
    (hs : s.Genuine h root) (hOwn : h.ownField s.container name = none) (hPrefix : s.walk <+: w) :
    ∃ t ∈ s.children h, t.walk <+: w := by
  obtain ⟨y, rfl⟩ := hPrefix
  obtain ⟨sKeys, hsWalk, -, -⟩ := hs
  obtain ⟨d, front, back, -, hFront, hBack⟩ := hFirst.walk.split
  obtain ⟨-, rfl⟩ := hFront.unique hsWalk
  cases hBack with
  -- `s` itself would be the owner
  | here =>
    have := hFirst.owns
    rw [hOwn] at this
    simp at this
  | @step _ c _ n y key _ hEntry _ =>
    exact ⟨_, Scout.mem_children_iff.2 ⟨n, key, c, hEntry, rfl⟩, y, by simp⟩

/-- A container entered now sends its children to the end of the queue. -/
theorem expand (hFirst : FirstOwner h root name w keys owner value)
    (hf : Frontier h root w (s :: rest) visited)
    (hEnter : visited.enter? s.container = some visited')
    (hOwn : h.ownField s.container name = none) :
    Frontier h root w (rest ++ s.children h) visited' where
  genuine t ht := by
    rcases List.mem_append.1 ht with ht | ht
    · exact hf.genuine t (List.mem_cons_of_mem _ ht)
    · exact (hf.genuine s List.mem_cons_self).child ht
  sorted := by
    -- the children come behind those that wait, and are in order themselves
    refine List.pairwise_append.2
      ⟨(List.pairwise_cons.1 hf.sorted).2, Scout.pairwise_children h s, ?_⟩
    intro t ht t' ht'
    obtain ⟨n, _, _, _, rfl⟩ := Scout.mem_children_iff.1 ht'
    exact hf.behind s List.mem_cons_self t (List.mem_cons_of_mem _ ht) n
  behind t ht t' ht' m := by
    rcases List.mem_append.1 ht with ht | ht
    · rcases List.mem_append.1 ht' with ht' | ht'
      · exact hf.behind t (List.mem_cons_of_mem _ ht) t' (List.mem_cons_of_mem _ ht') m
      -- a child of `s`, against the children of one that waits behind `s`
      · obtain ⟨n, _, _, _, rfl⟩ := Scout.mem_children_iff.1 ht'
        exact ((List.pairwise_cons.1 hf.sorted).1 t ht).append (Nat.le_refl _)
    · obtain ⟨n, _, _, _, rfl⟩ := Scout.mem_children_iff.1 ht
      rcases List.mem_append.1 ht' with ht' | ht'
      -- one that waits behind `s`, against the grandchildren of `s`
      · exact (hf.behind s List.mem_cons_self t' (List.mem_cons_of_mem _ ht') n).append_right [m]
      · obtain ⟨n', _, _, _, rfl⟩ := Scout.mem_children_iff.1 ht'
        exact .of_length_lt (by simp)
  entered c hc := by
    rw [(Visited.enter?_eq_some_iff.1 hEnter).2] at hc
    rcases List.mem_cons.1 hc with rfl | hc
    -- the container of `s` was entered by the walk of `s`, which is before all others
    · obtain ⟨sKeys, hsWalk, -, -⟩ := hf.genuine s List.mem_cons_self
      refine ⟨s.walk, sKeys, hsWalk, fun t ht => ?_⟩
      rcases List.mem_append.1 ht with ht | ht
      · exact (List.pairwise_cons.1 hf.sorted).1 t ht
      · obtain ⟨n, _, _, _, rfl⟩ := Scout.mem_children_iff.1 ht
        exact Precedes.concat_self s.walk n
    · obtain ⟨u, uKeys, hu, hBefore⟩ := hf.entered c hc
      refine ⟨u, uKeys, hu, fun t ht => ?_⟩
      rcases List.mem_append.1 ht with ht | ht
      · exact hBefore t (List.mem_cons_of_mem _ ht)
      · obtain ⟨n, _, _, _, rfl⟩ := Scout.mem_children_iff.1 ht
        exact (hBefore s List.mem_cons_self).append_right [n]
  sought := by
    obtain ⟨t, ht, hPrefix⟩ := hf.sought
    rcases List.mem_cons.1 ht with rfl | ht
    -- the walk sought went through `s`, so it goes on through a child
    · obtain ⟨t', ht', hPrefix'⟩ :=
        exists_child_prefix hFirst (hf.genuine t List.mem_cons_self) hOwn hPrefix
      exact ⟨t', List.mem_append_right _ ht', hPrefix'⟩
    · exact ⟨t, List.mem_append_left _ ht, hPrefix⟩

end Frontier

/-! ## Whole searches -/

/-- With the invariant in place, the search finds the field of the first walk to an owner. -/
theorem searchKey_of_firstOwner {h : Heap} {root : Container} {name : String} {w : List Nat}
    {keys : List Key} {owner : Container} {value : Value}
    (hFirst : FirstOwner h root name w keys owner value) (queue : List Pending) (visited : Visited)
    (scouts : List Scout) (hQueue : scouts.map Scout.toPending = queue)
    (hf : Frontier h root w scouts visited) :
    (searchKey h name queue visited).found =
      some ⟨Path.render (keys ++ [keyIn owner name]), w.length, value⟩ := by
  induction queue, visited using searchKey.induct h name generalizing scouts with
  | case1 visited =>
    -- an empty queue holds no beginning of the walk
    obtain ⟨s, hs, -⟩ := hf.sought
    rw [List.map_eq_nil_iff.1 hQueue] at hs
    simp at hs
  | case2 visited p rest hEnter ih =>
    obtain ⟨s, scouts, rfl, rfl, rfl⟩ := List.map_eq_cons_iff.1 hQueue
    rw [searchKey_skip hEnter]
    exact ih scouts rfl (hf.drop hFirst (Visited.enter?_eq_none_iff.1 hEnter))
  | case3 visited p rest visited' hEnter v hOwn =>
    obtain ⟨s, scouts, rfl, rfl, rfl⟩ := List.map_eq_cons_iff.1 hQueue
    -- the walk in front is the one sought, so container, path, depth and value are its own
    rw [searchKey_stop hEnter hOwn]
    have hWalk : s.walk = w := hf.walk_eq_of_owns hFirst (by rw [hOwn]; rfl)
    obtain ⟨sKeys, hsWalk, hPath, hDepth⟩ := hf.genuine s List.mem_cons_self
    rw [hWalk] at hsWalk hDepth
    obtain ⟨rfl, hContainer⟩ := hsWalk.unique hFirst.walk
    have hValue := hFirst.owns
    rw [← hContainer, hOwn] at hValue
    rw [Path.render_concat, ← hContainer, ← hPath, hDepth, Option.some.inj hValue]
  | case4 visited p rest visited' hEnter hOwn ih =>
    obtain ⟨s, scouts, rfl, rfl, rfl⟩ := List.map_eq_cons_iff.1 hQueue
    rw [searchKey_expand hEnter hOwn]
    refine ih (scouts ++ s.children h) ?_ (hf.expand hFirst hEnter hOwn)
    rw [List.map_append, Scout.map_toPending_children]

/-- Where no walk leads to an owner, the search finds none. -/
theorem searchKey_of_ownerless {h : Heap} {root : Container} {name : String}
    (hNone : ∀ w, ¬ OwnerWalk h root name w) (queue : List Pending) (visited : Visited)
    (hQueue : ∀ p ∈ queue, h.Reaches root p.container) :
    (searchKey h name queue visited).found = none := by
  induction queue, visited using searchKey.induct h name with
  | case1 visited => simp [searchKey]
  | case2 visited p rest hEnter ih =>
    rw [searchKey_skip hEnter]
    exact ih fun q hq => hQueue q (List.mem_cons_of_mem _ hq)
  | case3 visited p rest visited' hEnter v hOwn =>
    obtain ⟨w, keys, hWalk⟩ := hQueue p List.mem_cons_self
    exact absurd ⟨keys, p.container, hWalk, by rw [hOwn]; rfl⟩ (hNone w)
  | case4 visited p rest visited' hEnter hOwn ih =>
    rw [searchKey_expand hEnter hOwn]
    refine ih fun q hq => ?_
    rcases List.mem_append.1 hq with hq | hq
    · exact hQueue q (List.mem_cons_of_mem _ hq)
    · obtain ⟨⟨key, v⟩, hEntry, hChild⟩ := List.mem_filterMap.1 hq
      obtain ⟨c, hc, rfl⟩ := Option.map_eq_some_iff.1 hChild
      rw [Value.container?_eq_some_iff] at hc
      rw [hc] at hEntry
      exact (hQueue p List.mem_cons_self).child hEntry

/-- The search for a name that is not blank answers as if it tried all walks from the root in
their order. It finds nothing exactly if no walk ends in an owner of the name. Otherwise it reports
the field of the owner at the end of the first such walk: its value, the number of steps, and the
path made of the keys of the walk and the owner's own key for the name. -/
theorem findKeyMatch_eq_first_owner (h : Heap) (root : Container) {name : String}
    (hName : Text.isBlankText name = false) :
    (findKeyMatch h (.container root) name = .ok none ↔ ∀ w, ¬ OwnerWalk h root name w) ∧
    ((∃ w, OwnerWalk h root name w) →
      ∃ w keys owner value key, FirstOwner h root name w keys owner value ∧
        OwnKey name owner key ∧
        findKeyMatch h (.container root) name =
          .ok (some ⟨Path.render (keys ++ [key]), w.length, value⟩)) := by
  have hRun : findKeyMatch h (.container root) name =
      .ok (searchKey h name [⟨root, none, 0⟩] .empty).found := by
    simp [findKeyMatch, findKey, hName, Value.container?, Except.map]
  have hFound : (∃ w, OwnerWalk h root name w) →
      ∃ w keys owner value key, FirstOwner h root name w keys owner value ∧
        OwnKey name owner key ∧
        findKeyMatch h (.container root) name =
          .ok (some ⟨Path.render (keys ++ [key]), w.length, value⟩) := by
    intro hSome
    obtain ⟨w, keys, owner, value, hFirst⟩ := exists_firstOwner hSome
    refine ⟨w, keys, owner, value, _, hFirst, ownKey_keyIn hFirst.owns, ?_⟩
    rw [hRun, searchKey_of_firstOwner hFirst [⟨root, none, 0⟩] _ _ rfl (Frontier.init h root w)]
  refine ⟨⟨fun hNone w hw => ?_, fun hNone => ?_⟩, hFound⟩
  · obtain ⟨_, _, _, _, _, -, -, hMatch⟩ := hFound ⟨w, hw⟩
    rw [hNone] at hMatch
    simp at hMatch
  · rw [hRun, searchKey_of_ownerless hNone]
    intro p hp
    rw [List.mem_singleton.1 hp]
    exact h.reaches_self root

/-- An object that holds itself, and another object directly and in an array. -/
def loopHeap : Heap where
  objects := #[
    .ofList [("self", .container (.object 0)), ("list", .container (.array 0)),
      ("item", .container (.object 1))],
    .ofList [("id", .null)]]
  arrays := #[[.container (.object 1)]]

theorem findKeyMatch_loop :
    Text.isBlankText "id" = false ∧ OwnerWalk loopHeap (.object 0) "id" [2] ∧
    ∃ w keys owner value key, FirstOwner loopHeap (.object 0) "id" w keys owner value ∧
      OwnKey "id" owner key ∧
      findKeyMatch loopHeap (.container (.object 0)) "id" =
        .ok (some ⟨Path.render (keys ++ [key]), w.length, value⟩) := by
  have hOwner : OwnerWalk loopHeap (.object 0) "id" [2] :=
    ⟨[.field "item"], .object 1, .step rfl (.here _), rfl⟩
  exact ⟨by decide, hOwner,
    (findKeyMatch_eq_first_owner loopHeap (.object 0) (by decide)).2 ⟨[2], hOwner⟩⟩

end DocGraph.Search

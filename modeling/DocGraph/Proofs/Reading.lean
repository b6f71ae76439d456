import DocGraph.Proofs.Decoding
import DocGraph.Proofs.Doubles

/-!
# DocGraph: what is read from JSON

The machine that reads JSON puts a tree together from the scalars of the tokens, and none of them is
made on the way: an item is moved into the array that holds it, a member into its object, and of
members with one name all but the last are dropped. So what holds of the scalars of all tokens holds
of the scalars of the tree.

It is used for numbers. The text of a number is scaled by powers of ten, which never makes a NaN,
and whatever is not NaN is equal to itself.

* `number?_beq_self` / `tokensWithin_beq_self`: a number that is read is equal to itself.
* `State.step_holds` / `foldlM_step_holds`: what a step and a run of the machine keep.
* `parse?_beq_self`: the scalars of a text are equal to themselves.
-/

namespace DocGraph

namespace Json

/-! ## Numbers -/

theorem isNaN_of_scale {x y : Float} {exponent : Int} (hx : x.isNaN = false)
    (hScale : scale? x exponent = some y) : y.isNaN = false := by
  fun_induction scale? x exponent with
  | case1 x exponent hLarge hZero =>
    cases hScale
    exact hx
  | case2 => contradiction
  | case3 => contradiction
  | case4 x exponent hLarge hPositive product hFinite =>
    obtain ⟨n, rfl⟩ := Int.eq_ofNat_of_zero_le hPositive
    have hPower := Decimal.isOrdinary_nearest_one (e := n) (by omega)
    rw [← Option.some.inj hScale]
    exact Decimal.isNaN_mul hx hPower
  | case5 x exponent hLarge hNegative hSmall =>
    obtain ⟨n, hn⟩ := Int.eq_ofNat_of_zero_le (show 0 ≤ -exponent by omega)
    have hPower := Decimal.isOrdinary_nearest_one (e := n) (by omega)
    cases hScale
    rw [hn]
    exact Decimal.isNaN_div hx hPower
  | case6 x exponent hLarge hNegative hSmall hZero =>
    cases hScale
    exact hx
  | case7 x exponent hLarge hNegative hSmall hZero ih =>
    have hPower := Decimal.isOrdinary_nearest_one (e := 308) (by omega)
    exact ih (Decimal.isNaN_div hx hPower) hScale

theorem Magnitude.isNaN_of_toFloat {m : Magnitude} {x : Float} (hx : m.toFloat? = some x) :
    x.isNaN = false :=
  isNaN_of_scale (Decimal.isNaN_ofNat _) hx

theorem beq_self_float {x : Float} (hx : x.isNaN = false) :
    (Number.float x == Number.float x) = true := by
  show (x == x) = true
  rw [Number.float_beq_self, hx]
  rfl

/-- A whole number is equal to itself in a graph, however large it is. -/
theorem beq_self_integer (n : Int) :
    (Number.ofNumeral (.integer n) == Number.ofNumeral (.integer n)) = true := by
  by_cases hFits : fitsInt64 n = true
  · rw [Number.ofNumeral, if_pos hFits]
    exact beq_self_eq_true (Int64.ofInt n)
  · rw [Number.ofNumeral, if_neg hFits]
    exact beq_self_float (Decimal.isNaN_ofInt n)

theorem number?_beq_self {s : List Char} {n : Numeral} (hn : number? s = some n) :
    (Number.ofNumeral n == Number.ofNumeral n) = true := by
  unfold number? at hn
  split at hn
  · obtain ⟨⟨m, whole⟩, -, hn⟩ := Option.bind_eq_some_iff.1 hn
    dsimp only at hn
    split at hn
    · cases hn
      exact beq_self_integer _
    · obtain ⟨x, hx, rfl⟩ := Option.map_eq_some_iff.1 hn
      exact beq_self_float ((Decimal.isNaN_neg x).trans (Magnitude.isNaN_of_toFloat hx))
  · obtain ⟨⟨m, whole⟩, -, hn⟩ := Option.bind_eq_some_iff.1 hn
    dsimp only at hn
    split at hn
    · cases hn
      exact beq_self_integer _
    · obtain ⟨x, hx, rfl⟩ := Option.map_eq_some_iff.1 hn
      exact beq_self_float (Magnitude.isNaN_of_toFloat hx)

/-! ## Tokens -/

/-- The scalar that a token stands for, as a value. -/
def Token.scalars : Token → List Value
  | .null => [.null]
  | .bool b => [.bool b]
  | .number n => [.number (.ofNumeral n)]
  | .text s => [.text s]
  | .openObject => []
  | .closeObject => []
  | .openArray => []
  | .closeArray => []
  | .colon => []
  | .comma => []

/-- The token is a scalar equal to itself, or none. -/
theorem beq_self_of_token {s rest : List Char} {t : Token} (ht : token? s = some (t, rest)) :
    ∀ v ∈ t.scalars, (v == v) = true := by
  have hScalar : ∀ {v : Value}, (v == v) = true → ∀ w ∈ [v], (w == w) = true := by
    intro v hv w hw
    rw [List.mem_singleton.1 hw]
    exact hv
  unfold token? at ht
  split at ht
  · contradiction
  · obtain ⟨⟨cs, rest'⟩, -, hEq⟩ := Option.map_eq_some_iff.1 ht
    rw [← (Prod.mk.inj hEq).1]
    exact hScalar (beq_self_eq_true (String.ofList cs))
  · cases ht
    exact hScalar rfl
  · cases ht
    exact hScalar rfl
  · cases ht
    exact hScalar rfl
  · split at ht
    · rename_i hPunctuation
      cases ht
      unfold punctuation? at hPunctuation
      split at hPunctuation <;> cases hPunctuation <;> exact fun v hv => absurd hv List.not_mem_nil
    · obtain ⟨n, hn, hEq⟩ := Option.map_eq_some_iff.1 ht
      rw [← (Prod.mk.inj hEq).1]
      exact hScalar (number?_beq_self hn)

theorem tokensWithin_beq_self {fuel : Nat} {s : List Char} {tokens : List Token}
    (hTokens : tokensWithin fuel s = some tokens) :
    ∀ t ∈ tokens, ∀ v ∈ t.scalars, (v == v) = true := by
  induction fuel generalizing s tokens with
  | zero =>
    unfold tokensWithin at hTokens
    split at hTokens
    · rw [← Option.some.inj hTokens]
      exact fun t ht => absurd ht List.not_mem_nil
    · contradiction
  | succ fuel ih =>
    unfold tokensWithin at hTokens
    split at hTokens
    · rw [← Option.some.inj hTokens]
      exact fun t ht => absurd ht List.not_mem_nil
    · obtain ⟨⟨t, rest⟩, hToken, hRest⟩ := Option.bind_eq_some_iff.1 hTokens
      obtain ⟨tokens', hTokens', rfl⟩ := Option.map_eq_some_iff.1 hRest
      intro t' ht'
      rcases List.mem_cons.1 ht' with rfl | ht'
      · exact beq_self_of_token hToken
      · exact ih hTokens' t' ht'

/-! ## The machine -/

section Machine

variable {P : Value → Prop}

/-- All scalars of the tree have the property. -/
def Holds (P : Value → Prop) (t : Json) : Prop :=
  ∀ v ∈ t.scalars, P v

theorem holds_array_iff {items : List Json} :
    Holds P (.array items) ↔ ∀ t ∈ items, Holds P t := by
  unfold Holds
  rw [scalars]
  induction items with
  | nil => simp [itemScalars]
  | cons t items ih => rw [itemScalars, List.forall_mem_append, List.forall_mem_cons, ih]

theorem holds_object_iff {members : List (String × Json)} :
    Holds P (.object members) ↔ ∀ m ∈ members, Holds P m.2 := by
  unfold Holds
  rw [scalars]
  induction members with
  | nil => simp [memberScalars]
  | cons m members ih => rw [memberScalars, List.forall_mem_append, List.forall_mem_cons, ih]

/-- All trees read so far for an open container have the property. -/
def Frame.Holds (P : Value → Prop) : Frame → Prop
  | .array items => ∀ t ∈ items, Json.Holds P t
  | .object members _ => ∀ m ∈ members, Json.Holds P m.2

/-- All trees read so far have the property. -/
def State.Holds (P : Value → Prop) : State → Prop
  | .value outer => ∀ f ∈ outer, f.Holds P
  | .firstItem outer => ∀ f ∈ outer, f.Holds P
  | .firstName outer => ∀ f ∈ outer, f.Holds P
  | .nextName outer members => (∀ m ∈ members, Json.Holds P m.2) ∧ ∀ f ∈ outer, f.Holds P
  | .colon outer members _ => (∀ m ∈ members, Json.Holds P m.2) ∧ ∀ f ∈ outer, f.Holds P
  | .complete outer v => Json.Holds P v ∧ ∀ f ∈ outer, f.Holds P

/-- Of members with one name the last one stays, so every member of an object has been read. -/
theorem holds_closeObject {members : List (String × Json)}
    (hMembers : ∀ m ∈ members, Json.Holds P m.2) : Json.Holds P (closeObject members) := by
  refine holds_object_iff.2 fun m hm => ?_
  have hSub := (subperm_ofList members.reverse).subset hm
  exact hMembers m (List.mem_reverse.1 hSub)

theorem holds_closeArray {items : List Json} (hItems : ∀ t ∈ items, Json.Holds P t) :
    Json.Holds P (closeArray items) :=
  holds_array_iff.2 fun t ht => hItems t (List.mem_reverse.1 ht)

theorem State.start_holds {outer : List Frame} {t : Token} {s : State}
    (hOuter : ∀ f ∈ outer, f.Holds P) (ht : ∀ v ∈ t.scalars, P v)
    (hStart : State.start outer t = some s) : s.Holds P := by
  unfold State.start at hStart
  split at hStart
  · cases hStart
    exact ⟨ht, hOuter⟩
  · cases hStart
    exact ⟨ht, hOuter⟩
  · cases hStart
    exact ⟨ht, hOuter⟩
  · cases hStart
    exact ⟨ht, hOuter⟩
  · split at hStart
    · cases hStart
      exact hOuter
    · contradiction
  · split at hStart
    · cases hStart
      exact hOuter
    · contradiction
  all_goals contradiction

/-- A step of the machine keeps what holds of all scalars. -/
theorem State.step_holds {s s' : State} {t : Token} (hs : s.Holds P) (ht : ∀ v ∈ t.scalars, P v)
    (hStep : s.step t = some s') : s'.Holds P := by
  have hEmpty : ∀ m ∈ ([] : List (String × Json)), Json.Holds P m.2 :=
    fun m hm => absurd hm List.not_mem_nil
  unfold State.step at hStep
  split at hStep
  · exact State.start_holds hs ht hStep
  · cases hStep
    exact ⟨holds_array_iff.2 fun t ht => absurd ht List.not_mem_nil, hs⟩
  · refine State.start_holds ?_ ht hStep
    exact List.forall_mem_cons.2 ⟨fun t ht => absurd ht List.not_mem_nil, hs⟩
  · cases hStep
    exact ⟨holds_object_iff.2 hEmpty, hs⟩
  · cases hStep
    exact ⟨hEmpty, hs⟩
  · cases hStep
    exact hs
  · cases hStep
    exact List.forall_mem_cons.2 hs
  · -- a comma behind an item
    cases hStep
    obtain ⟨hv, hFrames⟩ := hs
    obtain ⟨hFrame, hOuter⟩ := List.forall_mem_cons.1 hFrames
    exact List.forall_mem_cons.2 ⟨List.forall_mem_cons.2 ⟨hv, hFrame⟩, hOuter⟩
  · cases hStep
    obtain ⟨hv, hFrames⟩ := hs
    obtain ⟨hFrame, hOuter⟩ := List.forall_mem_cons.1 hFrames
    exact ⟨holds_closeArray (List.forall_mem_cons.2 ⟨hv, hFrame⟩), hOuter⟩
  · -- a comma behind a member
    cases hStep
    obtain ⟨hv, hFrames⟩ := hs
    obtain ⟨hFrame, hOuter⟩ := List.forall_mem_cons.1 hFrames
    exact ⟨List.forall_mem_cons.2 ⟨hv, hFrame⟩, hOuter⟩
  · cases hStep
    obtain ⟨hv, hFrames⟩ := hs
    obtain ⟨hFrame, hOuter⟩ := List.forall_mem_cons.1 hFrames
    exact ⟨holds_closeObject (List.forall_mem_cons.2 ⟨hv, hFrame⟩), hOuter⟩
  · contradiction

theorem foldlM_step_holds {tokens : List Token} {s s' : State} (hs : s.Holds P)
    (hTokens : ∀ t ∈ tokens, ∀ v ∈ t.scalars, P v)
    (hRun : tokens.foldlM State.step s = some s') : s'.Holds P := by
  induction tokens generalizing s with
  | nil =>
    cases hRun
    exact hs
  | cons t tokens ih =>
    obtain ⟨ht, hRest⟩ := List.forall_mem_cons.1 hTokens
    rw [List.foldlM_cons] at hRun
    obtain ⟨s₁, hStep, hRun⟩ := Option.bind_eq_some_iff.1 hRun
    exact ih (State.step_holds hs ht hStep) hRest hRun

/-- What holds of the scalars of all tokens holds of the scalars of the tree. -/
theorem holds_of_tokens {tokens : List Token} {t : Json}
    (hTokens : ∀ t ∈ tokens, ∀ v ∈ t.scalars, P v) (ht : ofTokens? tokens = some t) :
    Json.Holds P t := by
  obtain ⟨s, hRun, hEnd⟩ := Option.bind_eq_some_iff.1 ht
  have hStart : (State.value []).Holds P := fun f hf => absurd hf List.not_mem_nil
  have hState := foldlM_step_holds hStart hTokens hRun
  split at hEnd
  · cases hEnd
    exact hState.1
  · contradiction

end Machine

/-- All scalars of a JSON text are equal to themselves: no number in it is NaN. -/
theorem parse?_beq_self {s : String} {t : Json} (ht : parse? s = some t) :
    t.Holds fun v => (v == v) = true := by
  obtain ⟨tokens, hTokens, hTree⟩ := Option.bind_eq_some_iff.1 ht
  exact holds_of_tokens (tokensWithin_beq_self hTokens) hTree

end Json

end DocGraph

import DocGraph.Proofs.NumberText

/-!
# DocGraph: what has been written stays

A YAML tree is written by a pen that moves on. It never takes back a character, so a mark that it
has written is in the text of the whole tree: the hyphen of an item with the blank behind it, the
colon of an entry.

* `Pen.Grows`: one pen has written what the other one has, and perhaps more.
* `write_grows`: writing a tree, by induction on the tree.
* `exists_colon` / `write_apart`: the marks of entries and items.
-/

namespace DocGraph.Yaml

namespace Pen

/-- What has been written stays. -/
def Grows (p q : Pen) : Prop :=
  p.text.toList <+: q.text.toList

section Grows

variable {p q r : Pen}

theorem Grows.refl (p : Pen) : Grows p p :=
  List.prefix_rfl

theorem Grows.trans (hpq : Grows p q) (hqr : Grows q r) : Grows p r :=
  List.IsPrefix.trans hpq hqr

theorem Grows.mem (hpq : Grows p q) {c : Char} (hc : c ∈ p.text.toList) : c ∈ q.text.toList :=
  List.IsPrefix.subset hpq hc

theorem grows_put (p : Pen) (s : List Char) : Grows p (p.put s) := by
  rw [Grows, put, String.toList_append]
  exact List.prefix_append _ _

theorem grows_mark (p : Pen) (s : List Char) (apart fresh : Bool) :
    Grows p (p.mark s apart fresh) := by
  rw [mark]
  split
  · exact (grows_put p _).trans (grows_put _ s)
  · exact grows_put p s

/-- A mark is written behind what has been written, and perhaps a blank. -/
theorem exists_put_mark (p : Pen) (s : List Char) (apart fresh : Bool) :
    ∃ q : Pen, p.Grows q ∧ (p.mark s apart fresh).text.toList = q.text.toList ++ s := by
  rw [mark]
  split
  · exact ⟨p.put [' '], grows_put p _, by rw [put, String.toList_append, String.toList_ofList]⟩
  · exact ⟨p, .refl p, by rw [put, String.toList_append, String.toList_ofList]⟩

theorem grows_newLine (p : Pen) : Grows p p.newLine := by
  rw [Grows, newLine, String.toList_push]
  exact List.prefix_append _ _

theorem grows_goTo (p : Pen) (indent : Nat) : Grows p (p.goTo indent) := by
  rw [goTo]
  split
  · exact (grows_newLine p).trans (grows_put _ _)
  · exact grows_put p _

theorem grows_putBreak (p : Pen) (c : Char) : Grows p (p.putBreak c) := by
  rw [Grows, putBreak, String.toList_push]
  exact List.prefix_append _ _

theorem grows_lines (indent : Nat) (double : Bool) (broken : Bool) (s : List Char) (p : Pen) :
    Grows p (lines indent double broken s p) := by
  induction s generalizing broken p with
  | nil =>
    rw [lines]
    split
    · exact grows_goTo p indent
    · exact .refl p
  | cons c rest ih =>
    rw [lines]
    split
    · exact (grows_putBreak p c).trans (ih _ _)
    · refine Grows.trans ?_ (ih _ _)
      split
      · exact (grows_goTo p indent).trans (grows_put _ _)
      · exact grows_put p _

theorem grows_scalar (p : Pen) (style : Style) (indent : Nat) (s : List Char) :
    Grows p (p.scalar style indent s) := by
  cases style with
  | plain =>
    rw [scalar]
    split
    · exact (grows_put p _).trans (grows_put _ s)
    · exact grows_put p s
  | singleQuoted =>
    rw [scalar]
    exact ((grows_mark p _ _ _).trans (grows_lines _ _ _ _ _)).trans
      (grows_mark _ ['\''] false false)
  | doubleQuoted =>
    rw [scalar]
    exact ((grows_mark p _ _ _).trans (grows_put _ _)).trans (grows_mark _ ['"'] false false)
  | literal =>
    rw [scalar]
    refine ((grows_mark p ('|' :: blockHints s) true false).trans (grows_newLine _)).trans ?_
    exact grows_lines indent false true s
      { (p.mark ('|' :: blockHints s) true false).newLine with spaced := true, fresh := true }

theorem grows_tag (p : Pen) (t : String) : Grows p (p.tag t) := by
  rw [tag]
  split
  · exact grows_put p _
  · exact (grows_put p _).trans (grows_put _ _)

end Grows

end Pen

/-- The pen behind the colon of an entry. -/
def keyPen (column : Nat) (p : Pen) (key : Yaml) : Pen :=
  if isSimpleKey 0 key then
    (write (some column) .simpleKey (p.goTo column) key).mark [':'] false false
  else
    ((write (some column) .entry ((p.goTo column).mark ['?'] true true) key).goTo column).mark [':']
      true true

theorem writeEntries_cons (column : Nat) (p : Pen) (key value : Yaml)
    (rest : List (Yaml × Yaml)) :
    writeEntries column p ((key, value) :: rest) =
      writeEntries column (write (some column) .entry (keyPen column p key) value) rest := by
  rw [writeEntries]
  rfl

theorem exists_colon {column : Nat} {p : Pen} {key : Yaml}
    (hKey : ∀ role q, Pen.Grows q (write (some column) role q key)) :
    ∃ q : Pen, (p.goTo column).Grows q ∧
      (keyPen column p key).text.toList = q.text.toList ++ [':'] := by
  rw [keyPen]
  split
  · obtain ⟨q, hq, hColon⟩ := Pen.exists_put_mark
      (write (some column) .simpleKey (p.goTo column) key) [':'] false false
    exact ⟨q, (hKey _ _).trans hq, hColon⟩
  · have hMarked := ((Pen.grows_mark (p.goTo column) ['?'] true true).trans (hKey .entry _)).trans
      (Pen.grows_goTo _ column)
    obtain ⟨q, hq, hColon⟩ := Pen.exists_put_mark
      ((write (some column) .entry ((p.goTo column).mark ['?'] true true) key).goTo column) [':']
      true true
    exact ⟨q, hMarked.trans hq, hColon⟩

theorem grows_keyPen {column : Nat} {p : Pen} {key : Yaml}
    (hKey : ∀ role q, Pen.Grows q (write (some column) role q key)) :
    (p.goTo column).Grows (keyPen column p key) := by
  obtain ⟨q, hq, hColon⟩ := exists_colon (p := p) hKey
  refine hq.trans ?_
  rw [Pen.Grows, hColon]
  exact List.prefix_append _ _

mutual

theorem write_grows : ∀ (y : Yaml) (indent : Option Nat) (role : Role) (p : Pen),
    p.Grows (write indent role p y)
  | .tagged t inner, indent, role, p => by
    rw [write]
    exact (p.grows_tag _).trans (write_grows inner indent role _)
  | .sequence [], indent, role, p => by
    rw [write]
    exact (p.grows_mark _ _ _).trans (Pen.grows_mark _ _ _ _)
  | .sequence (item :: rest), indent, role, p => by
    rw [write.eq_def]
    exact writeItems_grows (item :: rest) _ p
  | .mapping [], indent, role, p => by
    rw [write]
    exact (p.grows_mark _ _ _).trans (Pen.grows_mark _ _ _ _)
  | .mapping (entry :: rest), indent, role, p => by
    rw [write.eq_def]
    exact writeEntries_grows (entry :: rest) _ p
  | .null, indent, role, p => by
    rw [write.eq_def]
    exact p.grows_scalar _ _ _
  | .bool b, indent, role, p => by
    rw [write.eq_def]
    exact p.grows_scalar _ _ _
  | .number (.integer n), indent, role, p => by
    rw [write.eq_def]
    exact p.grows_scalar _ _ _
  | .number (.float x), indent, role, p => by
    rw [write.eq_def]
    exact p.grows_scalar _ _ _
  | .text s, indent, role, p => by
    rw [write.eq_def]
    exact p.grows_scalar _ _ _

theorem writeItems_grows : ∀ (items : List Yaml) (column : Nat) (p : Pen),
    p.Grows (writeItems column p items)
  | [], column, p => by
    rw [writeItems]
    exact .refl p
  | item :: rest, column, p => by
    rw [writeItems]
    exact (((p.grows_goTo column).trans (Pen.grows_mark _ _ _ _)).trans
      (write_grows item _ _ _)).trans (writeItems_grows rest _ _)

theorem writeEntries_grows : ∀ (entries : List (Yaml × Yaml)) (column : Nat) (p : Pen),
    p.Grows (writeEntries column p entries)
  | [], column, p => by
    rw [writeEntries]
    exact .refl p
  | (key, value) :: rest, column, p => by
    rw [writeEntries_cons]
    exact (((p.grows_goTo column).trans (grows_keyPen (write_grows key _))).trans
      (write_grows value _ _ _)).trans (writeEntries_grows rest _ _)

end

/-! ## Marks -/

namespace Pen

section Apart

variable {p : Pen}

theorem mark_apart (hSpaced : p.spaced = false) (s : List Char) (fresh : Bool) :
    (p.put [' ']).Grows (p.mark s true fresh) := by
  rw [mark, hSpaced, if_pos (by decide)]
  exact grows_put _ s

theorem tag_apart (hSpaced : p.spaced = false) (t : String) : (p.put [' ']).Grows (p.tag t) := by
  rw [tag, hSpaced, if_neg (by decide)]
  exact grows_put _ _

/-- A line that holds nothing but marks is not ended where it can be filled up with blanks. -/
theorem goTo_apart (hFresh : p.fresh = true) {indent : Nat} (hIndent : p.column < indent) :
    (p.put [' ']).Grows (p.goTo indent) := by
  obtain ⟨k, hk⟩ : ∃ k, indent - p.column = k + 1 := ⟨indent - p.column - 1, by omega⟩
  have hStay : (!p.fresh || decide (indent < p.column) ||
      (decide (p.column = indent) && !p.spaced)) = false := by
    simp [hFresh]
    omega
  rw [goTo, hStay, if_neg (by decide), hk, List.replicate_succ, Grows, put, put,
    String.toList_append, String.toList_append, String.toList_ofList, String.toList_ofList]
  exact ⟨List.replicate k ' ', by simp⟩

theorem scalar_apart (hSpaced : p.spaced = false) {style : Style} {s : List Char}
    (hSome : style = .plain → s ≠ []) (indent : Nat) :
    (p.put [' ']).Grows (p.scalar style indent s) := by
  cases style with
  | plain =>
    have hBlank : (!p.spaced && !s.isEmpty) = true := by
      simp [hSpaced, hSome rfl]
    rw [scalar, hBlank, if_pos rfl]
    exact grows_put _ s
  | singleQuoted =>
    rw [scalar]
    exact ((mark_apart hSpaced _ _).trans (grows_lines _ _ _ _ _)).trans
      (grows_mark _ ['\''] false false)
  | doubleQuoted =>
    rw [scalar]
    exact ((mark_apart hSpaced _ _).trans (grows_put _ _)).trans (grows_mark _ ['"'] false false)
  | literal =>
    rw [scalar]
    refine ((mark_apart hSpaced ('|' :: blockHints s) false).trans (grows_newLine _)).trans ?_
    exact grows_lines indent false true s
      { (p.mark ('|' :: blockHints s) true false).newLine with spaced := true, fresh := true }

end Apart

end Pen

/-- A blank stands between the hyphen of an item and the item. -/
theorem write_apart (y : Yaml) {n : Nat} {p : Pen} (hSpaced : p.spaced = false)
    (hFresh : p.fresh = true) (hColumn : p.column < n + 2) :
    (p.put [' ']).Grows (write (some n) .item p y) := by
  have hNumber : ∀ m : Numeral, (numeral m).toList ≠ [] := by
    intro m
    obtain ⟨sign, body, hText⟩ := isNumberText_numeral m
    obtain ⟨c, rest, hBody, -⟩ := hText.head
    rw [hText.eq, hBody]
    simp
  match y with
  | .tagged t inner =>
    rw [write]
    exact (Pen.tag_apart hSpaced _).trans (write_grows inner _ _ _)
  | .sequence [] =>
    rw [write]
    exact (Pen.mark_apart hSpaced _ _).trans (Pen.grows_mark _ _ _ _)
  | .mapping [] =>
    rw [write]
    exact (Pen.mark_apart hSpaced _ _).trans (Pen.grows_mark _ _ _ _)
  | .sequence (item :: rest) =>
    rw [write.eq_def]
    show (p.put [' ']).Grows (writeItems (n + 2) p (item :: rest))
    rw [writeItems]
    exact (((Pen.goTo_apart hFresh hColumn).trans (Pen.grows_mark _ _ _ _)).trans
      (write_grows item _ _ _)).trans (writeItems_grows rest _ _)
  | .mapping ((key, value) :: rest) =>
    rw [write.eq_def]
    show (p.put [' ']).Grows (writeEntries (n + 2) p ((key, value) :: rest))
    rw [writeEntries_cons]
    exact (((Pen.goTo_apart hFresh hColumn).trans (grows_keyPen (write_grows key _))).trans
      (write_grows value _ _ _)).trans (writeEntries_grows rest _ _)
  | .null =>
    rw [write.eq_def]
    exact Pen.scalar_apart hSpaced (fun _ => by decide) _
  | .bool b =>
    rw [write.eq_def]
    exact Pen.scalar_apart hSpaced (fun _ => by cases b <;> decide) _
  | .number (.integer m) =>
    rw [write.eq_def]
    exact Pen.scalar_apart hSpaced (fun _ => hNumber (.integer m)) _
  | .number (.float x) =>
    rw [write.eq_def]
    exact Pen.scalar_apart hSpaced (fun _ => hNumber (.float x)) _
  | .text s =>
    rw [write.eq_def]
    show (p.put [' ']).Grows (p.scalar (styleOf false s) (n + 2) s.toList)
    refine Pen.scalar_apart hSpaced (fun hStyle => ?_) _
    -- the empty text is quoted
    intro hEmpty
    have hText : s = "" := String.toList_eq_nil_iff.1 hEmpty
    rw [hText] at hStyle
    exact absurd hStyle (by decide)

end DocGraph.Yaml

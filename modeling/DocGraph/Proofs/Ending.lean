import DocGraph.Proofs.Loading

/-!
# DocGraph: two readings of the ending of compressed files

Whether a file is decompressed and which format its text has are read off its name in two ways. The
first one takes the last part of the path and looks at what stands behind its last point, to the
letter. The second one takes the name as a whole, in lower case, and leaves out an ending before it
looks for that of a format. The two agree on most names. They do not where only one of them finds
the ending: it is written in capitals, or it is all there is of the last part, or slashes stand
behind it.

* `isGzipped_iff`: where the last part ends in `.gz`, behind at least one character.
* `stripped_iff`: where the whole name ends in `.gz`, in capitals or not.
* `decompressed_iff`: what it means for a file that its name tells it to be compressed.
* `decompressed_stripped_differ`: the names on which the two readings differ.
-/

namespace DocGraph.FileName

/-- Slashes, and points that stand for the directory itself: what may follow a path and leads
nowhere else. -/
inductive Idle : List Char → Prop
  | nil : Idle []
  | slash {rest : List Char} : Idle rest → Idle ('/' :: rest)
  | here {rest : List Char} : Idle rest → Idle ('/' :: '.' :: rest)

/-- The parts of a path that lead somewhere. -/
def parts (path : List Char) : List (List Char) :=
  (path.splitOn '/').filter fun part => part ≠ [] && part ≠ ['.']

/-- A text up to the last of its separators, and what stands behind it. -/
theorem exists_last_separator (separator : Char) (text : List Char) :
    ∃ front back, text = front ++ back ∧ separator ∉ back ∧
      (front = [] ∨ ∃ stem, front = stem ++ [separator]) := by
  induction text using List.reverseRecOn with
  | nil => exact ⟨[], [], rfl, by simp, .inl rfl⟩
  | append_singleton text c ih =>
    by_cases hc : c = separator
    · exact ⟨text ++ [c], [], by simp, by simp, .inr ⟨text, by rw [hc]⟩⟩
    · obtain ⟨front, back, rfl, hBack, hFront⟩ := ih
      refine ⟨front, back ++ [c], by simp, ?_, hFront⟩
      simp [hBack, Ne.symm hc]

/-! ## The parts of a path -/

section Parts

variable {path part tail : List Char}

theorem parts_append_slash (front back : List Char) :
    parts (front ++ '/' :: back) = parts front ++ parts back := by
  rw [parts, List.splitOn_append_cons_self, List.filter_append]
  rfl

theorem parts_of_not_mem (hSlash : '/' ∉ part) (hEmpty : part ≠ []) (hHere : part ≠ ['.']) :
    parts part = [part] := by
  rw [parts, List.splitOn_eq_singleton hSlash]
  simp [hEmpty, hHere]

/-- What leads nowhere adds no parts. -/
theorem parts_append_idle (hTail : Idle tail) (path : List Char) :
    parts (path ++ tail) = parts path := by
  induction hTail generalizing path with
  | nil => rw [List.append_nil]
  | slash _ ih =>
    have hRest := ih []
    rw [List.nil_append] at hRest
    rw [parts_append_slash, hRest]
    exact List.append_nil _
  | here _ ih =>
    have hRest := ih ['.']
    rw [List.singleton_append] at hRest
    rw [parts_append_slash, hRest]
    exact List.append_nil _

theorem Idle.append {more : List Char} (hTail : Idle tail) (hMore : Idle more) :
    Idle (tail ++ more) := by
  induction hTail with
  | nil => exact hMore
  | slash _ ih => exact .slash ih
  | here _ ih => exact .here ih

/-- The last part that leads somewhere, in its place in the path. -/
theorem exists_of_getLast? (hLast : (parts path).getLast? = some part) :
    ∃ front tail, path = front ++ part ++ tail ∧ '/' ∉ part ∧ Idle tail := by
  induction hLength : path.length using Nat.strongRecOn generalizing path with
  | ind length ih =>
    obtain ⟨front, back, rfl, hBack, hFront⟩ := exists_last_separator '/' path
    by_cases hHere : back = [] ∨ back = ['.']
    -- the piece behind the last slash leads nowhere, so the part is in front of this slash
    · have hParts : parts back = [] := by
        rcases hHere with rfl | rfl <;> rfl
      rcases hFront with rfl | ⟨dir, rfl⟩
      · rw [List.nil_append, hParts] at hLast
        contradiction
      · rw [List.append_assoc, List.singleton_append, parts_append_slash, hParts,
          List.append_nil] at hLast
        obtain ⟨front, tail, rfl, hSlash, hTail⟩ := ih dir.length (by simp [← hLength]) hLast rfl
        have hMore : Idle ('/' :: back) := by
          rcases hHere with rfl | rfl
          · exact .slash .nil
          · exact .here .nil
        exact ⟨front, tail ++ '/' :: back, by simp, hSlash, hTail.append hMore⟩
    -- it is the part
    · have hPart : (parts (front ++ back)).getLast? = some back := by
        rw [not_or] at hHere
        have hParts := parts_of_not_mem hBack hHere.1 hHere.2
        rcases hFront with rfl | ⟨dir, rfl⟩
        · rw [List.nil_append, hParts]
          rfl
        · rw [List.append_assoc, List.singleton_append, parts_append_slash, hParts,
            List.getLast?_concat]
      rw [hPart] at hLast
      cases hLast
      exact ⟨front, [], by simp, hBack, .nil⟩

theorem getLast?_parts {front : List Char} (hFront : front = [] ∨ ∃ dir, front = dir ++ ['/'])
    (hSlash : '/' ∉ part) (hEmpty : part ≠ []) (hHere : part ≠ ['.']) (hTail : Idle tail) :
    (parts (front ++ part ++ tail)).getLast? = some part := by
  rw [parts_append_idle hTail]
  have hParts := parts_of_not_mem hSlash hEmpty hHere
  rcases hFront with rfl | ⟨dir, rfl⟩
  · rw [List.nil_append, hParts]
    rfl
  · rw [List.append_assoc, List.singleton_append, parts_append_slash, hParts, List.getLast?_concat]

end Parts

/-! ## The first reading -/

section Gzipped

variable {name : String} {part ext : List Char}

theorem lastPart?_eq_some_iff :
    lastPart? name = some part ↔
      (parts name.toList).getLast? = some part ∧ part ≠ ['.', '.'] := by
  rw [lastPart?, parts]
  split
  · simp_all
  · rename_i hOther
    refine ⟨fun hPart => ⟨hPart, ?_⟩, And.left⟩
    rintro rfl
    exact hOther hPart

/-- What stands behind the last point of the last part, where something stands in front of it. -/
theorem extension?_eq_some_iff :
    extension? name = some ext ↔
      ∃ stem, stem ≠ [] ∧ '.' ∉ ext ∧ lastPart? name = some (stem ++ '.' :: ext) := by
  have hSplit : ∀ stem back : List Char, '.' ∉ back →
      ((stem ++ '.' :: back).splitOn '.').reverse = back :: (stem.splitOn '.').reverse := by
    intro stem back hBack
    rw [List.splitOn_append_cons_self, List.splitOn_eq_singleton hBack, List.reverse_append]
    rfl
  have hEmpty : ∀ stem : List Char, (stem.splitOn '.').reverse = [[]] ↔ stem = [] := by
    intro stem
    rw [List.reverse_eq_iff]
    constructor
    · intro hPieces
      have hJoined : ['.'].intercalate (stem.splitOn '.') = stem := List.intercalate_splitOn '.'
      rw [← hJoined, hPieces]
      rfl
    · rintro rfl
      rfl
  rw [extension?, Option.bind_eq_some_iff]
  constructor
  · rintro ⟨part, hPart, hExt⟩
    obtain ⟨front, back, rfl, hBack, hFront⟩ := exists_last_separator '.' part
    rcases hFront with rfl | ⟨stem, rfl⟩
    -- there is no point
    · rw [List.nil_append, List.splitOn_eq_singleton hBack] at hExt
      contradiction
    · rw [List.append_assoc, List.singleton_append] at hExt hPart
      rw [hSplit stem back hBack] at hExt
      simp only [List.reverse_eq_nil_iff, List.splitOn_ne_nil, hEmpty, decide_false, Bool.false_or,
        decide_eq_true_eq, Option.ite_none_left_eq_some, Option.some.injEq] at hExt
      obtain ⟨hStem, rfl⟩ := hExt
      exact ⟨stem, hStem, hBack, hPart⟩
  · rintro ⟨stem, hStem, hExt, hPart⟩
    refine ⟨_, hPart, ?_⟩
    rw [hSplit stem ext hExt]
    simp [hEmpty, hStem]

/-- The last part of the path ends in a point and the two letters, behind some character. -/
theorem isGzipped_iff :
    isGzipped name = true ↔ ∃ front c tail,
      name.toList = front ++ c :: ['.', 'g', 'z'] ++ tail ∧ c ≠ '/' ∧ Idle tail := by
  have hGzipped : isGzipped name = true ↔ extension? name = some ['g', 'z'] := decide_eq_true_iff
  rw [hGzipped, extension?_eq_some_iff]
  constructor
  · rintro ⟨stem, hStem, -, hLast⟩
    obtain ⟨front, tail, hName, hSlash, hTail⟩ :=
      exists_of_getLast? (lastPart?_eq_some_iff.1 hLast).1
    obtain ⟨start, c, rfl⟩ := (List.eq_nil_or_concat' stem).resolve_left hStem
    refine ⟨front ++ start, c, tail, by simp [hName], ?_, hTail⟩
    rintro rfl
    simp at hSlash
  · rintro ⟨front, c, tail, hName, hc, hTail⟩
    obtain ⟨dir, stem, hPath, hSlash, hDir⟩ := exists_last_separator '/' (front ++ [c])
    have hStem : stem ≠ [] := by
      rintro rfl
      rw [List.append_nil] at hPath
      rcases hDir with rfl | ⟨dir, rfl⟩
      · simp at hPath
      · exact hc (List.append_singleton_inj.1 hPath).2
    have hParts : name.toList = dir ++ (stem ++ ['.', 'g', 'z']) ++ tail := by
      rw [hName, ← List.append_assoc dir, ← hPath]
      simp
    have hLong : ∀ part : List Char, part.length < 3 → stem ++ ['.', 'g', 'z'] ≠ part := by
      rintro part hPart rfl
      simp at hPart
    refine ⟨stem, hStem, by decide, lastPart?_eq_some_iff.2 ⟨?_, hLong _ (by decide)⟩⟩
    rw [hParts]
    exact getLast?_parts hDir (by simp [hSlash]) (hLong _ (by decide)) (hLong _ (by decide)) hTail

end Gzipped

/-! ## The second reading -/

/-- The name in lower case is the name that tells the format, and the ending behind it. -/
def Stripped (name : String) : Prop :=
  lower name = formatName name ++ ['.', 'g', 'z']

theorem toLower_eq_point_iff {c : Char} : c.toLower = '.' ↔ c = '.' := by
  constructor
  · intro hc
    -- a point is no letter, so neither is the character
    have hAlpha : (c.isUpper || c.isLower) = false := by
      have hLetter := Char.isAlpha_toLower_eq_isAlpha c
      rw [hc] at hLetter
      exact hLetter.symm
    rw [Bool.or_eq_false_iff] at hAlpha
    rwa [Char.toLower_eq_of_not_isUpper (by simp [hAlpha.1])] at hc
  · rintro rfl
    rfl

/-- The name ends in a point and the two letters, each of them capital or not. -/
theorem stripped_iff {name : String} :
    Stripped name ↔ ∃ front g z, name.toList = front ++ ['.', g, z] ∧
      g.toLower = 'g' ∧ z.toLower = 'z' := by
  have hSuffix : Stripped name ↔ ∃ base, base ++ ['.', 'g', 'z'] = lower name := by
    rw [Stripped, formatName]
    cases hBase : ['.', 'g', 'z'].isSuffixOf? (lower name) with
    | some base =>
      have hLower := List.isSuffixOf?_eq_some_iff_append_eq.1 hBase
      exact ⟨fun _ => ⟨base, hLower⟩, fun _ => hLower.symm⟩
    | none =>
      refine ⟨fun hSelf => by simp at hSelf, fun ⟨base, hLower⟩ => ?_⟩
      rw [List.isSuffixOf?_eq_some_iff_append_eq.2 hLower] at hBase
      contradiction
  rw [hSuffix]
  constructor
  · rintro ⟨base, hLower⟩
    obtain ⟨front, ending, hName, -, hEnding⟩ := List.map_eq_append_iff.1 hLower.symm
    simp only [List.map_eq_cons_iff, List.map_eq_nil_iff] at hEnding
    obtain ⟨point, _, rfl, hPoint, g, _, rfl, hg, z, _, rfl, hz, rfl⟩ := hEnding
    rw [toLower_eq_point_iff.1 hPoint] at hName
    exact ⟨front, g, z, hName, hg, hz⟩
  · rintro ⟨front, g, z, hName, hg, hz⟩
    refine ⟨front.map Char.toLower, ?_⟩
    rw [lower, hName, List.map_append, List.map_cons, List.map_cons, List.map_cons, hg, hz]
    rfl

/-! ## Where they differ -/

/-- Compressed content of a file of this name is read as the text that it holds. -/
def Decompressed (name : String) : Prop :=
  ∀ bytes text, Gzip.text? bytes = some text → (FileEntry.file bytes).read name = .ok text

theorem decompressed_iff {name : String} : Decompressed name ↔ isGzipped name = true := by
  constructor
  · intro hRead
    by_contra hName
    have hPlain : (FileEntry.file storedMember).read name = .ok "[1]" :=
      hRead _ _ text?_storedMember
    rw [FileEntry.read, if_neg hName] at hPlain
    -- compressed data is no text, for it begins with the two bytes
    cases hText : Text.ofBytes? storedMember with
    | none =>
      rw [hText] at hPlain
      contradiction
    | some text =>
      have hMagic := magic_isPrefixOf_utf8Bytes text
      rw [← eq_utf8Bytes hText] at hMagic
      contradiction
  · intro hName bytes text hText
    rw [FileEntry.read, if_pos hName, hText]
    rfl

/-- What leads nowhere ends in a slash or a point. -/
theorem Idle.getLast {tail : List Char} (hTail : Idle tail) (hSome : tail ≠ []) :
    ∃ start c, tail = start ++ [c] ∧ (c = '/' ∨ c = '.') := by
  induction hTail with
  | nil => contradiction
  | @slash rest _ ih =>
    by_cases hRest : rest = []
    · exact ⟨[], '/', by rw [hRest]; rfl, .inl rfl⟩
    · obtain ⟨start, c, rfl, hc⟩ := ih hRest
      exact ⟨'/' :: start, c, rfl, hc⟩
  | @here rest _ ih =>
    by_cases hRest : rest = []
    · exact ⟨['/'], '.', by rw [hRest]; rfl, .inr rfl⟩
    · obtain ⟨start, c, rfl, hc⟩ := ih hRest
      exact ⟨'/' :: '.' :: start, c, rfl, hc⟩

/-- Behind the ending there is nothing, not even what leads nowhere. -/
theorem Idle.eq_nil {front start tail : List Char} {g z : Char} (hTail : Idle tail)
    (hName : start ++ tail = front ++ ['.', g, z]) (hz : z.toLower = 'z') : tail = [] := by
  by_contra hSome
  obtain ⟨middle, c, rfl, hc⟩ := hTail.getLast hSome
  have hEnd : front ++ ['.', g, z] = front ++ ['.', g] ++ [z] := by simp
  rw [← List.append_assoc, hEnd] at hName
  obtain ⟨-, rfl⟩ := List.append_singleton_inj.1 hName
  rcases hc with rfl | rfl <;> contradiction

/-- The names on which the two readings of the ending differ. A file is decompressed, though its
format is told by the whole name, exactly if slashes or points for the directory itself stand behind
a last part that ends in `.gz` and has something in front of it. And a file is read as it is, though
its format is told by what stands in front of the ending, exactly if a letter of the ending is a
capital or nothing but the ending stands in the last part. -/
theorem decompressed_stripped_differ (name : String) :
    (Decompressed name ∧ ¬ Stripped name ↔
      ∃ front c tail, name.toList = front ++ c :: ['.', 'g', 'z'] ++ tail ∧ c ≠ '/' ∧ Idle tail ∧
        tail ≠ []) ∧
    (Stripped name ∧ ¬ Decompressed name ↔
      ∃ front g z, name.toList = front ++ ['.', g, z] ∧ g.toLower = 'g' ∧ z.toLower = 'z' ∧
        (g ≠ 'g' ∨ z ≠ 'z' ∨ front = [] ∨ ∃ dir, front = dir ++ ['/'])) := by
  rw [decompressed_iff, isGzipped_iff, stripped_iff]
  constructor
  · constructor
    · rintro ⟨⟨front, c, tail, hName, hc, hTail⟩, hNot⟩
      refine ⟨front, c, tail, hName, hc, hTail, ?_⟩
      rintro rfl
      exact hNot ⟨front ++ [c], 'g', 'z', by simp [hName], by decide, by decide⟩
    · rintro ⟨front, c, tail, hName, hc, hTail, hSome⟩
      refine ⟨⟨front, c, tail, hName, hc, hTail⟩, ?_⟩
      rintro ⟨front', g, z, hName', -, hz⟩
      exact hSome (hTail.eq_nil (hName.symm.trans hName') hz)
  · constructor
    · rintro ⟨⟨front, g, z, hName, hg, hz⟩, hNot⟩
      refine ⟨front, g, z, hName, hg, hz, ?_⟩
      -- otherwise the ending is as the first reading wants it
      by_contra hOther
      simp only [not_or, not_not, not_exists] at hOther
      obtain ⟨rfl, rfl, hFront, hDir⟩ := hOther
      obtain ⟨start, c, rfl⟩ := (List.eq_nil_or_concat' front).resolve_left hFront
      refine hNot ⟨start, c, [], by simp [hName], ?_, .nil⟩
      rintro rfl
      exact hDir start rfl
    · rintro ⟨front, g, z, hName, hg, hz, hOther⟩
      refine ⟨⟨front, g, z, hName, hg, hz⟩, ?_⟩
      rintro ⟨front', c, tail, hName', hc, hTail⟩
      rw [hName'] at hName
      obtain rfl := hTail.eq_nil hName hz
      have hSame : front' ++ [c] ++ ['.', 'g', 'z'] = front ++ ['.', g, z] := by
        rw [← hName]
        simp
      obtain ⟨rfl, hEnding⟩ := List.append_inj' hSame rfl
      simp only [List.cons.injEq, and_true, true_and] at hEnding
      obtain ⟨rfl, rfl⟩ := hEnding
      rcases hOther with hg | hz | hFront | ⟨dir, hDir⟩
      · exact hg rfl
      · exact hz rfl
      · simp at hFront
      · exact hc (List.append_singleton_inj.1 hDir).2

/-- A file with a capital in its ending is read as it is, and as the format in front of the ending;
so is one whose name is nothing but the ending. -/
theorem capital_ending_differs :
    Stripped "a.yaml.GZ" ∧ format "a.yaml.GZ" = .yaml ∧ ¬ Decompressed "a.yaml.GZ" ∧
      Stripped ".gz" ∧ ¬ Decompressed ".gz" := by
  rw [decompressed_iff, decompressed_iff, Stripped, Stripped]
  decide

end DocGraph.FileName

import TensorCost.Json.Reader
import TensorCost.Yaml.Basic

/-!
# Tags and directives

A tag says of which type a node is. It is a name as a whole, `!<name>`, or a handle and the rest of
a name; directives before the document say for which beginning a handle stands.

* `Yaml.Tag.read?` and `Yaml.Directive.read?` read them.
* `Yaml.readUri` reads a name, in which octets may be written with a percent sign.
* `Yaml.handles?` is the table of handles that directives make, and `Yaml.Tag.expand?` the tag with
  its name as a whole.
-/

namespace TensorCost.Yaml

/-- A tag. A tag without a handle has its name as a whole in `suffix`. -/
structure Tag where
  handle : List Char
  suffix : List Char
  deriving DecidableEq, Repr

/-- What stands before a document: the version of YAML, or the beginning of the names of tags that
have a handle. -/
inductive Directive
  | version
  | tag (handle start : List Char)
  deriving DecidableEq, Repr

/-- Whether `c` can stand in the name of a tag; `verbatim` that the name stands between brackets or
in a directive. -/
def isUriChar (verbatim : Bool) (c : Char) : Bool :=
  isWordChar c
    || c ∈ [';', '/', '?', ':', '@', '&', '=', '+', '$', '.', '!', '~', '*', '\'', '(', ')']
    || (verbatim && c ∈ [',', '[', ']'])

/-- How many octets of a character are still to come after this one, of which `more` were to come
before; if none were, the octet begins a character. -/
def octetsLeft? (more octet : Nat) : Option Nat :=
  if octet < 0x80 then if more == 0 then some 0 else none
  else if octet < 0xc0 then if more == 0 then none else some (more - 1)
  else if more != 0 then none
  else if octet < 0xe0 then some 1
  else if octet < 0xf0 then some 2
  else if octet < 0xf8 then some 3
  else none

/-- Reads a name to its end. `more` tells how many octets of a character are still to come. Each
octet that is written with a percent sign is given as the character with its number. -/
def readUri (verbatim : Bool) : (more : Nat) → (s : List Char) → Option (List Char × List Char)
  | more, '%' :: a :: b :: rest => do
    let octet ← Json.hexNumber? [a, b]
    let left ← octetsLeft? more octet
    (readUri verbatim left rest).map fun r => (Char.ofNat octet :: r.1, r.2)
  | 0, c :: rest =>
    if c == '%' then none
    else if isUriChar verbatim c then
      (readUri verbatim 0 rest).map fun r => (c :: r.1, r.2)
    else some ([], c :: rest)
  | 0, [] => some ([], [])
  | _, _ => none

theorem length_readUri_le {verbatim : Bool} {more : Nat} {s uri rest : List Char}
    (h : readUri verbatim more s = some (uri, rest)) : rest.length ≤ s.length := by
  fun_induction readUri verbatim more s generalizing uri with
  | case1 _ _ _ _ ih =>
    obtain ⟨octet, -, h⟩ := Option.bind_eq_some_iff.1 h
    obtain ⟨left, -, h⟩ := Option.bind_eq_some_iff.1 h
    obtain ⟨r, hr, he⟩ := Option.map_eq_some_iff.1 h
    cases he
    exact Nat.le_trans (ih left hr) (Nat.le_add_right _ 3)
  | case2 => contradiction
  | case3 _ _ _ _ _ ih =>
    obtain ⟨r, hr, he⟩ := Option.map_eq_some_iff.1 h
    cases he
    exact Nat.le_succ_of_le (ih hr)
  | case4 =>
    cases h
    exact Nat.le_refl _
  | case5 =>
    cases h
    exact Nat.le_refl _
  | case6 => contradiction

/-- A name ends before the character with the number zero. -/
def cutUri (uri : List Char) : List Char := uri.takeWhile (· != '\x00')

/-- The name of a tag after the mark that begins it. -/
def Tag.readName? : List Char → Option (Tag × List Char)
  | '<' :: rest =>
    match readUri true 0 rest with
    | some (c :: uri, '>' :: rest) => some (⟨[], cutUri (c :: uri)⟩, rest)
    | _ => none
  | s =>
    let word := s.takeWhile isWordChar
    match s.dropWhile isWordChar with
    | '!' :: rest =>
      match readUri false 0 rest with
      | some (c :: uri, rest) => some (⟨'!' :: word ++ ['!'], cutUri (c :: uri)⟩, rest)
      | _ => none
    | rest => (readUri false 0 rest).map fun (uri, rest) =>
      match cutUri (word ++ uri) with
      | [] => (⟨[], ['!']⟩, rest)
      | suffix => (⟨['!'], suffix⟩, rest)

/-- A tag after the mark that begins it. A gap has to follow or, in flow style, a comma. -/
def Tag.read? (flow : Bool) (s : List Char) : Option (Tag × List Char) :=
  (Tag.readName? s).filter fun r => isGapOrEnd r.2 || (flow && r.2.head? == some ',')

theorem Tag.length_readName?_le {s rest : List Char} {t : Tag}
    (h : Tag.readName? s = some (t, rest)) : rest.length ≤ s.length := by
  unfold Tag.readName? at h
  split at h
  · split at h
    · next huri =>
      cases h
      exact Nat.le_succ_of_le (Nat.le_of_succ_le (length_readUri_le huri))
    · contradiction
  · refine Nat.le_trans ?_ (List.dropWhile_sublist isWordChar).length_le
    split at h
    · next hword =>
      rw [hword]
      split at h
      · next huri =>
        cases h
        exact Nat.le_succ_of_le (length_readUri_le huri)
      · contradiction
    · obtain ⟨⟨uri, after⟩, huri, he⟩ := Option.map_eq_some_iff.1 h
      simp only at he
      split at he
      · cases he
        exact length_readUri_le huri
      · cases he
        exact length_readUri_le huri

theorem Tag.length_read?_le {flow : Bool} {s rest : List Char} {t : Tag}
    (h : Tag.read? flow s = some (t, rest)) : rest.length ≤ s.length :=
  Tag.length_readName?_le (Option.filter_eq_some_iff.1 h).1

/-! ## Directives -/

/-- A number of at most nine digits. -/
def readShortNumber (s : List Char) : Option (Nat × List Char) :=
  let digits := s.takeWhile Char.isDigit
  if digits.isEmpty || 9 < digits.length then none
  else some (Nat.ofDigitChars 10 digits 0, s.dropWhile Char.isDigit)

/-- The version of YAML that a document follows, which is 1.1 or 1.2. -/
def Directive.readVersion? (s : List Char) : Option (Directive × List Char) := do
  let (major, '.' :: rest) ← readShortNumber s | none
  let (minor, rest) ← readShortNumber rest
  if major == 1 && (minor == 1 || minor == 2) then some (.version, rest) else none

/-- A handle: `!`, or a word, which may be empty, between two of these marks. -/
def readHandle : List Char → Option (List Char × List Char)
  | '!' :: rest =>
    let word := rest.takeWhile isWordChar
    match rest.dropWhile isWordChar with
    | '!' :: rest => some ('!' :: word ++ ['!'], rest)
    | rest => if word.isEmpty then some (['!'], rest) else none
  | _ => none

/-- A handle and what it stands for. -/
def Directive.readHandle? (s : List Char) : Option (Directive × List Char) := do
  let (handle, c :: rest) ← readHandle s | none
  if !isBlank c then none
  else
    let (uri, rest) ← readUri true 0 (rest.dropWhile isBlank)
    if uri.isEmpty || !isGapOrEnd rest then none else some (.tag handle (cutUri uri), rest)

/-- What follows the name of a directive. -/
def Directive.readValues? (name values : List Char) : Option (Directive × List Char) :=
  if name == ['Y', 'A', 'M', 'L'] then Directive.readVersion? values
  else if name == ['T', 'A', 'G'] then Directive.readHandle? values
  else none

/-- A directive after the mark that begins it, up to the end of its line. -/
def Directive.read? (s : List Char) : Option (Directive × List Char) := do
  let name := s.takeWhile isWordChar
  let values := s.dropWhile isWordChar
  if !isGapOrEnd values then none
  else
    let (directive, rest) ← Directive.readValues? name (values.dropWhile isBlank)
    (endLine? rest).map (directive, ·)

theorem length_readShortNumber_le {n : Nat} {s rest : List Char}
    (h : readShortNumber s = some (n, rest)) : rest.length ≤ s.length := by
  unfold readShortNumber at h
  extract_lets digits at h
  split at h
  · contradiction
  · cases h
    exact (List.dropWhile_sublist Char.isDigit).length_le

theorem length_readHandle_le {handle s rest : List Char}
    (h : readHandle s = some (handle, rest)) : rest.length ≤ s.length := by
  unfold readHandle at h
  split at h
  · refine Nat.le_succ_of_le (Nat.le_trans ?_ (List.dropWhile_sublist isWordChar).length_le)
    extract_lets word at h
    split at h
    · next hword =>
      cases h
      rw [hword]
      exact Nat.le_succ _
    · split at h
      · cases h
        exact Nat.le_refl _
      · contradiction
  · contradiction

theorem Directive.length_readVersion?_le {d : Directive} {s rest : List Char}
    (h : Directive.readVersion? s = some (d, rest)) : rest.length ≤ s.length := by
  obtain ⟨⟨major, afterMajor⟩, hmajor, h⟩ := Option.bind_eq_some_iff.1 h
  split at h
  · next heq =>
    cases heq
    obtain ⟨⟨minor, afterMinor⟩, hminor, h⟩ := Option.bind_eq_some_iff.1 h
    simp only at h
    split at h
    · cases h
      exact Nat.le_trans (length_readShortNumber_le hminor)
        (Nat.le_of_succ_le (length_readShortNumber_le hmajor))
    · contradiction
  · contradiction

theorem Directive.length_readHandle?_le {d : Directive} {s rest : List Char}
    (h : Directive.readHandle? s = some (d, rest)) : rest.length ≤ s.length := by
  obtain ⟨⟨handle, afterHandle⟩, hhandle, h⟩ := Option.bind_eq_some_iff.1 h
  split at h
  · next heq =>
    cases heq
    split at h
    · contradiction
    · obtain ⟨⟨uri, after⟩, huri, h⟩ := Option.bind_eq_some_iff.1 h
      simp only at h
      split at h
      · contradiction
      · cases h
        exact Nat.le_trans (length_readUri_le huri)
          (Nat.le_trans (List.dropWhile_sublist isBlank).length_le
            (Nat.le_of_succ_le (length_readHandle_le hhandle)))
  · contradiction

theorem Directive.length_readValues?_le {d : Directive} {name values rest : List Char}
    (h : Directive.readValues? name values = some (d, rest)) : rest.length ≤ values.length := by
  unfold Directive.readValues? at h
  split at h
  · exact Directive.length_readVersion?_le h
  · split at h
    · exact Directive.length_readHandle?_le h
    · contradiction

theorem Directive.length_read?_le {d : Directive} {s rest : List Char}
    (h : Directive.read? s = some (d, rest)) : rest.length ≤ s.length := by
  unfold Directive.read? at h
  extract_lets name values at h
  split at h
  · contradiction
  · obtain ⟨⟨directive, after⟩, hvalues, h⟩ := Option.bind_eq_some_iff.1 h
    obtain ⟨tail, htail, he⟩ := Option.map_eq_some_iff.1 h
    cases he
    calc rest.length ≤ after.length := length_endLine?_le htail
      _ ≤ (values.dropWhile isBlank).length := Directive.length_readValues?_le hvalues
      _ ≤ values.length := (List.dropWhile_sublist isBlank).length_le
      _ ≤ s.length := (List.dropWhile_sublist isWordChar).length_le

/-- The handles that directives make known and the beginnings of names that they stand for. The
version can be given once, and so can every handle. Two handles are known if nothing else is said
about them. -/
def handles? (directives : List Directive) : Option (List (List Char × List Char)) :=
  let given := directives.filterMap fun
    | .version => none
    | .tag handle start => some (handle, start)
  if directives.count .version ≤ 1 ∧ (given.map Prod.fst).Nodup then
    some (given ++ [(['!'], ['!']), (['!', '!'], "tag:yaml.org,2002:".toList)])
  else none

/-- The tag with its name as a whole, if its handle is known. -/
def Tag.expand? (handles : List (List Char × List Char)) (tag : Tag) : Option Tag :=
  if tag.handle.isEmpty then some tag
  else (handles.lookup tag.handle).map fun start => ⟨[], start ++ tag.suffix⟩

end TensorCost.Yaml

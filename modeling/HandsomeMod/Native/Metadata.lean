import HandsomeMod.Native.PackageMetadata

/-!
# Metadata

Embeds of `metadata.pm` how the metadata of packages is read: `parse_package_metadata`, with
`get_multiline` and `parse_package_metadata_usergroup`; and `clear_packages`.

A hash is the function that looks a key up, a reference is the position of a hash among all of them.
-/

namespace HandsomeMod.Native.Metadata

open ForStd PackageMetadata

/-! ### Users and groups -/

/-- An entry of `%usernames` or `%groupnames`; without an id it is -1. -/
structure NameEntry where
  id : Option Text
  makefile : Option Text

/-- An entry of `%userids` or `%groupids`. -/
structure IdEntry where
  name : Text
  makefile : Option Text

/-- The two tables of the users, or those of the groups. -/
structure Ids where
  names : Text → Option NameEntry
  ids : Text → Option IdEntry

/-- `[a-z_][a-z0-9_-]*\$?` matches all of a text. -/
def isName (s : Text) : Bool :=
  match s with
  | [] => false
  | c :: s =>
    let s := if s.getLast? = some 0x24 then s.dropLast else s
    ((0x61 ≤ c && c ≤ 0x7a) || c == 0x5f) &&
      s.all fun c => (0x61 ≤ c && c ≤ 0x7a) || isDigit c || c == 0x5f || c == 0x2d

/-- The name and the id of a spec; a newline may stand at its end. -/
def matchSpec (spec : Text) : Option (Text × Option Text) :=
  let body := chomp spec
  let name := body.takeWhile (· ≠ 0x3d)
  let id := (body.dropWhile (· ≠ 0x3d)).drop 1
  if isName body then some (spec, none)
  else if isName name ∧ id ≠ [] ∧ id.all isDigit then some (name, some id)
  else none

/-- The value of `$id`. -/
def idValue : Option Text → Int
  | none => -1
  | some id => decimal id

/-- `^[1-9]\d*$`, for digits -/
def isPositive (id : Text) : Bool := id.head?.any (· ≠ 0x30)

/-- The part of `parse_package_metadata_usergroup` that enters the id, or its warning. -/
def takeId (makefile : Option Text) (typename : Text) (ids : Text → Option IdEntry) (name : Text) :
    Option Text → Except Text (Text → Option IdEntry)
  | none => .ok ids
  | some id =>
    if isPositive id then
      -- ids have 16 bits
      if 65536 ≤ decimal id then
        .error (makefile.getD [] ++ ascii ": " ++ typename ++ ascii " " ++ name ++ ascii " id " ++ id ++
          ascii " >= 65536")
      else
        match ids id with
        | none => .ok (Function.update ids id (some { name, makefile }))
        | some entry =>
          -- the same name may ask for its id again
          if entry.name ≠ name then
            .error (makefile.getD [] ++ ascii ": " ++ typename ++ ascii " " ++ name ++ ascii " id " ++
              id ++ ascii " is already taken by " ++ entry.makefile.getD [] ++ ascii "\n")
          else .ok ids
    else
      .error (makefile.getD [] ++ ascii ": " ++ typename ++ ascii " " ++ name ++ ascii " has invalid id " ++
        id ++ ascii "\n")

/-- The part that enters the name. -/
def takeName (makefile : Option Text) (typename : Text) (names : Text → Option NameEntry) (name : Text)
    (id : Option Text) : Except Text (Text → Option NameEntry) :=
  match names name with
  | none => .ok (Function.update names name (some { id, makefile }))
  | some entry =>
    if idValue entry.id ≠ idValue id then
      .error (makefile.getD [] ++ ascii ": id of " ++ typename ++ ascii " " ++ name ++
        ascii " collides with that defined defined in " ++ entry.makefile.getD [] ++ ascii "\n")
    else .ok names

/-- `parse_package_metadata_usergroup`: the tables, and the warning if it returns 0. -/
def parsePackageMetadataUsergroup (makefile : Option Text) (typename : Text) (t : Ids) (spec : Text) :
    Ids × Option Text :=
  match matchSpec spec with
  | none =>
    (t, some (makefile.getD [] ++ ascii ": invalid " ++ typename ++ ascii " spec " ++ spec ++ ascii "\n"))
  | some (name, id) =>
    match takeId makefile typename t.ids name id with
    | .error warning => (t, some warning)
    | .ok ids =>
      match takeName makefile typename t.names name id with
      | .error warning => ({ t with ids }, some warning)
      | .ok names => ({ names, ids }, none)

inductive Kind where
  | user
  | group
  deriving Repr, DecidableEq

def Kind.typename : Kind → Text
  | user => ascii "user"
  | group => ascii "group"

/-- One call of `parse_package_metadata_usergroup`. -/
structure Spec where
  makefile : Option Text
  kind : Kind
  spec : Text
  deriving Repr, DecidableEq

/-- The calls for a value of `Require-User`. -/
def requireUser (makefile : Option Text) (value : Text) : List Spec :=
  (splitSpaces value).flatMap fun ugspec =>
    let user := ugspec.takeWhile (· ≠ 0x3a)
    let group := (ugspec.dropWhile (· ≠ 0x3a)).drop 1
    (if truthy user then [{ makefile, kind := .user, spec := user }] else []) ++
      if truthy group then [{ makefile, kind := .group, spec := group }] else []

/-- The calls one after the other, up to the first that returns 0. -/
def checkSpecs (tables : Kind → Ids) : List Spec → (Kind → Ids) × Option Text
  | [] => (tables, none)
  | s :: specs =>
    match parsePackageMetadataUsergroup s.makefile s.kind.typename (tables s.kind) s.spec with
    | (t, some warning) => (Function.update tables s.kind t, some warning)
    | (t, none) => checkSpecs (Function.update tables s.kind t) specs

/-! ### Packages -/

/-- A value of the hash of a package or of a source. -/
inductive Value where
  | undefined
  | one
  | text (s : Text)
  | words (l : List Text)
  | ref (i : Nat)
  | refs (l : List Nat)

abbrev Hash := Text → Option Value

/-- A hash with these pairs. -/
def hashOf (pairs : List (Text × Value)) : Hash := fun key => pairs.lookup key

/-- All hashes of packages and sources, and the tables that refer to them. -/
structure Packages where
  hashes : List Hash
  package : Text → Option Nat
  vpackage : Text → Option (List Nat)
  srcpackage : Text → Option Nat
  category : Text → Text → Option (List Nat)
  overrides : Text → Bool

/-- The tables, and the variables of `parse_package_metadata`. -/
structure Parser extends Packages where
  src : Option Nat
  pkg : Option Nat
  override : Text

/-- The variables before the first line. -/
def Parser.start (packages : Packages) : Parser :=
  { toPackages := packages, src := none, pkg := none, override := [] }

/-- `$hash->{$key}` -/
def Parser.get (p : Parser) (i : Nat) (key : Text) : Option Value := (p.hashes.getD i fun _ => none) key

/-- `$hash->{$key} = $value` -/
def Parser.set (p : Parser) (i : Nat) (key : Text) (value : Value) : Parser :=
  { p with hashes := p.hashes.modify i fun h => Function.update h key (some value) }

/-- A scalar that is a text, or undefined. -/
def Parser.getText (p : Parser) (i : Nat) (key : Text) : Option Text :=
  match p.get i key with
  | some (.text s) => some s
  | _ => none

/-- `push @{$hash->{$key}}, $ref` -/
def Parser.pushRef (p : Parser) (i : Nat) (key : Text) (ref : Nat) : Parser :=
  match p.get i key with
  | some (.refs l) => p.set i key (.refs (l ++ [ref]))
  | _ => p.set i key (.refs [ref])

/-- `(?:.+\/)?([^\/]+)` matches all of a path: the name at its end. -/
def matchPath (path : Text) : Option Text :=
  let name := path.rtakeWhile (· ≠ 0x2f)
  let dir := path.length - name.length
  if name ≠ [] ∧ dir ≠ 1 then some name else none

/-- The makefile, the path and the name of a line `Source-Makefile`, from what is behind its name. -/
def matchMakefile (s : Text) : Option (Text × Text × Text) := do
  let file := s.rdropWhile isSpace
  guard (ascii "/Makefile" <:+ file)
  let stem := file.take (file.length - (ascii "/Makefile").length)
  let spaces := (stem.takeWhile isSpace).length
  -- `\s*` takes all white space, or less of it if nothing matches then.
  (List.range (spaces + 1)).reverse.findSome? fun n => do
    let path := stem.drop n
    let inPackage := do
      let rest ← behind (ascii "package/") path
      let name ← matchPath rest
      return (path ++ ascii "/Makefile", rest, name)
    inPackage <|> (matchPath path).map fun name => (path ++ ascii "/Makefile", path, name)

/-- `Source-Makefile` and `Override` -/
def sourceLine (ignore : Text → Bool) (line : Text) (p : Parser) : Parser :=
  match (behind (ascii "Source-Makefile: ") line).bind matchMakefile with
  | some (makefile, path, name) =>
    -- a new source package, which ends the one before and its override
    let src := hashOf [(ascii "makefile", .text makefile), (ascii "path", .text path),
      (ascii "name", .text name), (ascii "ignore", if ignore name then .one else .undefined),
      (ascii "packages", .refs []), (ascii "buildtypes", .words []), (ascii "builddepends", .words [])]
    { p with
      hashes := p.hashes ++ [src]
      srcpackage := Function.update p.srcpackage name (some p.hashes.length)
      src := some p.hashes.length
      override := []
      pkg := none }
  | none =>
    match (behind (ascii "Override: ") line).bind trimmed with
    | some override =>
      match p.src with
      | some src =>
        let name := (p.getText src (ascii "name")).getD []
        { p with override, overrides := Function.update p.overrides name true }
      -- An undefined `$src` becomes a hash when it is looked into.
      | none =>
        { p with
          hashes := p.hashes ++ [fun _ => none]
          src := some p.hashes.length
          override
          overrides := Function.update p.overrides [] true }
    | none => p

/-- `Package` and `Build-...` -/
def packageLine (src : Nat) (line : Text) (p : Parser) : Parser :=
  match (behind (ascii "Package:") line).bind trimmed with
  | some name =>
    let i := p.hashes.length
    let pkg := hashOf [(ascii "src", .ref src), (ascii "name", .text name), (ascii "title", .text []),
      (ascii "depends", .words []), (ascii "mdepends", .words []), (ascii "provides", .words [name]),
      (ascii "tristate", .one), (ascii "override", .text p.override)]
    let p := { p with
      hashes := p.hashes ++ [pkg]
      package := Function.update p.package name (some i)
      -- the newest package of a name stands first
      vpackage := Function.update p.vpackage name (some (i :: (p.vpackage name).getD []))
      pkg := some i }
    p.pushRef src (ascii "packages") i
  | none =>
    match (behind (ascii "Build-Depends: ") line).bind untrimmed with
    | some value => p.set src (ascii "builddepends") (.words (splitSpaces value))
    | none =>
      match behind (ascii "Build-Depends/") line with
      | some rest =>
        -- `Build-Depends/<type>: `
        let buildtype := rest.takeWhile isWord
        match (behind (ascii ": ") (rest.drop buildtype.length)).bind untrimmed with
        | some value =>
          if buildtype ≠ [] then p.set src (ascii "builddepends/" ++ buildtype) (.words (splitSpaces value))
          else p
        | none => p
      | none =>
        match (behind (ascii "Build-Types:") line).bind untrimmed with
        | some value => p.set src (ascii "buildtypes") (.words (splitSpaces value))
        | none => p

/-- What a line sets in the hash of the package. -/
inductive Field where
  | text
  | trimmedText
  | words
  /-- only that there is a value -/
  | flag
  /-- only that the line begins so -/
  | name

/-- The lines that only set a field: their names and the keys. -/
def fields : List (Field × Text × Text) :=
  [(.text, ascii "Version: ", ascii "version"),
    (.text, ascii "Title: ", ascii "title"),
    (.text, ascii "Menu: ", ascii "menu"),
    (.text, ascii "Submenu: ", ascii "submenu"),
    (.text, ascii "Submenu-Depends: ", ascii "submenudep"),
    (.text, ascii "Source: ", ascii "source"),
    (.text, ascii "License: ", ascii "license"),
    (.text, ascii "LicenseFiles: ", ascii "licensefiles"),
    (.text, ascii "Default: ", ascii "default"),
    (.words, ascii "Menu-Depends: ", ascii "mdepends"),
    (.words, ascii "Depends: ", ascii "depends"),
    (.words, ascii "Conflicts: ", ascii "conflicts"),
    (.flag, ascii "Hidden: ", ascii "hidden"),
    (.name, ascii "Default-Variant: ", ascii "variant_default"),
    (.flag, ascii "Build-Only: ", ascii "buildonly"),
    (.trimmedText, ascii "Repository:", ascii "repository"),
    (.name, ascii "Prereq-Check:", ascii "prereq")]

/-- The value that such a line gives. -/
def Field.value (rest : Text) : Field → Option Value
  | text => (untrimmed rest).map .text
  | trimmedText => (trimmed rest).map .text
  | words => (untrimmed rest).map fun value => .words (splitSpaces value)
  | flag => (untrimmed rest).map fun _ => .one
  | name => some .one

/-- `Provides` -/
def provides (pkg : Nat) (value : Text) (p : Parser) : Parser :=
  let name := (p.getText pkg (ascii "name")).getD []
  let vpkgs := splitSpaces value
  let p := p.set pkg (ascii "provides") (.words (name :: vpkgs))
  { p with
    vpackage := vpkgs.foldl (fun vpackage vpkg =>
      if vpkg = name then vpackage
      else Function.update vpackage vpkg (some ((vpackage vpkg).getD [] ++ [pkg]))) p.vpackage }

/-- `Category` -/
def category (src pkg : Nat) (value : Text) (p : Parser) : Parser :=
  let p := p.set pkg (ascii "category") (.text value)
  let name := (p.getText src (ascii "name")).getD []
  { p with category := Function.update p.category value (Function.update (p.category value) name
      (some (((p.category value) name).getD [] ++ [pkg]))) }

/-- `Type` -/
def type (pkg : Nat) (value : Text) (p : Parser) : Parser :=
  let types := splitSpaces value
  let tristate := if types.any fun type => ascii "ipkg" <:+: type then Value.one else .undefined
  (p.set pkg (ascii "type") (.words types)).set pkg (ascii "tristate") tristate

/-- The lines of a package that take effect on their own. -/
def fieldLine (src pkg : Nat) (line : Text) (p : Parser) : Parser :=
  let field := fields.findSome? fun (field, name, key) =>
    (behind name line).bind fun rest => (field.value rest).map (key, ·)
  match field with
  | some (key, value) => p.set pkg key value
  | none =>
    match (behind (ascii "Provides: ") line).bind untrimmed with
    | some value => provides pkg value p
    | none =>
      match (behind (ascii "Category: ") line).bind untrimmed with
      | some value => category src pkg value p
      | none =>
        match (behind (ascii "Type: ") line).bind untrimmed with
        | some value => type pkg value p
        | none =>
          match behind (ascii "Build-Variant: ") line with
          | some rest =>
            let variant := (rest.dropWhile isSpace).takeWhile fun c => isWord c || c == 0x2d
            if variant ≠ [] then p.set pkg (ascii "variant") (.text variant) else p
          | none => p

/-- The loop of `get_multiline`: `$str`, and the lines that are left. -/
def readMultiline (linePrefix : Text) : List Text → Text × List Text
  | [] => ([], [])
  | line :: lines =>
    if ascii "@@" <+: line then ([], lines)
    else
      let (str, rest) := readMultiline linePrefix lines
      ((if truthy line then linePrefix ++ line else line) ++ str, rest)

/-- `get_multiline` -/
def getMultiline (linePrefix : Text) (lines : List Text) : Text × List Text :=
  let (str, rest) := readMultiline linePrefix lines
  (if truthy str then str else [], rest)

/-- A description only takes lines away. -/
private theorem length_getMultiline_le (linePrefix : Text) (lines : List Text) :
    (getMultiline linePrefix lines).2.length ≤ lines.length := by
  show (readMultiline linePrefix lines).2.length ≤ lines.length
  induction lines with
  | nil => exact Nat.le_refl 0
  | cons line lines ih =>
    rw [readMultiline]
    split
    · exact Nat.le_succ _
    · exact Nat.le_succ_of_le ih

/-- `Description` and `Config`: the key, what its value begins with, and what is put in front of each
    line that follows. -/
def multiline (line : Text) : Option (Text × Text × Text) :=
  match behind (ascii "Description: ") line with
  | some rest =>
    some (ascii "description", ascii "\t\t " ++ rest.dropWhile isSpace ++ ascii "\n", ascii "\t\t ")
  | none =>
    (behind (ascii "Config:") line).map fun rest =>
      (ascii "config", rest.dropWhile isSpace ++ ascii "\n", ascii "\t")

/-- The value of `Require-User`. -/
def requireUserLine (line : Text) : Option Text :=
  (behind (ascii "Require-User:") line).map fun rest => (rest.dropWhile isSpace).rdropWhile isSpace

/-- What one turn of the loop does before it checks users and groups: the specs to check, and the lines
    that are left. -/
structure Turn where
  parser : Parser
  specs : List Spec
  lines : List Text

/-- One turn of the loop of `parse_package_metadata`, for a line with the others behind it. -/
def turn (ignore : Text → Bool) (line : Text) (lines : List Text) (p : Parser) : Turn :=
  let p := sourceLine ignore line p
  match p.src with
  -- before the first source package nothing is read
  | none => ⟨p, [], lines⟩
  | some src =>
    let p := packageLine src line p
    match p.pkg with
    | none => ⟨p, [], lines⟩
    | some pkg =>
      let p := fieldLine src pkg line p
      match multiline line with
      | some (key, start, linePrefix) =>
        -- The line is the one that ended the value now, so nothing else is found in it.
        let (str, lines) := getMultiline linePrefix lines
        ⟨p.set pkg key (.text (start ++ str)), [], lines⟩
      | none =>
        match requireUserLine line with
        | none => ⟨p, [], lines⟩
        | some value => ⟨p, requireUser (p.getText src (ascii "makefile")) value, lines⟩

/-- A turn of the parser puts no line back. -/
theorem length_turn_le (ignore : Text → Bool) (line : Text) (lines : List Text) (p : Parser) :
    (turn ignore line lines p).lines.length ≤ lines.length := by
  simp only [turn]
  split
  · exact Nat.le_refl _
  · split
    · exact Nat.le_refl _
    · split
      · exact length_getMultiline_le _ lines
      · split <;> exact Nat.le_refl _

/-- What a file leaves behind, and the warning if 0 is returned. -/
structure Parsed where
  parser : Parser
  tables : Kind → Ids
  warning : Option Text

/-- The loop of `parse_package_metadata`. -/
def parseLines (ignore : Text → Bool) (lines : List Text) (p : Parser) (tables : Kind → Ids) : Parsed :=
  match lines with
  | [] => ⟨p, tables, none⟩
  | line :: lines =>
    match checkSpecs tables (turn ignore (chomp line) lines p).specs with
    | (tables, some warning) => ⟨(turn ignore (chomp line) lines p).parser, tables, some warning⟩
    | (tables, none) =>
      parseLines ignore (turn ignore (chomp line) lines p).lines (turn ignore (chomp line) lines p).parser tables
termination_by lines.length
decreasing_by exact Nat.lt_succ_of_le (length_turn_le ignore (chomp line) lines p)

/-- The tables of a process. -/
structure State where
  packages : Packages
  tables : Kind → Ids

/-- No packages. -/
def Packages.empty : Packages :=
  { hashes := [], package := fun _ => none, vpackage := fun _ => none, srcpackage := fun _ => none,
    category := fun _ _ => none, overrides := fun _ => false }

/-- The tables of a fresh process. -/
def State.init : State := { packages := .empty, tables := fun _ => ⟨fun _ => none, fun _ => none⟩ }

/-- `clear_packages`. No table refers to the hashes any more, so they are gone. -/
def clearPackages (st : State) : State :=
  { packages := .empty, tables := fun kind => { st.tables kind with names := fun _ => none } }

/-- `parse_package_metadata`: what it returns, nothing if the file cannot be opened. -/
def parsePackageMetadata (ignore : Text → Bool) (file : Option Text) (st : State) : Option Bool × State :=
  match file with
  | none => (none, st)
  | some file =>
    let parsed := parseLines ignore (fileLines file) (.start st.packages) st.tables
    (some parsed.warning.isNone, ⟨parsed.parser.toPackages, parsed.tables⟩)

end HandsomeMod.Native.Metadata

import HandsomeMod.ForStd.Assoc
import HandsomeMod.ForStd.CDecimal
import HandsomeMod.ForStd.Separators

/-!
# Package metadata

Embeds of `package-metadata.pl` how a `DEPENDS` entry becomes a dependency for make: `and_condition`,
`gen_condition`, `get_conditional_dep` and the part of `gen_package_mk` that calls it; and the
versions of kernel options: `version_to_num` and `version_filter_list`; and the order of the packages
of a menu: `find_package_dep` and `package_depends`.
-/

namespace HandsomeMod.Native.PackageMetadata

open ForStd

/-- A string of the script, as bytes. -/
abbrev Text := List UInt8

/-- A string is true in Perl. -/
def truthy (s : Text) : Bool := s ≠ [] && s ≠ ascii "0"

/-- The regular expression `^(.+):(.+)$`, on a line: the longest first part. -/
def splitColon (s : Text) : Option (Text × Text) :=
  let found := (List.range s.length).reverse.find? fun i =>
    0 < i && s.getD i 0 == 0x3a && i + 1 < s.length
  found.map fun i => (s.take i, s.drop (i + 1))

/-- The fields between two of a character, one behind the other. -/
def splitTwo (c : UInt8) : Text → List Text
  | [] => [[]]
  | [x] => [[x]]
  | x :: y :: s =>
    if x = c ∧ y = c then [] :: splitTwo c s
    else (splitTwo c (y :: s)).modifyHead (x :: ·)

/-- `split`, which leaves out the empty fields at the end -/
def perlSplit (c : UInt8) (s : Text) : List Text := (splitTwo c s).rdropWhile (· == [])

/-! ### Lines -/

/-- `split /\s+/` -/
def splitSpaces (s : Text) : List Text :=
  match s.splitOnP isSpace with
  | [] => []
  | first :: rest => (first :: rest.filter (· ≠ [])).rdropWhile (· == [])

/-- The regular expression `^name\s*(.+?)\s*$`, on what is behind the name; of white space alone,
    the last character. -/
def trimmed (s : Text) : Option Text :=
  let value := (s.dropWhile isSpace).rdropWhile isSpace
  if value ≠ [] then some value else s.getLast?.map ([·])

/-- The same for `^name\s*(.+)\s*$`. -/
def untrimmed (s : Text) : Option Text :=
  let value := s.dropWhile isSpace
  if value ≠ [] then some value else s.getLast?.map ([·])

/-- What is behind the name that a line begins with. -/
def behind (name line : Text) : Option Text :=
  if name <+: line then some (line.drop name.length) else none

/-- The lines of a file, each with the newline that ends it. -/
def fileLines (file : Text) : List Text :=
  let fields := file.splitOn 0x0a
  fields.dropLast.map (· ++ [0x0a]) ++ (fields.getLast?.toList.filter (· ≠ []))

/-- `chomp` -/
def chomp (line : Text) : Text := if line.getLast? = some 0x0a then line.dropLast else line

/-! ### What is printed for make -/

/-- A text for make, by its parts. -/
inductive MakeExpr where
  | path (p : Text)
  | config (sym : Text)
  | andConfig (syms : List Text)
  | nothing
  | append (a b : MakeExpr)
  | ifThen (c t : MakeExpr)
  | ifElse (c e : MakeExpr)
  deriving Repr, DecidableEq

/-- The text. -/
def MakeExpr.text : MakeExpr → Text
  | path p => ascii "$(curdir)/" ++ p ++ ascii "/compile"
  | config sym => ascii "$(CONFIG_" ++ sym ++ ascii ")"
  | andConfig syms =>
    ascii "$(and " ++ (ascii ",").intercalate (syms.map fun s => ascii "$(CONFIG_" ++ s ++ ascii ")") ++
      ascii ")"
  | nothing => []
  | append a b => a.text ++ b.text
  | ifThen c t => ascii "$(if " ++ c.text ++ ascii "," ++ t.text ++ ascii ")"
  | ifElse c e => ascii "$(if " ++ c.text ++ ascii ",," ++ e.text ++ ascii ")"

/-- `and_condition` -/
def andCondition (condition : Text) : MakeExpr :=
  match perlSplit 0x26 condition with
  | [s] => .config s
  | splAnd => .andConfig splAnd

/-- `gen_condition` -/
def genCondition (condition : Text) : MakeExpr :=
  let condition := condition.filter (· ∉ ascii "()!")
  ((perlSplit 0x7c condition).map andCondition).foldr .append .nothing

/-- `get_conditional_dep` -/
def getConditionalDep (condition : Text) (depstr : MakeExpr) : MakeExpr :=
  if truthy condition then
    match condition with
    | 0x21 :: c :: rest => .ifElse (genCondition (c :: rest)) depstr
    | _ => .ifThen (genCondition condition) depstr
  else depstr

/-- A package that `%vpackage` has for a name: its name, and the name and the path of its source. -/
structure Provider where
  name : Text
  srcName : Text
  path : Text
  deriving Repr, DecidableEq

/-- `$depstr` for one of so many providers -/
def depstr (n : Nat) (vdep : Provider) : MakeExpr :=
  if n > 1 then .ifThen (.config (ascii "PACKAGE_" ++ vdep.name)) (.path vdep.path)
  else .path vdep.path

/-- The dependencies that `gen_package_mk` emits for an entry of `DEPENDS`. -/
def deplines (srcname : Text) (vpackage : Text → Option (List Provider)) (dep : Text) :
    List MakeExpr :=
  if 0x40 ∈ dep then []
  else
    let dep := dep.filter (· ≠ 0x2b)
    let (condition, dep) := (splitColon dep).getD ([], dep)
    match vpackage dep with
    | none => []
    | some vpkgDep =>
      let vdeps := vpkgDep.filter (srcname ≠ ·.srcName)
      vdeps.map fun vdep => getConditionalDep condition (depstr vdeps.length vdep)

/-! ### Versions -/

/-- The regular expression `\d+(?:\.\d+)+` matches all of a text. -/
def isVersion (s : Text) : Bool :=
  let fields := s.splitOn 0x2e
  2 ≤ fields.length && fields.all fun f => f ≠ [] && f.all isDigit

/-- The value of digits: an integer of 64 bits without sign, the largest one for those above. -/
def uvOf (ds : Text) : Nat := min (decimal ds) (2 ^ 64 - 1)

/-- `version_to_num`; a newline may stand at the end. -/
def versionToNum (str : Option Text) : Nat :=
  match str with
  | none => 0
  | some str =>
    let str := if str.getLast? = some 10 then str.dropLast else str
    if isVersion str then
      let n := (str.splitOn 0x2e).map uvOf ++ [0, 0, 0, 0]
      (n.getD 0 0 <<< 24) % 2 ^ 64 ||| (n.getD 1 0 <<< 16) % 2 ^ 64 |||
        (n.getD 2 0 <<< 8) % 2 ^ 64 ||| n.getD 3 0
    else 0

inductive VersionOp where
  | lt
  | le
  | gt
  | ge
  | eq
  | ne
  deriving Repr, DecidableEq

def VersionOp.text : VersionOp → Text
  | lt => ascii "lt"
  | le => ascii "le"
  | gt => ascii "gt"
  | ge => ascii "ge"
  | eq => ascii "eq"
  | ne => ascii "ne"

def VersionOp.all : List VersionOp := [.lt, .le, .gt, .ge, .eq, .ne]

/-- How an operator compares two numbers. -/
def VersionOp.holds (cmpver symver : Nat) : VersionOp → Bool
  | lt => cmpver < symver
  | le => cmpver ≤ symver
  | gt => cmpver > symver
  | ge => cmpver ≥ symver
  | eq => cmpver = symver
  | ne => cmpver ≠ symver

/-- A match of `@(lt|le|gt|ge|eq|ne)(\d+(?:\.\d+)+)\b`, and what is in front of it and behind it. -/
structure VersionTag where
  before : Text
  op : VersionOp
  ver : Text
  behind : Text
  deriving Repr, DecidableEq

/-- `\w` -/
def isWord (c : UInt8) : Bool :=
  isDigit c || (0x41 ≤ c && c ≤ 0x5a) || (0x61 ≤ c && c ≤ 0x7a) || c == 0x5f

/-- `\b` behind a digit -/
def wordEnds (behind : Text) : Bool := !(behind.head?.any isWord)

/-- A match that begins here: the longest version that ends a word. -/
def tagAt (before : Text) : Text → Option VersionTag
  | 0x40 :: a :: b :: rest => do
    let op ← VersionOp.all.find? fun op => op.text = [a, b]
    let n ← (List.range (rest.length + 1)).reverse.find? fun n =>
      isVersion (rest.take n) && wordEnds (rest.drop n)
    some { before, op, ver := rest.take n, behind := rest.drop n }
  | _ => none

/-- The first match. -/
def matchTag (item : Text) : Option VersionTag :=
  (List.range item.length).findSome? fun i => tagAt (item.take i) (item.drop i)

/-- One turn of the loop of `version_filter_list`. -/
def filterItem (cmpver : Nat) (item : Text) : Option Text :=
  match matchTag item with
  | none => some item
  | some tag =>
    let symver := versionToNum (some tag.ver)
    if symver > 0 ∧ cmpver > 0 ∧ ¬tag.op.holds cmpver symver then none
    else some (tag.before ++ tag.behind)

/-- `version_filter_list` -/
def versionFilterList (cmpver : Option Text) (items : List Text) : List Text :=
  items.filterMap (filterItem (versionToNum cmpver))

/-! ### Kernel options -/

/-- `/^(CONFIG_.+?)=(.+)$/`: the symbol -/
def matchConfig (line : Text) : Option Text :=
  ((behind (ascii "CONFIG_") line).bind (lazySplit (ascii "=") fun val => !val.isEmpty)).map fun p =>
    ascii "CONFIG_" ++ p.1

/-- The keys of `%config`, from the configuration of the build system. -/
def configSymbols (cfgfile : Text) : List Text := (fileLines cfgfile).filterMap (matchConfig ∘ chomp)

/-- The package is selected. -/
def selects (cfgfile package : Text) : Bool := ascii "CONFIG_PACKAGE_" ++ package ∈ configSymbols cfgfile

/-- `/^(.+?)=(.+)$/`: an option, and the value that overrides. -/
def splitOption (config : Text) : Text × Option Text :=
  match lazySplit (ascii "=") (fun val => !val.isEmpty) config with
  | some (config, val) => (config, some val)
  | none => (config, none)

/-- Options and their values. -/
abbrev Overrides := List (Text × Text)

/-- One option of a package. -/
def overrideOption (selected : Bool) (kconfig : Overrides) (config : Text) : Overrides :=
  let (config, override) := splitOption config
  if selected ∧ config ≠ ascii "n" then
    if kconfig.lookup config = some (ascii "y") then kconfig
    else Assoc.put config (override.getD (ascii "m")) kconfig
  else if override.isNone ∧ ¬(kconfig.lookup config).any truthy then Assoc.put config (ascii "n") kconfig
  else kconfig

/-- `/^Package:\s*(.+?)\s*$/` -/
def matchPackage (line : Text) : Option Text := (behind (ascii "Package:") line).bind trimmed

/-- `/^Kernel-Config:\s*(.+?)\s*$/` -/
def matchKernelConfig (line : Text) : Option Text := (behind (ascii "Kernel-Config:") line).bind trimmed

/-- One line of the metadata, with `$package` and `%kconfig`. -/
def overrideLine (cfgfile : Text) (patchver : Option Text) (st : Text × Overrides) (line : Text) :
    Text × Overrides :=
  let package := (matchPackage line).getD st.1
  match matchKernelConfig line with
  | none => (package, st.2)
  | some value =>
    (package, (versionFilterList patchver (splitSpaces value)).foldl
      (overrideOption (selects cfgfile package)) st.2)

/-- `%kconfig` at the end of the metadata. -/
def kconfigOverrides (pkginfo cfgfile : Text) (patchver : Option Text) : Overrides :=
  (((fileLines pkginfo).map chomp).foldl (overrideLine cfgfile patchver) ([], [])).2

/-- What is printed. -/
def printOverrides (kconfig : Overrides) : Text :=
  ((Assoc.keys kconfig).mergeSort fun a b => decide (a ≤ b)).flatMap fun config =>
    if kconfig.lookup config = some (ascii "n") then ascii "# " ++ config ++ ascii " is not set\n"
    else config ++ ascii "=" ++ (kconfig.lookup config).getD [] ++ ascii "\n"

/-- `gen_kconfig_overrides`: nothing is printed if a file cannot be opened. -/
def genKconfigOverrides (pkginfo cfgfile : Option Text) (patchver : Option Text) : Text :=
  match cfgfile, pkginfo with
  | some cfgfile, some pkginfo => printOverrides (kconfigOverrides pkginfo cfgfile patchver)
  | _, _ => []

/-! ### The order of a menu -/

/-- A package, as the order of a menu sees it; `submenu` is empty where there is none. -/
structure Pkg where
  name : Text
  submenu : Text
  depends : List Text
  deriving Repr, DecidableEq

variable (vpackage : List (Text × List Pkg))

/-- The packages that the two loops of `__find_package_dep` come to, in order. -/
def vdeps (pkg : Pkg) : List Pkg :=
  pkg.depends.flatMap fun vpkg => (vpackage.lookup vpkg).getD []

/-- What is left of the two loops, with `%dep_check`; `find` is the call inside them. -/
def searchDeps (find : Pkg → List Text → Option (Bool × List Text)) (name : Text) :
    List Pkg → List Text → Option (Bool × List Text)
  | [], depCheck => some (false, depCheck)
  | dep :: deps, depCheck =>
    if dep.name ∈ depCheck then searchDeps find name deps depCheck
    else if dep.name = name then some (true, dep.name :: depCheck)
    else
      match find dep (dep.name :: depCheck) with
      | none => none
      | some (true, depCheck) => some (true, depCheck)
      | some (false, depCheck) => searchDeps find name deps depCheck

/-- `__find_package_dep`, if it takes less than `fuel` calls inside each other -/
def findPackageDepFrom (name : Text) : Nat → Pkg → List Text → Option (Bool × List Text)
  | 0, _, _ => none
  | fuel + 1, pkg, depCheck =>
    searchDeps (findPackageDepFrom name fuel) name (vdeps vpackage pkg) depCheck

/-- `find_package_dep`; there are no more calls inside each other than packages. -/
def findPackageDep (pkg : Pkg) (name : Text) : Option Bool :=
  (findPackageDepFrom vpackage name ((vpackage.flatMap Prod.snd).length + 1) pkg []).map Prod.fst

/-- `package_depends` -/
def packageDepends (a b : Pkg) : Int :=
  if a.submenu ≠ b.submenu then 0
  else if findPackageDep vpackage a b.name = some true then 1
  else if findPackageDep vpackage b a.name = some true then -1
  else 0

/-- `cmp` -/
def cmp (a b : Text) : Int := if a < b then -1 else if b < a then 1 else 0

/-- How `print_package_config_category` compares the packages of a menu. -/
def menuCmp (a b : Pkg) : Int :=
  if packageDepends vpackage a b ≠ 0 then packageDepends vpackage a b else cmp a.name b.name

end HandsomeMod.Native.PackageMetadata

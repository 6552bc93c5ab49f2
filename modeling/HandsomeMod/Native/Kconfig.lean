import HandsomeMod.ForStd.Assoc
import HandsomeMod.ForStd.CText
import HandsomeMod.ForStd.Separators

/-!
# `kconfig.pl`

Embeds `kconfig.pl` without the options `-n` and `-p`. A hash is an association list with distinct
keys. Whether `/^$expr$/` matches a symbol is told by `re`, or none if Perl refuses the expression.
-/

namespace HandsomeMod.Native.Kconfig

open ForStd

abbrev Text := List UInt8

/-- Symbols and their values. -/
abbrev Config := List (Text × Text)

/-- `$PREFIX` -/
def configPrefix : Text := ascii "CONFIG_"

/-- The value of a symbol that is not set. -/
def undef : Text := ascii "#undef"

/-- What is behind the name in the line of a symbol that is not set. -/
def notSet : Text := ascii " is not set"

/-- `set_config` -/
def setConfig (config : Config) (idx newval : Text) (modPlus : Bool) : Config :=
  match config.lookup idx with
  | none => Assoc.put idx newval config
  | some val =>
    if ¬modPlus ∨ val = undef ∨ newval = ascii "y" then Assoc.put idx newval config else config

/-- What is behind a string at the start of a line. -/
def behind (start line : Text) : Option Text :=
  if start.isPrefixOf line then some (line.drop start.length) else none

/-- `/^$PREFIX(.+?)=(.+)/` -/
def matchSet (line : Text) : Option (Text × Text) :=
  (behind configPrefix line).bind (lazySplit (ascii "=") fun val => !val.isEmpty)

/-- `/^# $PREFIX(.+?) is not set/` -/
def matchNotSet (line : Text) : Option Text :=
  ((behind (ascii "# " ++ configPrefix) line).bind (lazySplit notSet fun _ => true)).map Prod.fst

/-- The symbol that a line sets. -/
def loadLine (line : Text) : Option (Text × Text) :=
  match matchSet line with
  | some (name, val) => some (name, val)
  | none => (matchNotSet line).map fun name => (name, undef)

/-- One turn of the loop of `load_config` -/
def loadNext (modPlus : Bool) (config : Config) (line : Text) : Config :=
  match loadLine line with
  | some (name, val) => setConfig config name val modPlus
  | none => config

/-- `load_config` of a file with this content -/
def loadConfig (file : Text) (modPlus : Bool) : Config :=
  (file.splitOn 10).foldl (loadNext modPlus) []

/-- A value is true for Perl. -/
def truthy (val : Option Text) : Bool :=
  match val with
  | none => false
  | some val => val ≠ [] ∧ val ≠ ascii "0"

/-- `config_and` -/
def configAnd (cfg1 cfg2 : Config) : Config :=
  cfg1.filter fun p => truthy (cfg2.lookup p.1) && cfg2.lookup p.1 == some p.2

/-- `config_add` -/
def configAdd (cfg1 cfg2 : Config) (modPlus : Bool) : Config :=
  (cfg1 ++ cfg2).foldl (fun config p =>
    if modPlus ∧ truthy (config.lookup p.1) ∧
        (config.lookup p.1 = some (ascii "y") ∨ p.2 = undef) then config
    else Assoc.put p.1 p.2 config) []

/-- `config_diff` -/
def configDiff (cfg1 cfg2 : Config) (newOnly : Bool) : Config :=
  cfg2.filter fun p =>
    cfg1.lookup p.1 != some p.2 && !(newOnly && cfg1.lookup p.1 == none && p.2 == undef)

/-- The expression is no plain symbol. -/
def isPattern (expr : Text) : Bool := expr.any (· ∈ ascii "?.*")

variable (re : Text → Text → Option Bool)

/-- The symbols that an expression takes away. -/
def matching (config : Config) (expr : Text) : Option (List Text) :=
  if isPattern expr then
    let keys := Assoc.keys config
    if keys.any fun key => re expr key == none then none
    else some (keys.filter fun key => re expr key == some true)
  else some [expr]

/-- `config_sub` -/
def configSub (cfg1 cfg2 : Config) : Option Config := do
  let keys ← (Assoc.keys cfg2).mapM (matching re cfg1)
  return keys.flatten.foldl (fun config key => Assoc.del key config) cfg1

/-- `print_cfgline` -/
def printCfgline (name val : Text) : Text :=
  if val = undef ∨ val = ascii "n" then ascii "# " ++ configPrefix ++ name ++ notSet
  else configPrefix ++ name ++ ascii "=" ++ val

/-- `dump_config` -/
def dumpConfig (config : Config) : Text :=
  ((Assoc.keys config).mergeSort fun a b => decide (a ≤ b)).flatMap fun name =>
    printCfgline name ((config.lookup name).getD []) ++ [10]

/-- `parse_expr` of the arguments from `$pos` on, with the files that they name; none for a parse
    error. -/
def parseExpr (file : Text → Text) : Nat → List Text → Bool → Option (Config × List Text)
  | 0, _, _ => none
  | _ + 1, [], _ => none
  | fuel + 1, arg :: args, modPlus =>
    if ¬truthy (some arg) then none
    else if arg = ascii "&" then do
      let (arg1, args) ← parseExpr file fuel args false
      let (arg2, args) ← parseExpr file fuel args false
      return (configAnd arg1 arg2, args)
    else if (ascii "+").isPrefixOf arg then do
      let (arg1, args) ← parseExpr file fuel args false
      let (arg2, args) ← parseExpr file fuel args false
      return (configAdd arg1 arg2 false, args)
    else if (ascii "m+").isPrefixOf arg then do
      let (arg1, args) ← parseExpr file fuel args false
      -- only the second operand of `m+` is loaded with `mod_plus`
      let (arg2, args) ← parseExpr file fuel args true
      return (configAdd arg1 arg2 true, args)
    else if arg = ascii ">" then do
      let (arg1, args) ← parseExpr file fuel args false
      let (arg2, args) ← parseExpr file fuel args false
      return (configDiff arg1 arg2 false, args)
    else if arg = ascii ">+" then do
      let (arg1, args) ← parseExpr file fuel args false
      let (arg2, args) ← parseExpr file fuel args false
      return (configDiff arg1 arg2 true, args)
    else if arg = ascii "-" then do
      let (arg1, args) ← parseExpr file fuel args false
      let (arg2, args) ← parseExpr file fuel args false
      return (← configSub re arg1 arg2, args)
    -- a file name
    else some (loadConfig (file arg) modPlus, args)

/-- What is printed for the arguments, if it does not end with an error. -/
def main (file : Text → Text) (args : List Text) : Option Text := do
  let (config, rest) ← parseExpr re file args.length args false
  if truthy rest.head? then none else some (dumpConfig config)

end HandsomeMod.Native.Kconfig

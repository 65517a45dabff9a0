import Petscii.Screen
import Petscii.Source.Token
import Petscii.Text.Numeral
/-!
# Command line options

An option starts with one or two dashes. A switch is on when it is named, or has its value behind an equals
sign; any other option takes its value from behind an equals sign or from the next argument. Options end at
the first argument that is none, at a single dash, and behind a double dash.
-/

namespace Petscii.Command

structure Options where
  generateCode : Bool := false
  pingPong : Bool := false
  first : Int := -1
  last : Int := -1
  outputBin : String := ""
  startAddr : String := ""
  separateFrames : Bool := false
  xorPrevious : Bool := false
  exportC : Bool := false
  output : String := ""
  verbose : Bool := false
  quiet : Bool := false
  name : String := "petscii"
  screen : String := "ANIMATIONSCREEN"
  colorRam : String := "$D800"
  borderReg : String := "$D020"
  backgroundReg : String := "$D021"
  deriving DecidableEq, Repr

/-- What an option changes, and the kind of value it takes. -/
inductive Setter where
  | switch (set : Bool → Options → Options)
  | number (set : Int → Options → Options)
  | text (set : String → Options → Options)

structure Flag where
  name : String
  setter : Setter
  help : String
  /-- The value that stands without the option, as the usage shows it. -/
  default : String := ""

def flags : List Flag :=
  [⟨"background-reg", .text fun v o => { o with backgroundReg := v },
      "Background colour register", "\"$D021\""⟩,
    ⟨"border-reg", .text fun v o => { o with borderReg := v }, "Border colour register", "\"$D020\""⟩,
    ⟨"color-ram", .text fun v o => { o with colorRam := v }, "Colour RAM address", "\"$D800\""⟩,
    ⟨"export-c", .switch fun v o => { o with exportC := v },
      "Write the selected frames back as C source", ""⟩,
    ⟨"first", .number fun v o => { o with first := v }, "First frame to keep (0-based)", "-1"⟩,
    ⟨"generate-code", .switch fun v o => { o with generateCode := v },
      "Compile a self-contained animation program", ""⟩,
    ⟨"last", .number fun v o => { o with last := v }, "Last frame to keep (0-based, inclusive)", "-1"⟩,
    ⟨"name", .text fun v o => { o with name := v }, "Label prefix in compiled mode", "\"petscii\""⟩,
    ⟨"o", .text fun v o => { o with output := v }, "Output file (default stdout)", ""⟩,
    ⟨"output-bin", .text fun v o => { o with outputBin := v },
      "Write binary frame images to this file", ""⟩,
    ⟨"ping-pong", .switch fun v o => { o with pingPong := v },
      "Also generate the reverse transitions (animation mode)", ""⟩,
    ⟨"q", .switch fun v o => { o with quiet := v }, "No logging", ""⟩,
    ⟨"screen", .text fun v o => { o with screen := v },
      "Imported symbol of the screen RAM", "\"ANIMATIONSCREEN\""⟩,
    ⟨"separate-frames", .switch fun v o => { o with separateFrames := v },
      "Write one binary file per frame", ""⟩,
    ⟨"start-addr", .text fun v o => { o with startAddr := v },
      "Prepend a start address to the binary file (hex or decimal)", ""⟩,
    ⟨"v", .switch fun v o => { o with verbose := v }, "Debug logging", ""⟩,
    ⟨"xor-previous", .switch fun v o => { o with xorPrevious := v },
      "XOR every binary frame with the previous one", ""⟩]

def Setter.kind : Setter → String
  | .switch _ => ""
  | .number _ => " int"
  | .text _ => " string"

/-- An option in the usage. A name of one letter leaves room for the description on its line. -/
def Flag.usage (f : Flag) : String :=
  let head := "  -" ++ f.name ++ f.setter.kind
  head ++ (if head.length ≤ 4 then "\t" else "\n    \t") ++ f.help ++
    (if f.default = "" then "" else " (default " ++ f.default ++ ")") ++ "\n"

def usage : String :=
  "Usage: petsciiconvert [-generate-code [-name petscii] | -output-bin file [-separate-frames] " ++
    "[-xor-previous] [-start-addr $0801] | -export-c] [-ping-pong] [-first n] [-last n] [-o out] [file]\n" ++
    String.join (flags.map Flag.usage)

inductive FlagError where
  | malformed (argument : String)
  | undefined (name : String)
  | needsArgument (name : String)
  | badSwitch (value name : String)
  | badNumber (value name : String) (fault : Numeral.Fault)
  deriving DecidableEq, Repr

def FlagError.message : FlagError → String
  | .malformed argument => "bad flag syntax: " ++ argument
  | .undefined name => "flag provided but not defined: -" ++ name
  | .needsArgument name => "flag needs an argument: -" ++ name
  | .badSwitch value name =>
    "invalid boolean value " ++ Quoted.text value ++ " for -" ++ name ++ ": parse error"
  | .badNumber value name fault =>
    "invalid value " ++ Quoted.text value ++ " for flag -" ++ name ++
      match fault with
      | .malformed => ": parse error"
      | .outOfRange => ": value out of range"

/-- The options are not carried out: the usage was asked for, or there is an error. -/
inductive Refusal where
  | help
  | error (e : FlagError)
  deriving DecidableEq, Repr

inductive Argument where
  | operand
  | endOfOptions
  | malformed
  | option (name : String) (value : Option String)
  deriving DecidableEq, Repr

/-- An option's name, and its value if there is an equals sign. -/
def Argument.ofBody : List Char → Argument
  | [] => .malformed
  | '-' :: _ => .malformed
  | '=' :: _ => .malformed
  | body =>
    .option (String.ofList (body.takeWhile (· ≠ '=')))
      (match body.dropWhile (· ≠ '=') with
        | [] => none
        | _ :: value => some (String.ofList value))

def Argument.read (argument : String) : Argument :=
  match argument.toList with
  | ['-', '-'] => .endOfOptions
  | '-' :: '-' :: body => .ofBody body
  | '-' :: c :: body => .ofBody (c :: body)
  | _ => .operand

def switchValue (text : String) : Option Bool :=
  if text ∈ ["1", "t", "T", "true", "TRUE", "True"] then some true
  else if text ∈ ["0", "f", "F", "false", "FALSE", "False"] then some false
  else none

def Flag.set (f : Flag) (value : String) (o : Options) : Except FlagError Options :=
  match f.setter with
  | .switch set =>
    match switchValue value with
    | some v => .ok (set v o)
    | none => .error (.badSwitch value f.name)
  | .number set =>
    match Numeral.signed value with
    | .ok v => .ok (set v o)
    | .error fault => .error (.badNumber value f.name fault)
  | .text set => .ok (set value o)

def Setter.isSwitch : Setter → Bool
  | .switch _ => true
  | _ => false

/-- Read options from the front of the arguments, and give the arguments behind them. -/
def Options.read (o : Options) : List String → Except Refusal (Options × List String)
  | [] => .ok (o, [])
  | argument :: rest =>
    match Argument.read argument with
    | .operand => .ok (o, argument :: rest)
    | .endOfOptions => .ok (o, rest)
    | .malformed => .error (.error (.malformed argument))
    | .option name value =>
      match flags.find? fun f => f.name = name with
      | none =>
        if name = "help" ∨ name = "h" then .error .help else .error (.error (.undefined name))
      | some flag =>
        match value with
        | some v => do
          let o' ← (flag.set v o).mapError .error
          o'.read rest
        | none =>
          if flag.setter.isSwitch then do
            let o' ← (flag.set "true" o).mapError .error
            o'.read rest
          else
            match rest with
            | [] => .error (.error (.needsArgument name))
            | v :: rest => do
              let o' ← (flag.set v o).mapError .error
              o'.read rest

inductive UsageError where
  | severalFiles
  | severalModes
  | needsOutputBin
  | verboseAndQuiet
  deriving DecidableEq, Repr

def UsageError.message : UsageError → String
  | .severalFiles => "usage error: more than one input file"
  | .severalModes => "usage error: -generate-code, -output-bin and -export-c are mutually exclusive"
  | .needsOutputBin => "usage error: -separate-frames, -xor-previous and -start-addr need -output-bin"
  | .verboseAndQuiet => "usage error: -v and -q are mutually exclusive"

/-- Check that the options go together, with `operands` arguments behind them. -/
def Options.validate (o : Options) (operands : Nat) : Except UsageError Unit :=
  let modes := [o.generateCode, o.outputBin != "", o.exportC].count true
  if 1 < operands then .error .severalFiles
  else if 1 < modes then .error .severalModes
  else if o.outputBin = "" ∧ (o.separateFrames ∨ o.xorPrevious ∨ o.startAddr ≠ "") then
    .error .needsOutputBin
  else if o.verbose ∧ o.quiet then .error .verboseAndQuiet
  else .ok ()

inductive TargetError where
  | badName (name : String)
  | badScreen (screen : String)
  | badAddress (flag : String) (e : Numeral.Error)
  deriving DecidableEq, Repr

def TargetError.message : TargetError → String
  | .badName name => "invalid animation name " ++ Quoted.text name
  | .badScreen screen => "invalid screen symbol " ++ Quoted.text screen
  | .badAddress flag e => "-" ++ flag ++ ": " ++ e.message

def Options.target (o : Options) : Except TargetError Target := do
  if !Source.isName o.name then throw (.badName o.name)
  if !Source.isName o.screen then throw (.badScreen o.screen)
  let colorRam ← (Numeral.readAddress o.colorRam).mapError (.badAddress "color-ram")
  let borderRegister ← (Numeral.readAddress o.borderReg).mapError (.badAddress "border-reg")
  let backgroundRegister ← (Numeral.readAddress o.backgroundReg).mapError (.badAddress "background-reg")
  return { screen := o.screen, name := o.name, colorRam, borderRegister, backgroundRegister }

end Petscii.Command

import BlockPress.Shell.Request
import BlockPress.Standard
import BlockPress.Text.Digits

/-!
# Command lines

A command line is a verb with its options and its one operand, the input path.  Words are read from
left to right:

* a long option is two dashes and a name, with a value behind an equals sign or in the next word;
* short options are a dash and letters, which may stand together; the value of the last one follows
  at once, behind an equals sign, or in the next word;
* a value in a word of its own does not look like an option, though a dash alone may be one;
* two dashes alone end the options;
* an option stands at most once, but for the one that makes the program tell more, which may be
  repeated and may stand before the verb.

Asking for help or for the version by an option ends the reading at once; a word that makes no sense
ends it too, so what is asked for depends on which comes first.  In place of the verb the word `help`
asks for help as well, and then the words behind it are read: there may be one, and it names what the
help is about.
-/

namespace BlockPress.Shell

open scoped Standard

/-- What can be done with a file. -/
inductive Verb where
  | compress
  | decompress
  | test
  | info
deriving DecidableEq, Repr

/-- An option behind a verb. -/
inductive Setting where
  /-- Where to write. -/
  | output
  /-- The block size in units of 1024 bytes. -/
  | blockSize
  /-- Leave out the checksums of blocks. -/
  | noChecksum
  /-- Overwrite a file. -/
  | force
  /-- Draw no progress bar. -/
  | noProgress
  /-- Answer as JSON. -/
  | json
  /-- Tell more. -/
  | verbose
deriving DecidableEq, Repr

/-- Why a command line is refused. -/
inductive ArgumentFault where
  /-- A word has no meaning where it stands. -/
  | unexpected (word : String)
  /-- An option or the operand has no value. -/
  | missingValue (name : String)
  /-- A value is not one that the option can have. -/
  | badValue (name value : String)
  /-- An option stands twice. -/
  | repeated (name : String)
  /-- The input path is missing. -/
  | missingInput
  /-- The verb is missing. -/
  | missingVerb
deriving DecidableEq, Repr

/-- The text of a fault. -/
def ArgumentFault.message : ArgumentFault → String
  | unexpected word => s!"unexpected argument '{word}' found"
  | missingValue name => s!"a value is required for '{name}' but none was supplied"
  | badValue name value => s!"invalid value '{value}' for '{name}'"
  | repeated name => s!"the argument '{name}' cannot be used multiple times"
  | missingInput => "the input path was not provided"
  | missingVerb => "a subcommand is required but one was not provided"

/-- Why the reading of a command line ends without a request. -/
inductive Stop where
  /-- Help was asked for. -/
  | help
  /-- The version was asked for. -/
  | version
  /-- The command line is refused. -/
  | refused (fault : ArgumentFault)
deriving DecidableEq, Repr

namespace Verb

/-- The verb that a word names, in full or by its first letter. -/
def ofWord? : String → Option Verb
  | "compress" | "c" => some .compress
  | "decompress" | "d" => some .decompress
  | "test" | "t" => some .test
  | "info" | "i" => some .info
  | _ => none

/-- The options that a verb has. -/
def settings : Verb → List Setting
  | compress => [.output, .blockSize, .noChecksum, .force, .noProgress, .verbose]
  | decompress => [.output, .force, .noProgress, .verbose]
  | test => [.verbose]
  | info => [.json, .verbose]

end Verb

namespace Setting

/-- The long name. -/
def long : Setting → String
  | output => "output"
  | blockSize => "block-size"
  | noChecksum => "no-checksum"
  | force => "force"
  | noProgress => "no-progress"
  | json => "json"
  | verbose => "verbose"

/-- The letter, if there is one. -/
def short? : Setting → Option Char
  | output => some 'o'
  | blockSize => some 'b'
  | noChecksum => none
  | force => some 'f'
  | noProgress => none
  | json => some 'j'
  | verbose => some 'v'

/-- Whether a value follows. -/
def takesValue : Setting → Bool
  | output | blockSize => true
  | _ => false

/-- The name in messages. -/
def name (s : Setting) : String := "--" ++ s.long

end Setting

/-- What the word `help` asks about. -/
inductive Topic where
  /-- The program, as long as no verb has been named. -/
  | program
  /-- One verb, or asking for help itself. -/
  | verb
deriving DecidableEq, Repr

/-- A command line that was read in part. -/
structure Draft where
  /-- What help is asked about. -/
  topic : Option Topic := none
  /-- The verb. -/
  verb : Option Verb := none
  /-- The input path. -/
  input : Option String := none
  /-- The output path. -/
  output : Option String := none
  /-- The block size in units of 1024 bytes. -/
  blockSize : Option Nat := none
  /-- The options without a value, apart from those that may be repeated. -/
  marks : List Setting := []
  /-- The option whose value the next word is. -/
  waiting : Option Setting := none
  /-- Whether the options have ended. -/
  literal : Bool := false
deriving DecidableEq, Repr

namespace Draft

/-- The greatest number that a command line may hold. -/
def maxNumber : Nat := 2 ^ (64 : Nat) - 1

/-- Whether a word looks like an option. -/
def isOption (word : String) : Bool :=
  match word.toList with
  | '-' :: _ :: _ => true
  | _ => false

/-- Refuses the command line. -/
def refuse {α : Type} (fault : ArgumentFault) : Except Stop α := .error (.refused fault)

/-- Gives an option its value. -/
def give (s : Setting) (value : String) (d : Draft) : Except Stop Draft :=
  match s with
  | .output =>
    if d.output.isSome then refuse (.repeated s.name)
    else if value.isEmpty then refuse (.missingValue s.name)
    else .ok { d with output := some value }
  | .blockSize =>
    if d.blockSize.isSome then refuse (.repeated s.name)
    else
      match Digits.parse? maxNumber value with
      | some n => .ok { d with blockSize := some n }
      | none => refuse (.badValue s.name value)
  | _ => refuse (.badValue s.name value)

/-- Sets an option without a value. -/
def mark (s : Setting) (d : Draft) : Except Stop Draft :=
  if s = .verbose then .ok d
  else if s ∈ d.marks then refuse (.repeated s.name)
  else .ok { d with marks := s :: d.marks }

/-- Takes the operand. -/
def operand (word : String) (d : Draft) : Except Stop Draft :=
  if d.input.isSome then refuse (.unexpected word)
  else if word.isEmpty then refuse (.missingValue "<INPUT>")
  else .ok { d with input := some word }

/-- Takes a long option, given the text behind the dashes. -/
def takeLong (v : Verb) (word : String) (d : Draft) : Except Stop Draft :=
  let chars := word.toList.drop 2
  let name := String.ofList (chars.takeWhile (· ≠ '='))
  let value? : Option String := match chars.dropWhile (· ≠ '=') with
    | _ :: value => some (String.ofList value)
    | [] => none
  match v.settings.find? (·.long = name), value? with
  | some s, some value =>
    if s.takesValue then d.give s value else refuse (.badValue s.name value)
  | some s, none => if s.takesValue then .ok { d with waiting := some s } else d.mark s
  | none, none => if name = "help" then .error .help else refuse (.unexpected word)
  | none, some _ => refuse (.unexpected word)

/-- Takes short options, given the letters from one of them on. -/
def takeShort (v : Verb) (word : String) : List Char → Draft → Except Stop Draft
  | [], d => .ok d
  | c :: rest, d =>
    match v.settings.find? (·.short? = some c) with
    | some s =>
      if s.takesValue then
        match rest with
        | [] => .ok { d with waiting := some s }
        | '=' :: value => d.give s (String.ofList value)
        | value => d.give s (String.ofList value)
      else
        match d.mark s with
        | .ok d => takeShort v word rest d
        | .error stop => .error stop
    | none => if c = 'h' then .error .help else refuse (.unexpected word)

/-- Takes a word behind the verb. -/
def takeWord (v : Verb) (word : String) (d : Draft) : Except Stop Draft :=
  match d.waiting with
  | some s =>
    if isOption word then refuse (.missingValue s.name)
    else { d with waiting := none }.give s word
  | none =>
    if d.literal then d.operand word
    else if word = "--" then .ok { d with literal := true }
    else
      match word.toList with
      | '-' :: '-' :: _ => d.takeLong v word
      | '-' :: c :: rest => d.takeShort v word (c :: rest)
      | _ => d.operand word

/-- Takes short options before the verb, given the letters from one of them on. -/
def leadShort (word : String) : List Char → Draft → Except Stop Draft
  | [], d => .ok d
  | c :: rest, d =>
    if c = 'v' then leadShort word rest d
    else if c = 'V' then .error .version
    else if c = 'h' then .error .help
    else refuse (.unexpected word)

/-- The word that asks for help in place of a verb. -/
def helpWord : String := "help"

/-- Takes a word before the verb, or the verb. -/
def lead (word : String) (d : Draft) : Except Stop Draft :=
  match Verb.ofWord? word with
  | some v => .ok { d with verb := some v }
  | none =>
    if word = "--verbose" then .ok d
    else if word = "--version" then .error .version
    else if word = "--help" then .error .help
    else if word = helpWord then .ok { d with topic := some .program }
    else
      match word.toList with
      | '-' :: c :: rest =>
        if c = '-' then refuse (.unexpected word) else leadShort word (c :: rest) d
      | _ => refuse (.unexpected word)

/-- Takes a word behind the one that asks for help: a verb or that word again, and nothing more. -/
def takeTopic (t : Topic) (word : String) (d : Draft) : Except Stop Draft :=
  match t with
  | .program =>
    if (Verb.ofWord? word).isSome ∨ word = helpWord then .ok { d with topic := some .verb }
    else refuse (.unexpected word)
  | .verb => refuse (.unexpected word)

/-- Takes a word. -/
def take (d : Draft) (word : String) : Except Stop Draft :=
  match d.topic, d.verb with
  | some t, _ => d.takeTopic t word
  | none, none => d.lead word
  | none, some v => d.takeWord v word

/-- The block size in bytes, held down to the greatest number there is. -/
def bytesOfUnits (units : Nat) : Nat := min (units * 1024) maxNumber

/-- The request of a command line that was read to its end. -/
def finish (d : Draft) : Except Stop Request :=
  match d.topic, d.verb, d.waiting, d.input with
  | some _, _, _, _ => .error .help
  | none, none, _, _ => refuse .missingVerb
  | none, some _, some s, _ => refuse (.missingValue s.name)
  | none, some _, none, none => refuse .missingInput
  | none, some v, none, some input =>
    let force := decide (Setting.force ∈ d.marks)
    let standard : Config := {}
    .ok (match v with
      | .compress =>
        .compress {
          input, force
          output := d.output
          config := {
            blockSize := (d.blockSize.map bytesOfUnits).getD standard.blockSize
            checksum := decide (Setting.noChecksum ∉ d.marks) } }
      | .decompress => .decompress { input, force, output := d.output }
      | .test => .test input
      | .info => .info input (decide (Setting.json ∈ d.marks)))

end Draft

namespace Request

/-- The request of a command line. -/
def ofWords (words : List String) : Except Stop Request :=
  match words.foldlM Draft.take {} with
  | .ok d => d.finish
  | .error stop => .error stop

end Request

end BlockPress.Shell

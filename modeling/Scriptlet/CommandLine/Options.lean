import Scriptlet.Text.DecimalDigit
import Scriptlet.Text.Quoted

/-!
# Options

How the arguments of the command line are understood.  Arguments are first sorted into options and
operands, then taken from left to right.  Operands must stand together: those that follow an option
after earlier operands are not recognised.
-/

namespace Scriptlet.CommandLine

/-- An option. -/
inductive Flag
  | help | verbose | check
deriving DecidableEq

namespace Flag

/-- Every option with its spellings, in the order in which they are compared. -/
def spellings : List (String × Flag) :=
  [("-h", help), ("--help", help), ("-v", verbose), ("--check", check)]

/-- The option spelt exactly so. -/
def ofSpelling? (s : String) : Option Flag := spellings.lookup s

/-- An option as messages name it. -/
def name : Flag → String
  | help => "-h/--help"
  | verbose => "-v"
  | check => "--check"

end Flag

/-- What one argument is. -/
inductive Arg
  /-- The name of a file. -/
  | operand
  /-- The mark that ends the options. -/
  | terminator
  /-- An option, how it is spelt, and what is attached to it. -/
  | option (flag : Flag) (long : Bool) (attached : Option String)
  /-- An option that does not exist. -/
  | unknown
deriving DecidableEq

/-- What the arguments ask for. -/
structure Options where
  /-- How much is traced. -/
  verbosity : Nat := 0
  /-- Whether the program is only checked. -/
  checkOnly : Bool := false
  /-- The file. -/
  file : String := ""

/-- What can be wrong with arguments. -/
inductive UsageError
  /-- A shortened option that several options start with. -/
  | ambiguous (text : String) (candidates : List String)
  /-- A text attached to an option that takes none. -/
  | attached (flag : Flag) (text : String)
  /-- Arguments that nothing is known about. -/
  | unrecognised (texts : List String)
  /-- There is no operand. -/
  | noFile
  /-- There is more than one operand. -/
  | severalFiles
deriving DecidableEq

/-- The wording of a complaint about arguments. -/
def UsageError.message : UsageError → String
  | ambiguous text candidates =>
    "ambiguous option: " ++ text ++ " could match " ++ ", ".intercalate candidates
  | attached flag text =>
    "argument " ++ flag.name ++ ": ignored explicit argument " ++ Text.Quoted.quote text
  | unrecognised texts => "unrecognized arguments: " ++ " ".intercalate texts
  | noFile => "pass path to kotlin file as argument"
  | severalFiles => "too many arguments"

/-- Why the program does not go on to a file. -/
inductive Refusal
  /-- Help was asked for. -/
  | help
  /-- The arguments are wrong. -/
  | usage (error : UsageError)
deriving DecidableEq

/-! ## Sorting arguments -/

/-- A text without the line feed at its end, if there is one. -/
def dropFinalNewline (cs : List Char) : List Char :=
  if cs.getLast? = some '\n' then cs.dropLast else cs

/-- Whether a text is a decimal number without a sign: digits, at least one of them behind the
point if there is a point. -/
def isDecimal (cs : List Char) : Bool :=
  match cs.dropWhile Text.isDecimalDigit with
  | [] => cs ≠ []
  | '.' :: fraction => fraction ≠ [] && fraction.all Text.isDecimalDigit
  | _ => false

/-- Whether an argument looks like a negative number.  A line feed at its end does no harm. -/
def isNegativeNumber : List Char → Bool
  | '-' :: cs => isDecimal (dropFinalNewline cs)
  | _ => false

/-- Cuts a text at its first equals sign. -/
def splitAtEquals (cs : List Char) : List Char × Option (List Char) :=
  match cs.dropWhile (· ≠ '=') with
  | _ :: rest => (cs.takeWhile (· ≠ '='), some rest)
  | [] => (cs, none)

/-- The options that a text starting with a dash may stand for: for `--` those whose spelling it
starts, for `-` the one of its first letter, to which the other letters are attached. -/
def candidates (cs : List Char) : List (String × Arg) :=
  match cs with
  | '-' :: '-' :: _ =>
    let (start, attached) := splitAtEquals cs
    Flag.spellings.filterMap fun (s, f) =>
      if start.isPrefixOf s.toList then
        some (s, .option f true (attached.map String.ofList))
      else none
  | '-' :: c :: rest =>
    Flag.spellings.filterMap fun (s, f) =>
      if s = String.ofList ['-', c] then some (s, .option f false (some (String.ofList rest)))
      else none
  | _ => []

/-- Sorts one argument that starts with a dash and more. -/
def classifyDashed (text : String) : Except Refusal Arg :=
  let cs := text.toList
  match Flag.ofSpelling? text with
  | some f => .ok (.option f (cs.take 2 == ['-', '-']) none)
  | none =>
    -- Next in line is a full spelling before an equals sign, and only then a shortened one.
    let (start, attached) := splitAtEquals cs
    match attached, Flag.ofSpelling? (String.ofList start) with
    | some a, some f => .ok (.option f (cs.take 2 == ['-', '-']) (some (String.ofList a)))
    | _, _ =>
      match candidates cs with
      | [] =>
        -- What looks like a number, or holds a space, is meant as an operand.
        if isNegativeNumber cs || cs.contains ' ' then .ok .operand else .ok .unknown
      | [(_, arg)] => .ok arg
      | several => .error (.usage (.ambiguous text (several.map Prod.fst)))

/-- Sorts one argument. -/
def classify (text : String) : Except Refusal Arg :=
  match text.toList with
  | '-' :: _ :: _ => classifyDashed text
  | _ => .ok .operand

/-- Sorts the arguments; behind the mark that ends the options all are operands. -/
def classifyAll : List String → Except Refusal (List (String × Arg))
  | [] => .ok []
  | text :: rest =>
    if text = "--" then .ok ((text, .terminator) :: rest.map fun t => (t, .operand))
    else do
      let arg ← classify text
      return (text, arg) :: (← classifyAll rest)

/-! ## Taking arguments -/

/-- What was taken so far. -/
structure Taken where
  /-- How often more tracing was asked for. -/
  verbosity : Nat := 0
  /-- Whether only checking was asked for. -/
  checkOnly : Bool := false
  /-- The operands, once a group of them was taken. -/
  operands : Option (List String) := none
  /-- What was not recognised. -/
  unrecognised : List String := []

/-- The options in a group of letters behind one dash. -/
def cluster (f : Flag) : List Char → Except Refusal (List Flag)
  | [] => .ok [f]
  | c :: cs =>
    match Flag.ofSpelling? (String.ofList ['-', c]) with
    | some g => (cluster g cs).map (f :: ·)
    | none => .error (.usage (.attached f (String.ofList (c :: cs))))

/-- The options that one argument stands for. -/
def flags (f : Flag) (long : Bool) : Option String → Except Refusal (List Flag)
  | none => .ok [f]
  | some attached =>
    if long || attached.isEmpty then .error (.usage (.attached f attached))
    else cluster f attached.toList

/-- Takes an option. -/
def Taken.apply (t : Taken) : Flag → Except Refusal Taken
  | .help => .error .help
  | .verbose => .ok { t with verbosity := t.verbosity + 1 }
  | .check => .ok { t with checkOnly := true }

/-- Takes a group of operands, of which the first mark that ends the options is left out. -/
def Taken.group (t : Taken) (group : List String) : Taken :=
  match t.operands with
  | none => { t with operands := some (group.erase "--") }
  | some _ => { t with unrecognised := t.unrecognised ++ group }

/-- Takes the arguments from left to right; `group` holds the operands since the last option. -/
def take (t : Taken) (group : List String) : List (String × Arg) → Except Refusal Taken
  | [] => .ok (if group = [] then t else t.group group)
  | (text, arg) :: rest =>
    match arg with
    | .operand | .terminator => take t (group ++ [text]) rest
    | .option f long attached => do
      let t := if group = [] then t else t.group group
      -- A group of letters must be right as a whole before any of its options counts.
      let t ← (← flags f long attached).foldlM Taken.apply t
      take t [] rest
    | .unknown =>
      let t := if group = [] then t else t.group group
      take { t with unrecognised := t.unrecognised ++ [text] } [] rest

/-- What the arguments ask for, once they are taken. -/
def Taken.options (t : Taken) : Except Refusal Options :=
  if t.unrecognised ≠ [] then .error (.usage (.unrecognised t.unrecognised))
  else match t.operands.getD [] with
    | [] => .error (.usage .noFile)
    | [file] => .ok { verbosity := t.verbosity, checkOnly := t.checkOnly, file }
    | _ => .error (.usage .severalFiles)

/-- Understands the arguments. -/
def Options.ofArgs (args : List String) : Except Refusal Options := do
  let sorted ← classifyAll args
  let t ← take {} [] sorted
  t.options

end Scriptlet.CommandLine

import OptimalPlans.Number.Numeral

/-!
# Command lines

The grammar of the command line.  Long options may be shortened to a prefix that is
not ambiguous, a value follows its option or is joined to it, short options can be
bundled, and everything behind a double dash is an operand.  One operand is needed:
the kind of the problem.
-/

namespace OptimalPlans.CommandLine

inductive Flag where
  | help
  | input
  | method
  | describe
  | limit
  | tolerance
  | verbose
deriving DecidableEq, Repr

def Flag.takesValue : Flag → Bool
  | input | method | limit | tolerance => true
  | help | describe | verbose => false

/-- The spellings of the options. -/
def spellings : List (String × Flag) :=
  [("-h", .help), ("--help", .help), ("-i", .input), ("--input", .input),
   ("-m", .method), ("--method", .method), ("--describe", .describe),
   ("--max-iter", .limit), ("--tolerance", .tolerance),
   ("-v", .verbose), ("--verbose", .verbose)]

def flag? (spelling : String) : Option Flag :=
  List.lookup spelling spellings

/-- What is joined to an option in one word: nothing, a value behind an equals sign,
or the letters after a short option. -/
inductive Joined where
  | nothing
  | equals (value : String)
  | letters (value : String)
deriving DecidableEq, Repr

/-- A word of the command line. -/
inductive Word where
  | operand (text : String)
  | separator
  | option (flag : Flag) (isLong : Bool) (joined : Joined)
  | unknown
deriving DecidableEq, Repr

/-- The part before the first equals sign, and the part behind it if there is one. -/
def splitEquals (word : String) : String × Option String :=
  let chars := word.toList
  let before := chars.takeWhile (· ≠ '=')
  match chars.drop before.length with
  | [] => (word, none)
  | _ :: after => (String.ofList before, some (String.ofList after))

def isLong (spelling : String) : Bool :=
  spelling.startsWith "--"

/-- Digits, with or without a point among or before them, behind a minus. -/
def isNegativeNumber (word : String) : Bool :=
  match word.toList with
  | '-' :: rest =>
      let rest := if rest.getLast? = some '\n' then rest.dropLast else rest
      let isDigit := fun c => (digitValue? c).isSome
      let whole := rest.takeWhile isDigit
      match rest.drop whole.length with
      | [] => !whole.isEmpty
      | '.' :: fraction => !fraction.isEmpty && fraction.all isDigit
      | _ => false
  | _ => false

/-- The options that a word may stand for without being spelled out. -/
def shortened (word : String) : List (Flag × Bool × Joined) :=
  if isLong word then
    let (start, value) := splitEquals word
    let joined := match value with
      | none => Joined.nothing
      | some value => .equals value
    (spellings.filter fun entry => entry.1.startsWith start).map fun entry =>
      (entry.2, true, joined)
  else
    let chars := word.toList
    let short := String.ofList (chars.take 2)
    spellings.filterMap fun entry =>
      if entry.1 == short then
        some (entry.2, false, .letters (String.ofList (chars.drop 2)))
      else if entry.1.startsWith word then some (entry.2, isLong entry.1, .nothing)
      else none

/-- A word on its own; `none` when it is an ambiguous option. -/
def classify (word : String) : Option Word :=
  match word.toList with
  | '-' :: _ :: _ =>
      let (start, value) := splitEquals word
      match flag? word, flag? start, value with
      | some flag, _, _ => some (.option flag (isLong word) .nothing)
      | none, some flag, some value => some (.option flag (isLong start) (.equals value))
      | _, _, _ =>
          match shortened word with
          | [(flag, long, joined)] => some (.option flag long joined)
          | _ :: _ :: _ => none
          | [] =>
              if isNegativeNumber word || word.toList.contains ' ' then
                some (.operand word)
              else some .unknown
  | _ => some (.operand word)

/-- The words of a command line. -/
def words : List String → Option (List Word)
  | [] => some []
  | "--" :: rest => some (.separator :: rest.map .operand)
  | word :: rest => do
      let first ← classify word
      let later ← words rest
      return first :: later

/-- What a command line asks for. -/
structure Invocation where
  problem : String
  input : Option String
  method : Option String
  describe : Bool
  limit : Int
  tolerance : Float
  verbose : Bool

/-- How a command line is understood. -/
inductive Parsed where
  | run (invocation : Invocation)
  | help
  | rejected

/-- The options read so far, the operand if it has come, and whether some words had
no use. -/
structure State where
  invocation : Invocation
  found : Bool
  unused : Bool

/-- How reading goes on after an option. -/
inductive Step where
  | next (state : State)
  | help
  | rejected

/-- Sets an option that takes no value. -/
def State.set (state : State) : Flag → Step
  | .help => .help
  | .describe => .next { state with invocation.describe := true }
  | .verbose => .next { state with invocation.verbose := true }
  | _ => .rejected

/-- Sets an option to a value. -/
def State.assign (state : State) (flag : Flag) (value : String) : Step :=
  match flag with
  | .input => .next { state with invocation.input := some value }
  | .method => .next { state with invocation.method := some value }
  | .limit =>
      match Numeral.integer value with
      | .ok n => .next { state with invocation.limit := n }
      | .error _ => .rejected
  | .tolerance =>
      match Numeral.real value with
      | .ok x => .next { state with invocation.tolerance := x }
      | .error _ => .rejected
  | _ => .rejected

/-- What a bundle of short options amounts to: options without a value, then either
nothing more, an option with or without a joined value, or letters of no use. -/
inductive Bundle where
  | closed (flags : List Flag)
  | valued (flags : List Flag) (flag : Flag) (value : String)
  | pending (flags : List Flag) (flag : Flag)
  | leftover (flags : List Flag)
  | malformed

def Bundle.push (flag : Flag) : Bundle → Bundle
  | closed flags => closed (flag :: flags)
  | valued flags last value => valued (flag :: flags) last value
  | pending flags last => pending (flag :: flags) last
  | leftover flags => leftover (flag :: flags)
  | malformed => malformed

/-- Takes an option with the letters joined to it apart. -/
def bundle (flag : Flag) : List Char → Bundle
  | [] => if flag.takesValue then .pending [] flag else .closed [flag]
  | letter :: rest =>
      if flag.takesValue then .valued [] flag (String.ofList (letter :: rest))
      else if letter = '-' then .malformed
      else
        match flag? (String.ofList ['-', letter]) with
        | none => .leftover [flag]
        | some next =>
            match rest with
            | '=' :: value =>
                if next.takesValue then .valued [flag] next (String.ofList value)
                else .malformed
            | _ => (bundle next rest).push flag

/-- An option with what is joined to it. -/
def bundleOf (flag : Flag) (isLong : Bool) : Joined → Bundle
  | .nothing => if flag.takesValue then .pending [] flag else .closed [flag]
  | .equals value =>
      if flag.takesValue then .valued [] flag value else .malformed
  | .letters value =>
      if isLong then .malformed else bundle flag value.toList

/-- Sets options without a value one after the other. -/
def State.setAll (state : State) : List Flag → Step
  | [] => .next state
  | flag :: rest =>
      match state.set flag with
      | .next state => state.setAll rest
      | stop => stop

def finish (state : State) : Parsed :=
  if state.found && !state.unused then .run state.invocation else .rejected

/-- Reads the words from left to right. -/
def parseWords : List Word → State → Parsed
  | [], state => finish state
  | .operand text :: .separator :: rest, state =>
      if state.found then parseWords rest { state with unused := true }
      else parseWords rest { state with invocation.problem := text, found := true }
  | .operand text :: rest, state =>
      if state.found then parseWords rest { state with unused := true }
      else parseWords rest { state with invocation.problem := text, found := true }
  | .separator :: .operand text :: rest, state =>
      if state.found then parseWords rest { state with unused := true }
      else parseWords rest { state with invocation.problem := text, found := true }
  | .separator :: rest, state => parseWords rest { state with unused := true }
  | .unknown :: rest, state => parseWords rest { state with unused := true }
  | .option flag long joined :: rest, state =>
      match bundleOf flag long joined with
      | .malformed => .rejected
      | .closed flags =>
          match state.setAll flags with
          | .next state => parseWords rest state
          | .help => .help
          | .rejected => .rejected
      | .leftover flags =>
          match state.setAll flags with
          | .next state => parseWords rest { state with unused := true }
          | .help => .help
          | .rejected => .rejected
      | .valued flags last value =>
          match state.setAll flags with
          | .next state =>
              match state.assign last value with
              | .next state => parseWords rest state
              | .help => .help
              | .rejected => .rejected
          | .help => .help
          | .rejected => .rejected
      | .pending flags last =>
          match rest with
          | .operand value :: rest =>
              match state.setAll flags with
              | .next state =>
                  match state.assign last value with
                  | .next state => parseWords rest state
                  | .help => .help
                  | .rejected => .rejected
              | .help => .help
              | .rejected => .rejected
          | _ => .rejected

/-- Reads a command line, starting from the values that hold when an option is left
out. -/
def parse (arguments : List String) (limit : Int) (tolerance : Float) : Parsed :=
  match words arguments with
  | none => .rejected
  | some words =>
      parseWords words
        { invocation := { problem := "", input := none, method := none, describe := false,
                          limit, tolerance, verbose := false }
          found := false, unused := false }

end OptimalPlans.CommandLine
